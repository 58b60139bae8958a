import ShiftReduce.Item

/-! What a parser does in a state on a symbol, and the table of it. An entry that has been written
stays: writing something else to it later is a conflict, which leaves the table as it is. -/

namespace ShiftReduce

/-- What to do in a state on a symbol. Actions are ordered by kind and then by target. -/
inductive Action where
  /-- Consume the symbol and go to a state. -/
  | shift (target : StateId)
  /-- Go to a state after a reduction to the symbol. -/
  | goto (target : StateId)
  | reduce (rule : RuleId)
  | accept
deriving DecidableEq, Repr, Ord

namespace Action

def kindName : Action → String
  | shift _ => "shift"
  | goto _ => "goto"
  | reduce _ => "reduce"
  | accept => "accept"

/-- The state or the rule that the action names; accepting names none. -/
def target : Action → Nat
  | shift s => s
  | goto s => s
  | reduce r => r
  | accept => 0

def text : Action → String
  | shift s => s!"s{s}"
  | goto s => s!"g{s}"
  | reduce r => s!"r{r}"
  | accept => "acc"

end Action

/-- Two actions that are demanded for one state and symbol. The one that came first is kept. -/
structure Conflict where
  state : StateId
  symbol : Symbol
  existing : Action
  rejected : Action
deriving DecidableEq, Repr, Ord

inductive ConflictKind where
  | shiftReduce
  | reduceReduce
  /-- Any other pair, such as two shifts. -/
  | other
deriving DecidableEq, Repr

def ConflictKind.text : ConflictKind → String
  | shiftReduce => "Shift-reduce"
  | reduceReduce => "Reduce-reduce"
  | other => "Action"

namespace Conflict

/-- The kind of a conflict, whichever of its actions came first. -/
def kind (c : Conflict) : ConflictKind :=
  match c.existing, c.rejected with
  | .shift _, .reduce _ => .shiftReduce
  | .reduce _, .shift _ => .shiftReduce
  | .reduce _, .reduce _ => .reduceReduce
  | _, _ => .other

/-- The conflict in writing, with the symbol written as given. -/
def textWith (symbol : String) (c : Conflict) : String :=
  s!"{c.kind.text} conflict in state {c.state} on {symbol}: keeping {c.existing.text}, " ++
    s!"rejecting {c.rejected.text}"

def text (c : Conflict) : String := c.textWith c.symbol.text

/-- The conflict in writing, with the label of the symbol if it has one. -/
def describe (g : Grammar) (c : Conflict) : String :=
  let label := if c.symbol < g.symbolCount then g.label c.symbol else c.symbol.text
  c.textWith s!"`{label}`"

end Conflict

/-- The actions of one state, in ascending order of their symbols. -/
abbrev Row := List (Symbol × Action)

/-- Puts an action in its place of a row. -/
def Row.insert (s : Symbol) (a : Action) : Row → Row
  | [] => [(s, a)]
  | (t, b) :: row => if s < t then (s, a) :: (t, b) :: row else (t, b) :: Row.insert s a row

/-- The rows of the states `0`, `1` and so on. -/
structure ActionTable where
  rows : Array Row
deriving DecidableEq, Repr

namespace ActionTable

/-- The table in which `count` states have no action yet. -/
def ofStates (count : Nat) : ActionTable := ⟨Array.replicate count []⟩

/-- The table with rows for all states up to `s`. -/
def extendTo (t : ActionTable) (s : StateId) : ActionTable :=
  ⟨t.rows ++ Array.replicate (s + 1 - t.rows.size) []⟩

def get? (t : ActionTable) (s : StateId) (x : Symbol) : Option Action :=
  t.rows[s]?.bind (·.lookup x)

/-- Writes an action unless the entry is taken, and answers with the conflict if it is taken by another
action. A state without a row gets one, and so do the states before it. -/
def put (t : ActionTable) (s : StateId) (x : Symbol) (a : Action) : Except Conflict Unit × ActionTable :=
  let t := t.extendTo s
  match t.get? s x with
  | some existing => (if existing = a then .ok () else .error ⟨s, x, existing, a⟩, t)
  | none => (.ok (), ⟨t.rows.modify s (Row.insert x a)⟩)

/-- The table that is left by a write, unless it comes to a conflict. -/
def set (t : ActionTable) (s : StateId) (x : Symbol) (a : Action) : Except Conflict ActionTable :=
  match t.put s x a with
  | (.ok (), t) => .ok t
  | (.error c, _) => .error c

def row? (t : ActionTable) (s : StateId) : Option Row := t.rows[s]?

/-- The number of states that have a row. -/
def stateCount (t : ActionTable) : Nat := t.rows.size

def size (t : ActionTable) : Nat := t.rows.foldl (fun n row => n + row.length) 0

def isEmpty (t : ActionTable) : Bool := t.size == 0

end ActionTable

end ShiftReduce
