import ShiftReduce.Action
import ShiftReduce.Automaton
import ShiftReduce.Log

/-! The parse table of a grammar. Each state of the automaton demands actions: shifts and gotos for
its transitions, and for its completed items a reduction on every symbol that can follow the
left-hand side, or acceptance at the end of the input. The demands are met in turn, so of two demands
for one entry the first is met and the second is recorded as a conflict. -/

namespace ShiftReduce

/-- An action that is wanted for a state and a symbol. -/
structure Demand where
  state : StateId
  symbol : Symbol
  action : Action
deriving DecidableEq, Repr

/-- The automaton with its actions and the conflicts that came up. -/
structure ParseTable where
  automaton : Automaton
  actions : ActionTable
  /-- The conflicts in the order in which they came up. -/
  conflicts : Array Conflict

namespace ParseTable

/-! ### What the states demand -/

/-- The action for the transition of a state over a symbol, or the reason why it has no target. There
is none where the state has no such transition. A kernel that is not in the automaton is closed only to
tell what is wrong with it. -/
def transitionDemand? (g : Grammar) (a : Automaton) (source : StateId) (moves : List (Symbol × Item))
    (action : StateId → Action) (s : Symbol) : Option (Except TableError Demand) :=
  match kernelOver? moves s with
  | none => none
  | some k =>
    match a.kernels.number? k with
    | some t => some (.ok ⟨source, s, action t⟩)
    | none =>
      match closure g k.toList with
      | .error e => some (.error e)
      | .ok _ => some (.error (.missingState source s))

/-- The actions for a completed item, or the reason why they cannot be told. An item that expects a
symbol demands nothing. -/
def itemDemands (g : Grammar) (source : StateId) (i : Item) : List (Except TableError Demand) :=
  match i.readRule g with
  | .error e => [.error e]
  | .ok rule =>
    if i.dot ≠ rule.rhs.length then []
    else if rule.lhs = g.startSymbol then [.ok ⟨source, g.endSymbol, .accept⟩]
    else
      match g.follow? rule.lhs with
      | none => [.error (.unknownSymbol rule.lhs)]
      | some follow => follow.toList.map fun s => .ok ⟨source, s, .reduce i.rule⟩

/-- The actions of a state: first its shifts, then its gotos, then those of its completed items. -/
def stateDemands (g : Grammar) (a : Automaton) (source : StateId) (items : ItemSet) :
    List (Except TableError Demand) :=
  let m := moves g items
  g.terminals.filterMap (transitionDemand? g a source m .shift) ++
    g.nonterminals.filterMap (transitionDemand? g a source m .goto) ++
    items.toList.flatMap (itemDemands g source)

def demands (g : Grammar) (a : Automaton) : List (Except TableError Demand) :=
  a.states.toList.zipIdx.flatMap fun (items, source) => stateDemands g a source items

/-- The results of a list up to the first failure. -/
def resultsBeforeFailure {ε α : Type} (l : List (Except ε α)) : List α :=
  (l.takeWhile (·.isOk)).filterMap (·.toOption)

def firstFailure? {ε α : Type} : List (Except ε α) → Option ε
  | [] => none
  | .ok _ :: l => firstFailure? l
  | .error e :: _ => some e

/-! ### Meeting the demands -/

/-- Meets a demand, or records the conflict. -/
def meet (t : ParseTable) (d : Demand) : ParseTable :=
  match t.actions.set d.state d.symbol d.action with
  | .ok actions => { t with actions }
  | .error c => { t with conflicts := t.conflicts.push c }

/-- Meets demands in turn, beginning with an empty table. -/
def fill (a : Automaton) (l : List Demand) : ParseTable :=
  l.foldl meet ⟨a, .ofStates a.size, #[]⟩

def ofGrammar (g : Grammar) : Except TableError ParseTable :=
  match Automaton.ofGrammar g with
  | .error e => .error e
  | .ok a =>
    let all := demands g a
    match firstFailure? all with
    | some e => .error e
    | none => .ok (fill a (resultsBeforeFailure all))

def action? (t : ParseTable) (s : StateId) (x : Symbol) : Option Action := t.actions.get? s x

/-- Whether no two actions compete anywhere. -/
def isConflictFree (t : ParseTable) : Bool := t.conflicts.isEmpty

/-! ### The records of the construction -/

/-- What is recorded while the table of a grammar is made, also if that fails: the states as they are
found, and the conflicts as they come up. -/
def log (g : Grammar) : List LogRecord :=
  let search := Automaton.discover g
  let found := (Automaton.arrivals g search).map fun r =>
    LogRecord.mk .trace s!"state {r.state} discovered from state {r.source} on `{g.label r.symbol}`"
  match search.fault? with
  | some _ => found
  | none =>
    let a : Automaton := ⟨search.found, search.visited⟩
    let all := demands g a
    let t := fill a (resultsBeforeFailure all)
    let count := LogRecord.mk .debug s!"canonical collection has {a.size} states"
    let conflicts := t.conflicts.toList.map fun c => LogRecord.mk .warn s!"not LR(0): {c.describe g}"
    let summary := LogRecord.mk .debug
      (s!"parse table has {a.size} states, {t.actions.size} actions and " ++
        s!"{t.conflicts.size} conflicts")
    found ++ count :: conflicts ++ (if (firstFailure? all).isSome then [] else [summary])

end ParseTable

end ShiftReduce
