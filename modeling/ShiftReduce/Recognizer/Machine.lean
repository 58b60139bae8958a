import ShiftReduce.ParseTable
import ShiftReduce.Recognizer.TokenStream

/-! The shift-reduce machine. It keeps a stack of states and reads a token stream. In each turn the
table tells it, for the state on top and the current symbol, to shift, to reduce, or to accept. The
grammar and the table need not belong together, so a reduction may turn out to be impossible. -/

namespace ShiftReduce

/-- Why an input was not accepted. -/
inductive ParseError where
  | unexpected (token : Token) (state : StateId)
  | malformedTable (state : StateId) (symbol : Symbol)
  /-- The table shifts the end of the input again and again, so the run never ends. -/
  | endless
deriving DecidableEq, Repr

def ParseError.message : ParseError → String
  | unexpected token state =>
    s!"Parse error: did not expect {token.symbol.text} in state {state} at " ++
      s!"{token.start}..{token.stop}"
  | malformedTable state symbol =>
    s!"Malformed parse table: no way to continue from state {state} on {symbol.text}"
  | endless => "Malformed parse table: the end of the input is shifted without end"

/-- How a run ends: with the rules of its reductions, in order, or with an error. -/
abbrev Verdict := Except ParseError (List RuleId)

def startState : StateId := 0

/-- A machine at the beginning of a turn. -/
structure Configuration where
  /-- The states, the top one first. -/
  stack : List StateId
  input : TokenStream
  /-- The rules reduced by so far, the latest first. -/
  reductions : List RuleId
deriving DecidableEq, Repr

/-- A change of the stack. -/
inductive Move where
  /-- The current token is passed over, and a state goes onto the stack. -/
  | shift (target : StateId)
  /-- Some states leave the stack, and then one goes onto it. -/
  | reduce (rule : RuleId) (popped : Nat) (target : StateId)
deriving DecidableEq, Repr

inductive Turn where
  | move (m : Move)
  | halt (v : Verdict)

namespace Configuration

def ofInput (input : TokenStream) : Configuration := ⟨[startState], input, []⟩

/-- The state on top. The stack of a run is never empty. -/
def top (c : Configuration) : StateId := c.stack.headD startState

def symbol (c : Configuration) : Symbol := c.input.head.symbol

/-- The reduction by a rule: its right-hand side leaves the stack, which must keep at least one
state, and the state that comes to light must have a goto on the left-hand side. -/
def reduction (g : Grammar) (t : ParseTable) (c : Configuration) (r : RuleId) : Turn :=
  match g.rule? r with
  | none => .halt (.error (.malformedTable c.top c.symbol))
  | some rule =>
    match c.stack.drop rule.rhs.length with
    | [] => .halt (.error (.malformedTable c.top c.symbol))
    | exposed :: _ =>
      match t.action? exposed rule.lhs with
      | some (.goto target) => .move (.reduce r rule.rhs.length target)
      | _ => .halt (.error (.malformedTable exposed rule.lhs))

/-- What the table says about the next turn. -/
def turn (g : Grammar) (t : ParseTable) (c : Configuration) : Turn :=
  match t.action? c.top c.symbol with
  | some (.shift target) => .move (.shift target)
  | some (.reduce r) => c.reduction g t r
  | some .accept => .halt (.ok c.reductions.reverse)
  | some (.goto _) | none => .halt (.error (.unexpected c.input.head c.top))

def apply (c : Configuration) : Move → Configuration
  | .shift target => { c with stack := target :: c.stack, input := c.input.advance }
  | .reduce r popped target =>
    { c with stack := target :: c.stack.drop popped, reductions := r :: c.reductions }

/-- What is recorded of a turn: the stack from the bottom up, and the action unless it is an error. -/
def records (t : ParseTable) (c : Configuration) : List LogRecord :=
  let states := ", ".intercalate (c.stack.reverse.map toString)
  let action :=
    match t.action? c.top c.symbol with
    | some (.shift target) => [s!"shift {target}"]
    | some (.reduce r) => [s!"reduce {r}"]
    | some .accept => ["accept"]
    | _ => []
  (s!"stack = [{states}]" :: action).map (LogRecord.mk .trace)

end Configuration

end ShiftReduce
