import ShiftReduce.Loop
import ShiftReduce.Recognizer.Guard

/-! Runs of the guarded machine. A run takes turns until it halts. One that never halts has no verdict,
which takes a table that shifts the end of the input. -/

namespace ShiftReduce

/-- A machine and its guard at the beginning of a turn. -/
structure Round where
  config : Configuration
  guard : Guard

namespace Round

def ofInput (input : TokenStream) : Round := ⟨.ofInput input, .fresh⟩

/-- Takes a turn: the next one, or the verdict. A stuck run is reported where it stood before its
last reduction. -/
def step (g : Grammar) (t : ParseTable) (r : Round) : Round ⊕ Verdict :=
  match r.config.turn g t with
  | .halt v => .inr v
  | .move m =>
    match r.guard.after? t.automaton.size m with
    | some guard => .inl ⟨r.config.apply m, guard⟩
    | none => .inr (.error (.malformedTable r.config.top r.config.symbol))

/-- The verdict of a run, if it halts. -/
def verdict? (g : Grammar) (t : ParseTable) (r : Round) : Option Verdict := loop (step g t) r

/-- The machine at the beginning of each turn of a run, if the run halts. -/
def configurations? (g : Grammar) (t : ParseTable) (r : Round) : Option (List Configuration) :=
  loop (fun (r, earlier) =>
    match r.step g t with
    | .inl next => .inl (next, r.config :: earlier)
    | .inr _ => .inr (r.config :: earlier).reverse) (r, [])

end Round

/-- Whether the machine accepts an input, and by which reductions. A run that does not halt counts as
endless, but whoever waits for it gets no answer. -/
def recognize (g : Grammar) (t : ParseTable) (input : TokenStream) : Verdict :=
  ((Round.ofInput input).verdict? g t).getD (.error .endless)

def recognizeLog (g : Grammar) (t : ParseTable) (input : TokenStream) : List LogRecord :=
  (((Round.ofInput input).configurations? g t).getD []).flatMap (Configuration.records t)

end ShiftReduce
