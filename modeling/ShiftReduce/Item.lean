import ShiftReduce.Grammar.Basic

/-! Items: a rule with a dot in its right-hand side. What stands before the dot has been seen, and
the symbol right after it is expected next. An item is only a pair of numbers, so its rule may not
exist and its dot may lie past the end; whoever reads the rule through an item finds out. Items are
ordered by rule first and by the place of the dot second. -/

namespace ShiftReduce

abbrev StateId := Nat

/-- A rule with a dot before one of its symbols, or at the end. -/
structure Item where
  rule : RuleId
  /-- The number of symbols before the dot. -/
  dot : Nat
deriving DecidableEq, Repr

/-- Why no table can be made of a grammar. -/
inductive TableError where
  | unknownRule (rule : RuleId)
  /-- The symbol has no label, or no FOLLOW set although one of its rules is to be reduced. -/
  | unknownSymbol (symbol : Symbol)
  | dotOutOfBounds (item : Item)
  /-- A transition leads out of the automaton. -/
  | missingState (source : StateId) (symbol : Symbol)
deriving DecidableEq, Repr

namespace Item

def text (i : Item) : String := s!"({i.rule}, {i.dot})"

instance : LE Item where
  le a b := a.rule < b.rule ∨ a.rule = b.rule ∧ a.dot ≤ b.dot

instance : LT Item where
  lt a b := a.rule < b.rule ∨ a.rule = b.rule ∧ a.dot < b.dot

theorem le_def {a b : Item} : a ≤ b ↔ a.rule < b.rule ∨ a.rule = b.rule ∧ a.dot ≤ b.dot := Iff.rfl

theorem lt_def {a b : Item} : a < b ↔ a.rule < b.rule ∨ a.rule = b.rule ∧ a.dot < b.dot := Iff.rfl

instance : DecidableLE Item := fun a b =>
  inferInstanceAs (Decidable (a.rule < b.rule ∨ a.rule = b.rule ∧ a.dot ≤ b.dot))

instance : DecidableLT Item := fun a b =>
  inferInstanceAs (Decidable (a.rule < b.rule ∨ a.rule = b.rule ∧ a.dot < b.dot))

instance : Std.IsLinearOrder Item where
  le_refl a := by rw [le_def]; lia
  le_trans a b c := by simp only [le_def]; lia
  le_antisymm := by
    rintro ⟨r, p⟩ ⟨r', p'⟩
    simp only [le_def, Item.mk.injEq]
    lia
  le_total a b := by simp only [le_def]; lia

instance : Std.LawfulOrderLT Item where
  lt_iff a b := by simp only [le_def, lt_def]; lia

instance : Ord Item where
  compare a b := (compare a.rule b.rule).then (compare a.dot b.dot)

theorem compare_def {a b : Item} :
    compare a b = (compare a.rule b.rule).then (compare a.dot b.dot) := rfl

theorem isLE_compare_iff {a b : Item} : (compare a b).isLE ↔ a ≤ b := by
  rw [compare_def, Ordering.isLE_then_iff_and, Nat.isLE_compare, Nat.compare_eq_lt, Nat.isLE_compare,
    le_def]
  lia

instance : Std.LawfulOrderOrd Item where
  isLE_compare a b := isLE_compare_iff
  isGE_compare a b := by
    rw [← isLE_compare_iff, compare_def, compare_def, ← Nat.compare_swap b.rule, ← Nat.compare_swap b.dot,
      ← Ordering.swap_then, Ordering.isGE_swap]

/-- What is wrong with an item: it has no rule, or its dot lies past the end of the rule. -/
def fault? (g : Grammar) (i : Item) : Option TableError :=
  match g.rule? i.rule with
  | none => some (.unknownRule i.rule)
  | some r => if r.rhs.length < i.dot then some (.dotOutOfBounds i) else none

def readRule (g : Grammar) (i : Item) : Except TableError Rule :=
  match g.rule? i.rule with
  | none => .error (.unknownRule i.rule)
  | some r => if r.rhs.length < i.dot then .error (.dotOutOfBounds i) else .ok r

/-- The symbol after the dot, unless the dot is at the end. -/
def next (g : Grammar) (i : Item) : Except TableError (Option Symbol) :=
  (i.readRule g).map (·.rhs[i.dot]?)

def isComplete (g : Grammar) (i : Item) : Except TableError Bool :=
  (i.readRule g).map (i.dot == ·.rhs.length)

/-- The symbol after the dot, where there is one. -/
def next? (g : Grammar) (i : Item) : Option Symbol :=
  (g.rule? i.rule).bind (·.rhs[i.dot]?)

def advance (i : Item) : Item := ⟨i.rule, i.dot + 1⟩

/-- The right-hand side by its labels, with the dot after `n` of them, if there are that many. -/
def dottedWords (label : Symbol → String) : Nat → List Symbol → List String
  | 0, rhs => "•" :: rhs.map label
  | _ + 1, [] => []
  | n + 1, s :: rhs => label s :: dottedWords label n rhs

/-- The rule in writing, with the dot in its place. -/
def dotted (g : Grammar) (i : Item) : String :=
  match g.rule? i.rule with
  | none => s!"<unknown rule {i.rule}>"
  | some r => " ".intercalate (g.label r.lhs :: "→" :: dottedWords g.label i.dot r.rhs)

end Item

def TableError.message : TableError → String
  | unknownRule r => s!"Rule {r} is not defined by the grammar"
  | unknownSymbol s => s!"Symbol {s.text} is not defined by the grammar"
  | dotOutOfBounds i => s!"Item {i.text} places the dot past the end of its rule"
  | missingState source s =>
    s!"Successor of state {source} on {s.text} is missing from the canonical collection"

end ShiftReduce
