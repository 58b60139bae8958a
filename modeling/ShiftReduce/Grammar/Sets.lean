import ShiftReduce.Grammar.Basic
import ShiftReduce.Grouping
import ShiftReduce.Search

/-! Which symbols of a list of rules derive the empty string, which terminals can come first in what
a symbol derives, and which can come right after it. Emptiness spreads from rule to rule. The other
two are searches: a terminal comes first for `A` if it is reached from `A` by stepping from a
left-hand side to a symbol that only symbols deriving the empty string precede, and what follows `B`
is what directly follows some left-hand side reached from `B` by stepping up from the end of a
right-hand side. The steps are gathered from the rules once, as pairs of symbols. -/

namespace ShiftReduce

namespace Sets

/-! ### Symbols that derive the empty string -/

/-- Whether the left-hand side is not yet known to derive the empty string although every symbol of
the right-hand side is. -/
def vanishes (known : Numbering Symbol) (r : Rule) : Bool :=
  !known.contains r.lhs && r.rhs.all known.contains

/-- Adds to the symbols known to derive the empty string the left-hand sides of the rules that show
it of them, as long as there are such rules. -/
def nullableFrom (rules : List Rule) (known : Numbering Symbol) : Numbering Symbol :=
  match _h : rules.filter (vanishes known) with
  | [] => known
  | r :: l => nullableFrom rules (((r :: l).map (·.lhs)).foldl .add known)
termination_by rules.countP fun r => !known.contains r.lhs
decreasing_by
  have hr : r ∈ rules.filter (vanishes known) := _h ▸ List.mem_cons_self
  obtain ⟨hr, hvanishes⟩ := List.mem_filter.mp hr
  simp only [vanishes, Bool.and_eq_true] at hvanishes
  refine countP_lt_countP ?_ hr hvanishes.1 ?_
  · intro a _ ha
    simp only [Bool.not_eq_true', Bool.eq_false_iff, ne_eq, Numbering.contains_iff,
      Numbering.mem_foldl_add, not_or] at ha ⊢
    exact ha.1
  · simp [Numbering.contains_iff, Numbering.mem_foldl_add, Numbering.mem_add]

def nullable (rules : List Rule) : Numbering Symbol := nullableFrom rules .empty

/-! ### Steps from symbol to symbol -/

/-- The symbols of a string that only nullable ones precede. -/
def leading (nullable : Symbol → Bool) : List Symbol → List Symbol
  | [] => []
  | s :: l => s :: if nullable s then leading nullable l else []

/-- The symbols of a string, each with what stands after it. -/
def splits : List Symbol → List (Symbol × List Symbol)
  | [] => []
  | s :: l => (s, l) :: splits l

/-- Each left-hand side with the symbols that can come first after its rule has been applied. -/
def begins (nullable : Symbol → Bool) (rules : List Rule) : List (Symbol × Symbol) :=
  rules.flatMap fun r => (leading nullable r.rhs).map fun s => (r.lhs, s)

/-- Each symbol that stands at the end of a right-hand side, or before symbols that are all nullable,
with the left-hand side. What follows the left-hand side follows the symbol as well. -/
def ends (nullable : Symbol → Bool) (rules : List Rule) : List (Symbol × Symbol) :=
  rules.flatMap fun r =>
    ((splits r.rhs).filter fun p => p.2.all nullable).map fun p => (p.1, r.lhs)

/-- Each symbol with those that can come next in the right-hand side of a rule. -/
def nexts (nullable : Symbol → Bool) (rules : List Rule) : List (Symbol × Symbol) :=
  rules.flatMap fun r =>
    (splits r.rhs).flatMap fun p => (leading nullable p.2).map fun s => (p.1, s)

theorem finiteRange_get (steps : Grouping Symbol) : FiniteRange steps.get := by
  refine ⟨steps.rows.toList.flatten, ?_⟩
  intro s t ht
  unfold Grouping.get at ht
  cases h : steps.rows[s]? with
  | none => simp [h] at ht
  | some l =>
      rw [h, Option.getD_some] at ht
      exact List.mem_flatten.mpr ⟨l, by simpa using Array.mem_of_getElem? h, ht⟩

def reached (steps : Grouping Symbol) (s : Symbol) : List Symbol :=
  reach steps.get (finiteRange_get steps) [s]

/-! ### The sets -/

/-- The terminals that can come first in what `s` derives. A terminal comes first in itself. -/
def first (begins : Grouping Symbol) (isTerminal : Symbol → Bool) (s : Symbol) : SymbolSet :=
  .ofList ((reached begins s).filter isTerminal)

/-- The terminals that can follow `s`, and the end symbol if `s` can end what the start symbol derives. -/
def follow (ends nexts : Grouping Symbol) (first : Symbol → SymbolSet) (start endSymbol : Symbol)
    (s : Symbol) : SymbolSet :=
  let above := reached ends s
  let next := Numbering.ofList (above.flatMap nexts.get)
  .ofList ((if start ∈ above then [endSymbol] else []) ++
    next.toList.flatMap fun t => (first t).toList)

end Sets

end ShiftReduce
