import Std.Data.TreeMap.Lemmas

/-! Elements that have been given numbers, from `0` on and in the order in which they came. The
elements stand in an array at their numbers, and a search tree beside it leads from an element back
to its number. The tree is bound to agree with the array, so everything that can be asked of a
numbering is a fact about its array. -/

namespace ShiftReduce

/-- Different elements, each with a number. -/
structure Numbering (α : Type) [Ord α] where
  elems : Array α
  numbers : Std.TreeMap α Nat
  /-- An element has the number at which it stands. -/
  numbers_iff : ∀ (a : α) (n : Nat), numbers[a]? = some n ↔ elems[n]? = some a

namespace Numbering

variable {α : Type} [Ord α]

def toList (s : Numbering α) : List α := s.elems.toList

theorem length_toList (s : Numbering α) : s.toList.length = s.elems.size := Array.length_toList

def size (s : Numbering α) : Nat := s.elems.size

def number? (s : Numbering α) (a : α) : Option Nat := s.numbers[a]?

def contains (s : Numbering α) (a : α) : Bool := (s.number? a).isSome

instance : Membership α (Numbering α) where
  mem s a := a ∈ s.elems

theorem mem_def {s : Numbering α} {a : α} : a ∈ s ↔ a ∈ s.elems := Iff.rfl

theorem number?_eq_some_iff {s : Numbering α} {a : α} {n : Nat} :
    s.number? a = some n ↔ s.elems[n]? = some a := s.numbers_iff a n

theorem contains_iff {s : Numbering α} {a : α} : s.contains a ↔ a ∈ s := by
  rw [contains, Option.isSome_iff_exists, mem_def, Array.mem_iff_getElem?]
  exact exists_congr fun n => s.numbers_iff a n

instance (s : Numbering α) (a : α) : Decidable (a ∈ s) := decidable_of_iff _ contains_iff

/-- No element has two numbers. -/
theorem eq_of_getElem?_eq {s : Numbering α} {a : α} {m n : Nat} (hm : s.elems[m]? = some a)
    (hn : s.elems[n]? = some a) : m = n :=
  Option.some.inj (((s.numbers_iff a m).mpr hm).symm.trans ((s.numbers_iff a n).mpr hn))

variable [Std.TransOrd α]

def empty : Numbering α where
  elems := #[]
  numbers := ∅
  numbers_iff := by simp

variable [Std.LawfulEqOrd α]

/-- Gives the next number to an element, unless it has one already. -/
def add (s : Numbering α) (a : α) : Numbering α :=
  if h : a ∈ s then s
  else
    { elems := s.elems.push a
      numbers := s.numbers.insert a s.elems.size
      numbers_iff := by
        intro b n
        have hna : s.elems[n]? ≠ some a := fun hn => h (Array.mem_of_getElem? hn)
        rw [Std.TreeMap.getElem?_insert, Array.getElem?_push]
        by_cases hab : compare a b = .eq
        · obtain rfl := Std.LawfulEqOrd.eq_of_compare hab
          rw [if_pos hab, Option.some.injEq]
          split
          · simp [*]
          · simp [hna, Ne.symm ‹_›]
        · have hne : a ≠ b := fun hab' => hab (hab' ▸ Std.ReflOrd.compare_self)
          rw [if_neg hab, s.numbers_iff b n]
          split
          · subst n
            simp [hne]
          · rfl }

/-- The numbering of the elements of a list, in the order in which they first occur. -/
def ofList (l : List α) : Numbering α := l.foldl add empty

omit [Std.LawfulEqOrd α] in
@[simp] theorem not_mem_empty {a : α} : a ∉ (empty : Numbering α) := Array.not_mem_empty a

theorem elems_add {s : Numbering α} {a : α} :
    (s.add a).elems = if a ∈ s then s.elems else s.elems.push a := by
  unfold add
  split <;> rfl

theorem add_of_mem {s : Numbering α} {a : α} (h : a ∈ s) : s.add a = s := dif_pos h

theorem mem_add {s : Numbering α} {a b : α} : b ∈ s.add a ↔ b ∈ s ∨ b = a := by
  rw [mem_def, elems_add]
  split
  · constructor
    · exact Or.inl
    · rintro (h | rfl)
      · exact h
      · assumption
  · exact Array.mem_push

theorem mem_foldl_add {l : List α} {s : Numbering α} {b : α} :
    b ∈ l.foldl add s ↔ b ∈ s ∨ b ∈ l := by
  induction l generalizing s with
  | nil => simp
  | cons a l ih => simp [ih, mem_add, or_assoc]

theorem toList_add {s : Numbering α} {a : α} :
    (s.add a).toList = if a ∈ s then s.toList else s.toList ++ [a] := by
  unfold toList
  rw [elems_add]
  split
  · rfl
  · exact Array.toList_push

theorem foldl_add_of_subset {l : List α} {s : Numbering α} (h : ∀ a ∈ l, a ∈ s) :
    l.foldl add s = s := by
  induction l with
  | nil => rfl
  | cons a l ih =>
      rw [List.foldl_cons, add_of_mem (h a List.mem_cons_self)]
      exact ih fun b hb => h b (List.mem_cons_of_mem a hb)

/-- Numbers stay as they are when more elements get theirs. -/
theorem getElem?_foldl_add {l : List α} {s : Numbering α} {a : α} {n : Nat}
    (h : s.elems[n]? = some a) : (l.foldl add s).elems[n]? = some a := by
  induction l generalizing s with
  | nil => exact h
  | cons b l ih =>
      refine ih ?_
      rw [elems_add]
      split
      · exact h
      · rw [Array.getElem?_push, if_neg (Nat.ne_of_lt (Array.getElem?_eq_some_iff.mp h).1)]
        exact h

@[simp] theorem mem_ofList {l : List α} {a : α} : a ∈ ofList l ↔ a ∈ l := by
  rw [ofList, mem_foldl_add]
  simp

theorem toList_foldl_add {l : List α} {s : Numbering α} (hl : l.Nodup) (hs : ∀ a ∈ l, a ∉ s) :
    (l.foldl add s).toList = s.toList ++ l := by
  induction l generalizing s with
  | nil => rw [List.foldl_nil, List.append_nil]
  | cons a l ih =>
      obtain ⟨ha, hl⟩ := List.nodup_cons.mp hl
      have hnew : ∀ b ∈ l, b ∉ s.add a := by
        intro b hb hmem
        rcases mem_add.mp hmem with hmem | rfl
        · exact hs b (List.mem_cons_of_mem a hb) hmem
        · exact ha hb
      rw [List.foldl_cons, ih hl hnew, toList_add, if_neg (hs a List.mem_cons_self), List.append_assoc]
      rfl

/-- Different elements are numbered as they are listed. -/
theorem toList_ofList {l : List α} (hl : l.Nodup) : (ofList l).toList = l :=
  toList_foldl_add hl fun _ _ => not_mem_empty

end Numbering

end ShiftReduce
