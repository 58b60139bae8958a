import ShiftReduce.Proofs.Discovery

/-! Searches that are run turn by turn, without anything that promises an end. One takes up what has been found one
after the other, the other takes up all that the last round has found at once. A round is as many turns as it takes up
elements, and a turn is a step of a breadth-first search, so all three come to the same. If what is told comes from a
finite pool, a turn that finds nothing new leaves less to take up, and any other leaves less of the pool, which bounds
the number of turns and of rounds. -/

namespace ShiftReduce

/-- What a loop comes to within `n` turns, if it ends by then. -/
def within {α β : Type} (step : α → α ⊕ β) : Nat → α → Option β
  | 0, _ => none
  | n + 1, a =>
    match step a with
    | .inl next => within step n next
    | .inr b => some b

section Loops

variable {α β : Type} {step : α → α ⊕ β} {a next : α} {b : β} {n m : Nat}

theorem within_succ_of_inl (h : step a = .inl next) : within step (n + 1) a = within step n next := by
  rw [within, h]

theorem within_succ_of_inr (h : step a = .inr b) : within step (n + 1) a = some b := by
  rw [within, h]

theorem within_mono (h : within step n a = some b) (hle : n ≤ m) : within step m a = some b := by
  induction n generalizing a m with
  | zero => cases h
  | succ n ih =>
      obtain ⟨m, rfl⟩ := Nat.exists_eq_add_of_lt hle
      cases hstep : step a with
      | inl next =>
          rw [within_succ_of_inl hstep] at h ⊢
          exact ih h (Nat.le_add_right n m)
      | inr b' =>
          rw [within_succ_of_inr hstep] at h ⊢
          exact h

/-- A loop that ends does so before a number that every turn lowers has run out. -/
theorem within_of_measure {size : α → Nat} (hsize : ∀ a next, step a = .inl next → size next < size a)
    (h : within step n a = some b) : within step (size a + 1) a = some b := by
  induction n generalizing a with
  | zero => cases h
  | succ n ih =>
      cases hstep : step a with
      | inl next =>
          rw [within_succ_of_inl hstep] at h ⊢
          exact within_mono (ih h) (hsize a next hstep)
      | inr b' =>
          rw [within_succ_of_inr hstep] at h ⊢
          exact h

end Loops

/-- What the members of a list tell, one after the other, or why the first of them that fails does so. -/
def collect {ε ι α : Type} (tell : ι → Except ε (List α)) : List ι → Except ε (List α)
  | [] => .ok []
  | i :: l =>
    match tell i with
    | .error e => .error e
    | .ok told => (collect tell l).map (told ++ ·)

section Collecting

variable {ε ι α : Type} {tell : ι → Except ε (List α)} {i : ι} {l : List ι} {told : List α} {e : ε}

theorem collect_cons_of_ok (h : tell i = .ok told) : collect tell (i :: l) = (collect tell l).map (told ++ ·) := by
  rw [collect, h]

theorem collect_cons_of_error (h : tell i = .error e) : collect tell (i :: l) = .error e := by
  rw [collect, h]

theorem collect_cons_eq_ok {all : List α} (h : collect tell (i :: l) = .ok all) :
    ∃ told others, tell i = .ok told ∧ collect tell l = .ok others ∧ all = told ++ others := by
  cases htell : tell i with
  | error e => cases (collect_cons_of_error htell).symm.trans h
  | ok told =>
      rw [collect_cons_of_ok htell] at h
      cases hothers : collect tell l with
      | error e =>
          rw [hothers] at h
          cases h
      | ok others =>
          rw [hothers] at h
          exact ⟨told, others, rfl, rfl, (Except.ok.inj h).symm⟩

theorem exists_tell_of_mem_collect {all : List α} (h : collect tell l = .ok all) {a : α} (ha : a ∈ all) :
    ∃ i ∈ l, ∃ told, tell i = .ok told ∧ a ∈ told := by
  induction l generalizing all with
  | nil =>
      obtain rfl := Except.ok.inj h
      cases ha
  | cons i l ih =>
      obtain ⟨told, others, htell, hothers, rfl⟩ := collect_cons_eq_ok h
      rcases List.mem_append.mp ha with ha | ha
      · exact ⟨i, List.mem_cons_self, told, htell, ha⟩
      · obtain ⟨j, hj, hmem⟩ := ih hothers ha
        exact ⟨j, List.mem_cons_of_mem i hj, hmem⟩

theorem collect_of_ok {f : ι → List α} (h : ∀ i ∈ l, tell i = .ok (f i)) : collect tell l = .ok (l.flatMap f) := by
  induction l with
  | nil => rfl
  | cons i l ih =>
      have hothers := ih fun j hj => h j (List.mem_cons_of_mem i hj)
      rw [collect_cons_of_ok (h i List.mem_cons_self), hothers, List.flatMap_cons]
      rfl

theorem collect_of_error {before after : List ι} (hbefore : ∀ j ∈ before, ∃ told, tell j = .ok told)
    (h : tell i = .error e) : collect tell (before ++ i :: after) = .error e := by
  induction before with
  | nil => exact collect_cons_of_error h
  | cons j before ih =>
      obtain ⟨told, htold⟩ := hbefore j List.mem_cons_self
      rw [List.cons_append, collect_cons_of_ok htold, ih fun j' hj' => hbefore j' (List.mem_cons_of_mem j hj')]
      rfl

end Collecting

/-- Where a search stands that takes up what has been found one after the other, in the order of the numbers. -/
structure Worklist (α : Type) [Ord α] where
  found : Numbering α
  /-- The number of those that have been taken up. -/
  done : Nat

/-- Where a search stands that goes in rounds. -/
structure Frontier (α : Type) [Ord α] where
  found : Numbering α
  /-- Those that were found in the last round. -/
  newest : List α

variable {ε α : Type} [Ord α] [Std.TransOrd α] [Std.LawfulEqOrd α]

/-- Takes up the next element: what it tells is found. -/
def Worklist.turn (tell : α → Except ε (List α)) (w : Worklist α) : Worklist α ⊕ Except ε (Numbering α) :=
  match w.found.elems[w.done]? with
  | none => .inr (.ok w.found)
  | some a =>
    match tell a with
    | .error e => .inr (.error e)
    | .ok told => .inl ⟨told.foldl .add w.found, w.done + 1⟩

/-- Takes up all that the last round has found. A round that has found nothing is the last. -/
def Frontier.round (tell : α → Except ε (List α)) (f : Frontier α) : Frontier α ⊕ Except ε (Numbering α) :=
  match f.newest with
  | [] => .inr (.ok f.found)
  | a :: l =>
    match collect tell (a :: l) with
    | .error e => .inr (.error e)
    | .ok told =>
      let found := told.foldl .add f.found
      .inl ⟨found, found.toList.drop f.found.elems.size⟩

variable {tell : α → Except ε (List α)} {found : Numbering α} {done n : Nat} {a : α} {told : List α} {e : ε}

/-! ### Turns -/

namespace Worklist

theorem turn_of_none (h : found.elems[done]? = none) : turn tell ⟨found, done⟩ = .inr (.ok found) := by
  rw [turn, h]

theorem turn_of_error (h : found.elems[done]? = some a) (htell : tell a = .error e) :
    turn tell ⟨found, done⟩ = .inr (.error e) := by
  rw [turn, h]
  simp only [htell]

theorem turn_of_ok (h : found.elems[done]? = some a) (htell : tell a = .ok told) :
    turn tell ⟨found, done⟩ = .inl ⟨told.foldl .add found, done + 1⟩ := by
  rw [turn, h]
  simp only [htell]

/-- Turns come to what a breadth-first search comes to that makes anything else of the elements on its way. -/
theorem exists_within_turn {β : Type} {visit : α → Except ε (β × List α)} (hfin : FiniteRange (Search.successors visit))
    (htell : ∀ a, tell a = (visit a).map Prod.snd) (found : Numbering α) (visited : Array β) :
    ∃ n, within (turn tell) n ⟨found, visited.size⟩ =
      some ((Search.explore visit hfin found visited).fault?.elim
        (.ok (Search.explore visit hfin found visited).found) .error) := by
  fun_induction Search.explore visit hfin found visited with
  | case1 found visited hlt r e hv =>
      have htold : tell found.elems[visited.size] = .error e := (htell _).trans (congrArg (Except.map Prod.snd) hv)
      exact ⟨1, within_succ_of_inr (turn_of_error (Array.getElem?_eq_getElem hlt) htold)⟩
  | case2 found visited hlt r b l hv ih =>
      obtain ⟨n, hn⟩ := ih
      have htold : tell found.elems[visited.size] = .ok l := (htell _).trans (congrArg (Except.map Prod.snd) hv)
      refine ⟨n + 1, ?_⟩
      rw [within_succ_of_inl (turn_of_ok (Array.getElem?_eq_getElem hlt) htold), ← hn, Array.size_push, hv]
      rfl
  | case3 found visited hle =>
      exact ⟨1, within_succ_of_inr (turn_of_none (Array.getElem?_eq_none (Nat.not_lt.mp hle)))⟩

/-- Elements that are taken up one after the other tell what they tell when they are asked together. -/
theorem within_turn_collect {l rest : List α} {r : Except ε (Numbering α)} (hdrop : found.toList.drop done = l ++ rest)
    (h : within (turn tell) n ⟨found, done⟩ = some r) :
    (∃ e, collect tell l = .error e ∧ r = .error e) ∨ ∃ told m, collect tell l = .ok told ∧ n = m + l.length ∧
      within (turn tell) m ⟨told.foldl .add found, done + l.length⟩ = some r := by
  induction l generalizing found done n rest with
  | nil => exact Or.inr ⟨[], n, rfl, rfl, h⟩
  | cons a l ih =>
      have hlt : done < found.toList.length := by
        by_contra hle
        rw [List.drop_eq_nil_of_le (Nat.not_lt.mp hle)] at hdrop
        cases hdrop
      rw [List.drop_eq_getElem_cons hlt, List.cons_append, List.cons.injEq] at hdrop
      obtain ⟨rfl, hdrop⟩ := hdrop
      have hget : found.elems[done]? = some found.toList[done] :=
        Array.getElem?_toList.symm.trans (List.getElem?_eq_getElem hlt)
      cases n with
      | zero => cases h
      | succ n =>
          cases htell : tell found.toList[done] with
          | error e =>
              rw [within_succ_of_inr (turn_of_error hget htell)] at h
              exact Or.inl ⟨e, collect_cons_of_error htell, (Option.some.inj h).symm⟩
          | ok told =>
              rw [within_succ_of_inl (turn_of_ok hget htell)] at h
              -- What is new is numbered after what is still to be taken up.
              obtain ⟨new, hnew⟩ := Numbering.prefix_foldl_add told found
              have hdrop' : (told.foldl .add found).toList.drop (done + 1) = l ++ (rest ++ new) := by
                rw [← hnew, List.drop_append_of_le_length hlt, hdrop, List.append_assoc]
              rw [collect_cons_of_ok htell]
              rcases ih hdrop' h with ⟨e, he, hr⟩ | ⟨others, m, hothers, rfl, hm⟩
              · exact Or.inl ⟨e, by rw [he]; rfl, hr⟩
              · refine Or.inr ⟨told ++ others, m, by rw [hothers]; rfl, rfl, ?_⟩
                rw [List.foldl_append, List.length_cons, Nat.add_comm l.length, ← Nat.add_assoc]
                exact hm

end Worklist

/-! ### Rounds -/

namespace Frontier

theorem round_of_error {newest : List α} (hne : newest ≠ []) (h : collect tell newest = .error e) :
    round tell ⟨found, newest⟩ = .inr (.error e) := by
  cases newest with
  | nil => exact absurd rfl hne
  | cons a l => simp only [round, h]

theorem round_of_ok {newest : List α} (hne : newest ≠ []) (h : collect tell newest = .ok told) :
    round tell ⟨found, newest⟩ =
      .inl ⟨told.foldl .add found, (told.foldl .add found).toList.drop found.elems.size⟩ := by
  cases newest with
  | nil => exact absurd rfl hne
  | cons a l => simp only [round, h]

/-- Rounds come to what turns come to. -/
theorem exists_within_round {r : Except ε (Numbering α)} (h : within (Worklist.turn tell) n ⟨found, done⟩ = some r) :
    ∃ m, within (round tell) m ⟨found, found.toList.drop done⟩ = some r := by
  induction n using Nat.strong_induction_on generalizing found done with
  | h n ih =>
      by_cases hdrop : found.toList.drop done = []
      · have hnone : found.elems[done]? = none :=
          Array.getElem?_eq_none (found.length_toList ▸ List.drop_eq_nil_iff.mp hdrop)
        have hended : within (Worklist.turn tell) 1 ⟨found, done⟩ = some (.ok found) :=
          within_succ_of_inr (Worklist.turn_of_none hnone)
        have hsame := (within_mono hended (Nat.le_add_left 1 n)).symm.trans (within_mono h (Nat.le_add_right n 1))
        rw [hdrop, ← hsame]
        exact ⟨1, rfl⟩
      · rcases Worklist.within_turn_collect (List.append_nil _).symm h with ⟨e, hcollect, rfl⟩ |
          ⟨told, k, hcollect, rfl, hk⟩
        · exact ⟨1, within_succ_of_inr (round_of_error hdrop hcollect)⟩
        · have hpos := List.length_pos_of_ne_nil hdrop
          have hall : done + (found.toList.drop done).length = found.elems.size := by
            rw [List.length_drop] at hpos ⊢
            rw [← found.length_toList]
            omega
          rw [hall] at hk
          obtain ⟨m, hm⟩ := ih k (Nat.lt_add_of_pos_right hpos) hk
          refine ⟨m + 1, ?_⟩
          rw [within_succ_of_inl (round_of_ok hdrop hcollect)]
          exact hm

end Frontier

/-! ### Bounds -/

variable {pool : List α}

/-- What is found comes out of the pool. -/
theorem unseen_add_size_le (found : Numbering α) {l : List α} (hl : ∀ b ∈ l, b ∈ pool) :
    Search.unseen pool (l.foldl .add found) + (l.foldl .add found).elems.size ≤
      Search.unseen pool found + found.elems.size := by
  induction l generalizing found with
  | nil => exact Nat.le_refl _
  | cons a l ih =>
      refine Nat.le_trans (ih (found.add a) fun b hb => hl b (List.mem_cons_of_mem a hb)) ?_
      by_cases ha : a ∈ found
      · rw [Numbering.add_of_mem ha]
      · have hless : Search.unseen pool (found.add a) < Search.unseen pool found :=
          Search.unseen_foldl_add_lt (l := [a]) (fun b hb => hl b (List.mem_singleton.mp hb ▸ List.mem_cons_self))
            List.mem_cons_self ha
        rw [Numbering.elems_add, if_neg ha, Array.size_push]
        omega

/-- How many turns there may still be. -/
def Worklist.remaining (pool : List α) (w : Worklist α) : Nat :=
  Search.unseen pool w.found + (w.found.elems.size - w.done)

theorem Worklist.remaining_turn_lt (hpool : ∀ a told, tell a = .ok told → ∀ b ∈ told, b ∈ pool) (w next : Worklist α)
    (h : w.turn tell = .inl next) : next.remaining pool < w.remaining pool := by
  obtain ⟨found, done⟩ := w
  cases hget : found.elems[done]? with
  | none => cases (turn_of_none hget).symm.trans h
  | some a =>
      have hlt := (Array.getElem?_eq_some_iff.mp hget).1
      cases htell : tell a with
      | error e => cases (turn_of_error hget htell).symm.trans h
      | ok told =>
          obtain rfl := Sum.inl.inj ((turn_of_ok hget htell).symm.trans h)
          have hle := unseen_add_size_le found (hpool a told htell)
          obtain ⟨new, hnew⟩ := Numbering.prefix_foldl_add told found
          have hsize := congrArg List.length hnew
          rw [List.length_append, Numbering.length_toList, Numbering.length_toList] at hsize
          simp only [remaining]
          omega

/-- How many rounds there may still be. -/
def Frontier.remaining (pool : List α) (f : Frontier α) : Nat :=
  Search.unseen pool f.found + min 1 f.newest.length

theorem Frontier.remaining_round_lt (hpool : ∀ a told, tell a = .ok told → ∀ b ∈ told, b ∈ pool) (f next : Frontier α)
    (h : f.round tell = .inl next) : next.remaining pool < f.remaining pool := by
  obtain ⟨found, newest⟩ := f
  by_cases hne : newest = []
  · rw [hne] at h
    cases h
  · have hpos := List.length_pos_of_ne_nil hne
    cases hcollect : collect tell newest with
    | error e => cases (round_of_error hne hcollect).symm.trans h
    | ok told =>
        obtain rfl := Sum.inl.inj ((round_of_ok hne hcollect).symm.trans h)
        have htold : ∀ b ∈ told, b ∈ pool := by
          intro b hb
          obtain ⟨a, _, l, htell, hmem⟩ := exists_tell_of_mem_collect hcollect hb
          exact hpool a l htell b hmem
        simp only [remaining]
        by_cases hall : ∀ b ∈ told, b ∈ found
        · rw [Numbering.foldl_add_of_subset hall, List.drop_of_length_le (Nat.le_of_eq found.length_toList)]
          simp only [List.length_nil]
          omega
        · simp only [not_forall] at hall
          obtain ⟨b, hb, hnew⟩ := hall
          have hless := Search.unseen_foldl_add_lt htold hb hnew
          omega

end ShiftReduce
