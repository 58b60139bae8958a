import Mathlib.Data.List.Basic
import ShiftReduce.Text.Escape

/-! Character references that are read back. The four replacements come one after the other, and the later ones see
what the earlier ones have written. But ampersands are replaced first, and no reference has a bracket or a quotation
mark in it, so each character is replaced once, by the reference that stands for it. A reader that goes through the
text from left to right can do the same backwards: an ampersand is always the beginning of a reference, and a
reference ends where the next character of the text was written. -/

namespace ShiftReduce.Text

/-- What is written for a character. -/
def reference (c : Char) : List Char :=
  if c = '&' then "&amp;".toList
  else if c = '<' then "&lt;".toList
  else if c = '>' then "&gt;".toList
  else if c = '"' then "&quot;".toList
  else [c]

/-- The references that are written. -/
def references : List (List Char) := ["&amp;".toList, "&lt;".toList, "&gt;".toList, "&quot;".toList]

/-- The text for which another text with references stands. -/
def unescapeMarkup : List Char → List Char
  | '&' :: 'a' :: 'm' :: 'p' :: ';' :: cs => '&' :: unescapeMarkup cs
  | '&' :: 'l' :: 't' :: ';' :: cs => '<' :: unescapeMarkup cs
  | '&' :: 'g' :: 't' :: ';' :: cs => '>' :: unescapeMarkup cs
  | '&' :: 'q' :: 'u' :: 'o' :: 't' :: ';' :: cs => '"' :: unescapeMarkup cs
  | c :: cs => c :: unescapeMarkup cs
  | [] => []

/-- One replacement after the other comes to one reference for each character. -/
theorem toList_escapeMarkup (s : String) : (escapeMarkup s).toList = s.toList.flatMap reference := by
  simp only [escapeMarkup, replaceChar, String.toList_ofList, List.flatMap_assoc]
  refine List.flatMap_congr fun c _ => ?_
  by_cases hamp : c = '&'
  · subst hamp
    rfl
  by_cases hlt : c = '<'
  · subst hlt
    rfl
  by_cases hgt : c = '>'
  · subst hgt
    rfl
  simp [reference, hamp, hlt, hgt]

/-- A character is written as a reference, or it has no meaning in markup and stays. -/
theorem reference_cases (c : Char) : reference c ∈ references ∨ reference c = [c] ∧ c ∉ ['&', '<', '>', '"'] := by
  unfold reference
  split
  · exact .inl (by decide)
  split
  · exact .inl (by decide)
  split
  · exact .inl (by decide)
  split
  · exact .inl (by decide)
  rename_i hamp hlt hgt hquote
  exact .inr ⟨rfl, by simp [hamp, hlt, hgt, hquote]⟩

theorem plain_of_mem_reference {c d : Char} (hd : d ∈ reference c) : d ∉ ['<', '>', '"'] := by
  have hreferences : ∀ r ∈ references, ∀ d ∈ r, d ∉ ['<', '>', '"'] := by simp [references]
  rcases reference_cases c with h | ⟨h, hc⟩
  · exact hreferences _ h d hd
  · rw [h, List.mem_singleton] at hd
    exact fun hmem => hc (hd ▸ List.mem_cons_of_mem _ hmem)

/-- Where an ampersand stands in what is written for a character, all of it is a reference, which begins there. -/
theorem eq_nil_of_reference_eq {c : Char} {before after : List Char} (h : reference c = before ++ '&' :: after) :
    before = [] ∧ reference c ∈ references := by
  have hreferences : ∀ r ∈ references, '&' ∉ r.tail := by decide
  rcases reference_cases c with hmem | ⟨hc, hplain⟩
  · cases before with
    | nil => exact ⟨rfl, hmem⟩
    | cons d before =>
        refine absurd ?_ (hreferences _ hmem)
        rw [h]
        exact List.mem_append_right _ List.mem_cons_self
  · have hamp : '&' ∈ reference c := h ▸ List.mem_append_right _ List.mem_cons_self
    rw [hc, List.mem_singleton] at hamp
    exact absurd (hamp ▸ List.mem_cons_self) hplain

/-- An ampersand is the beginning of a reference. -/
theorem exists_reference_of_split {cs before after : List Char}
    (h : cs.flatMap reference = before ++ '&' :: after) : ∃ r ∈ references, r <+: '&' :: after := by
  induction cs generalizing before with
  | nil => cases before <;> cases h
  | cons c cs ih =>
      rw [List.flatMap_cons, List.append_eq_append_iff] at h
      rcases h with ⟨before', -, h⟩ | ⟨written, hwritten, h⟩
      · exact ih h
      · cases written with
        | nil => exact @ih [] h.symm
        | cons d written =>
            obtain ⟨rfl, rfl⟩ := List.cons.inj h
            obtain ⟨rfl, hmem⟩ := eq_nil_of_reference_eq hwritten
            exact ⟨_, hmem, cs.flatMap reference, by rw [hwritten]; rfl⟩

theorem unescapeMarkup_cons {c : Char} (hc : c ≠ '&') (cs : List Char) :
    unescapeMarkup (c :: cs) = c :: unescapeMarkup cs := by
  rw [unescapeMarkup] <;> grind

/-- What has been written for a character is read as this character. -/
theorem unescapeMarkup_reference (c : Char) (cs : List Char) :
    unescapeMarkup (reference c ++ cs) = c :: unescapeMarkup cs := by
  unfold reference
  split
  · subst c
    rfl
  rename_i hamp
  split
  · subst c
    rfl
  split
  · subst c
    rfl
  split
  · subst c
    rfl
  · exact unescapeMarkup_cons hamp cs

theorem unescapeMarkup_flatMap (cs : List Char) : unescapeMarkup (cs.flatMap reference) = cs := by
  induction cs with
  | nil => rfl
  | cons c cs ih => rw [List.flatMap_cons, unescapeMarkup_reference, ih]

/-- The four replacements, one after the other, write for each character what stands for it. There are no brackets
and no quotation marks in the result, and each ampersand is the beginning of a reference. If the references are read
from left to right, the text comes back. -/
theorem escapeMarkup_reads_back (s : String) :
    (escapeMarkup s).toList = s.toList.flatMap reference ∧
    (∀ c ∈ (escapeMarkup s).toList, c ∉ ['<', '>', '"']) ∧
    (∀ before after, (escapeMarkup s).toList = before ++ '&' :: after → ∃ r ∈ references, r <+: '&' :: after) ∧
    String.ofList (unescapeMarkup (escapeMarkup s).toList) = s := by
  rw [toList_escapeMarkup]
  refine ⟨rfl, ?_, fun before after h => exists_reference_of_split h, ?_⟩
  · intro d hd
    obtain ⟨c, -, hd⟩ := List.mem_flatMap.mp hd
    exact plain_of_mem_reference hd
  · rw [unescapeMarkup_flatMap, String.ofList_toList]

/-- What looks like a reference before is not taken for one. -/
example : escapeMarkup "a &lt; \"b\"" = "a &amp;lt; &quot;b&quot;" := by decide

end ShiftReduce.Text
