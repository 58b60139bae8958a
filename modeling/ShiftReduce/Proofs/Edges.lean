import Mathlib.Algebra.Group.Nat.Even
import ShiftReduce.Proofs.Registration
import ShiftReduce.Proofs.TableGrid
import ShiftReduce.Report.Graph

/-! Edge lines that are read again. The label of an edge stands between quotation marks, and those inside of it have a
backslash before them. Backslashes are written as they are, though a reader takes two of them for one unit, and one
with a quotation mark for another. So where a run of backslashes meets with a quotation mark, or with the end of the
label, it matters whether the run is even. If all of these runs are even, then each quotation mark of the label is
read together with the backslash that has been put before it, and the string ends where the label does. -/

namespace ShiftReduce

namespace Text

/-! ### Strings in quotation marks -/

/-- What comes behind a string in quotation marks, where its first mark has been read. A backslash is one unit with a
quotation mark or a backslash behind it, and the string ends at the first quotation mark outside of such units. -/
def afterQuoted? : List Char → Option (List Char)
  | [] => none
  | [c] => if c = '"' then some [] else none
  | c :: d :: cs =>
      if c = '"' then some (d :: cs)
      else if c = '\\' ∧ (d = '"' ∨ d = '\\') then afterQuoted? cs
      else afterQuoted? (d :: cs)

/-- If `n` backslashes have come before, there is an even number of them right before each quotation mark and at the
end. -/
def evenRuns : Nat → List Char → Bool
  | n, [] => Even n
  | n, c :: cs => if c = '\\' then evenRuns (n + 1) cs else (c ≠ '"' ∨ Even n) && evenRuns 0 cs

section AfterQuoted

variable {c d : Char} {cs rest : List Char}

theorem afterQuoted?_quote (cs : List Char) : afterQuoted? ('"' :: cs) = some cs := by
  cases cs with
  | nil => rfl
  | cons d cs => rfl

theorem afterQuoted?_cons (hquote : c ≠ '"') (hbackslash : c ≠ '\\') (cs : List Char) :
    afterQuoted? (c :: cs) = afterQuoted? cs := by
  cases cs with
  | nil => rw [afterQuoted?, afterQuoted?, if_neg hquote]
  | cons d cs => rw [afterQuoted?, if_neg hquote, if_neg fun h => hbackslash h.1]

/-- Whatever comes behind a backslash, the string does not end there. -/
theorem afterQuoted?_backslash (d : Char) (cs : List Char) : afterQuoted? ('\\' :: d :: cs) = afterQuoted? cs := by
  rw [afterQuoted?, if_neg (by decide)]
  split
  · rfl
  · rename_i hplain
    simp only [true_and, not_or] at hplain
    exact afterQuoted?_cons hplain.1 hplain.2 cs

theorem length_lt_of_afterQuoted? (h : afterQuoted? cs = some rest) : rest.length < cs.length := by
  fun_induction afterQuoted? cs with
  | case1 => cases h
  | case2 =>
      cases h
      exact Nat.one_pos
  | case3 => cases h
  | case4 d cs =>
      cases h
      exact Nat.lt_succ_self _
  | case5 c d cs _ _ ih => exact Nat.lt_succ_of_lt (Nat.lt_succ_of_lt (ih h))
  | case6 c d cs _ _ ih => exact Nat.lt_succ_of_lt (ih h)

/-- A string that ends before the mark that should close it. -/
theorem afterQuoted?_quote_ne (cs rest : List Char) : afterQuoted? ('"' :: (cs ++ '"' :: rest)) ≠ some rest := by
  rw [afterQuoted?_quote]
  intro h
  have hlength := congrArg List.length (Option.some.inj h)
  rw [List.length_append, List.length_cons] at hlength
  lia

end AfterQuoted

/-- What is left of `n` backslashes, if units of two have been read. -/
def pending (n : Nat) : List Char := if Even n then [] else ['\\']

theorem pending_of_even {n : Nat} (h : Even n) : pending n = [] := if_pos h

theorem pending_of_not_even {n : Nat} (h : ¬ Even n) : pending n = ['\\'] := if_neg h

theorem afterQuoted?_pending_add_one (n : Nat) (cs : List Char) :
    afterQuoted? (pending n ++ '\\' :: cs) = afterQuoted? (pending (n + 1) ++ cs) := by
  by_cases hn : Even n
  · rw [pending_of_even hn, pending_of_not_even (Nat.even_add_one.not.mpr (not_not.mpr hn))]
    rfl
  · rw [pending_of_not_even hn, pending_of_even (Nat.even_add_one.mpr hn), List.singleton_append, List.nil_append,
      afterQuoted?_backslash]

/-- The escaped text is read up to its end if all runs are even, where some backslashes may have come before. -/
theorem afterQuoted?_pending (n : Nat) (cs rest : List Char) :
    afterQuoted? (pending n ++ (replaceChar '"' "\\\"" cs ++ '"' :: rest)) = some rest ↔ evenRuns n cs := by
  induction cs generalizing n with
  | nil =>
      rw [replaceChar, List.flatMap_nil, List.nil_append, evenRuns, decide_eq_true_iff]
      by_cases hn : Even n
      · rw [pending_of_even hn, List.nil_append, afterQuoted?_quote]
        exact iff_of_true rfl hn
      · rw [pending_of_not_even hn, List.singleton_append, afterQuoted?_backslash]
        exact iff_of_false (fun h => Nat.lt_irrefl _ (length_lt_of_afterQuoted? h)) hn
  | cons c cs ih =>
      rw [replaceChar, List.flatMap_cons, ← replaceChar, List.append_assoc, evenRuns]
      by_cases hbackslash : c = '\\'
      · subst hbackslash
        rw [if_neg (by decide), if_pos rfl, List.singleton_append, afterQuoted?_pending_add_one, ih]
      rw [if_neg hbackslash, Bool.and_eq_true, decide_eq_true_iff, ← ih 0, pending_of_even Even.zero, List.nil_append]
      by_cases hquote : c = '"'
      · subst hquote
        by_cases hn : Even n
        · rw [and_iff_right (Or.inr hn), pending_of_even hn, List.nil_append, if_pos rfl]
          exact iff_of_eq (congrArg (· = some rest) (afterQuoted?_backslash _ _))
        · -- The backslash that is put before the mark is taken by the one that is left, and the string ends too early.
          refine iff_of_false ?_ fun h => h.1.elim (absurd rfl) hn
          rw [pending_of_not_even hn, if_pos rfl]
          change afterQuoted? ('\\' :: '\\' :: '"' :: (replaceChar '"' "\\\"" cs ++ '"' :: rest)) ≠ some rest
          rw [afterQuoted?_backslash]
          exact afterQuoted?_quote_ne _ rest
      · rw [and_iff_right (Or.inl hquote), if_neg hquote, List.singleton_append]
        by_cases hn : Even n
        · rw [pending_of_even hn, List.nil_append, afterQuoted?_cons hquote hbackslash]
        · rw [pending_of_not_even hn, List.singleton_append, afterQuoted?_backslash]

/-- A reader finds the end of a label where it is, if the runs of backslashes in it are even. -/
theorem afterQuoted?_escapeQuotes (label : String) (rest : List Char) :
    afterQuoted? ((escapeQuotes label).toList ++ '"' :: rest) = some rest ↔ evenRuns 0 label.toList := by
  rw [← afterQuoted?_pending, pending_of_even Even.zero, List.nil_append, escapeQuotes, String.toList_ofList]

end Text

namespace Report

/-! ### One edge line -/

/-- The number at the beginning of a text, and what comes behind it. -/
def readNumber? (cs : List Char) : Option (Nat × List Char) :=
  let digits := cs.takeWhile Char.isDigit
  if digits = [] then none else some (Nat.ofDigitChars 10 digits 0, cs.dropWhile Char.isDigit)

/-- The source and the target of an edge, if the label is closed right before the end of the line. -/
def readEdge? (line : String) : Option (StateId × StateId) := do
  let cs ← line.toList.dropPrefix? "  State".toList
  let (source, cs) ← readNumber? cs
  let cs ← cs.dropPrefix? " -> State".toList
  let (target, cs) ← readNumber? cs
  let cs ← cs.dropPrefix? " [label=\"".toList
  let cs ← Text.afterQuoted? cs
  if cs = "];".toList then some (source, target) else none

theorem readNumber?_toDigits (n : Nat) {c : Char} (hc : ¬ c.isDigit) (cs : List Char) :
    readNumber? (Nat.toDigits 10 n ++ c :: cs) = some (n, c :: cs) := by
  have hdigits : ∀ d ∈ Nat.toDigits 10 n, d.isDigit := fun d hd =>
    Nat.isDigit_of_mem_toDigits (by decide) (by decide) hd
  rw [readNumber?, List.takeWhile_append_of_pos hdigits, List.dropWhile_append_of_pos hdigits,
    List.takeWhile_cons_of_neg hc, List.dropWhile_cons_of_neg hc, List.append_nil, if_neg Nat.toDigits_ne_nil,
    Nat.ofDigitChars_ten_toDigits]

theorem toList_edgeLine (source target : StateId) (label : String) : (edgeLine source target label).toList =
    "  State".toList ++ (Nat.toDigits 10 source ++ (" -> State".toList ++ (Nat.toDigits 10 target ++
      (" [label=\"".toList ++ ((Text.escapeQuotes label).toList ++ '"' :: "];".toList))))) := by
  simp [edgeLine, toString]

theorem readEdge?_edgeLine (source target : StateId) (label : String) :
    readEdge? (edgeLine source target label) =
      if Text.evenRuns 0 label.toList then some (source, target) else none := by
  have hsource (cs : List Char) : readNumber? (Nat.toDigits 10 source ++ (" -> State".toList ++ cs)) =
      some (source, " -> State".toList ++ cs) := readNumber?_toDigits source (c := ' ') (by decide) _
  have htarget (cs : List Char) : readNumber? (Nat.toDigits 10 target ++ (" [label=\"".toList ++ cs)) =
      some (target, " [label=\"".toList ++ cs) := readNumber?_toDigits target (c := ' ') (by decide) _
  have hlabel := Text.afterQuoted?_escapeQuotes label "];".toList
  simp only [readEdge?, toList_edgeLine, List.dropPrefix?_append_of_beq _ (beq_self_eq_true _), hsource, htarget,
    Option.bind_eq_bind, Option.bind_some]
  by_cases heven : Text.evenRuns 0 label.toList
  · rw [if_pos heven, hlabel.mpr heven, Option.bind_some, if_pos rfl]
  · rw [if_neg heven, Option.bind_eq_none_iff]
    intro cs hcs
    refine if_neg fun heq => heven (hlabel.mp ?_)
    rw [hcs, heq]

theorem exists_toList_nodeText (g : Grammar) (items : ItemSet) (s : StateId) :
    ∃ rest, (nodeText g items s).toList = "  State".toList ++ (Nat.toDigits 10 s ++ ' ' :: '[' :: rest) := by
  simp [nodeText, toString, String.toList_intercalate]

/-- A node is no edge. -/
theorem readEdge?_nodeText (g : Grammar) (items : ItemSet) (s : StateId) : readEdge? (nodeText g items s) = none := by
  obtain ⟨rest, hrest⟩ := exists_toList_nodeText g items s
  simp only [readEdge?, hrest, List.dropPrefix?_append_of_beq _ (beq_self_eq_true _),
    readNumber?_toDigits s (c := ' ') (by decide), Option.bind_eq_bind, Option.bind_some]
  rfl

end Report

/-! ### All edges -/

/-- The state that an action leads to. -/
def Action.next? : Action → Option StateId
  | shift target => some target
  | goto target => some target
  | _ => none

theorem Action.next?_eq_some_iff {act : Action} {q : StateId} :
    act.next? = some q ↔ act = .shift q ∨ act = .goto q := by
  cases act <;> simp [next?]

structure Edge where
  source : StateId
  symbol : Symbol
  target : StateId
deriving DecidableEq, Repr

namespace ActionTable

variable {t : ActionTable}

def rowEdges (q : StateId) (row : Row) : List Edge :=
  row.filterMap fun e => e.2.next?.map fun target => ⟨q, e.1, target⟩

/-- The shifts and gotos of a table. -/
def edges (t : ActionTable) : List Edge :=
  (List.range t.stateCount).flatMap fun q => rowEdges q ((t.row? q).getD [])

theorem mem_rowEdges_iff {q : StateId} {row : Row} {e : Edge} :
    e ∈ rowEdges q row ↔ e.source = q ∧ ∃ act, (e.symbol, act) ∈ row ∧ act.next? = some e.target := by
  rw [rowEdges, List.mem_filterMap]
  constructor
  · rintro ⟨⟨x, act⟩, hmem, he⟩
    obtain ⟨target, htarget, rfl⟩ := Option.map_eq_some_iff.mp he
    exact ⟨rfl, act, hmem, htarget⟩
  · rintro ⟨rfl, act, hmem, htarget⟩
    exact ⟨_, hmem, Option.map_eq_some_iff.mpr ⟨_, htarget, rfl⟩⟩

theorem nodup_rowEdges (q : StateId) {row : Row} (h : row.Ascending) : (rowEdges q row).Nodup := by
  have hascending : (rowEdges q row).Pairwise fun e e' => e.symbol < e'.symbol := by
    refine List.Pairwise.filterMap _ ?_ h
    intro entry entry' hlt e he e' he'
    obtain ⟨_, -, rfl⟩ := Option.map_eq_some_iff.mp he
    obtain ⟨_, -, rfl⟩ := Option.map_eq_some_iff.mp he'
    exact hlt
  exact hascending.imp fun hlt heq => Nat.ne_of_lt hlt (congrArg Edge.symbol heq)

theorem Ordered.getD_row? (h : t.Ordered) (q : StateId) : ((t.row? q).getD []).Ascending := by
  cases hrow : t.row? q with
  | none => exact List.Pairwise.nil
  | some row => exact h q row hrow

theorem mem_edges_iff (h : t.Ordered) {e : Edge} :
    e ∈ t.edges ↔ ∃ act, t.get? e.source e.symbol = some act ∧ act.next? = some e.target := by
  have hlookup (act : Action) : (e.symbol, act) ∈ (t.row? e.source).getD [] ↔ t.get? e.source e.symbol = some act := by
    rw [(h.getD_row? e.source).mem_iff, get?, row?]
    cases t.rows[e.source]? <;> rfl
  rw [edges, List.mem_flatMap]
  constructor
  · rintro ⟨q, -, he⟩
    obtain ⟨rfl, act, hmem, htarget⟩ := mem_rowEdges_iff.mp he
    exact ⟨act, (hlookup act).mp hmem, htarget⟩
  · rintro ⟨act, hact, htarget⟩
    refine ⟨e.source, List.mem_range.mpr ?_, mem_rowEdges_iff.mpr ⟨rfl, act, (hlookup act).mpr hact, htarget⟩⟩
    obtain ⟨row, hrow, -⟩ := Option.bind_eq_some_iff.mp hact
    exact (Array.getElem?_eq_some_iff.mp hrow).1

theorem nodup_edges (h : t.Ordered) : t.edges.Nodup := by
  refine List.nodup_flatMap.mpr ⟨fun q _ => nodup_rowEdges q (h.getD_row? q), ?_⟩
  refine List.nodup_range.imp fun hne e he he' => hne ?_
  exact (mem_rowEdges_iff.mp he).1.symm.trans (mem_rowEdges_iff.mp he').1

end ActionTable

namespace Report

variable {g : Grammar} {t : ParseTable}

/-- The pieces of the graph, which stand on lines of their own. -/
def graphPieces (g : Grammar) (t : ParseTable) : List String :=
  "digraph lr0_states \x7b" ::
    (t.automaton.states.toList.zipIdx.flatMap fun (items, s) => nodeText g items s :: edgeLines g t s) ++ ["\x7d"]

theorem graphText_eq (g : Grammar) (t : ParseTable) : graphText g t = "\n".intercalate (graphPieces g t) := rfl

theorem edgeLines_eq (g : Grammar) (t : ParseTable) (q : StateId) :
    edgeLines g t q = (ActionTable.rowEdges q ((t.actions.row? q).getD [])).map fun e =>
      edgeLine e.source e.target (g.label e.symbol) := by
  rw [edgeLines, ActionTable.rowEdges, List.map_filterMap]
  refine List.filterMap_congr fun e _ => ?_
  obtain ⟨x, act⟩ := e
  cases act <;> rfl

theorem filterMap_edgeLines (g : Grammar) (t : ParseTable) (q : StateId) : (edgeLines g t q).filterMap readEdge? =
    ((ActionTable.rowEdges q ((t.actions.row? q).getD [])).filter fun e =>
      Text.evenRuns 0 (g.label e.symbol).toList).map fun e => (e.source, e.target) := by
  rw [edgeLines_eq, List.filterMap_map, ← List.filterMap_eq_map', List.filterMap_filter]
  exact List.filterMap_congr fun e _ => readEdge?_edgeLine e.source e.target _

theorem filterMap_graphPieces (htable : ParseTable.ofGrammar g = .ok t) : (graphPieces g t).filterMap readEdge? =
    (t.actions.edges.filter fun e => Text.evenRuns 0 (g.label e.symbol).toList).map fun e => (e.source, e.target) := by
  have hstates : List.range t.actions.stateCount = t.automaton.states.toList.zipIdx.map Prod.snd := by
    rw [List.zipIdx_map_snd, ← List.range_eq_range', ParseTable.stateCount_actions htable, Array.length_toList,
      Automaton.size]
  rw [graphPieces, List.cons_append, List.filterMap_cons_none rfl, List.filterMap_append, List.filterMap_flatMap,
    ActionTable.edges, hstates, List.flatMap_map, List.filter_flatMap, List.map_flatMap]
  refine (List.append_nil _).trans (List.flatMap_congr fun p _ => ?_)
  rw [List.filterMap_cons_none (readEdge?_nodeText g p.1 p.2), filterMap_edgeLines]

theorem mem_edges_iff (htable : ParseTable.ofGrammar g = .ok t) {e : Edge} : e ∈ t.actions.edges ↔
    t.action? e.source e.symbol = some (.shift e.target) ∨ t.action? e.source e.symbol = some (.goto e.target) := by
  rw [ActionTable.mem_edges_iff (ParseTable.ordered_actions htable), ParseTable.action?]
  simp only [Action.next?_eq_some_iff, and_or_left, exists_or, exists_eq_right]

theorem edgeLine_mem_graphPieces (htable : ParseTable.ofGrammar g = .ok t) {e : Edge} (he : e ∈ t.actions.edges) :
    edgeLine e.source e.target (g.label e.symbol) ∈ graphPieces g t := by
  obtain ⟨q, hq, he⟩ := List.mem_flatMap.mp he
  obtain ⟨rfl, -⟩ := ActionTable.mem_rowEdges_iff.mp he
  rw [List.mem_range, ParseTable.stateCount_actions htable] at hq
  obtain ⟨items, hitems⟩ : ∃ items, t.automaton.states[e.source]? = some items := ⟨_, Array.getElem?_eq_getElem hq⟩
  have hstate : (items, e.source) ∈ t.automaton.states.toList.zipIdx := by
    rw [List.mem_zipIdx_iff_getElem?, Array.getElem?_toList, hitems]
  have hline : edgeLine e.source e.target (g.label e.symbol) ∈ edgeLines g t e.source := by
    rw [edgeLines_eq]
    exact List.mem_map_of_mem he
  refine List.mem_append_left _ (List.mem_cons_of_mem _ (List.mem_flatMap.mpr ⟨_, hstate, ?_⟩))
  exact List.mem_cons_of_mem _ hline

/-- The graph of a grammar that is described by a text is put together from pieces, among which there is one line for
each shift and each goto of the table. Of a line the reader gets the edge if the runs of backslashes in its label are
even, and nothing otherwise. So from all the pieces it gets the edges with such labels, in their order and each of
them once, and it gets all edges if all labels are such. -/
theorem graph_reads_back {source : String} {g : AugmentedGrammar}
    (hsource : AugmentedGrammar.ofDescription source = .ok g) : ∃ t, ParseTable.ofGrammar g.toGrammar = .ok t ∧
      graphText g.toGrammar t = "\n".intercalate (graphPieces g.toGrammar t) ∧ t.actions.edges.Nodup ∧
      (∀ e, e ∈ t.actions.edges ↔ t.action? e.source e.symbol = some (.shift e.target) ∨
        t.action? e.source e.symbol = some (.goto e.target)) ∧
      (∀ e ∈ t.actions.edges, edgeLine e.source e.target (g.label e.symbol) ∈ graphPieces g.toGrammar t ∧
        (readEdge? (edgeLine e.source e.target (g.label e.symbol)) = some (e.source, e.target) ↔
          Text.evenRuns 0 (g.label e.symbol).toList)) ∧
      (graphPieces g.toGrammar t).filterMap readEdge? =
        (t.actions.edges.filter fun e => Text.evenRuns 0 (g.label e.symbol).toList).map
          fun e => (e.source, e.target) := by
  obtain ⟨calls, hbuild⟩ := AugmentedGrammar.exists_calls_of_ofDescription hsource
  obtain ⟨t, htable, -⟩ := ParseTable.exists_table (Builder.proper_of_build hbuild)
  refine ⟨t, htable, graphText_eq _ t, ActionTable.nodup_edges (ParseTable.ordered_actions htable),
    fun e => mem_edges_iff htable, fun e he => ⟨edgeLine_mem_graphPieces htable he, ?_⟩,
    filterMap_graphPieces htable⟩
  rw [readEdge?_edgeLine]
  simp

/-- Labels that are a quotation mark and two backslashes. -/
def quoting : AugmentedGrammar := .ofRules #["$end", "s", "\"", "\\\\"] #[⟨1, [2, 3]⟩] 1

theorem graph_reads_back_quoting : AugmentedGrammar.ofDescription "s -> \" \\\\" = .ok quoting ∧
    ∃ t, ParseTable.ofGrammar quoting.toGrammar = .ok t ∧
      t.actions.edges = [⟨0, 1, 1⟩, ⟨0, 2, 2⟩, ⟨2, 3, 3⟩] ∧
      "  State0 -> State2 [label=\"\\\"\"];" ∈ graphPieces quoting.toGrammar t ∧
      "  State2 -> State3 [label=\"\\\\\"];" ∈ graphPieces quoting.toGrammar t ∧
      (graphPieces quoting.toGrammar t).filterMap readEdge? = [(0, 1), (0, 2), (2, 3)] := by
  have hsource : AugmentedGrammar.ofDescription "s -> \" \\\\" = .ok quoting := by cbv
  have hrun : (ParseTable.ofGrammar quoting.toGrammar).toOption.map (fun t => t.actions.edges) =
      some [⟨0, 1, 1⟩, ⟨0, 2, 2⟩, ⟨2, 3, 3⟩] := by cbv
  obtain ⟨t, htable, -, -, -, hlines, hread⟩ := graph_reads_back hsource
  rw [htable] at hrun
  have hedges : t.actions.edges = [⟨0, 1, 1⟩, ⟨0, 2, 2⟩, ⟨2, 3, 3⟩] := Option.some.inj hrun
  rw [hedges] at hlines hread
  exact ⟨hsource, t, htable, hedges, (hlines ⟨0, 2, 2⟩ (by decide)).1, (hlines ⟨2, 3, 3⟩ (by decide)).1,
    hread.trans (by decide)⟩

/-- A label that is one backslash. -/
def backslash : AugmentedGrammar := .ofRules #["$end", "s", "\\"] #[⟨1, [2]⟩] 1

/-- The backslash and the quotation mark behind it are read as one unit, and the string has no end. -/
theorem edge_lost : AugmentedGrammar.ofDescription "s -> \\" = .ok backslash ∧
    ∃ t, ParseTable.ofGrammar backslash.toGrammar = .ok t ∧ t.action? 0 2 = some (.shift 2) ∧
      "  State0 -> State2 [label=\"\\\"];" ∈ graphPieces backslash.toGrammar t ∧
      readEdge? "  State0 -> State2 [label=\"\\\"];" = none ∧
      t.actions.edges = [⟨0, 1, 1⟩, ⟨0, 2, 2⟩] ∧
      (graphPieces backslash.toGrammar t).filterMap readEdge? = [(0, 1)] := by
  have hsource : AugmentedGrammar.ofDescription "s -> \\" = .ok backslash := by cbv
  have hrun : (ParseTable.ofGrammar backslash.toGrammar).toOption.map (fun t => (t.action? 0 2, t.actions.edges)) =
      some (some (.shift 2), [⟨0, 1, 1⟩, ⟨0, 2, 2⟩]) := by cbv
  obtain ⟨calls, hbuild⟩ := AugmentedGrammar.exists_calls_of_ofDescription hsource
  obtain ⟨t, htable, -⟩ := ParseTable.exists_table (Builder.proper_of_build hbuild)
  rw [htable] at hrun
  obtain ⟨haction, hedges⟩ := Prod.mk.inj (Option.some.inj hrun)
  have hline : edgeLine 0 2 (backslash.label 2) ∈ graphPieces backslash.toGrammar t :=
    edgeLine_mem_graphPieces htable (e := ⟨0, 2, 2⟩) (hedges ▸ by decide)
  have hread := filterMap_graphPieces htable
  rw [hedges] at hread
  exact ⟨hsource, t, htable, haction, hline, by decide, hedges, hread.trans (by decide)⟩

end Report

end ShiftReduce
