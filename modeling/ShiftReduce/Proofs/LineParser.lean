import ShiftReduce.Description.Combinators

/-! Combinators with the usual meaning, made of functions on lines. What needs care is repetition: a parser
that keeps succeeding and never consumes anything could be repeated for ever. So a parser comes with the promise that
less is left of the line whenever it has consumed something, and that nothing is missing when it has not. -/

namespace ShiftReduce

/-- A reply to `cs` leaves less of it if something has been consumed, and all of it if nothing has. -/
def Reply.Fits {α : Type} (cs : List Char) : Reply α → Prop
  | value _ rest true => rest.length < cs.length
  | value _ rest false => rest = cs
  | error _ => True

theorem Reply.Fits.map {α β : Type} {cs : List Char} {r : Reply α} (h : r.Fits cs) (f : α → β) :
    (r.map f).Fits cs := by
  cases r with
  | error => trivial
  | value a rest consumed => cases consumed <;> exact h

/-- Two parsers together have consumed something if one of them has. -/
theorem Reply.Fits.after {α β : Type} {cs rest : List Char} {a : α} {consumed : Bool} {r : Reply β}
    (h : (Reply.value a rest consumed).Fits cs) (hr : r.Fits rest) : (r.after a consumed).Fits cs := by
  cases r with
  | error => trivial
  | value b rest' consumed' =>
      cases consumed with
      | false =>
          obtain rfl : rest = cs := h
          cases consumed' <;> exact hr
      | true =>
          have hlt : rest.length < cs.length := h
          cases consumed' with
          | false =>
              obtain rfl : rest' = rest := hr
              exact hlt
          | true => exact Nat.lt_trans hr hlt

/-- A parser that is a function on lines. -/
structure LineParser (α : Type) where
  run : List Char → Reply α
  fits : ∀ cs, (run cs).Fits cs

namespace LineParser

variable {α β : Type}

/-- By this, repetition comes to an end. -/
theorem length_lt (p : LineParser α) {cs rest : List Char} {a : α} (h : p.run cs = .value a rest true) :
    rest.length < cs.length := by
  have hfits := p.fits cs
  rw [h] at hfits
  exact hfits

def satisfy (p : Char → Bool) : LineParser Char where
  run
    | [] => .error false
    | x :: rest => if p x then .value x rest true else .error false
  fits cs := by
    cases cs with
    | nil => trivial
    | cons x rest =>
        by_cases hx : p x
        · simp only [if_pos hx]
          exact Nat.lt_succ_self _
        · simp only [if_neg hx]
          trivial

def eof : LineParser Unit where
  run cs := if cs = [] then .value () [] false else .error false
  fits cs := by
    split
    · rename_i h
      exact h.symm
    · trivial

def map (f : α → β) (p : LineParser α) : LineParser β where
  run cs := (p.run cs).map f
  fits cs := (p.fits cs).map f

def seq (p : LineParser α) (q : LineParser β) : LineParser (α × β) where
  run cs :=
    match p.run cs with
    | .value a rest consumed => (q.run rest).after a consumed
    | .error consumed => .error consumed
  fits cs := by
    have hp := p.fits cs
    cases hrun : p.run cs with
    | error => trivial
    | value a rest consumed =>
        rw [hrun] at hp
        exact hp.after (q.fits rest)

/-- The second parser is run on the whole line as well. -/
def either (p q : LineParser α) : LineParser α where
  run cs :=
    match p.run cs with
    | .error false => q.run cs
    | reply => reply
  fits cs := by
    split
    · exact q.fits cs
    · exact p.fits cs

def attempt (p : LineParser α) : LineParser α where
  run cs :=
    match p.run cs with
    | .error _ => .error false
    | reply => reply
  fits cs := by
    split
    · trivial
    · exact p.fits cs

def notFollowedBy (p : LineParser α) : LineParser Unit where
  run cs :=
    match p.run cs with
    | .error _ => .value () cs false
    | .value _ _ _ => .error false
  fits cs := by
    split
    · rfl
    · trivial

/-- The replies to what is left each time are put together. If the parser succeeds and consumes nothing, this
fails, since it would not come to an end. -/
def repeated (p : LineParser α) (cs : List Char) : Reply (List α) :=
  match h : p.run cs with
  | .value a rest true =>
    have := p.length_lt h
    ((repeated p rest).after a true).map fun (a, l) => a :: l
  | .value _ _ false => .error false
  | .error true => .error true
  | .error false => .value [] cs false
termination_by cs.length

/-- Repetition leaves the whole line, or it has consumed something of it. -/
def many (p : LineParser α) : LineParser (List α) where
  run := p.repeated
  fits cs := by
    fun_induction repeated p cs with
    | case1 cs a rest h _ ih =>
        have hp : (Reply.value a rest true).Fits cs := p.length_lt h
        exact (hp.after ih).map _
    | case2 => trivial
    | case3 => trivial
    | case4 => rfl

end LineParser

/-- The usual combinators for parsers that are functions on lines. -/
def Combinators.onLines : Combinators where
  Parser := LineParser
  run p := p.run
  satisfy := LineParser.satisfy
  token x := LineParser.satisfy (· == x)
  eof := LineParser.eof
  map := LineParser.map
  seq := LineParser.seq
  skip p q := (p.seq q).map Prod.fst
  next p q := (p.seq q).map Prod.snd
  either := LineParser.either
  attempt := LineParser.attempt
  notFollowedBy := LineParser.notFollowedBy
  many := LineParser.many
  many1 p := (p.seq p.many).map fun (a, l) => a :: l
  skipMany p := p.many.map fun _ => ()
  sepBy1 p q := (p.seq ((q.seq p).map Prod.snd).many).map fun (a, l) => a :: l
  run_satisfy p cs := by cases cs <;> rfl
  run_token _ _ := rfl
  run_eof _ := rfl
  run_map _ _ _ := rfl
  run_seq _ _ _ := rfl
  run_skip _ _ _ := rfl
  run_next _ _ _ := rfl
  run_either _ _ _ := rfl
  run_attempt _ _ := rfl
  run_notFollowedBy _ _ := rfl
  run_many p cs hp := by
    show p.repeated cs = _
    rw [LineParser.repeated]
    split
    · rename_i a rest h
      simp only [h]
      rfl
    · rename_i a rest h
      exact absurd h (hp a rest)
    · rename_i h
      simp only [h]
    · rename_i h
      simp only [h]
  run_many1 _ _ := rfl
  run_skipMany _ _ := rfl
  run_sepBy1 _ _ _ := rfl

end ShiftReduce
