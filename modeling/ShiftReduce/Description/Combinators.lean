import ShiftReduce.Description.RuleLine

/-! A parser for rule lines that is put together from smaller parsers. What puts them together is not fixed here:
any combinators will do that have the usual meaning. A parser takes characters from the beginning of what is left of a
line, or fails, and it makes a difference whether it has consumed any of them before it fails. A choice goes on to its
second parser, and a repetition ends, only if nothing has been consumed. All of these parsers come to the same rules
as `RuleLine.ofChars?`. -/

namespace ShiftReduce

/-- What comes of a parser: what it tells and what is left of the line, or nothing, and in either case whether any
characters have been consumed. -/
inductive Reply (α : Type) where
  | value (a : α) (rest : List Char) (consumed : Bool)
  | error (consumed : Bool)
deriving DecidableEq, Repr

namespace Reply

variable {α β : Type}

def map (f : α → β) : Reply α → Reply β
  | value a rest consumed => value (f a) rest consumed
  | error consumed => error consumed

/-- What comes of two parsers if the first has told `a` and the second has made this reply. -/
def after (a : α) (consumed : Bool) : Reply β → Reply (α × β)
  | value b rest consumed' => value (a, b) rest (consumed || consumed')
  | error consumed' => error (consumed || consumed')

def value? : Reply α → Option α
  | value a _ _ => some a
  | error _ => none

end Reply

/-- Parsers for lines and what can be made of them. -/
structure Combinators where
  Parser : Type → Type
  run {α : Type} : Parser α → List Char → Reply α
  /-- One character of a kind. -/
  satisfy : (Char → Bool) → Parser Char
  token : Char → Parser Char
  eof : Parser Unit
  map {α β : Type} : (α → β) → Parser α → Parser β
  /-- One parser after the other. -/
  seq {α β : Type} : Parser α → Parser β → Parser (α × β)
  /-- One parser after the other, where the second one does not count. -/
  skip {α β : Type} : Parser α → Parser β → Parser α
  /-- One parser after the other, where the first one does not count. -/
  next {α β : Type} : Parser α → Parser β → Parser β
  /-- The first parser, or the second if the first fails without having consumed anything. -/
  either {α : Type} : Parser α → Parser α → Parser α
  /-- A parser that takes back what it has consumed when it fails. -/
  attempt {α : Type} : Parser α → Parser α
  /-- Succeeds where the parser fails. Nothing is consumed. -/
  notFollowedBy {α : Type} : Parser α → Parser Unit
  many {α : Type} : Parser α → Parser (List α)
  many1 {α : Type} : Parser α → Parser (List α)
  skipMany {α : Type} : Parser α → Parser Unit
  /-- One or more times the first parser, with the second one in between. -/
  sepBy1 {α β : Type} : Parser α → Parser β → Parser (List α)
  run_satisfy (p : Char → Bool) (cs : List Char) : run (satisfy p) cs =
    match cs with
    | [] => .error false
    | x :: rest => if p x then .value x rest true else .error false
  run_token (x : Char) (cs : List Char) : run (token x) cs = run (satisfy (· == x)) cs
  run_eof (cs : List Char) : run eof cs = if cs = [] then .value () [] false else .error false
  run_map {α β : Type} (f : α → β) (p : Parser α) (cs : List Char) : run (map f p) cs = (run p cs).map f
  run_seq {α β : Type} (p : Parser α) (q : Parser β) (cs : List Char) : run (seq p q) cs =
    match run p cs with
    | .value a rest consumed => (run q rest).after a consumed
    | .error consumed => .error consumed
  run_skip {α β : Type} (p : Parser α) (q : Parser β) (cs : List Char) :
    run (skip p q) cs = run (map Prod.fst (seq p q)) cs
  run_next {α β : Type} (p : Parser α) (q : Parser β) (cs : List Char) :
    run (next p q) cs = run (map Prod.snd (seq p q)) cs
  run_either {α : Type} (p q : Parser α) (cs : List Char) : run (either p q) cs =
    match run p cs with
    | .error false => run q cs
    | reply => reply
  run_attempt {α : Type} (p : Parser α) (cs : List Char) : run (attempt p) cs =
    match run p cs with
    | .error _ => .error false
    | reply => reply
  run_notFollowedBy {α : Type} (p : Parser α) (cs : List Char) : run (notFollowedBy p) cs =
    match run p cs with
    | .error _ => .value () cs false
    | .value _ _ _ => .error false
  /-- A parser may be repeated if it consumes something each time it succeeds. It is tried until it fails. -/
  run_many {α : Type} (p : Parser α) (cs : List Char) (hp : ∀ a rest, run p cs ≠ .value a rest false) :
    run (many p) cs =
      match run p cs with
      | .value a rest consumed => ((run (many p) rest).after a consumed).map fun (a, l) => a :: l
      | .error true => .error true
      | .error false => .value [] cs false
  run_many1 {α : Type} (p : Parser α) (cs : List Char) :
    run (many1 p) cs = run (map (fun (a, l) => a :: l) (seq p (many p))) cs
  run_skipMany {α : Type} (p : Parser α) (cs : List Char) : run (skipMany p) cs = run (map (fun _ => ()) (many p)) cs
  run_sepBy1 {α β : Type} (p : Parser α) (q : Parser β) (cs : List Char) :
    run (sepBy1 p q) cs = run (map (fun (a, l) => a :: l) (seq p (many (next q p)))) cs

namespace Combinators

variable (c : Combinators)

/-- Spaces and tabs. -/
def blanks : c.Parser Unit := c.skipMany (c.satisfy fun x => x == ' ' || x == '\t')

def separator : c.Parser Unit := c.map (fun _ => ()) (c.skip (c.seq (c.token '-') (c.token '>')) c.blanks)

/-- A character of a name. A dash is one unless it begins an arrow. -/
def symbolChar : c.Parser Char :=
  let plain := c.satisfy fun x => !Text.isBlank x && x != '|' && x != '-'
  let dash := c.attempt (c.skip (c.token '-') (c.notFollowedBy (c.map (fun _ => "->") (c.token '>'))))
  c.either plain dash

def symbolName : c.Parser String := c.skip (c.map String.ofList (c.many1 c.symbolChar)) c.blanks

def alternative : c.Parser (List String) := c.many c.symbolName

def bar : c.Parser Char := c.skip (c.token '|') c.blanks

def ruleLine : c.Parser RuleLine :=
  c.map (fun (lhs, _, alternatives, _) => ⟨lhs, alternatives⟩)
    (c.seq (c.next c.blanks c.symbolName)
      (c.seq c.separator
        (c.seq (c.sepBy1 c.alternative c.bar)
          c.eof)))

end Combinators

end ShiftReduce
