import ShiftReduce.Grammar.Basic

/-! Token streams. A stream has some tokens before it and an end token that it reports, again and
again, once the others are used up. Each token knows where in the input it stands. -/

namespace ShiftReduce

/-- A symbol with the part of the input that it covers. -/
structure Token where
  symbol : Symbol
  start : Nat
  stop : Nat
deriving DecidableEq, Repr

structure TokenStream where
  tokens : List Token
  /-- What is reported after them. -/
  last : Token
deriving DecidableEq, Repr

namespace TokenStream

/-- The stream of some symbols: each covers its own place, and the end covers nothing. -/
def ofSymbols (l : List Symbol) (endSymbol : Symbol) : TokenStream where
  tokens := l.zipIdx.map fun (s, n) => ⟨s, n, n + 1⟩
  last := ⟨endSymbol, l.length, l.length⟩

def head (s : TokenStream) : Token := s.tokens.headD s.last

/-- The stream after its current token. At the end there is nothing to pass over. -/
def advance (s : TokenStream) : TokenStream := { s with tokens := s.tokens.tail }

/-- The current token, and the current tokens after each of `n` advances. -/
def heads (s : TokenStream) : Nat → List Token
  | 0 => [s.head]
  | n + 1 => s.head :: s.advance.heads n

end TokenStream

end ShiftReduce
