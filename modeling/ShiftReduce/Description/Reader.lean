import ShiftReduce.Description.Line
import ShiftReduce.Grammar.Builder

/-! Grammar descriptions. A description is read line by line. Symbols are registered where they first
appear: `%token` registers its arguments, and a rule line its left-hand side and then, alternative by
alternative, the names of each. The start symbol is the one that the last `%start` names, or else the
left-hand side of the first rule. The first line that cannot be followed is the error. -/

namespace ShiftReduce

inductive ArgumentCount where
  | atLeastOne
  | exactlyOne
deriving DecidableEq, Repr

def ArgumentCount.text : ArgumentCount → String
  | atLeastOne => "at least one symbol"
  | exactlyOne => "exactly one symbol"

/-- Why a description gives no grammar. Lines are counted from `1`. -/
inductive DescriptionError where
  | malformedRule (line : Nat)
  | unknownDirective (line : Nat) (name : String)
  | directiveArguments (line : Nat) (name : String) (expected : ArgumentCount)
  | noRules
  /-- The lines can be read, but they do not make a grammar. -/
  | grammar (e : GrammarError)
deriving DecidableEq, Repr

def DescriptionError.message : DescriptionError → String
  | malformedRule line => s!"Line {line}: expected a rule of the form `lhs -> a b | c`"
  | unknownDirective line name => s!"Line {line}: unknown directive `{name}`"
  | directiveArguments line name expected =>
    s!"Line {line}: `{name}` expects {expected.text}"
  | noRules => "Grammar file contains no rules"
  | grammar e => e.message

/-- What the lines so far have said. -/
structure Reader where
  builder : Builder
  /-- The argument of the last `%start`. -/
  start? : Option String
  /-- The left-hand side of the first rule. -/
  firstLhs? : Option String

namespace Reader

def empty : Reader := ⟨.empty, none, none⟩

def addAlternatives (lhs : Symbol) : Builder → List (List String) → Except GrammarError Builder
  | b, [] => .ok b
  | b, names :: rest =>
    let (rhs, b) := b.addTokens names
    match b.addRule lhs rhs with
    | .error e => .error e
    | .ok (_, b) => addAlternatives lhs b rest

def addRules (r : Reader) (line : RuleLine) : Except GrammarError Reader :=
  let (lhs, b) := r.builder.addToken line.lhs
  (addAlternatives lhs b line.alternatives).map fun b =>
    { r with builder := b, firstLhs? := some (r.firstLhs?.getD line.lhs) }

def direct (r : Reader) (n : Nat) (name : String) (arguments : List String) :
    Except DescriptionError Reader :=
  if name = "%token" then
    if arguments.isEmpty then .error (.directiveArguments n name .atLeastOne)
    else .ok { r with builder := (r.builder.addTokens arguments).2 }
  else if name = "%start" then
    match arguments with
    | [label] => .ok { r with start? := some label }
    | _ => .error (.directiveArguments n name .exactlyOne)
  else .error (.unknownDirective n name)

def readLine (r : Reader) (n : Nat) (line : DescriptionLine) : Except DescriptionError Reader :=
  match line with
  | .silent => .ok r
  | .directive name arguments => r.direct n name arguments
  | .rules line => (r.addRules line).mapError .grammar
  | .malformed => .error (.malformedRule n)

/-- Reads the lines from number `n` on. -/
def readLines (r : Reader) (n : Nat) : List (List Char) → Except DescriptionError Reader
  | [] => .ok r
  | line :: rest =>
    match r.readLine n (.ofChars line) with
    | .error e => .error e
    | .ok r => r.readLines (n + 1) rest

def finish (r : Reader) : Except DescriptionError AugmentedGrammar :=
  match r.start? <|> r.firstLhs? with
  | none => .error .noRules
  | some label =>
    let (start, b) := r.builder.addToken label
    ((b.setStart start).bind Builder.build).mapError .grammar

end Reader

def AugmentedGrammar.ofDescription (source : String) : Except DescriptionError AugmentedGrammar :=
  (Reader.empty.readLines 1 (Text.lines source.toList)).bind Reader.finish

end ShiftReduce
