import ShiftReduce.Description.Reader
import ShiftReduce.Recognizer.Run
import ShiftReduce.Report.Conflicts
import ShiftReduce.Report.Graph
import ShiftReduce.Report.States
import ShiftReduce.Report.Symbols

/-! The commands. A command reads a grammar description and answers with a transcript: what it wants
printed and written, in order, and the error that ended it. The transcript is plain data. Only when
it is performed does it show whether a file can be written; if not, nothing after it takes place. -/

namespace ShiftReduce

inductive FileFailure where
  | notFound
  /-- What the file holds is not text in UTF-8. -/
  | notText
  | other (reason : String)
deriving DecidableEq, Repr

def FileFailure.message : FileFailure → String
  | notFound => "No such file or directory (os error 2)"
  | notText => "stream did not contain valid UTF-8"
  | other reason => reason

inductive CommandError where
  | unreadable (f : FileFailure)
  | description (e : DescriptionError)
  | table (e : TableError)
  | conflicts (count : Nat)
  | unknownTerminal (label : String)
  /-- The input is not accepted; its tokens are counted from `1`. -/
  | rejected (state : StateId) (label : String) (position : Nat)
  | malformedTable (state : StateId) (label : String)
  | endless
  | unwritable (f : FileFailure)
deriving DecidableEq, Repr

def CommandError.message : CommandError → String
  | unreadable f => s!"Could not read grammar file: {f.message}"
  | description e => e.message
  | table e => e.message
  | conflicts count => s!"Grammar is not LR(0), found {count} conflict(s)"
  | unknownTerminal label => s!"`{label}` is not a terminal of the grammar"
  | rejected state label position =>
    s!"Input rejected in state {state}: unexpected `{label}` at token {position}"
  | malformedTable state label => s!"Parse table is malformed at state {state} on `{label}`"
  | endless => ParseError.endless.message
  | unwritable f => f.message

/-- Something that a command wants done. -/
inductive Effect where
  | print (text : String)
  | complain (text : String)
  | write (path text : String)
deriving DecidableEq, Repr

structure Transcript where
  effects : List Effect := []
  error? : Option CommandError := none
deriving DecidableEq, Repr

namespace Transcript

def printLines (l : List String) : Transcript := { effects := [.print (String.join (l.map (· ++ "\n")))] }

def fail (e : CommandError) : Transcript := { error? := some e }

/-- One transcript after the other, unless the first ends in an error. -/
def andThen (s t : Transcript) : Transcript :=
  match s.error? with
  | some _ => s
  | none => ⟨s.effects ++ t.effects, t.error?⟩

/-- What is left of a transcript once it has been performed. -/
structure Outcome where
  stdout : String := ""
  stderr : String := ""
  /-- The files that were written, the latest first, with their texts. -/
  written : List (String × String) := []
  error? : Option CommandError := none
deriving DecidableEq, Repr

/-- Performs effects in order up to the first file that cannot be written. -/
def performEffects (failure? : String → Option FileFailure) (o : Outcome) : List Effect → Outcome
  | [] => o
  | .print text :: l => performEffects failure? { o with stdout := o.stdout ++ text } l
  | .complain text :: l => performEffects failure? { o with stderr := o.stderr ++ text } l
  | .write path text :: l =>
    match failure? path with
    | some f => { o with error? := some (.unwritable f) }
    | none => performEffects failure? { o with written := (path, text) :: o.written } l

/-- Performs a transcript, where `failure?` tells which files cannot be written. -/
def perform (failure? : String → Option FileFailure) (t : Transcript) : Outcome :=
  performEffects failure? { error? := t.error? } t.effects

end Transcript

inductive Command where
  /-- The parse table as a grid, printed or written to a file as comma-separated fields. If it is
  strict, a table with conflicts is an error. -/
  | table (csv? : Option String) (strict : Bool)
  | conflicts
  | states
  /-- The automaton as a graph, written to a file or printed. -/
  | graph (output? : Option String)
  | grammar
  | check
  | parse (labels : List String)
deriving DecidableEq, Repr

namespace Command

def decode (content : ByteArray) : Except FileFailure String :=
  match String.fromUTF8? content with
  | some s => .ok s
  | none => .error .notText

/-! ### Conflicts -/

/-- Complains about the conflicts of a table, if it has any. -/
def reportConflicts (g : Grammar) (t : ParseTable) : Transcript :=
  if t.isConflictFree then {}
  else
    { effects := (Report.conflictSummary g t).map fun line => .complain (line ++ "\n")
      error? := some (.conflicts t.conflicts.size) }

/-! ### Parsing an input -/

/-- The terminals of some labels, or the first label that is none. The end symbol cannot be given. -/
def terminals (g : AugmentedGrammar) : List String → Except CommandError (List Symbol)
  | [] => .ok []
  | label :: rest =>
    match (g.symbol? label).filter fun s => g.isTerminal s && s != g.endSymbol with
    | none => .error (.unknownTerminal label)
    | some s => (terminals g rest).map (s :: ·)

/-- A parse error with labels in place of symbols. -/
def describeError (g : Grammar) : ParseError → CommandError
  | .unexpected token state => .rejected state (g.label token.symbol) (token.start + 1)
  | .malformedTable state symbol => .malformedTable state (g.label symbol)
  | .endless => .endless

def reductionLines (g : Grammar) (l : List RuleId) : List String :=
  l.filterMap fun r => (g.rule? r).map fun rule => s!"reduce ({r}) {g.ruleText rule}"

def inputStream (g : Grammar) (l : List Symbol) : TokenStream := .ofSymbols l g.endSymbol

def parseInput (g : AugmentedGrammar) (t : ParseTable) (labels : List String) : Transcript :=
  match terminals g labels with
  | .error e => .fail e
  | .ok l =>
    match recognize g.toGrammar t (inputStream g.toGrammar l) with
    | .error e => .fail (describeError g.toGrammar e)
    | .ok rules => .printLines (reductionLines g.toGrammar rules ++ ["Accepted"])

/-- What is recorded while an input is parsed. -/
def parseLog (g : AugmentedGrammar) (t : ParseTable) (labels : List String) : List LogRecord :=
  let warning :=
    if t.isConflictFree then []
    else
      [LogRecord.mk .warn
        (s!"grammar has {t.conflicts.size} conflict(s), " ++
          "the first action of each entry is used")]
  match terminals g labels with
  | .error _ => warning
  | .ok l => warning ++ recognizeLog g.toGrammar t (inputStream g.toGrammar l)

/-! ### Running a command -/

def writeFile (path text : String) : Transcript := { effects := [.write path text] }

/-- Shows the table as a grid, and then complains about conflicts if that is asked for. -/
def showTable (g : Grammar) (csv? : Option String) (strict : Bool) (t : ParseTable) : Transcript :=
  let grid := Report.tableGrid g t
  let shown :=
    match csv? with
    | some path => writeFile path grid.separated
    | none => .printLines [grid.bordered]
  if strict then shown.andThen (reportConflicts g t) else shown

def showGraph (g : Grammar) (output? : Option String) (t : ParseTable) : Transcript :=
  match output? with
  | some path => writeFile path (Report.graphText g t)
  | none => { effects := [.print (Report.graphText g t)] }

def showGrammar (g : AugmentedGrammar) : Transcript :=
  .printLines (Report.ruleLines g.toGrammar ++ ["", (Report.symbolGrid g).bordered])

/-- Complains about conflicts, or else prints how large the table is. -/
def checkTable (g : Grammar) (t : ParseTable) : Transcript :=
  let summary :=
    s!"Grammar is LR(0): {t.automaton.size} states, {t.actions.size} actions"
  (reportConflicts g t).andThen (.printLines [summary])

/-- Makes the table of a grammar and goes on with it. -/
def withTable (g : Grammar) (use : ParseTable → Transcript) : Transcript :=
  match ParseTable.ofGrammar g with
  | .error e => .fail (.table e)
  | .ok t => use t

def answer (g : AugmentedGrammar) : Command → Transcript
  | table csv? strict => withTable g.toGrammar (showTable g.toGrammar csv? strict)
  | conflicts => withTable g.toGrammar (reportConflicts g.toGrammar)
  | states =>
    withTable g.toGrammar fun t => { effects := [.print (Report.statesText g.toGrammar t)] }
  | graph output? => withTable g.toGrammar (showGraph g.toGrammar output?)
  | grammar => showGrammar g
  | check => withTable g.toGrammar (checkTable g.toGrammar)
  | parse labels => withTable g.toGrammar fun t => parseInput g t labels

/-- What is recorded while a command runs on a grammar. -/
def logFor (g : AugmentedGrammar) : Command → List LogRecord
  | grammar => []
  | parse labels =>
    ParseTable.log g.toGrammar ++
      match ParseTable.ofGrammar g.toGrammar with
      | .error _ => []
      | .ok t => parseLog g t labels
  | _ => ParseTable.log g.toGrammar

def run (source : Except FileFailure String) (c : Command) : Transcript :=
  match source with
  | .error f => .fail (.unreadable f)
  | .ok text =>
    match AugmentedGrammar.ofDescription text with
    | .error e => .fail (.description e)
    | .ok g => answer g c

/-- What is recorded while a command runs on the text of a grammar description. -/
def log (source : Except FileFailure String) (c : Command) : List LogRecord :=
  match source with
  | .error _ => []
  | .ok text =>
    match AugmentedGrammar.ofDescription text with
    | .error _ => []
    | .ok g => logFor g c

end Command

end ShiftReduce
