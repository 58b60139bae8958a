import ShiftReduce.Command.Basic

/-! Command lines. The first argument names the command. Among the others, one that begins with a
dash is an option, two dashes alone end the options, and all that is left is positional: first the
description file, and for `parse` the tokens after it. An option may stand anywhere, but only once,
and its value is the rest of its argument or the next argument. What no command line can mean, such as
an unknown option, is refused where it stands. Options that only go wrong together, because one is
repeated or is left without its value, are refused when all arguments have been read, so asking for the
version after them is answered. -/

namespace ShiftReduce

inductive Request where
  | run (file : String) (c : Command)
  | version (text : String)
  /-- The arguments cannot be understood. -/
  | refused
deriving DecidableEq, Repr

namespace Request

def programName : String := "lrzero_cli"

def programVersion : String := "0.1.0"

structure Options where
  flags : List String := []
  /-- The long name of the option that takes a value. -/
  valued? : Option String := none
  letter? : Option Char := none
  /-- Whether more than one positional argument may be given. -/
  many : Bool := false
deriving DecidableEq, Repr

def commandOptions : List (String × Options) :=
  [("table", { flags := ["strict"], valued? := some "csv" }),
    ("states", {}),
    ("graph", { valued? := some "output", letter? := some 'o' }),
    ("grammar", {}),
    ("check", {}),
    ("parse", { many := true })]

/-- What the arguments so far have said. -/
structure Given where
  flags : List String := []
  value? : Option String := none
  /-- The positional arguments, the latest first. -/
  positional : List String := []
  /-- Whether an option has been repeated or left without its value. -/
  faulty : Bool := false
deriving DecidableEq, Repr

/-- What an argument that is not an option's value can be. -/
inductive Argument where
  | positional
  | endOfOptions
  /-- A long option, with what follows its first equals sign. -/
  | long (name : String) (value? : Option String)
  /-- A letter, with what follows it. -/
  | short (letter : Char) (rest : String)
deriving DecidableEq, Repr

/-- A single dash is no option. The dashes before a long name are not part of it, however many. -/
def classify (argument : String) : Argument :=
  match argument.toList with
  | ['-', '-'] => .endOfOptions
  | '-' :: '-' :: cs =>
    let cs := cs.dropWhile (· == '-')
    match cs.dropWhile (· != '=') with
    | _ :: value =>
      .long (String.ofList (cs.takeWhile (· != '='))) (some (String.ofList value))
    | [] => .long (String.ofList cs) none
  | '-' :: c :: rest => .short c (String.ofList rest)
  | _ => .positional

def bareValue (value : String) : String := String.ofList (value.toList.dropWhile (· == '='))

/-- How the reading of arguments ends: with what they say, with a request for the version, or with
arguments that make no sense. -/
inductive Reading where
  | given (g : Given)
  | version
  | refused
deriving DecidableEq, Repr

namespace Given

def addPositional? (o : Options) (g : Given) (argument : String) : Option Given :=
  if o.many || g.positional.isEmpty then some { g with positional := argument :: g.positional }
  else none

def addFlag? (o : Options) (g : Given) (name : String) : Option Given :=
  if o.flags.contains name then
    some { g with flags := name :: g.flags, faulty := g.faulty || g.flags.contains name }
  else none

def addValue (g : Given) (value : String) : Given :=
  { g with value? := some value, faulty := g.faulty || g.value?.isSome }

def missValue (g : Given) : Given := { g with faulty := true }

/-- What the arguments have said once all of them have been read. -/
def finish (g : Given) : Reading := if g.faulty then .refused else .given g

/-- Adds arguments that stand after the end of the options. -/
def addPositionals (o : Options) (g : Given) : List String → Reading
  | [] => g.finish
  | a :: rest =>
    match g.addPositional? o a with
    | some g => g.addPositionals o rest
    | none => .refused

/-- Whether an argument is the option that takes a value, without the value. -/
def wantsValue (o : Options) (a : String) : Bool :=
  match classify a with
  | .long name none => some name == o.valued?
  | .short c "" => some c == o.letter?
  | _ => false

/-- Adds arguments. An option that has no value with it takes the next argument, unless that is an option
itself. -/
def addArguments (o : Options) (g : Given) : List String → Reading
  | [] => g.finish
  | a :: rest =>
    if wantsValue o a then
      match rest with
      | [] => g.missValue.finish
      | value :: others =>
        if classify value = .positional then (g.addValue value).addArguments o others
        else g.missValue.addArguments o (value :: others)
    else
      match classify a with
      | .endOfOptions => g.addPositionals o rest
      | .positional =>
        match g.addPositional? o a with
        | some g => g.addArguments o rest
        | none => .refused
      | .long name (some value) =>
        if some name = o.valued? then (g.addValue (bareValue value)).addArguments o rest
        else .refused
      | .long name none =>
        if name = "version" then .version
        else
          match g.addFlag? o name with
          | some g => g.addArguments o rest
          | none => .refused
      | .short c value =>
        if some c = o.letter? then (g.addValue (bareValue value)).addArguments o rest
        else if c = 'V' then .version
        else .refused

/-- The command that was named, with what was given for it. -/
def command? (g : Given) (name : String) (tokens : List String) : Option Command :=
  match name with
  | "table" => some (.table g.value? (g.flags.contains "strict"))
  | "states" => some .states
  | "graph" => some (.graph g.value?)
  | "grammar" => some .grammar
  | "check" => some .check
  | "parse" => some (.parse tokens)
  | _ => none

end Given

/-- What the arguments after the name of a command ask for. -/
def ofCommand (name : String) (o : Options) (arguments : List String) : Request :=
  match ({} : Given).addArguments o arguments with
  | .refused => refused
  | .version => version s!"{programName}-{name} "
  | .given g =>
    match g.positional.reverse with
    | [] => refused
    | file :: tokens =>
      match g.command? name tokens with
      | some c => run file c
      | none => refused

def ofArguments : List String → Request
  | [] => refused
  | name :: rest =>
    match commandOptions.lookup name with
    | some o => ofCommand name o rest
    | none =>
      match classify name with
      | .long "version" none => version s!"{programName} {programVersion}"
      | .short 'V' _ => version s!"{programName} {programVersion}"
      | _ => refused

end Request

end ShiftReduce
