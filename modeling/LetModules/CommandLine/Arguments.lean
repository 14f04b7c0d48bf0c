import LetModules.Settings

/-!
The grammar of the command line: a verb with its package directories and options, and common options
that may stand before the verb as well as after it, where those after it win.

An argument is judged when the one after it is read: an option's value and a run of package
directories stay pending until something else follows. So of two faults the one that is read first
is not always the one that is reported.
-/

namespace LetModules.CommandLine

/-- What a run is asked to do. -/
inductive Verb where
  | check
  | modules
  | tests
  deriving DecidableEq, Repr

namespace Verb

def word : Verb → String
  | .check => "check"
  | .modules => "modules"
  | .tests => "tests"

/-- The verb that a word is. -/
def ofWord? (word : String) : Option Verb :=
  [check, modules, tests].find? fun verb => verb.word = word

end Verb

/-- An option without a value. -/
inductive Flag where
  | noParallel
  | verbose
  | json
  deriving DecidableEq, Repr

/-- An option with a value. -/
inductive Parameter where
  | testSuffix
  | requester
  | package
  deriving DecidableEq, Repr

/-- What an option asks for. -/
inductive Switch where
  | flag (flag : Flag)
  | parameter (parameter : Parameter)
  /-- Asks for the usage text, and for nothing else. -/
  | help
  /-- Asks for the version, and for nothing else. -/
  | version
  deriving DecidableEq, Repr

namespace Switch

/-- The options before a verb, and those after it. -/
def known (verb : Option Verb) : List (String × Switch) :=
  [("test-suffix", .parameter .testSuffix), ("no-parallel", .flag .noParallel),
    ("verbose", .flag .verbose), ("help", .help)]
    ++ match verb with
      | none => [("version", .version)]
      | some .check => [("json", .flag .json)]
      | some .modules => [("from", .parameter .requester), ("package", .parameter .package)]
      | some .tests => []

/-- The option behind `--name`. -/
def ofName? (verb : Option Verb) (name : String) : Option Switch := (known verb).lookup name

/-- The option behind a single letter. -/
def ofLetter? (verb : Option Verb) (letter : Char) : Option Switch :=
  match letter with
  | 'v' => some (.flag .verbose)
  | 'h' => some .help
  | 'V' => if verb.isNone then some .version else none
  | _ => none

end Switch

/-- Why arguments are turned down, or what is shown in place of a run. -/
inductive Refusal where
  | help
  | version
  | nothingGiven
  | missingVerb
  | unknownVerb
  | unknownArgument
  /-- An option comes twice. -/
  | conflict
  /-- A flag is given a value. -/
  | unneededValue
  /-- A value is missing, or a package directory is empty. -/
  | invalidValue
  | missingArgument
  | emptyTestSuffix
  deriving DecidableEq, Repr

/-! ### What has been given -/

/-- What has been given on one side of the verb. -/
structure Given where
  flags : List Flag
  values : List (Parameter × String)
  packages : List String
  deriving DecidableEq, Repr

namespace Given

def nothing : Given := ⟨[], [], []⟩

def isNothing (given : Given) : Bool :=
  given.flags.isEmpty && given.values.isEmpty && given.packages.isEmpty

/-- Adds a flag, once. -/
def withFlag (given : Given) (flag : Flag) : Except Refusal Given :=
  if given.flags.contains flag then .error .conflict
  else .ok { given with flags := flag :: given.flags }

/-- Adds the value of an option, once. -/
def withValue (given : Given) (parameter : Parameter) (value : String) : Except Refusal Given :=
  if (given.values.lookup parameter).isSome then .error .conflict
  else .ok { given with values := (parameter, value) :: given.values }

/-- Adds package directories, none of them empty. -/
def withPackages (given : Given) (packages : List String) : Except Refusal Given :=
  if packages.contains "" then .error .invalidValue
  else .ok { given with packages := given.packages ++ packages }

end Given

/-- What has been read and not been judged. -/
inductive Pending where
  | nothing
  /-- An option whose value comes next. -/
  | awaiting (parameter : Parameter)
  | value (parameter : Parameter) (value : String)
  | packages (packages : List String)
  deriving DecidableEq, Repr

/-- The reading of arguments on one side of the verb. -/
structure Reading where
  given : Given
  pending : Pending
  deriving DecidableEq, Repr

namespace Reading

def start : Reading := ⟨.nothing, .nothing⟩

/-- Judges what is pending. -/
def settle (reading : Reading) : Except Refusal Given :=
  match reading.pending with
  | .nothing => .ok reading.given
  | .awaiting _ => .error .invalidValue
  | .value parameter value => reading.given.withValue parameter value
  | .packages packages => reading.given.withPackages packages

/-- Reads an option that takes no value. -/
def flag (reading : Reading) (flag : Flag) : Except Refusal Reading := do
  let given ← reading.settle
  return ⟨← given.withFlag flag, .nothing⟩

/-- Reads an option that is written as a name, with the value after its `=` if there is one. -/
def named (reading : Reading) (switch : Switch) (value : Option String) : Except Refusal Reading :=
  match switch, value with
  | .parameter parameter, none => do return ⟨← reading.settle, .awaiting parameter⟩
  | .parameter parameter, some value => do
    let given ← reading.settle
    return ⟨← given.withValue parameter value, .nothing⟩
  | _, some _ => .error .unneededValue
  | .flag flag, none => reading.flag flag
  | .help, none => do
    let _ ← reading.settle
    .error .help
  | .version, none => do
    let _ ← reading.settle
    .error .version

/-- Reads options that are written as single letters. -/
def letters (verb : Option Verb) (reading : Reading) : List Char → Except Refusal Reading
  | [] => .ok reading
  | letter :: rest =>
    match Switch.ofLetter? verb letter with
    | none => .error .unknownArgument
    | some switch => do letters verb (← reading.named switch none) rest

/-- Reads a package directory. -/
def directory (reading : Reading) (path : String) : Except Refusal Reading :=
  match reading.pending with
  | .packages packages => .ok { reading with pending := .packages (packages ++ [path]) }
  | _ => do return ⟨← reading.settle, .packages [path]⟩

end Reading

/-! ### Reading arguments -/

/-- What an argument looks like. -/
inductive Shape where
  /-- `--`, after which everything is a word. -/
  | escape
  /-- `--name` or `--name=value`. -/
  | name (name : String) (value : Option String)
  /-- `-abc`. -/
  | letters (letters : List Char)
  | word
  deriving DecidableEq, Repr

namespace Shape

/-- The text before the first `=`, and what follows it. -/
def cutAtEquals (cs : List Char) : String × Option String :=
  (String.ofList (cs.takeWhile (· ≠ '=')),
    match cs.dropWhile (· ≠ '=') with
    | [] => none
    | _ :: value => some (String.ofList value))

/-- The shape of an argument. A lone `-` is a word. -/
def ofArgument (argument : String) : Shape :=
  match argument.toList with
  | ['-', '-'] => .escape
  | '-' :: '-' :: cs => .name (cutAtEquals cs).1 (cutAtEquals cs).2
  | '-' :: c :: cs => .letters (c :: cs)
  | _ => .word

end Shape

namespace Reading

/-- Reads an argument that is an option. -/
def option (verb : Option Verb) (reading : Reading) : Shape → Except Refusal Reading
  | .name name value =>
    match Switch.ofName? verb name with
    | some switch => reading.named switch value
    | none => .error .unknownArgument
  | .letters letters => reading.letters verb letters
  | .escape | .word => .ok reading

/-- Reads the arguments after a verb. -/
def afterVerb (verb : Verb) (reading : Reading) : List String → Except Refusal Given
  | [] => reading.settle
  | argument :: rest =>
    match Shape.ofArgument argument, reading.pending with
    | .escape, _ => do (← rest.foldlM directory reading).settle
    | .word, .awaiting parameter =>
      afterVerb verb { reading with pending := .value parameter argument } rest
    | .word, _ => do afterVerb verb (← reading.directory argument) rest
    | shape, _ => do afterVerb verb (← reading.option (some verb) shape) rest

/-- What is wrong with a word that stands where a verb should. A verb after `--` is taken for a
misplaced argument. -/
def misplaced (escaped : Bool) (word : String) : Refusal :=
  if escaped && (Verb.ofWord? word).isSome then .unknownArgument else .unknownVerb

/-- The end of the arguments without a verb. -/
def withoutVerb (reading : Reading) : Except Refusal α := do
  let given ← reading.settle
  .error (if given.isNothing then .nothingGiven else .missingVerb)

/-- Reads all arguments: those before the verb, of which the last may still be pending, the verb,
and those after it. -/
def all (reading : Reading) : List String → Except Refusal (Reading × Verb × Given)
  | [] => reading.withoutVerb
  | argument :: rest =>
    match Shape.ofArgument argument, reading.pending with
    | .escape, _ =>
      match rest with
      | [] => reading.withoutVerb
      | word :: _ => .error (misplaced true word)
    | .word, .awaiting parameter =>
      all { reading with pending := .value parameter argument } rest
    | .word, _ =>
      match Verb.ofWord? argument with
      | none => .error (misplaced false argument)
      | some verb => do return (reading, verb, ← afterVerb verb start rest)
    | shape, _ => do all (← reading.option none shape) rest

end Reading

/-! ### Commands -/

/-- What a command does with its packages. -/
inductive Action where
  | check (json : Bool)
  /-- The modules that a module can see, which is named by its address. -/
  | modules (requester : String) (package : Option String)
  | tests
  deriving DecidableEq, Repr

/-- What the program is asked to do. -/
structure Command where
  action : Action
  packages : List String
  verbose : Bool
  settings : Settings
  deriving DecidableEq, Repr

namespace Command

/-- The action of a verb with what was given after it. -/
def actionOf (verb : Verb) (given : Given) : Except Refusal Action :=
  if given.packages.isEmpty then .error .missingArgument
  else
    match verb with
    | .check => .ok (.check (given.flags.contains .json))
    | .modules =>
      match given.values.lookup .requester with
      | some requester => .ok (.modules requester (given.values.lookup .package))
      | none => .error .missingArgument
    | .tests => .ok .tests

/-- The settings of a run. A test suffix must not be empty. -/
def settingsOf (suffix : Option String) (parallel : Bool) : Except Refusal Settings :=
  let settings := { Settings.standard with parallel }
  match suffix with
  | none => .ok settings
  | some "" => .error .emptyTestSuffix
  | some suffix => .ok { settings with testSuffix := suffix }

/-- The command that arguments ask for, the name of the program left out. -/
def ofArguments (arguments : List String) : Except Refusal Command := do
  let (reading, verb, after) ← Reading.start.all arguments
  let action ← actionOf verb after
  let before ← reading.settle
  let has (flag : Flag) := before.flags.contains flag || after.flags.contains flag
  let suffix := (after.values.lookup .testSuffix).or (before.values.lookup .testSuffix)
  let settings ← settingsOf suffix (!has .noParallel)
  return ⟨action, after.packages, has .verbose, settings⟩

end Command

end LetModules.CommandLine
