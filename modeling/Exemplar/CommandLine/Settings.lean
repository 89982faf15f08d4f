import Exemplar.Extent
import Exemplar.Text.Decimal

/-!
# Settings

The arguments of the program: options, in any order, and one pattern. A number may follow its
option as the next argument, or after an equals sign if the option is a long one. What follows `--`
is the pattern, whatever it looks like.

## Main definitions

* `Settings`: what the arguments ask for
* `Stop`: why there is nothing to be done, or why it cannot be
* `Settings.ofArguments`: the settings of a list of arguments
-/

namespace Exemplar.CommandLine

/-- What is wrong with a list of arguments. -/
inductive UsageError where
  /-- No number follows the option. -/
  | missingValue (option : String)
  /-- What follows the option is no number, or too great a one. -/
  | invalidNumber (option value : String)
  | unknownOption (argument : String)
  | noPattern
  | severalPatterns
  /-- The least length is greater than the greatest one. -/
  | disordered (e : DisorderedEnds)
deriving DecidableEq, Repr

/-- Why the program ends before it looks at the pattern. -/
inductive Stop where
  | help
  | version
  | misused (e : UsageError)
deriving DecidableEq, Repr

/-- What the arguments ask for. -/
structure Settings where
  pattern : Option String := none
  /-- How many strings are generated. -/
  count : Nat := 5
  /-- The least length of a string. -/
  least : Nat := 0
  /-- The greatest length of a string. -/
  most : Nat := unbounded
  /-- What the random source starts from, if this is settled. -/
  seed : Option Nat := none
  /-- The pattern has to match the whole string. -/
  whole : Bool := false
  /-- Only strings that do not match are generated. -/
  mismatchesOnly : Bool := false
  /-- The report is colored. -/
  color : Bool := false
deriving DecidableEq, Repr

/-- An option of the program. -/
inductive Flag where
  | help
  | version
  /-- The end of the options: the pattern follows. -/
  | patternFollows
  /-- Settles something by itself. -/
  | switch (set : Settings → Settings)
  /-- Settles a number. -/
  | number (set : Nat → Settings → Settings)

/-- The option with a name. -/
def Flag.ofName? : String → Option Flag
  | "-h" | "--help" => some .help
  | "-V" | "--version" => some .version
  | "--color" => some (.switch fun st => { st with color := true })
  | "--no-color" => some (.switch fun st => { st with color := false })
  | "--exact" => some (.switch fun st => { st with whole := true })
  | "--not-matching" => some (.switch fun st => { st with mismatchesOnly := true })
  | "-n" | "--count" => some (.number fun n st => { st with count := n })
  | "--min" => some (.number fun n st => { st with least := n })
  | "--max" => some (.number fun n st => { st with most := n })
  | "--seed" => some (.number fun n st => { st with seed := some n })
  | "--" => some .patternFollows
  | _ => none

/-- The name of an option and the value that follows an equals sign in the same argument. Only an
argument with two dashes in front is taken apart. -/
def nameAndValue (argument : String) : String × Option String :=
  match argument.toList with
  | '-' :: '-' :: rest =>
    match rest.dropWhile (· ≠ '=') with
    | _ :: value =>
      (String.ofList ('-' :: '-' :: rest.takeWhile (· ≠ '=')), some (String.ofList value))
    | [] => (argument, none)
  | _ => (argument, none)

/-- A number in decimal digits, perhaps behind a plus sign, that is no greater than `unbounded`. -/
def number? (text : String) : Option Nat :=
  let digits :=
    match text.toList with
    | '+' :: digits => digits
    | digits => digits
  if digits.isEmpty || !digits.all Char.isDigit then none
  else if unbounded < decimalValue digits then none
  else some (decimalValue digits)

/-- Whether an argument that is not the name of an option looks like one. A single dash does not. -/
def looksLikeOption (argument : String) : Bool :=
  match argument.toList with
  | '-' :: _ :: _ => true
  | _ => false

namespace Settings

/-- The settings with this pattern, if they have none yet. -/
def withPattern (st : Settings) (pattern : String) : Except Stop Settings :=
  if st.pattern.isSome then .error (.misused .severalPatterns)
  else .ok { st with pattern := some pattern }

/-- The settings with a number that is the value of an option. -/
def withNumber (st : Settings) (set : Nat → Settings → Settings) (option value : String) :
    Except Stop Settings :=
  match number? value with
  | some n => .ok (set n st)
  | none => .error (.misused (.invalidNumber option value))

/-- The settings after some more arguments. -/
def read (st : Settings) : List String → Except Stop Settings
  | [] => .ok st
  | argument :: rest =>
    let (option, value?) := nameAndValue argument
    match Flag.ofName? option with
    | some .help => .error .help
    | some .version => .error .version
    | some (.switch set) => (set st).read rest
    | some (.number set) =>
      match value?, rest with
      | some value, rest => do (← st.withNumber set option value).read rest
      | none, value :: rest => do (← st.withNumber set option value).read rest
      | none, [] => .error (.misused (.missingValue option))
    | some .patternFollows =>
      match rest with
      | [] => .ok st
      | [pattern] => st.withPattern pattern
      | pattern :: _ => do
        discard (st.withPattern pattern)
        .error (.misused .severalPatterns)
    | none =>
      if looksLikeOption argument then .error (.misused (.unknownOption argument))
      else do (← st.withPattern argument).read rest
termination_by arguments => arguments.length

/-- The settings that a list of arguments asks for; `color` tells whether the report is colored if
no argument settles that. -/
def ofArguments (color : Bool) (arguments : List String) : Except Stop Settings :=
  Settings.read { color } arguments

end Settings

/-- What the program is to do. -/
structure Job where
  pattern : String
  count : Nat
  /-- The lengths that strings may have. -/
  lengths : Extent
  seed : Option Nat
  whole : Bool
  mismatchesOnly : Bool
  color : Bool
deriving DecidableEq

/-- The job that a list of arguments asks for. -/
def Job.ofArguments (color : Bool) (arguments : List String) : Except Stop Job := do
  let st ← Settings.ofArguments color arguments
  match st.pattern with
  | none => throw (.misused .noPattern)
  | some pattern =>
    match Extent.ofEnds st.least st.most with
    | .error e => throw (.misused (.disordered e))
    | .ok lengths =>
      return { st with pattern, lengths }

end Exemplar.CommandLine
