import Exemplar.CommandLine.Report
import Exemplar.CommandLine.Settings
import Exemplar.Random.ChaCha
import Exemplar.Trace

/-!
# Runs of the program

A run compiles a pattern, generates strings that match it and strings that do not, and reports on
them. Everything that a run takes from outside is an argument: a seed for when none is given, and
the time that compiling took.

## Main definitions

* `Outcome`: what a run leaves behind
* `run`: the run for a list of arguments
-/

namespace Exemplar.CommandLine

/-- What a run leaves behind. -/
structure Outcome where
  /-- The exit code. -/
  code : Nat
  stdout : String := ""
  stderr : String := ""
deriving DecidableEq, Repr

/-- The version of the program. -/
def version : String := "rexgen 0.1.0"

/-- How the program is used. -/
def helpText : String := unlines [
  version,
  "",
  "Generate random strings that match (or do not match) a regular expression.",
  "",
  "Usage:",
  "  rexgen [OPTIONS] [--] <pattern>",
  "",
  "Options:",
  "  -n, --count <n>            Number of strings to generate. Default: 5",
  "  --min <n>                  Minimum string length. Default: 0",
  "  --max <n>                  Maximum string length. Default: unbounded",
  "  --seed <n>                 Seed the random source for reproducible output.",
  "  --exact                    Treat the pattern as anchored at both ends.",
  "  --not-matching             Only generate strings that do not match.",
  "  --color                    Force ANSI color output.",
  "  --no-color                 Disable ANSI color output.",
  "  -h, --help                 Show this help message.",
  "  -V, --version              Print version information.",
  "",
  "Exit codes:",
  "  0  Success.",
  "  1  The pattern could not be compiled.",
  "  2  Invalid arguments or missing pattern."]

/-- The wording of a usage error. -/
def UsageError.message : UsageError → String
  | missingValue option => s!"error: {option} expects a value"
  | invalidNumber option value =>
    s!"error: invalid {option} '{value}' (expected a non-negative integer)"
  | unknownOption argument => s!"error: unknown option '{argument}'"
  | noPattern => "error: no pattern provided\n\n" ++ helpText
  | severalPatterns => "error: pattern provided multiple times"
  | disordered e => "error: " ++ e.message

/-- What a run that ends early leaves behind. -/
def Stop.outcome : Stop → Outcome
  | help => { code := 0, stdout := unlines [helpText] }
  | version => { code := 0, stdout := unlines [CommandLine.version] }
  | misused e => { code := 2, stderr := unlines [e.message] }

variable {σ : Type}

/-- Asks for so many strings, one after the other. -/
def searches (source : RandomSource σ) (g : Generator) (lengths : Extent) (count : Nat) :
    StateM σ (List Search) :=
  (List.replicate count lengths).mapM (g.search source)

/-- The strings that were found, as they are reported. -/
def Samples.ofSearches (g : Generator) (found : List Search) : Samples where
  generator := g.text
  strings := found.map fun search => search.result.mapError (·.message)

/-- The strings of a generator, and the steps in which they were found. -/
def sample (source : RandomSource σ) (g : Generator) (lengths : Extent) (count : Nat) :
    StateM σ (Samples × List Event) := do
  let found ← searches source g lengths count
  return (.ofSearches g found, found.flatMap (traceOfSearch g lengths))

/-- The strings of a job that match and those that do not, and the steps in which they were
found. -/
def Job.samples (job : Job) (source : RandomSource σ) (g : Generator) :
    StateM σ (Option Samples × Option Samples × List Event) := do
  let (matching, steps) ←
    if job.mismatchesOnly then pure (none, [])
    else do
      let (samples, steps) ← sample source g job.lengths job.count
      pure (some samples, steps)
  let steps := steps ++ traceOfComplement g
  match g.notMatching? with
  | none => return (matching, none, steps)
  | some negated =>
    let (mismatching, more) ← sample source negated job.lengths job.count
    return (matching, some mismatching, steps ++ more)

/-- What the pattern of a job is compiled with. -/
def Job.options (job : Job) : Options := { whole := job.whole }

/-- Does a job. The steps are left behind too if `traced` is set; `entropy` is the seed if the job
settles none. -/
def Job.run (traced : Bool) (entropy : Nat) (timing : Timing) (job : Job) : Outcome :=
  let trace (steps : List Event) := if traced then steps.map Event.text else []
  let steps := traceOfCompile job.options job.pattern
  match compile job.options job.pattern with
  | .error e => { code := 1, stderr := unlines (trace steps ++ ["error: " ++ e.message]) }
  | .ok compiled =>
    let seed := (job.seed.getD entropy).toUInt64
    let source := RandomSource.ofBits ChaCha.generator defaultTypicalExtra
    let (matching, mismatching, more) :=
      (job.samples source compiled.generator (ChaCha.seeded seed)).1
    let report : Report := { pattern := job.pattern, compiled, matching, mismatching, timing }
    { code := 0
      stdout := report.text job.color
      stderr := unlines (trace (steps ++ more)) }

/-- The run for a list of arguments; `terminal` tells whether the report goes to a terminal. -/
def run (terminal traced : Bool) (entropy : Nat) (timing : Timing) (arguments : List String) :
    Outcome :=
  match Job.ofArguments terminal arguments with
  | .error stop => stop.outcome
  | .ok job => job.run traced entropy timing

end Exemplar.CommandLine
