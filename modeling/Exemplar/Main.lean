import Exemplar.CommandLine.Duration
import Exemplar.CommandLine.Run

/-!
# The program

Reads the arguments, measures how long compiling takes, draws a seed, and prints what the run leaves
behind.
-/

namespace Exemplar.CommandLine

/-- A value, and how long it took to compute. -/
def timed {α : Type} (compute : Unit → α) : IO (α × Nat) := do
  let start ← IO.monoNanosNow
  let value ← IO.lazyPure compute
  let stop ← IO.monoNanosNow
  return (value, stop - start)

/-- How long compiling the pattern of a job takes. -/
def Job.timing (job : Job) : IO Timing := do
  let (tree, parse) ← timed fun _ => Pattern.parse job.options job.pattern.toList
  let pad ←
    match tree with
    | .error _ => pure 0
    | .ok tree => Prod.snd <$> timed fun _ => Generator.ofTree job.options tree
  return {
    total := durationText (parse + pad)
    parse := durationText parse
    pad := durationText pad }

/-- A seed of 64 random bits. -/
def entropy : IO Nat := do
  let bytes ← IO.getRandomBytes 8
  return bytes.toList.foldl (fun n byte => n * 256 + byte.toNat) 0

/-- Prints what a run leaves behind and ends with its exit code. -/
def Outcome.print (outcome : Outcome) : IO UInt32 := do
  (← IO.getStderr).putStr outcome.stderr
  (← IO.getStdout).putStr outcome.stdout
  return outcome.code.toUInt32

end Exemplar.CommandLine

open Exemplar.CommandLine in
/-- The program. -/
def main (arguments : List String) : IO UInt32 := do
  let terminal ← (← IO.getStdout).isTty
  let traced := (← IO.getEnv "REXGEN_DEBUG").isSome
  match Job.ofArguments terminal arguments with
  | .error stop => stop.outcome.print
  | .ok job => (job.run traced (← entropy) (← job.timing)).print
