import Exemplar.Random.Source

/-!
# Emissions

An emission makes random choices and yields a value, or fails. When it fails, the choices made so
far are spent all the same: the state of the random source is never taken back.

## Main definitions

* `EmissionError`: why no string is produced
* `Emission`: an emission over a source with states in `σ`
* `draw`, `shuffled`: the two kinds of choice as emissions
* `firstOf`: the first one of some emissions that does not fail for a local reason
-/

namespace Exemplar

/-- Why no string is produced. -/
inductive EmissionError where
  /-- There is none of the length asked for. -/
  | length (reason : LengthError)
  /-- A character is needed from a class, read from `text`, that has none in the alphabet. -/
  | emptyClass (text : String)
  /-- Every part is as long as it can be, and there is still some length to be shared out. -/
  | leftOver (slack : Nat)
deriving DecidableEq, Repr

namespace EmissionError

/-- The wording of an emission error. -/
def message : EmissionError → String
  | length reason => reason.message
  | emptyClass text => s!"no character of the configured universe satisfies {text}"
  | leftOver slack => s!"internal error: {slack} characters left over after filling every part"

/-- No string has just this length. -/
def infeasible (n : Nat) : EmissionError := length (.infeasible n)

/-- Whether the error means that no string has just some length. -/
def isInfeasible : EmissionError → Bool
  | length (.infeasible _) => true
  | _ => false

/-- Whether another member of a choice may do better. -/
def isLocal : EmissionError → Bool
  | emptyClass _ => true
  | e => e.isInfeasible

end EmissionError

/-- A computation that makes random choices, with states of the source in `σ`, and may fail. -/
abbrev Emission (σ α : Type) := EStateM EmissionError σ α

variable {σ α : Type}

/-- A count that is at least `least` and below `below`. -/
def draw (source : RandomSource σ) (least below : Nat) : Emission σ Nat := fun s =>
  let (n, s) := source.range least below s
  .ok n s

/-- A list in an order that the source chooses. -/
def shuffled (source : RandomSource σ) (l : List α) : Emission σ (List α) := fun s =>
  let (l, s) := source.shuffle l s
  .ok l s

/-- The first of the emissions that does not fail for a local reason, and the last such failure if
there is none. -/
def firstOf (last : EmissionError) : List (Emission σ α) → Emission σ α
  | [] => throw last
  | e :: es => fun s =>
    match e s with
    | .ok a s => .ok a s
    | .error failure s => if failure.isLocal then firstOf failure es s else .error failure s

end Exemplar
