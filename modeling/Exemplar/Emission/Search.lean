import Exemplar.Emission.Emitter

/-!
# Searching for a string

A string is asked for by a range of lengths. A length is drawn from those of the range that the
emitter has strings of, or may have strings of: where it turns out to have none, another length is
drawn, a limited number of times.

## Main definitions

* `Search`: what asking for a string led to
* `Emitter.search`: asks for a string
-/

namespace Exemplar

/-- What asking for a string led to. -/
structure Search where
  /-- The lengths that were drawn in vain, in this order. -/
  failed : List Nat := []
  /-- The string, or why there is none. -/
  result : Except EmissionError (List Char)

/-- How many lengths are drawn at most. -/
def maxAttempts : Nat := 16

namespace Emitter

variable {σ : Type}

/-- Draws up to `attempts` lengths and asks for a string of each; `failed` are those that were drawn
before. -/
def attempt (source : RandomSource σ) (e : Emitter σ) (lengths : Extent) :
    (attempts : Nat) → (failed : List Nat) → σ → Search × σ
  | 0, failed, s =>
    (⟨failed, .error (.infeasible (failed.getLast?.getD lengths.least))⟩, s)
  | attempts + 1, failed, s =>
    let (total, s) := source.range lengths.least (justAbove lengths.most) s
    match e.emit total s with
    | .ok text s => (⟨failed, .ok text⟩, s)
    | .error error s =>
      if error.isInfeasible then attempt source e lengths attempts (failed ++ [total]) s
      else (⟨failed, .error error⟩, s)

/-- Asks for a string with a length in the range. -/
def search (source : RandomSource σ) (e : Emitter σ) (range : Extent) (s : σ) : Search × σ :=
  match e.length.clip range with
  | .error reason => ({ result := .error (.length reason) }, s)
  | .ok lengths => e.attempt source lengths maxAttempts [] s

end Emitter

end Exemplar
