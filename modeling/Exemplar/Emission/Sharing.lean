import Exemplar.Emission.Basic

/-!
# Sharing out a length

A length is shared out to the parts of a sequence. Every part starts with its least length. What is
left goes in random chunks to random parts that can take more, until nothing is left.

## Main definitions

* `Share`: a part and the length it has been given so far
* `shareOut`: random shares that lie in the parts' ranges and add up to the length
-/

namespace Exemplar

/-- A part with a range of lengths, and the length it has been given. -/
structure Share where
  range : Extent
  given : Nat

namespace Share

/-- A part with its least length. -/
def least (range : Extent) : Share := ⟨range, range.least⟩

/-- How much more the part can take. -/
def room (share : Share) : Nat := shortOf share.range.most share.given

/-- The part with some more length. -/
def add (chunk : Nat) (share : Share) : Share := { share with given := share.given + chunk }

end Share

instance : Inhabited Share := ⟨.least default⟩

/-- The array without the member at `i`, whose place the last one takes. -/
def swapRemove {α : Type} (a : Array α) (i : Nat) : Array α :=
  (a.swapIfInBounds i (a.size - 1)).pop

variable {σ : Type}

/-- Gives out `slack` in random chunks. `takers` are the places of the parts that can take more. -/
def giveOut (source : RandomSource σ) (shares : Array Share) (takers : Array Nat) (slack : Nat) :
    Emission σ (Array Share) := fun s =>
  if slack = 0 then .ok shares s
  else if takers.isEmpty then .error (.leftOver slack) s
  else
    let (pick, s) := source.range 0 takers.size s
    let place := takers.getD pick 0
    let below := justAbove (min (shares.getD place default).room slack)
    let chunk := source.range 1 below s
    let shares := shares.modify place (·.add chunk.1)
    let takers :=
      if (shares.getD place default).room = 0 then swapRemove takers pick else takers
    giveOut source shares takers (slack - chunk.1) chunk.2
termination_by slack
decreasing_by exact Nat.sub_lt (by omega) (source.le_range _ _ (by decide))

/-- The places of the parts that can take more than their least length. -/
def initialTakers (parts : List Extent) : Array Nat :=
  ((parts.zipIdx.filter fun (e, _) => e.least < e.most).map Prod.snd).toArray

/-- Random lengths, one for each part and in its range, that add up to `total`. -/
def shareOut (source : RandomSource σ) (parts : List Extent) (total : Nat) :
    Emission σ (List Nat) := do
  let lengths := Extent.sumAll parts
  if total < lengths.least ∨ lengths.most < total then
    throw (.infeasible total)
  let shares := (parts.map Share.least).toArray
  let shares ← giveOut source shares (initialTakers parts) (total - lengths.least)
  return (shares.map (·.given)).toList

end Exemplar
