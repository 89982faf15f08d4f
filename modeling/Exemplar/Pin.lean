/-!
# Pins

A part of a pattern is pinned at its front when it has to stand at the very beginning of the
string, and at its back when it has to stand at the very end. A part with several branches may be
pinned in some of them only. A lookaround restricts where a part may stand in the same way, without
pinning it.

## Main definitions

* `Side`: the front or the back of a part
* `Pin`: what is known of one side
* `Pins`: what is known of both
-/

namespace Exemplar

/-- An end of a part of a pattern. -/
inductive Side where
  | front
  | back
deriving DecidableEq, Repr

/-- The end of the string at which the side lies. -/
def Side.word : Side → String
  | .front => "start"
  | .back => "end"

/-- The same with a capital letter. -/
def Side.title : Side → String
  | .front => "Start"
  | .back => "End"

/-- How a part of a pattern is held at one of its sides. -/
structure Pin where
  /-- Some branch is pinned. -/
  inSome : Bool := false
  /-- Every branch is pinned. -/
  inAll : Bool := false
  /-- The outermost part on this side is the text of a lookaround. -/
  byLook : Bool := false
deriving DecidableEq, Repr

namespace Pin

/-- Held by nothing. -/
def free : Pin := {}

/-- Held by `^` or `$` in front of or behind the part. -/
def anchor : Pin := { inSome := true, inAll := true }

/-- Held by a lookaround. -/
def look : Pin := { byLook := true }

/-- What holds in either. -/
def union (p q : Pin) : Pin :=
  { inSome := p.inSome || q.inSome, inAll := p.inAll || q.inAll, byLook := p.byLook || q.byLook }

/-- What holds in `p` and not in `q`. -/
def diff (p q : Pin) : Pin :=
  { inSome := p.inSome && !q.inSome, inAll := p.inAll && !q.inAll, byLook := p.byLook && !q.byLook }

/-- The pin of a part that may be missing: the branch without it is not pinned. -/
def loosen (p : Pin) : Pin := { p with inAll := false }

/-- The pin of a choice between parts with these pins. -/
def ofBranches (ps : List Pin) : Pin where
  inSome := ps.any (·.inSome)
  inAll := !ps.isEmpty && ps.all (·.inAll)
  byLook := ps.any (·.byLook)

/-- Whether some branch is pinned and some is not. -/
def isPartial (p : Pin) : Bool := p.inSome && !p.inAll

end Pin

/-- How a part of a pattern is held at both sides. -/
structure Pins where
  front : Pin := .free
  back : Pin := .free
deriving DecidableEq, Repr

namespace Pins

/-- Held by nothing. -/
def free : Pins := {}

/-- Pinned at both sides. -/
def both : Pins := ⟨.anchor, .anchor⟩

/-- The pin at a side. -/
def on (p : Pins) : Side → Pin
  | .front => p.front
  | .back => p.back

/-- Held at one side only. -/
def only (side : Side) (pin : Pin) : Pins :=
  match side with
  | .front => { front := pin }
  | .back => { back := pin }

/-- What holds in either. -/
def union (p q : Pins) : Pins := ⟨p.front.union q.front, p.back.union q.back⟩

/-- What holds in `p` and not in `q`. -/
def diff (p q : Pins) : Pins := ⟨p.front.diff q.front, p.back.diff q.back⟩

/-- The pins of a part that may be missing. -/
def loosen (p : Pins) : Pins := ⟨p.front.loosen, p.back.loosen⟩

/-- Whether every branch is pinned at both sides. -/
def isComplete (p : Pins) : Bool := p.front.inAll && p.back.inAll

/-- Whether a side is pinned, in all branches or in some. -/
def isPinned (p : Pins) : Bool :=
  p.front.inSome || p.front.inAll || p.back.inSome || p.back.inAll

/-- The names of what holds, joined by bars. -/
def text (p : Pins) : String :=
  let names :=
    [(p.front.inSome, "START"), (p.back.inSome, "END"), (p.front.inAll, "ALL_START"),
      (p.back.inAll, "ALL_END"), (p.front.byLook, "LOOKBEHIND"), (p.back.byLook, "LOOKAHEAD")]
  match names.filterMap fun (holds, name) => if holds then some name else none with
  | [] => "Anchors(0x0)"
  | present => "Anchors(" ++ " | ".intercalate present ++ ")"

end Pins

end Exemplar
