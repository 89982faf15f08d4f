import Exemplar.Pattern.Escape

/-!
# Bracket expressions

A class in brackets is a list of items: characters, ranges and named sets, or with `^` everything
but these.

## Main definitions

* `Bracket.Item`: an item, with the characters that it accepts
* `Bracket.toClass`: the class of a list of items
* `Bracket.read`: a bracket expression read from a text
* `Bracket.body`: the members of a set as they are written between brackets
-/

namespace Exemplar.Pattern.Bracket

/-- An item of a bracket expression. -/
inductive Item where
  | char (c : Char)
  /-- The characters from `lo` to `hi`. -/
  | range (lo hi : Char)
  | inside (set : CharSet)
  | outside (set : CharSet)
deriving DecidableEq

/-- Whether the item stands for the character. -/
def Item.accepts : Item → Char → Bool
  | char a, c => a == c
  | range lo hi, c => lo ≤ c && c ≤ hi
  | inside set, c => set.contains c
  | outside set, c => !set.contains c

/-- The set of the characters that an item names one by one. -/
def Item.allow (allowed : CharSet) : Item → CharSet
  | char c => allowed.insert c
  | range lo hi => allowed.union (.range lo hi)
  | inside set => allowed.union set
  | outside _ => allowed

/-- The set that the item stands outside of, if it does. -/
def Item.deny? : Item → Option CharSet
  | outside set => some set
  | _ => none

/-- All characters that the items name one by one. -/
def allowed (items : List Item) : CharSet := items.foldl Item.allow ∅

/-- What all items of the form "outside of a set" have in common to stand outside of. -/
def denied? (items : List Item) : Option CharSet :=
  match items.filterMap Item.deny? with
  | [] => none
  | set :: sets => some (sets.foldl .inter set)

/-- The class of the characters that some item accepts, or with `negated` that none accepts. An
item that stands outside of a set accepts all but that set, so together such items accept all but
what their sets share. -/
def toClass (negated : Bool) (items : List Item) : CharClass :=
  match negated, denied? items with
  | false, none => .anyOf (allowed items)
  | false, some denied => .noneOf (denied.diff (allowed items))
  | true, none => .noneOf (allowed items)
  | true, some denied => .anyOf (denied.diff (allowed items))

/-! ### Reading -/

/-- The item that starts with the character `c`, read from what follows `c`. -/
def readItem (space : CharSet) (c : Char) (rest : List Char) : Except Reason (Item × Nat) :=
  if c ≠ '\\' then .ok (.char c, 0)
  else match rest with
    | [] => .error .unterminatedClass
    | letter :: rest =>
      if letter = 'b' then .ok (.char '\x08', 1)
      else if letter = 'B' then .error .classEscape
      else if '1' ≤ letter ∧ letter ≤ '9' then .error .octalEscape
      else match Escape.namedSet? space letter with
        | some (set, true) => .ok (.inside set, 1)
        | some (set, false) => .ok (.outside set, 1)
        | none => (Escape.readChar letter rest).map fun (value, taken) => (.char value, taken + 1)

/-- The position of a reason met in an item at `offset`: an expression without end is reported
where it begins. -/
def locate (offset : Nat) (reason : Reason) : Error :=
  ⟨reason, if reason = .unterminatedClass then 0 else offset⟩

/-- The range between two items, which have to be characters in order. -/
def rangeOf (offset : Nat) : Item → Item → Except Error Item
  | .char lo, .char hi => if hi < lo then .error ⟨.rangeDisordered, offset⟩ else .ok (.range lo hi)
  | _, _ => .error ⟨.rangeEndpoint, offset⟩

/-- The items up to the closing bracket, and the offset behind it. The text starts at `offset`
behind the opening bracket. -/
def readItems (space : CharSet) (offset : Nat) : List Char → Except Error (List Item × Nat)
  | [] => .error ⟨.unterminatedClass, 0⟩
  | c :: rest =>
    if c = ']' then .ok ([], offset + 1)
    else match readItem space c rest with
      | .error reason => .error (locate offset reason)
      | .ok (item, taken) =>
        match hrest : rest.drop taken with
        | '-' :: last :: more =>
          -- A hyphen is an item of its own before the closing bracket.
          if last = ']' then
            (readItems space (offset + 1 + taken) ('-' :: last :: more)).map
              fun (items, stop) => (item :: items, stop)
          else match readItem space last more with
            | .error reason => .error (locate (offset + 1 + taken + 1) reason)
            | .ok (lastItem, lastTaken) =>
              match rangeOf offset item lastItem with
              | .error e => .error e
              | .ok range =>
                (readItems space (offset + 1 + taken + 2 + lastTaken) (more.drop lastTaken)).map
                  fun (items, stop) => (range :: items, stop)
        | after =>
          (readItems space (offset + 1 + taken) after).map
            fun (items, stop) => (item :: items, stop)
termination_by l => l.length
decreasing_by
  all_goals
    have h := congrArg List.length hrest
    simp only [List.length_drop, List.length_cons] at h ⊢
    omega

/-- The class of the bracket expression whose opening bracket comes before the text, and the number
of characters taken. -/
def read (space : CharSet) (text : List Char) : Except Error (CharClass × Nat) := do
  let negated := text.head? = some '^'
  let start := if negated then 1 else 0
  let (items, stop) ← readItems space (start + 1) (text.drop start)
  if items.isEmpty then throw ⟨.emptyClass, 0⟩
  let cls := toClass negated items
  if cls = .anyOf ∅ then throw ⟨.vacuousClass, 0⟩
  return (cls, stop - 1)

/-! ### Writing -/

/-- A run of neighbouring characters: three and more as a range, fewer one by one. -/
def run (chars : List Char) : List Char :=
  match chars with
  | first :: _ :: _ :: _ =>
    escape bracketChars first ++ '-' :: escape bracketChars (chars.getLastD first)
  | _ => chars.flatMap (escape bracketChars)

/-- The members of a set as they are written between brackets. -/
def body (set : CharSet) : List Char :=
  (set.toList.splitBy fun a b => a.toNat + 1 = b.toNat).flatMap run

end Exemplar.Pattern.Bracket
