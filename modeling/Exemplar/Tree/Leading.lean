import Exemplar.Tree.Basic

/-!
# Leading classes

The classes from which the first character of a string that a tree describes can come, and whether
the tree describes the empty string.

## Main definitions

* `Tree.leading`: the leaves that can supply the first character, from left to right
* `Tree.isNullable`: whether the tree describes the empty string
-/

namespace Exemplar

/-- A leaf of a tree: a class and how often it occurs. -/
structure Leaf where
  cls : CharClass
  occurs : Extent
deriving DecidableEq

namespace Tree

mutual

/-- Whether the tree describes the empty string, given non-empty classes. -/
def isNullable : Tree → Bool
  | leaf _ m => m.occurs.least = 0
  | sequence parts m => m.occurs.least = 0 || allNullable parts
  | choice members m => m.occurs.least = 0 || anyNullable members

/-- Whether all of the trees describe the empty string. -/
def allNullable : List Tree → Bool
  | [] => true
  | t :: ts => t.isNullable && allNullable ts

/-- Whether any of the trees describes the empty string. -/
def anyNullable : List Tree → Bool
  | [] => false
  | t :: ts => t.isNullable || anyNullable ts

end

mutual

/-- The leaves that can supply the first character. A part of a sequence is reached only past parts
that may be empty. -/
def leading : Tree → List Leaf
  | leaf cls m => if m.occurs.most = 0 then [] else [⟨cls, m.occurs⟩]
  | sequence parts m => if m.occurs.most = 0 then [] else leadingOfParts parts
  | choice members m => if m.occurs.most = 0 then [] else leadingOfMembers members

/-- The leaves that can supply the first character of the parts together. -/
def leadingOfParts : List Tree → List Leaf
  | [] => []
  | t :: ts => t.leading ++ if t.isNullable then leadingOfParts ts else []

/-- The leaves that can supply the first character of one of the members. -/
def leadingOfMembers : List Tree → List Leaf
  | [] => []
  | t :: ts => t.leading ++ leadingOfMembers ts

end

end Tree

end Exemplar
