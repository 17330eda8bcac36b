import PropSchema.TypeGraph
/-!
Unions. A union stands for the list of its leaves: the nodes that are no unions, from left to
right through nested unions, each at its first place only. `TypeUse` is a type on its way to
classification, either a node or a flat union that no node stands for.
-/
namespace PropSchema

/-- The elements of both lists, those of the second only where the first lacks them. -/
def addMissing (xs ys : List NodeId) : List NodeId :=
  ys.foldl (fun acc y => if acc.contains y then acc else acc ++ [y]) xs

/-- A type where it is used: a node, or a flat union made on the way. -/
inductive TypeUse where
  | node (id : NodeId)
  | union (leaves : List NodeId)
  deriving DecidableEq, Inhabited

/-- The use of a list of leaves; a single leaf is itself. -/
def TypeUse.ofLeaves : List NodeId → TypeUse
  | [leaf] => .node leaf
  | leaves => .union leaves

namespace TypeGraph

/-- The leaves of members, looked for down to a depth. -/
def leavesTo (g : TypeGraph) : Nat → List NodeId → List NodeId
  | 0, _ => []
  | depth + 1, members =>
    members.foldl (fun leaves member =>
      match g.form member with
      | .union inner => addMissing leaves (leavesTo g depth inner)
      | _ => addMissing leaves [member]) []

/-- The leaves of the union of members. -/
def leaves (g : TypeGraph) (members : List NodeId) : List NodeId := g.leavesTo g.depth members

/-- The union of members, as a use. -/
def unionUse (g : TypeGraph) (members : List NodeId) : TypeUse := .ofLeaves (g.leaves members)

/-- The union of members, as a node; only two leaves or more, or none, need a new one. -/
def unionOf (g : TypeGraph) (members : List NodeId) (location : Option Location) :
    NodeId × TypeGraph :=
  match g.leaves members with
  | [leaf] => (leaf, g)
  | leaves => g.push (.union leaves) location

/-- The members of a union as they are written, none for other types. -/
def members? (g : TypeGraph) : TypeUse → Option (List NodeId)
  | .node id => match g.form id with
    | .union members => some members
    | _ => none
  | .union leaves => some leaves

/-- The leaves of a union, none for other types. -/
def unionLeaves? (g : TypeGraph) (use : TypeUse) : Option (List NodeId) :=
  (g.members? use).map g.leaves

/-- A union is nullable if some of its leaves, but not all, stand for no value. -/
def isNullable (g : TypeGraph) (use : TypeUse) : Bool :=
  match g.unionLeaves? use with
  | some leaves => leaves.any g.isNullish && !leaves.all g.isNullish
  | none => false

/--
A union without the leaves that stand for no value. A union of nothing else stays, and so does a
union that is flat and has no such leaf.
-/
def nonNullable (g : TypeGraph) (use : TypeUse) : TypeUse :=
  match g.members? use with
  | none => use
  | some members =>
    match (g.leaves members).filter fun leaf => !g.isNullish leaf with
    | [] => use
    | [leaf] => .node leaf
    | remaining => if remaining = members then use else .union remaining

/-- Whether a type has no value but nothing, looked for down to a depth. -/
def isVoidLikeTo (g : TypeGraph) : Nat → NodeId → Bool
  | 0, _ => false
  | depth + 1, id =>
    match g.form id with
    | .primitive name => name == "void" || name == "undefined" || name == "null"
    | .union members => !members.isEmpty && members.all (isVoidLikeTo g depth)
    | _ => false

def isVoidLike (g : TypeGraph) : TypeUse → Bool
  | .node id => g.isVoidLikeTo g.depth id
  | .union leaves => !leaves.isEmpty && leaves.all (g.isVoidLikeTo g.depth)

end TypeGraph

end PropSchema
