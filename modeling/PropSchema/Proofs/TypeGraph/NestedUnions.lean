import PropSchema.Proofs.TypeGraph.Heights
/-!
Unions of unions. What a union is asked is answered by its leaves alone, however they are nested:
which leaves it has, and whether it has no value but nothing. Nothing is asked of the rest of the
graph, which may go round in circles.
-/
namespace PropSchema

/-- What a type is made of, and what that is made of in turn, comes to an end. -/
def Grounded (parts : NodeId → List NodeId) : NodeId → Prop :=
  Acc fun part whole => part ∈ parts whole

section Answers
variable {parts : NodeId → List NodeId} {a part : NodeId}

/-- From a type to one that it is made of, if that comes to an end. -/
def LeadsDown (parts : NodeId → List NodeId) (a b : NodeId) : Prop :=
  Grounded parts a ∧ b ∈ parts a

theorem LeadsDown.acyclic : ¬ Relation.TransGen (LeadsDown parts) a a := by
  intro h
  obtain ⟨b, ⟨hgrounded, -⟩, -⟩ := Relation.TransGen.head'_iff.mp h
  induction hgrounded generalizing b with
  | intro a _ ih =>
      obtain ⟨c, hac, hca⟩ := Relation.TransGen.head'_iff.mp h
      exact ih c hac.2 (.tail' hca hac) c

variable {β : Type} {size : Nat} {answer : Nat → NodeId → β}
  (hsize : ∀ a, ∀ part ∈ parts a, a < size)
  (hstep : ∀ d d' a, (∀ part ∈ parts a, answer d part = answer d' part) →
    answer (d + 1) a = answer (d' + 1) a)
include hsize hstep

/-- An answer that is made from the answers for the parts does not depend on the depth, once that
exceeds the height of the type. -/
theorem Grounded.answer_eq (h : Grounded parts a) {d d' : Nat}
    (hd : height size (LeadsDown parts) a < d) (hd' : height size (LeadsDown parts) a < d') :
    answer d a = answer d' a := by
  induction h generalizing d d' with
  | intro a hgrounded ih =>
      cases d with
      | zero => exact absurd hd (Nat.not_lt_zero _)
      | succ d =>
          cases d' with
          | zero => exact absurd hd' (Nat.not_lt_zero _)
          | succ d' =>
              refine hstep d d' a fun part hp => ?_
              have hdown : LeadsDown parts a part := ⟨⟨a, hgrounded⟩, hp⟩
              have hlt := height_lt (fun h => hsize _ _ h.2) LeadsDown.acyclic hdown
              exact ih part hp (by omega) (by omega)

/-- What the parts answer at the number of nodes they answer at the depth of the graph. -/
theorem Grounded.answer_parts (h : Grounded parts a) (hp : part ∈ parts a) :
    answer size part = answer (size + 1) part := by
  have hlt := height_lt (fun h => hsize _ _ h.2) LeadsDown.acyclic (⟨h, hp⟩ : LeadsDown parts a part)
  have hle : height size (LeadsDown parts) a ≤ size := height_le
  have hpart : Grounded parts part := h.inv hp
  exact hpart.answer_eq hsize hstep (by omega) (by omega)

end Answers

namespace TypeGraph

/-- The members of a union as written. -/
def unionParts (g : TypeGraph) (id : NodeId) : List NodeId :=
  match g.form id with
  | .union members => members
  | _ => []

/-- A leaf that stands for no value, not even one that a union could be without. -/
def standsForNothing (g : TypeGraph) (id : NodeId) : Bool :=
  match g.form id with
  | .primitive name => name == "void" || name == "undefined" || name == "null"
  | _ => false

/-- What is left of types when unions are written out, from left to right and as often as it comes. A
union of nothing leaves nothing. -/
inductive Flattens (g : TypeGraph) : List NodeId → List NodeId → Prop
  | nothing : Flattens g [] []
  | leaf {m : NodeId} {ms ids : List NodeId} (hform : ∀ inner, g.form m ≠ .union inner)
      (h : Flattens g ms ids) : Flattens g (m :: ms) (m :: ids)
  | union {m : NodeId} {inner ids ms more : List NodeId} (hform : g.form m = .union inner)
      (h : Flattens g inner ids) (hmore : Flattens g ms more) : Flattens g (m :: ms) (ids ++ more)

/-- The leaves that types bring into a union, from left to right and as often as they come. A union
brings what its members bring, and it has members. -/
inductive Brings (g : TypeGraph) : List NodeId → List NodeId → Prop
  | nothing : Brings g [] []
  | leaf {m : NodeId} {ms ids : List NodeId} (hform : ∀ inner, g.form m ≠ .union inner)
      (h : Brings g ms ids) : Brings g (m :: ms) (m :: ids)
  | union {m : NodeId} {inner ids ms more : List NodeId} (hform : g.form m = .union inner)
      (hne : inner ≠ []) (h : Brings g inner ids) (hmore : Brings g ms more) :
      Brings g (m :: ms) (ids ++ more)

variable {g : TypeGraph} {a : NodeId} {members ids : List NodeId}

theorem unionParts_of_union (h : g.form a = .union members) : g.unionParts a = members := by
  rw [unionParts, h]

theorem lt_size_of_mem_unionParts (a part : NodeId) (h : part ∈ g.unionParts a) : a < g.size := by
  by_contra hge
  rw [unionParts, form_of_size_le (Nat.le_of_not_lt hge)] at h
  cases h

theorem leavesTo_single_of_leaf (h : ∀ inner, g.form a ≠ .union inner) (depth : Nat) :
    g.leavesTo (depth + 1) [a] = [a] := by
  rw [leavesTo_succ, List.foldl_cons, List.foldl_nil, memberLeaves]
  split
  · next inner hform => exact absurd hform (h inner)
  · rfl

/-- Members bring what each of them brings. -/
theorem leavesTo_eq_flatMap (g : TypeGraph) (depth : Nat) (members : List NodeId) :
    g.leavesTo depth members = addMissing [] (members.flatMap fun m => g.leavesTo depth [m]) := by
  cases depth with
  | zero =>
      have hnil : (members.flatMap fun m => g.leavesTo 0 [m]) = [] := by simp [leavesTo]
      rw [hnil]
      rfl
  | succ depth =>
      have hmember : ∀ m, g.leavesTo (depth + 1) [m] = addMissing [] (g.memberLeaves depth m) := by
        intro m
        rw [leavesTo_succ, List.foldl_cons, List.foldl_nil]
      have hall : ∀ found, addMissing found (members.flatMap (g.memberLeaves depth)) =
          addMissing found (members.flatMap fun m => g.leavesTo (depth + 1) [m]) := by
        induction members with
        | nil => exact fun _ => rfl
        | cons m ms ih =>
            intro found
            rw [List.flatMap_cons, List.flatMap_cons, addMissing_append, addMissing_append, hmember,
              addMissing_addMissing, ih]
            rfl
      rw [leavesTo_succ, foldl_addMissing, hall]

theorem leaves_eq_flatMap (g : TypeGraph) (members : List NodeId) :
    g.leaves members = addMissing [] (members.flatMap fun m => g.leaves [m]) :=
  leavesTo_eq_flatMap g g.depth members

/-- What a union brings is made from what its members bring. -/
theorem leavesTo_single_step (d d' : Nat) (a : NodeId)
    (h : ∀ part ∈ g.unionParts a, g.leavesTo d [part] = g.leavesTo d' [part]) :
    g.leavesTo (d + 1) [a] = g.leavesTo (d' + 1) [a] := by
  rw [leavesTo_succ, leavesTo_succ, List.foldl_cons, List.foldl_cons, List.foldl_nil,
    List.foldl_nil, memberLeaves, memberLeaves]
  split
  · next inner hform =>
      rw [unionParts_of_union hform] at h
      rw [leavesTo_eq_flatMap g d, leavesTo_eq_flatMap g d', List.flatMap_congr h]
  · rfl

theorem isVoidLikeTo_union_step (d d' : Nat) (a : NodeId)
    (h : ∀ part ∈ g.unionParts a, g.isVoidLikeTo d part = g.isVoidLikeTo d' part) :
    g.isVoidLikeTo (d + 1) a = g.isVoidLikeTo (d' + 1) a := by
  rw [isVoidLikeTo, isVoidLikeTo]
  split
  · rfl
  · next members hform =>
      rw [unionParts_of_union hform] at h
      exact congrArg _ (all_eq_of_mem h)
  · rfl

theorem leaves_of_grounded (hform : g.form a = .union members)
    (h : Grounded g.unionParts a) : g.leaves [a] = g.leaves members := by
  have hparts : ∀ m ∈ members, g.leavesTo g.size [m] = g.leaves [m] := fun m hm =>
    h.answer_parts lt_size_of_mem_unionParts leavesTo_single_step (unionParts_of_union hform ▸ hm)
  have hinner : g.leavesTo g.size members = g.leaves members := by
    rw [leavesTo_eq_flatMap, leaves_eq_flatMap, List.flatMap_congr hparts]
  have hnested : addMissing [] (g.leaves members) = g.leaves members := by
    rw [leaves_eq_flatMap, addMissing_addMissing]
    rfl
  rw [leaves, depth, leavesTo_succ, List.foldl_cons, List.foldl_nil, memberLeaves, hform]
  exact (congrArg _ hinner).trans hnested

theorem isVoidLike_of_grounded (hform : g.form a = .union members)
    (h : Grounded g.unionParts a) :
    g.isVoidLike (.node a) = (!members.isEmpty && members.all (g.isVoidLikeTo g.depth)) := by
  have hparts : ∀ m ∈ members, g.isVoidLikeTo g.size m = g.isVoidLikeTo g.depth m := fun m hm =>
    h.answer_parts lt_size_of_mem_unionParts isVoidLikeTo_union_step
      (unionParts_of_union hform ▸ hm)
  rw [isVoidLike, depth, isVoidLikeTo, hform]
  exact congrArg (!members.isEmpty && ·) (all_eq_of_mem hparts)

theorem isVoidLikeTo_of_leaf (h : ∀ inner, g.form a ≠ .union inner) (depth : Nat) :
    g.isVoidLikeTo (depth + 1) a = g.standsForNothing a := by
  rw [isVoidLikeTo, standsForNothing]
  cases hform : g.form a with
  | union inner => exact absurd hform (h inner)
  | _ => rfl

theorem addMissing_eq_eraseDups (ids : List NodeId) : addMissing [] ids = ids.eraseDups := by
  induction ids using List.reverseRecOn with
  | nil => rfl
  | append_singleton ids id ih =>
      rw [addMissing_append, ih, List.eraseDups_append]
      by_cases h : id ∈ ids
      · simp [addMissing, List.removeAll, h]
      · simp [addMissing, List.removeAll, h, List.eraseDups_cons]

theorem addMissing_of_nodup {ids : List NodeId} (h : ids.Nodup) : addMissing [] ids = ids := by
  induction ids using List.reverseRecOn with
  | nil => rfl
  | append_singleton ids id ih =>
      rw [← List.concat_eq_append, List.nodup_concat] at h
      rw [addMissing_append, ih h.2]
      simp [addMissing, h.1]

namespace Flattens

theorem grounded (h : g.Flattens members ids) : ∀ m ∈ members, Grounded g.unionParts m := by
  induction h with
  | nothing => simp
  | @leaf m ms ids hform _ ih =>
      have hm : Grounded g.unionParts m := by
        refine ⟨m, fun part hp => ?_⟩
        unfold unionParts at hp
        split at hp
        · next inner hinner => exact absurd hinner (hform inner)
        · cases hp
      exact List.forall_mem_cons.mpr ⟨hm, ih⟩
  | @union m inner _ _ _ hform _ _ ih ihmore =>
      have hm : Grounded g.unionParts m :=
        ⟨m, fun part hp => ih part (unionParts_of_union hform ▸ hp)⟩
      exact List.forall_mem_cons.mpr ⟨hm, ihmore⟩

/-- A union has the leaves that are left of its members, each at its first place. -/
theorem leaves_eq (h : g.Flattens members ids) : g.leaves members = ids.eraseDups := by
  have hall : ∀ found, addMissing found (members.flatMap fun m => g.leaves [m]) =
      addMissing found ids := by
    have hgrounded := h.grounded
    induction h with
    | nothing => exact fun _ => rfl
    | @leaf m ms ids hform _ ih =>
        rw [List.forall_mem_cons] at hgrounded
        intro found
        rw [List.flatMap_cons, addMissing_append, leaves, depth, leavesTo_single_of_leaf hform,
          ih hgrounded.2]
        exact (addMissing_append found [m] ids).symm
    | @union m inner ids ms more hform h _ ih ihmore =>
        rw [List.forall_mem_cons] at hgrounded
        intro found
        rw [List.flatMap_cons, addMissing_append, leaves_of_grounded hform hgrounded.1,
          leaves_eq_flatMap, addMissing_addMissing, ih h.grounded, ihmore hgrounded.2,
          addMissing_append]
        rfl
  rw [leaves_eq_flatMap, hall, addMissing_eq_eraseDups]

theorem append {more ids' : List NodeId} (h : g.Flattens members ids)
    (hmore : g.Flattens more ids') : g.Flattens (members ++ more) (ids ++ ids') := by
  induction h with
  | nothing => exact hmore
  | leaf hform _ ih => exact .leaf hform ih
  | union hform h _ _ ihmore =>
      rw [List.append_assoc]
      exact .union hform h ihmore

end Flattens

namespace Brings

theorem flattens (h : g.Brings members ids) : g.Flattens members ids := by
  induction h with
  | nothing => exact .nothing
  | leaf hform _ ih => exact .leaf hform ih
  | union hform _ _ _ ih ihmore => exact .union hform ih ihmore

theorem grounded (h : g.Brings members ids) : ∀ m ∈ members, Grounded g.unionParts m :=
  h.flattens.grounded

theorem leaves_eq (h : g.Brings members ids) : g.leaves members = ids.eraseDups :=
  h.flattens.leaves_eq

theorem all_isVoidLikeTo (h : g.Brings members ids) :
    members.all (g.isVoidLikeTo g.depth) = ids.all g.standsForNothing := by
  have hgrounded := h.grounded
  induction h with
  | nothing => rfl
  | leaf hform _ ih =>
      rw [List.forall_mem_cons] at hgrounded
      rw [List.all_cons, List.all_cons, ih hgrounded.2, depth, isVoidLikeTo_of_leaf hform]
  | @union m inner ids ms more hform hne h _ ih ihmore =>
      rw [List.forall_mem_cons] at hgrounded
      have hm := isVoidLike_of_grounded hform hgrounded.1
      rw [ih h.grounded] at hm
      have hm' : g.isVoidLikeTo g.depth m = (!inner.isEmpty && ids.all g.standsForNothing) := hm
      rw [List.all_cons, List.all_append, ihmore hgrounded.2, hm', List.isEmpty_eq_false_iff.mpr hne]
      rfl

end Brings

section Leaves
variable {leaf : NodeId} {leaves : List NodeId}

theorem not_union_of_mem_leaves (h : leaf ∈ g.leaves members) :
    ∀ inner, g.form leaf ≠ .union inner :=
  ne_union_of_mem_leavesTo h

theorem nodup_leaves (g : TypeGraph) (members : List NodeId) : (g.leaves members).Nodup := by
  rw [leaves_eq_flatMap]
  exact nodup_addMissing List.nodup_nil _

theorem brings_of_leaves (h : ∀ leaf ∈ leaves, ∀ inner, g.form leaf ≠ .union inner) :
    g.Brings leaves leaves := by
  induction leaves with
  | nil => exact .nothing
  | cons leaf leaves ih =>
      rw [List.forall_mem_cons] at h
      exact .leaf h.1 (ih h.2)

/-- Leaves that are made a union on the way are its leaves. -/
theorem leaves_of_leaves (h : ∀ leaf ∈ leaves, ∀ inner, g.form leaf ≠ .union inner)
    (hnodup : leaves.Nodup) : g.leaves leaves = leaves := by
  rw [(brings_of_leaves h).leaves_eq, ← addMissing_eq_eraseDups, addMissing_of_nodup hnodup]

end Leaves

end TypeGraph

end PropSchema
