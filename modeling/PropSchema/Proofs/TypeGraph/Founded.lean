import PropSchema.Proofs.TypeGraph.Forms
import PropSchema.TypeGraph.Shape
/-!
Type graphs whose unions, intersections and partial types are made of earlier types. What is asked
of a type is then asked of what it is made of, to no depth: each answer has one equation for each
form. An intersection may be opened, that is replaced by its members where it stands among others.
-/
namespace PropSchema

/-- What a union, an intersection or a partial type is made of. -/
def TypeForm.constituents : TypeForm → List NodeId
  | .union members => members
  | .intersection members => members
  | .partialOf target => [target]
  | _ => []

namespace TypeGraph

/-- Types that are made of others were made after those. -/
structure Founded (g : TypeGraph) : Prop where
  union : ∀ {id members}, g.form id = .union members → ∀ m ∈ members, m < id
  intersection : ∀ {id members}, g.form id = .intersection members → ∀ m ∈ members, m < id
  partialOf : ∀ {id target}, g.form id = .partialOf target → target < id

/-- A node below a bound; what is beyond the graph is made of nothing. -/
def Within (g : TypeGraph) (bound : Nat) (id : NodeId) : Prop := id < bound ∨ g.size ≤ id

theorem within_size (g : TypeGraph) (id : NodeId) : g.Within g.size id := Nat.lt_or_ge id g.size

theorem form_of_size_le {g : TypeGraph} {id : NodeId} (h : g.size ≤ id) :
    g.form id = .unresolved "" none := by
  have hd : g.nodes.getD id ⟨.unresolved "" none, none⟩ = ⟨.unresolved "" none, none⟩ := by
    simp [Array.getElem?_eq_none h]
  rw [form, node, hd]

theorem size_setForm (g : TypeGraph) (id : NodeId) (form : TypeForm) :
    (g.setForm id form).size = g.size := by
  simp [setForm, size]

theorem form_setForm {g : TypeGraph} {id : NodeId} (h : id < g.size) (form : TypeForm)
    (other : NodeId) : (g.setForm id form).form other = if other = id then form else g.form other := by
  unfold TypeGraph.form TypeGraph.node TypeGraph.setForm
  simp only [Array.getD_eq_getD_getElem?, Array.getElem?_modify]
  by_cases he : other = id
  · subst he
    have h' : other < g.nodes.size := h
    simp [h']
  · have he' : ¬ id = other := fun h => he h.symm
    simp [he, he']

/-- A type that is made of others has them below a bound that is smaller than its own. -/
theorem Within.parts {g : TypeGraph} {bound : Nat} {id : NodeId} (h : g.Within bound id)
    (hform : g.form id ≠ .unresolved "" none) :
    ∃ smaller, bound = smaller + 1 ∧ ∀ part < id, g.Within smaller part := by
  obtain hlt | hge := h
  · cases bound with
    | zero => exact absurd hlt (Nat.not_lt_zero id)
    | succ smaller =>
        exact ⟨smaller, rfl, fun part hp => .inl (Nat.lt_of_lt_of_le hp (Nat.le_of_lt_succ hlt))⟩
  · exact absurd (form_of_size_le hge) hform

end TypeGraph

section Push
variable {g : TypeGraph}

theorem form_push_of_lt {id : NodeId} (h : id < g.size) (form : TypeForm)
    (location : Option Location) : (g.push form location).2.form id = g.form id := by
  unfold TypeGraph.form TypeGraph.node TypeGraph.push
  simp only [Array.getD_eq_getD_getElem?]
  rw [Array.getElem?_push_lt h, Array.getElem?_eq_getElem h]

theorem form_push_size (g : TypeGraph) (form : TypeForm) (location : Option Location) :
    (g.push form location).2.form g.size = form := by
  unfold TypeGraph.form TypeGraph.node TypeGraph.push TypeGraph.size
  simp

theorem size_push (g : TypeGraph) (form : TypeForm) (location : Option Location) :
    (g.push form location).2.size = g.size + 1 := by
  simp [TypeGraph.push, TypeGraph.size]

theorem form_push (g : TypeGraph) (form : TypeForm) (location : Option Location) (id : NodeId) :
    (g.push form location).2.form id = if id = g.size then form else g.form id := by
  unfold TypeGraph.form TypeGraph.node TypeGraph.push TypeGraph.size
  simp only [Array.getD_eq_getD_getElem?, Array.getElem?_push]
  split <;> rfl

end Push

theorem mem_addMissing {xs ys : List NodeId} {id : NodeId} :
    id ∈ addMissing xs ys ↔ id ∈ xs ∨ id ∈ ys := by
  unfold addMissing
  induction ys generalizing xs with
  | nil => simp
  | cons y ys ih =>
      rw [List.foldl_cons, ih]
      split <;> grind

theorem nodup_addMissing {xs : List NodeId} (h : xs.Nodup) (ys : List NodeId) :
    (addMissing xs ys).Nodup := by
  unfold addMissing
  induction ys generalizing xs with
  | nil => exact h
  | cons y ys ih =>
      rw [List.foldl_cons]
      refine ih ?_
      split
      · exact h
      · next hy =>
          rw [← List.concat_eq_append]
          exact h.concat fun hmem => hy (List.contains_iff_mem.mpr hmem)

namespace TypeGraph
variable {g : TypeGraph} {depth : Nat} {members : List NodeId} {leaf : NodeId}

/-- The leaves of a member of a union. -/
def memberLeaves (g : TypeGraph) (depth : Nat) (m : NodeId) : List NodeId :=
  match g.form m with
  | .union inner => g.leavesTo depth inner
  | _ => [m]

theorem leavesTo_succ (g : TypeGraph) (depth : Nat) (members : List NodeId) :
    g.leavesTo (depth + 1) members =
      members.foldl (fun leaves m => addMissing leaves (g.memberLeaves depth m)) [] := by
  rw [leavesTo]
  refine List.foldl_ext _ _ _ fun leaves m _ => ?_
  unfold memberLeaves
  cases g.form m <;> rfl

theorem mem_foldl_addMissing {parts : NodeId → List NodeId} {found : List NodeId} :
    leaf ∈ members.foldl (fun leaves m => addMissing leaves (parts m)) found ↔
      leaf ∈ found ∨ ∃ m ∈ members, leaf ∈ parts m := by
  induction members generalizing found with
  | nil => simp
  | cons m ms ih => rw [List.foldl_cons, ih, mem_addMissing, List.exists_mem_cons_iff, or_assoc]

theorem mem_leavesTo_succ :
    leaf ∈ g.leavesTo (depth + 1) members ↔ ∃ m ∈ members, leaf ∈ g.memberLeaves depth m := by
  rw [leavesTo_succ, mem_foldl_addMissing]
  simp

/-- What holds of members and passes from unions to their members holds of the leaves. -/
theorem forall_leavesTo {P : NodeId → Prop}
    (hunion : ∀ {id members}, g.form id = .union members → P id → ∀ m ∈ members, P m)
    (h : ∀ m ∈ members, P m) : ∀ leaf ∈ g.leavesTo depth members, P leaf := by
  induction depth generalizing members with
  | zero => simp [leavesTo]
  | succ depth ih =>
      intro leaf hleaf
      obtain ⟨m, hm, hleaf⟩ := mem_leavesTo_succ.mp hleaf
      unfold memberLeaves at hleaf
      split at hleaf
      · next inner hform => exact ih (hunion hform (h m hm)) leaf hleaf
      · exact List.mem_singleton.mp hleaf ▸ h m hm

theorem ne_union_of_mem_leavesTo (hleaf : leaf ∈ g.leavesTo depth members) (inner : List NodeId) :
    g.form leaf ≠ .union inner := by
  induction depth generalizing members with
  | zero => simp [leavesTo] at hleaf
  | succ depth ih =>
      obtain ⟨m, -, hleaf⟩ := mem_leavesTo_succ.mp hleaf
      unfold memberLeaves at hleaf
      split at hleaf
      · exact ih hleaf
      · next hform =>
          obtain rfl := List.mem_singleton.mp hleaf
          exact hform inner

end TypeGraph

theorem addMissing_eq_addNew (xs ys : List NodeId) :
    addMissing xs ys = Sequences.addNew (· == ·) xs ys := by
  refine List.foldl_ext _ _ _ fun acc y _ => ?_
  rw [List.contains_eq_any_beq]
  simp only [BEq.comm]

theorem addMissing_append (xs ys zs : List NodeId) :
    addMissing xs (ys ++ zs) = addMissing (addMissing xs ys) zs :=
  List.foldl_append

/-- To add what was collected elsewhere first is to add all of it. -/
theorem addMissing_addMissing (xs ys zs : List NodeId) :
    addMissing xs (addMissing ys zs) = addMissing (addMissing xs ys) zs := by
  simp only [addMissing_eq_addNew]
  exact Sequences.addNew_addNew (fun x y z hxy hyz => by simp_all) xs ys zs

namespace TypeGraph
variable {g : TypeGraph}

theorem all_eq_of_mem {p q : NodeId → Bool} {members : List NodeId}
    (h : ∀ m ∈ members, p m = q m) : members.all p = members.all q := by
  rw [Bool.eq_iff_iff, List.all_eq_true, List.all_eq_true]
  exact forall₂_congr fun m hm => by rw [h m hm]

section Unfolding

def constituents (g : TypeGraph) (id : NodeId) : List NodeId := (g.form id).constituents

theorem Founded.lt_of_mem_constituents (hg : g.Founded) {a part : NodeId}
    (h : part ∈ g.constituents a) : part < a := by
  unfold constituents TypeForm.constituents at h
  split at h
  · next members hform => exact hg.union hform part h
  · next members hform => exact hg.intersection hform part h
  · next target hform => exact List.mem_singleton.mp h ▸ hg.partialOf hform
  · cases h

theorem founded_of_constituents (hlt : ∀ {a part}, part ∈ (g.form a).constituents → part < a) :
    g.Founded := by
  refine ⟨fun hform _ hm => ?_, fun hform _ hm => ?_, fun hform => ?_⟩
  · exact hlt (by rwa [hform])
  · exact hlt (by rwa [hform])
  · exact hlt (by rw [hform]; exact List.mem_singleton.mpr rfl)

theorem form_ne_of_mem_constituents {a part : NodeId} (h : part ∈ g.constituents a) :
    g.form a ≠ .unresolved "" none := by
  intro hform
  rw [constituents, hform] at h
  cases h

/-- An answer that is made from the answers for the parts does not depend on the depth, once that
exceeds the place of the type in the graph. -/
theorem Founded.answer_eq (hg : g.Founded) {β : Type} {answer : Nat → NodeId → β}
    (hstep : ∀ d d' a, (∀ part ∈ g.constituents a, answer d part = answer d' part) →
      answer (d + 1) a = answer (d' + 1) a)
    {bound bound' : Nat} {a : NodeId} (ha : g.Within bound a) (ha' : g.Within bound' a) :
    answer (bound + 1) a = answer (bound' + 1) a := by
  induction bound using Nat.strongRecOn generalizing bound' a with
  | ind bound ih =>
      refine hstep bound bound' a fun part hp => ?_
      have hlt := hg.lt_of_mem_constituents hp
      obtain ⟨smaller, rfl, hwithin⟩ := ha.parts (form_ne_of_mem_constituents hp)
      obtain ⟨smaller', rfl, hwithin'⟩ := ha'.parts (form_ne_of_mem_constituents hp)
      exact ih smaller (Nat.lt_succ_self smaller) (hwithin part hlt) (hwithin' part hlt)

/-- At the depth of the graph, the answers for the parts are those that the parts have. -/
theorem Founded.answer_parts (hg : g.Founded) {β : Type} {answer : Nat → NodeId → β}
    (hstep : ∀ d d' a, (∀ part ∈ g.constituents a, answer d part = answer d' part) →
      answer (d + 1) a = answer (d' + 1) a)
    {a part : NodeId} (hp : part ∈ g.constituents a) :
    answer g.size part = answer g.depth part := by
  obtain ⟨smaller, hsize, hwithin⟩ := (g.within_size a).parts (form_ne_of_mem_constituents hp)
  have heq := hg.answer_eq hstep (hwithin part (hg.lt_of_mem_constituents hp)) (g.within_size part)
  rwa [← hsize] at heq

theorem constituents_of_union {a : NodeId} {members : List NodeId}
    (h : g.form a = .union members) : g.constituents a = members := by
  rw [constituents, h, TypeForm.constituents]

theorem constituents_of_intersection {a : NodeId} {members : List NodeId}
    (h : g.form a = .intersection members) : g.constituents a = members := by
  rw [constituents, h, TypeForm.constituents]

theorem constituents_of_partialOf {a target : NodeId} (h : g.form a = .partialOf target) :
    g.constituents a = [target] := by
  rw [constituents, h, TypeForm.constituents]

theorem isRecordTo_step (d d' : Nat) (a : NodeId)
    (h : ∀ part ∈ g.constituents a, g.isRecordTo d part = g.isRecordTo d' part) :
    g.isRecordTo (d + 1) a = g.isRecordTo (d' + 1) a := by
  rw [isRecordTo, isRecordTo]
  split
  case h_4 members hform =>
    rw [constituents_of_intersection hform] at h
    exact congrArg _ (all_eq_of_mem h)
  all_goals rfl

theorem isVoidLikeTo_step (d d' : Nat) (a : NodeId)
    (h : ∀ part ∈ g.constituents a, g.isVoidLikeTo d part = g.isVoidLikeTo d' part) :
    g.isVoidLikeTo (d + 1) a = g.isVoidLikeTo (d' + 1) a := by
  rw [isVoidLikeTo, isVoidLikeTo]
  split
  · rfl
  · next members hform =>
      rw [constituents_of_union hform] at h
      exact congrArg _ (all_eq_of_mem h)
  · rfl

theorem propertiesTo_step (d d' : Nat) (a : NodeId)
    (h : ∀ part ∈ g.constituents a, g.propertiesTo d part = g.propertiesTo d' part) :
    g.propertiesTo (d + 1) a = g.propertiesTo (d' + 1) a := by
  rw [propertiesTo, propertiesTo]
  split
  · rfl
  · next target hform =>
      rw [constituents_of_partialOf hform] at h
      rw [h target List.mem_cons_self]
  · next members hform =>
      rw [constituents_of_intersection hform] at h
      exact congrArg _ (List.flatMap_congr h)
  · rfl

variable {a : NodeId} {members : List NodeId}

theorem Founded.isRecord_of_intersection (hg : g.Founded) (h : g.form a = .intersection members) :
    g.isRecord a = (!members.isEmpty && members.all g.isRecord) := by
  have hall : members.all (g.isRecordTo g.size) = members.all g.isRecord :=
    all_eq_of_mem fun m hm =>
      hg.answer_parts isRecordTo_step (constituents_of_intersection h ▸ hm)
  rw [isRecord, depth, isRecordTo, h]
  exact congrArg (!members.isEmpty && ·) hall

theorem Founded.isVoidLike_of_union (hg : g.Founded) (h : g.form a = .union members) :
    g.isVoidLike (.node a) = (!members.isEmpty && members.all fun m => g.isVoidLike (.node m)) := by
  have hall : members.all (g.isVoidLikeTo g.size) = members.all fun m => g.isVoidLike (.node m) :=
    all_eq_of_mem fun m hm => hg.answer_parts isVoidLikeTo_step (constituents_of_union h ▸ hm)
  rw [isVoidLike, depth, isVoidLikeTo, h]
  exact congrArg (!members.isEmpty && ·) hall

theorem Founded.properties_of_intersection (hg : g.Founded)
    (h : g.form a = .intersection members) :
    g.properties a = firstOfEachName (members.flatMap g.properties) := by
  rw [properties, depth, propertiesTo, h]
  exact congrArg _ (List.flatMap_congr fun m hm =>
    hg.answer_parts propertiesTo_step (constituents_of_intersection h ▸ hm))

theorem Founded.properties_of_partialOf {target : NodeId} (hg : g.Founded)
    (h : g.form a = .partialOf target) :
    g.properties a = (g.properties target).map fun p => { p with optional := true } := by
  rw [properties, depth, propertiesTo, h]
  exact congrArg _ (hg.answer_parts propertiesTo_step
    (constituents_of_partialOf h ▸ List.mem_singleton.mpr rfl))

/-- The leaves that a member brings into a union. -/
def spread (g : TypeGraph) (m : NodeId) : List NodeId := g.memberLeaves g.depth m

theorem spread_of_union (h : g.form a = .union members) : g.spread a = g.leaves members := by
  rw [spread, memberLeaves, h, leaves]

theorem spread_of_ne_union (h : ∀ members, g.form a ≠ .union members) : g.spread a = [a] := by
  rw [spread, memberLeaves]
  split
  · next members hform => exact absurd hform (h members)
  · rfl

theorem Founded.memberLeaves_eq (hg : g.Founded) {bound bound' : Nat} (ha : g.Within bound a)
    (ha' : g.Within bound' a) : g.memberLeaves bound a = g.memberLeaves bound' a := by
  induction bound using Nat.strongRecOn generalizing bound' a with
  | ind bound ih =>
      unfold memberLeaves
      split
      · next inner hform =>
          obtain ⟨smaller, rfl, hwithin⟩ := ha.parts (by simp [hform])
          obtain ⟨smaller', rfl, hwithin'⟩ := ha'.parts (by simp [hform])
          rw [leavesTo_succ, leavesTo_succ]
          refine List.foldl_ext _ _ _ fun leaves m hm => ?_
          have hlt := hg.union hform m hm
          rw [ih smaller (Nat.lt_succ_self smaller) (hwithin m hlt) (hwithin' m hlt)]
      · rfl

theorem foldl_addMissing (f : NodeId → List NodeId) (found members : List NodeId) :
    members.foldl (fun leaves m => addMissing leaves (f m)) found =
      addMissing found (members.flatMap f) := by
  induction members generalizing found with
  | nil => rfl
  | cons m ms ih => rw [List.foldl_cons, ih, List.flatMap_cons, addMissing_append]

/-- The leaves of a union are what its members bring, each once. -/
theorem Founded.leaves_eq (hg : g.Founded) (members : List NodeId) :
    g.leaves members = addMissing [] (members.flatMap g.spread) := by
  rw [leaves, depth, leavesTo_succ, foldl_addMissing]
  refine congrArg _ (List.flatMap_congr fun m _ => ?_)
  have hsize := g.within_size m
  exact hg.memberLeaves_eq hsize (hsize.imp_left Nat.lt_succ_of_lt)

theorem Founded.leaves_append (hg : g.Founded) (members more : List NodeId) :
    g.leaves (members ++ more) = addMissing (g.leaves members) (g.leaves more) := by
  simp only [hg.leaves_eq, List.flatMap_append, addMissing_append, addMissing_addMissing]
  rfl

theorem Founded.leaves_singleton (hg : g.Founded) (a : NodeId) :
    g.leaves [a] = addMissing [] (g.spread a) := by
  rw [hg.leaves_eq, List.flatMap_singleton]

/-- Where there is no union among members, they are leaves themselves. -/
theorem Founded.leaves_of_flat (hg : g.Founded)
    (h : ∀ m ∈ members, ∀ inner, g.form m ≠ .union inner) :
    g.leaves members = addMissing [] members := by
  rw [hg.leaves_eq, List.flatMap_congr fun m hm => spread_of_ne_union (h m hm),
    List.flatMap_singleton']

/-- Leaves bring themselves. -/
theorem Founded.leaves_leaves (hg : g.Founded) (members : List NodeId) :
    g.leaves (g.leaves members) = g.leaves members := by
  have hflat : ∀ leaf ∈ g.leaves members, ∀ inner, g.form leaf ≠ .union inner :=
    fun _ hleaf => ne_union_of_mem_leavesTo hleaf
  rw [hg.leaves_of_flat hflat, hg.leaves_eq, addMissing_addMissing]
  rfl

/-- A union brings what its members bring. -/
theorem Founded.leaves_of_union (hg : g.Founded) (h : g.form a = .union members) :
    g.leaves [a] = g.leaves members := by
  rw [hg.leaves_singleton, spread_of_union h, hg.leaves_eq members, addMissing_addMissing]
  rfl

end Unfolding
end TypeGraph
end PropSchema
