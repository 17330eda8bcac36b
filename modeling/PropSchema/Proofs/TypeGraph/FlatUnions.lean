import PropSchema.Proofs.TypeGraph.NestedUnions
/-!
Unions are built flat. A union has what is left of its members when all unions in them are written
out, each node at its first place, so it does not matter how the members are nested. Unions can be
taken in parts, and a union that is taken again is the same union.
-/
namespace PropSchema.TypeGraph
variable {g g' : TypeGraph} {a leaf : NodeId} {members ids leaves : List NodeId}
  {location : Option Location}

section Written

/-- What comes to an end can be written out. -/
theorem exists_flattens (h : ∀ m ∈ members, ∃ ids, g.Flattens [m] ids) :
    ∃ ids, g.Flattens members ids := by
  induction members with
  | nil => exact ⟨[], .nothing⟩
  | cons m ms ih =>
      rw [List.forall_mem_cons] at h
      obtain ⟨⟨ids, hids⟩, hrest⟩ := h
      obtain ⟨more, hmore⟩ := ih hrest
      exact ⟨ids ++ more, hids.append hmore⟩

theorem exists_flattens_of_grounded (h : Grounded g.unionParts a) :
    ∃ ids, g.Flattens [a] ids := by
  induction h with
  | intro a _ ih =>
      cases hform : g.form a with
      | union inner =>
          have hinner : ∀ m ∈ inner, ∃ ids, g.Flattens [m] ids := fun m hm =>
            ih m (unionParts_of_union hform ▸ hm)
          obtain ⟨ids, hids⟩ := exists_flattens hinner
          exact ⟨ids ++ [], .union hform hids .nothing⟩
      | _ => exact ⟨[a], .leaf (by simp [hform]) .nothing⟩

namespace Flattens

theorem lt_size (h : g.Flattens members ids) (hmembers : ∀ m ∈ members, m < g.size)
    (hparts : ∀ a, ∀ part ∈ g.unionParts a, part < g.size) : ∀ id ∈ ids, id < g.size := by
  induction h with
  | nothing => exact hmembers
  | leaf _ _ ih =>
      rw [List.forall_mem_cons] at hmembers ⊢
      exact ⟨hmembers.1, ih hmembers.2⟩
  | @union m inner ids ms more hform _ _ ih ihmore =>
      rw [List.forall_mem_cons] at hmembers
      have hinner : ∀ part ∈ inner, part < g.size := fun part hp =>
        hparts m part (unionParts_of_union hform ▸ hp)
      exact List.forall_mem_append.mpr ⟨ih hinner, ihmore hmembers.2⟩

/-- What is written out stays so while nodes are added. -/
theorem kept (h : g.Flattens members ids) (hids : ∀ id ∈ ids, id < g.size)
    (hkept : ∀ id < g.size, g'.form id = g.form id) : g'.Flattens members ids := by
  induction h with
  | nothing => exact .nothing
  | @leaf m _ _ hform _ ih =>
      rw [List.forall_mem_cons] at hids
      refine .leaf (fun inner => ?_) (ih hids.2)
      rw [hkept m hids.1]
      exact hform inner
  | @union m inner _ _ _ hform _ _ ih ihmore =>
      rw [List.forall_mem_append] at hids
      have hlt : m < g.size := by
        by_contra hge
        rw [form_of_size_le (Nat.le_of_not_lt hge)] at hform
        cases hform
      exact .union ((hkept m hlt).trans hform) (ih hids.1) (ihmore hids.2)

/-- Whether repeated nodes are dropped before or after makes no difference. -/
theorem leaves_append {xs ys more : List NodeId} (h : g.Flattens xs ids.eraseDups)
    (hmore : g.Flattens ys more.eraseDups) : g.leaves (xs ++ ys) = (ids ++ more).eraseDups := by
  calc g.leaves (xs ++ ys)
      = addMissing [] (addMissing [] ids ++ addMissing [] more) := by
        rw [(h.append hmore).leaves_eq, addMissing_eq_eraseDups, addMissing_eq_eraseDups,
          addMissing_eq_eraseDups]
    _ = addMissing (addMissing [] ids) more := by
        rw [addMissing_append, addMissing_addMissing, addMissing_addMissing]
        rfl
    _ = (ids ++ more).eraseDups := by rw [← addMissing_append, addMissing_eq_eraseDups]

end Flattens

end Written

section Built

/-- A node, and the graph it was built in, that is the flat union of leaves: it has these leaves, and
it is the leaf itself where there is one alone. -/
structure IsFlatUnion (built : NodeId × TypeGraph) (leaves : List NodeId) : Prop where
  leaves_eq : built.2.leaves [built.1] = leaves
  nodup : leaves.Nodup
  plain : ∀ leaf ∈ leaves, ∀ inner, built.2.form leaf ≠ .union inner
  form : leaves = [built.1] ∨ leaves.length ≠ 1 ∧ built.2.form built.1 = .union leaves

/-- The union of two unions. -/
def unionInParts (g : TypeGraph) (xs ys : List NodeId) (location : Option Location) :
    NodeId × TypeGraph :=
  let left := g.unionOf xs location
  let right := left.2.unionOf ys location
  right.2.unionOf [left.1, right.1] location

/-- The union of the members of a union; another type is a union of itself. -/
def unionAgain (built : NodeId × TypeGraph) (location : Option Location) : NodeId × TypeGraph :=
  built.2.unionOf ((built.2.members? (.node built.1)).getD [built.1]) location

/-- A single leaf is the union, and only for another number of leaves a node is added. -/
theorem unionOf_cases (g : TypeGraph) (members : List NodeId) (location : Option Location) :
    (∃ leaf, g.leaves members = [leaf] ∧ g.unionOf members location = (leaf, g)) ∨
      ((g.leaves members).length ≠ 1 ∧
        g.unionOf members location = g.push (.union (g.leaves members)) location) := by
  unfold unionOf
  split
  · next leaf hleaves => exact .inl ⟨leaf, hleaves, rfl⟩
  · next hleaves =>
      refine .inr ⟨fun hone => ?_, rfl⟩
      obtain ⟨leaf, hleaf⟩ := List.length_eq_one_iff.mp hone
      exact hleaves leaf hleaf

theorem size_le_unionOf (g : TypeGraph) (members : List NodeId) (location : Option Location) :
    g.size ≤ (g.unionOf members location).2.size := by
  obtain ⟨leaf, -, heq⟩ | ⟨-, heq⟩ := g.unionOf_cases members location
  · rw [heq]
  · rw [heq, size_push]
    exact Nat.le_succ _

theorem form_unionOf (h : a < g.size) (members : List NodeId) (location : Option Location) :
    (g.unionOf members location).2.form a = g.form a := by
  obtain ⟨leaf, -, heq⟩ | ⟨-, heq⟩ := g.unionOf_cases members location
  · rw [heq]
  · rw [heq]
    exact form_push_of_lt h _ _

theorem eraseDups_of_nodup (h : ids.Nodup) : ids.eraseDups = ids := by
  rw [← addMissing_eq_eraseDups, addMissing_of_nodup h]

namespace IsFlatUnion
variable {built : NodeId × TypeGraph}

theorem flattens (h : IsFlatUnion built leaves) : built.2.Flattens [built.1] leaves := by
  obtain hone | ⟨-, hform⟩ := h.form
  · have hmem : built.1 ∈ leaves := hone ▸ List.mem_singleton_self _
    exact hone ▸ .leaf (h.plain _ hmem) .nothing
  · have hmembers := (brings_of_leaves h.plain).flattens
    exact List.append_nil leaves ▸ .union hform hmembers .nothing

/-- The union is no union if and only if it has one leaf. -/
theorem plain_iff (h : IsFlatUnion built leaves) :
    (∀ inner, built.2.form built.1 ≠ .union inner) ↔ leaves.length = 1 := by
  obtain hone | ⟨hlength, hform⟩ := h.form
  · have hmem : built.1 ∈ leaves := hone ▸ List.mem_singleton_self _
    exact ⟨fun _ => congrArg List.length hone, fun _ => h.plain _ hmem⟩
  · exact ⟨fun hplain => absurd hform (hplain leaves), fun hone => absurd hone hlength⟩

end IsFlatUnion

/-- The union of members is the flat union of their leaves. -/
theorem isFlatUnion_unionOf (hlt : ∀ leaf ∈ g.leaves members, leaf < g.size) :
    IsFlatUnion (g.unionOf members location) (g.leaves members) := by
  have hplain : ∀ leaf ∈ g.leaves members, ∀ inner,
      (g.unionOf members location).2.form leaf ≠ .union inner := fun leaf hleaf inner => by
    rw [form_unionOf (hlt leaf hleaf)]
    exact not_union_of_mem_leaves hleaf inner
  have hflat := (brings_of_leaves hplain).flattens
  obtain ⟨leaf, hone, heq⟩ | ⟨hlength, heq⟩ := g.unionOf_cases members location
  · refine ⟨?_, nodup_leaves g members, hplain, .inl (by rw [hone, heq])⟩
    rw [hone] at hflat ⊢
    rw [heq] at hflat ⊢
    rw [hflat.leaves_eq, eraseDups_of_nodup (List.nodup_singleton leaf)]
  · have hform : (g.unionOf members location).2.form (g.unionOf members location).1 =
        .union (g.leaves members) := by
      rw [heq]
      exact form_push_size g _ location
    refine ⟨?_, nodup_leaves g members, hplain, .inr ⟨hlength, hform⟩⟩
    rw [(Flattens.union hform hflat .nothing).leaves_eq, List.append_nil,
      eraseDups_of_nodup (nodup_leaves g members)]

namespace IsFlatUnion
variable {built : NodeId × TypeGraph}

theorem members_eq (h : IsFlatUnion built leaves) :
    (built.2.members? (.node built.1)).getD [built.1] = leaves := by
  obtain hone | ⟨-, hform⟩ := h.form
  · have hmem : built.1 ∈ leaves := hone ▸ List.mem_singleton_self _
    have hnone : built.2.members? (.node built.1) = none := by
      cases hform : built.2.form built.1 with
      | union inner => exact absurd hform (h.plain _ hmem inner)
      | _ => rw [members?, hform]
    rw [hnone, hone]
    rfl
  · rw [members?, hform]
    rfl

/-- A union that is taken again is a union of the same members, or the same node. -/
theorem again (h : IsFlatUnion built leaves) (hlt : ∀ leaf ∈ leaves, leaf < built.2.size)
    (location : Option Location) :
    IsFlatUnion (unionAgain built location) leaves ∧
      (unionAgain built location).2.form (unionAgain built location).1 = built.2.form built.1 ∧
      (leaves.length = 1 → unionAgain built location = built) := by
  have hleaves := leaves_of_leaves h.plain h.nodup
  rw [unionAgain, h.members_eq]
  have hagain : IsFlatUnion (built.2.unionOf leaves location) leaves := by
    have hunion : IsFlatUnion (built.2.unionOf leaves location) (built.2.leaves leaves) :=
      isFlatUnion_unionOf (hleaves.symm ▸ hlt)
    rwa [hleaves] at hunion
  refine ⟨hagain, ?_⟩
  obtain hone | ⟨hlength, hform⟩ := h.form
  · have hsame : built.2.unionOf leaves location = built := by
      rw [unionOf, hleaves, hone]
    rw [hsame]
    exact ⟨rfl, fun _ => rfl⟩
  · obtain hone | ⟨-, hform'⟩ := hagain.form
    · exact absurd (congrArg List.length hone) hlength
    · exact ⟨hform'.trans hform.symm, fun hone => absurd hone hlength⟩

end IsFlatUnion

namespace Flattens
variable {xs ys more : List NodeId}

theorem lt_of_mem_leaves (h : g.Flattens members ids) (hids : ∀ id ∈ ids, id < g.size) :
    ∀ leaf ∈ g.leaves members, leaf < g.size := by
  rw [h.leaves_eq]
  exact fun leaf hleaf => hids leaf (List.mem_eraseDups.mp hleaf)

/-- The union of types is the flat union of what is left of them. -/
theorem isFlatUnion (h : g.Flattens members ids) (hids : ∀ id ∈ ids, id < g.size)
    (location : Option Location) : IsFlatUnion (g.unionOf members location) ids.eraseDups :=
  h.leaves_eq ▸ isFlatUnion_unionOf (h.lt_of_mem_leaves hids)

/-- So is the union of two unions, for both at once. -/
theorem isFlatUnion_inParts (h : g.Flattens xs ids) (hids : ∀ id ∈ ids, id < g.size)
    (hmore : g.Flattens ys more) (hmoreids : ∀ id ∈ more, id < g.size)
    (location : Option Location) :
    IsFlatUnion (g.unionInParts xs ys location) (ids ++ more).eraseDups := by
  unfold unionInParts
  extract_lets left right
  have hsize : g.size ≤ left.2.size := g.size_le_unionOf xs location
  have hsize' : left.2.size ≤ right.2.size := left.2.size_le_unionOf ys location
  have hleft : IsFlatUnion left ids.eraseDups := h.isFlatUnion hids location
  have hright : IsFlatUnion right more.eraseDups :=
    (hmore.kept hmoreids fun _ hid => form_unionOf hid xs location).isFlatUnion
      (fun id hid => Nat.lt_of_lt_of_le (hmoreids id hid) hsize) location
  have hleft' : right.2.Flattens [left.1] ids.eraseDups :=
    hleft.flattens.kept
      (fun id hid => Nat.lt_of_lt_of_le (hids id (List.mem_eraseDups.mp hid)) hsize)
      fun _ hid => form_unionOf hid ys location
  have hleaves : right.2.leaves [left.1, right.1] = (ids ++ more).eraseDups :=
    hleft'.leaves_append hright.flattens
  refine hleaves ▸ isFlatUnion_unionOf fun leaf hleaf => ?_
  rw [hleaves, List.mem_eraseDups, List.mem_append] at hleaf
  exact Nat.lt_of_lt_of_le (hleaf.elim (hids leaf) (hmoreids leaf)) (Nat.le_trans hsize hsize')

end Flattens

/--
Types whose unions come to an end are written out, and their union is the flat union of what that
leaves, as a use and as a node. It is no union exactly if one leaf is left. Taken again it is the
same, and the union of two unions is the union of all their members.
-/
theorem unionOf_builds_flat_union (hparts : ∀ a, ∀ part ∈ g.unionParts a, part < g.size)
    {xs ys : List NodeId} (hxs : ∀ x ∈ xs, x < g.size ∧ Grounded g.unionParts x)
    (hys : ∀ y ∈ ys, y < g.size ∧ Grounded g.unionParts y) (location other : Option Location) :
    ∃ ids more, g.Flattens xs ids ∧ g.Flattens ys more ∧
      g.unionUse xs = .ofLeaves ids.eraseDups ∧
      IsFlatUnion (g.unionOf xs location) ids.eraseDups ∧
      ((∀ inner, (g.unionOf xs location).2.form (g.unionOf xs location).1 ≠ .union inner) ↔
        ids.eraseDups.length = 1) ∧
      (IsFlatUnion (unionAgain (g.unionOf xs location) other) ids.eraseDups ∧
        (unionAgain (g.unionOf xs location) other).2.form
            (unionAgain (g.unionOf xs location) other).1 =
          (g.unionOf xs location).2.form (g.unionOf xs location).1 ∧
        (ids.eraseDups.length = 1 →
          unionAgain (g.unionOf xs location) other = g.unionOf xs location)) ∧
      IsFlatUnion (g.unionOf (xs ++ ys) location) (ids ++ more).eraseDups ∧
      IsFlatUnion (g.unionInParts xs ys location) (ids ++ more).eraseDups := by
  obtain ⟨ids, h⟩ := exists_flattens fun x hx => exists_flattens_of_grounded (hxs x hx).2
  obtain ⟨more, hmore⟩ := exists_flattens fun y hy => exists_flattens_of_grounded (hys y hy).2
  have hids := h.lt_size (fun x hx => (hxs x hx).1) hparts
  have hmoreids := hmore.lt_size (fun y hy => (hys y hy).1) hparts
  have hflat := h.isFlatUnion hids location
  have hsize := g.size_le_unionOf xs location
  refine ⟨ids, more, h, hmore, congrArg TypeUse.ofLeaves h.leaves_eq, hflat, hflat.plain_iff,
    hflat.again (fun leaf hleaf => ?_) other,
    (h.append hmore).isFlatUnion (List.forall_mem_append.mpr ⟨hids, hmoreids⟩) location,
    h.isFlatUnion_inParts hids hmore hmoreids location⟩
  exact Nat.lt_of_lt_of_le (hids leaf (List.mem_eraseDups.mp hleaf)) hsize

/-- Unions three deep, one of them of nothing, in which the same nodes come again. -/
def repeatingGraph : TypeGraph :=
  ⟨initial.nodes ++ #[
    ⟨.union [stringId, nullId], none⟩,
    ⟨.union [], none⟩,
    ⟨.union [11, undefinedId, 12, stringId, 11], none⟩,
    ⟨.union [13, numberId], none⟩]⟩

/-- All that is left of them comes once, and what is in both parts comes once too. -/
theorem repeatingGraph_is_flattened :
    IsFlatUnion (repeatingGraph.unionOf [14, stringId, 12] none) [6, 5, 4, 7] ∧
      IsFlatUnion (repeatingGraph.unionInParts [14, stringId, 12] [11, booleanId] none)
        [6, 5, 4, 7, 8] := by
  have hinner : repeatingGraph.Flattens [stringId, nullId] [6, 5] :=
    .leaf (by nofun) (.leaf (by nofun) .nothing)
  have hmiddle : repeatingGraph.Flattens [11, undefinedId, 12, stringId, 11] [6, 5, 4, 6, 6, 5] :=
    .union (by rfl) hinner (.leaf (by nofun) (.union (by rfl) .nothing (.leaf (by nofun)
      (.union (by rfl) hinner .nothing))))
  have hxs : repeatingGraph.Flattens [14, stringId, 12] [6, 5, 4, 6, 6, 5, 7, 6] :=
    .union (by rfl) (.union (by rfl) hmiddle (.leaf (by nofun) .nothing))
      (.leaf (by nofun) (.union (by rfl) .nothing .nothing))
  have hys : repeatingGraph.Flattens [11, booleanId] [6, 5, 8] :=
    .union (by rfl) hinner (.leaf (by nofun) .nothing)
  have hparts : ∀ a, ∀ part ∈ repeatingGraph.unionParts a, part < repeatingGraph.size := by
    intro a part hpart
    have hall : ∀ a < repeatingGraph.size, ∀ part ∈ repeatingGraph.unionParts a,
        part < repeatingGraph.size := by decide
    exact hall a (lt_size_of_mem_unionParts a part hpart) part hpart
  obtain ⟨ids, more, hids, hmore, -, hflat, -, -, -, hinParts⟩ :=
    unionOf_builds_flat_union hparts
      (fun x hx => ⟨(by decide : ∀ x ∈ [14, stringId, 12], x < repeatingGraph.size) x hx,
        hxs.grounded x hx⟩)
      (fun y hy => ⟨(by decide : ∀ y ∈ [11, booleanId], y < repeatingGraph.size) y hy,
        hys.grounded y hy⟩) none none
  have hone : ids.eraseDups = [6, 5, 4, 7] :=
    hids.leaves_eq.symm.trans (hxs.leaves_eq.trans (by decide))
  have hboth : (ids ++ more).eraseDups = [6, 5, 4, 7, 8] :=
    (hids.append hmore).leaves_eq.symm.trans ((hxs.append hys).leaves_eq.trans (by decide))
  exact ⟨hone ▸ hflat, hboth ▸ hinParts⟩

end Built

end PropSchema.TypeGraph
