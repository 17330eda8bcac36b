import PropSchema.Proofs.Classify.Deeper
import PropSchema.Proofs.Classify.Props
import PropSchema.Proofs.Classify.Termination
import PropSchema.Proofs.TypeGraph.NestedUnions
/-!
The schema of a union. It depends on the leaves alone and on their order: those that are null or
undefined make it nullable, the others give its options, each once and none left out. Unions that are
nested in different ways have one schema if they have the same leaves.
-/
namespace PropSchema

namespace TypeGraph

/-- A union in use and the leaves that it stands for, of which there are two at least. -/
structure Spans (g : TypeGraph) (use : TypeUse) (leaves : List NodeId) : Prop where
  found : g.unionLeaves? use = some leaves
  void : g.isVoidLike use = leaves.all g.standsForNothing
  several : 2 ≤ leaves.length

/-- Leaves but for those that are null or undefined. -/
def nonNullish (g : TypeGraph) (leaves : List NodeId) : List NodeId :=
  leaves.filter fun leaf => !g.isNullish leaf

variable {g : TypeGraph} {use : TypeUse} {leaves : List NodeId} {leaf : NodeId}

theorem standsForNothing_of_isNullish (h : g.isNullish leaf = true) :
    g.standsForNothing leaf = true := by
  obtain ⟨name, hform, hnullish⟩ : ∃ name, g.form leaf = .primitive name ∧
      (name == "undefined" || name == "null") = true := by
    cases hform : g.form leaf <;> simp_all [isNullish]
  simp only [Bool.or_eq_true] at hnullish
  simp only [standsForNothing, hform, Bool.or_eq_true]
  exact hnullish.imp_left Or.inr

theorem mem_of_nonNullish_eq (hone : g.nonNullish leaves = [leaf]) : leaf ∈ leaves := by
  have hmem : leaf ∈ g.nonNullish leaves := by
    rw [hone]
    exact List.mem_singleton_self leaf
  exact List.mem_of_mem_filter hmem

/-- Null and undefined stand for nothing, so they do not matter to whether all leaves do. -/
theorem all_nonNullish (g : TypeGraph) (leaves : List NodeId) :
    (g.nonNullish leaves).all g.standsForNothing = leaves.all g.standsForNothing := by
  rw [nonNullish, List.all_filter, Bool.eq_iff_iff, List.all_eq_true, List.all_eq_true]
  refine forall₂_congr fun leaf _ => ?_
  cases hn : g.isNullish leaf with
  | true => simp [standsForNothing_of_isNullish hn]
  | false => simp

theorem symbolOf_of_members? {members : List NodeId} (h : g.members? use = some members) :
    g.symbolOf use = none := by
  cases use with
  | node id => rw [symbolOf, symbol, form_of_members? h]
  | union leaves => rfl

/-- What the schema of a union is made from. -/
theorem makeup_of_members? {members : List NodeId} (h : g.members? use = some members) :
    g.makeup use = if g.isVoidLike use then .plain .void else .union (g.leaves members) := by
  have hleaves : (g.unionLeaves? use).getD [] = g.leaves members := by
    rw [unionLeaves?, h, Option.map_some, Option.getD_some]
  have hshape : g.shape use = if g.isVoidLike use then .void else .union := by
    cases use with
    | node id => rw [shape, nodeShape, form_of_members? h]
    | union leaves => rfl
  unfold makeup
  rw [hshape]
  cases g.isVoidLike use with
  | true => rfl
  | false => exact congrArg Makeup.union hleaves

theorem makeup_of_isVoidLike (h : g.isVoidLike use = true) : g.makeup use = .plain .void := by
  have hshape : g.shape use = .void := by rw [shape.eq_def, if_pos h]
  unfold makeup
  rw [hshape]

theorem isNullable_of_leaf (h : ∀ inner, g.form leaf ≠ .union inner) :
    g.isNullable (.node leaf) = false := by
  have hm : g.members? (.node leaf) = none := by
    cases hform : g.form leaf with
    | union inner => exact absurd hform (h inner)
    | _ => rw [members?, hform]
  rw [isNullable, unionLeaves?, hm, Option.map_none]

theorem stripped_of_leaf (h : ∀ inner, g.form leaf ≠ .union inner) :
    g.stripped (.node leaf) = .node leaf := by
  rw [stripped, isNullable_of_leaf h]
  rfl

theorem isVoidLike_of_leaves (h : ∀ leaf ∈ leaves, ∀ inner, g.form leaf ≠ .union inner)
    (hne : leaves ≠ []) : g.isVoidLike (.union leaves) = leaves.all g.standsForNothing := by
  rw [isVoidLike, (brings_of_leaves h).all_isVoidLikeTo, List.isEmpty_eq_false_iff.mpr hne]
  rfl

/-- A node whose members bring two leaves or more spans them. -/
theorem Brings.spans {u : NodeId} {members ids : List NodeId} (h : g.Brings members ids)
    (hform : g.form u = .union members) (htwo : 2 ≤ ids.eraseDups.length) :
    g.Spans (.node u) ids.eraseDups := by
  have hne : members ≠ [] := by
    rintro rfl
    cases h
    simp at htwo
  have hgrounded : Grounded g.unionParts u :=
    ⟨u, fun part hp => h.grounded part (unionParts_of_union hform ▸ hp)⟩
  refine ⟨?_, ?_, htwo⟩
  · rw [unionLeaves?, members?, hform]
    exact congrArg some h.leaves_eq
  · rw [isVoidLike_of_grounded hform hgrounded, h.all_isVoidLikeTo,
      List.isEmpty_eq_false_iff.mpr hne, Bool.not_false, Bool.true_and, Bool.eq_iff_iff,
      List.all_eq_true, List.all_eq_true]
    simp

/-- So does a union of two leaves or more that is made on the way. -/
theorem spans_of_leaves (h : ∀ leaf ∈ leaves, ∀ inner, g.form leaf ≠ .union inner)
    (hnodup : leaves.Nodup) (htwo : 2 ≤ leaves.length) : g.Spans (.union leaves) leaves := by
  have hne : leaves ≠ [] := List.ne_nil_of_length_pos (Nat.lt_of_lt_of_le Nat.zero_lt_two htwo)
  exact ⟨congrArg some (leaves_of_leaves h hnodup), isVoidLike_of_leaves h hne, htwo⟩

namespace Spans

theorem members? (h : g.Spans use leaves) :
    ∃ members, g.members? use = some members ∧ g.leaves members = leaves :=
  Option.map_eq_some_iff.mp h.found

theorem leaf_of_mem (h : g.Spans use leaves) (hleaf : leaf ∈ leaves) (inner : List NodeId) :
    g.form leaf ≠ .union inner := by
  obtain ⟨members, -, rfl⟩ := h.members?
  exact not_union_of_mem_leaves hleaf inner

theorem nodup (h : g.Spans use leaves) : leaves.Nodup := by
  obtain ⟨members, -, rfl⟩ := h.members?
  exact nodup_leaves g members

/-- A union is nullable if leaves are left without null and undefined, and fewer than before. -/
theorem isNullable_eq (h : g.Spans use leaves) : g.isNullable use =
    (!(g.nonNullish leaves).isEmpty && decide ((g.nonNullish leaves).length < leaves.length)) := by
  have hany : leaves.any g.isNullish = decide ((g.nonNullish leaves).length < leaves.length) := by
    rw [Bool.eq_iff_iff, decide_eq_true_iff, nonNullish, List.length_filter_lt_length_iff_exists,
      List.any_eq_true]
    simp
  have hall : leaves.all g.isNullish = (g.nonNullish leaves).isEmpty := by
    rw [Bool.eq_iff_iff, List.isEmpty_iff, nonNullish, List.filter_eq_nil_iff, List.all_eq_true]
    simp
  rw [isNullable, h.found]
  simp only [hany, hall]
  exact Bool.and_comm _ _

/-- If one leaf is left without null and undefined, it takes the place of the union. -/
theorem stripped_of_single (h : g.Spans use leaves) (hone : g.nonNullish leaves = [leaf]) :
    g.isNullable use = true ∧ g.stripped use = .node leaf := by
  obtain ⟨members, hm, hl⟩ := h.members?
  have hnullable : g.isNullable use = true := by
    have hlt : 1 < leaves.length := h.several
    simp [h.isNullable_eq, hone, hlt]
  have hfilter : (g.leaves members).filter (fun leaf => !g.isNullish leaf) = [leaf] := by
    rw [hl]
    exact hone
  refine ⟨hnullable, ?_⟩
  rw [stripped, if_pos hnullable, nonNullable, hm]
  simp only [hfilter]

/-- A union that stands for nothing, or that is free of null and undefined, goes on as it is. -/
theorem makeup_whole (h : g.Spans use leaves)
    (heq : leaves.all g.standsForNothing = true ∨ g.nonNullish leaves = leaves) :
    g.symbolOf use = none ∧ g.makeup use =
      if leaves.all g.standsForNothing then .plain .void else .union (g.nonNullish leaves) := by
  obtain ⟨members, hm, hl⟩ := h.members?
  refine ⟨symbolOf_of_members? hm, ?_⟩
  rw [makeup_of_members? hm, h.void, hl]
  obtain hvoid | hsame := heq
  · rw [if_pos hvoid, if_pos hvoid]
  · rw [hsame]

theorem whole_of_not_nullable (h : g.Spans use leaves) (hnullable : g.isNullable use = false) :
    leaves.all g.standsForNothing = true ∨ g.nonNullish leaves = leaves := by
  rw [h.isNullable_eq, Bool.and_eq_false_iff] at hnullable
  obtain hempty | hlong := hnullable
  · left
    have hnil : g.nonNullish leaves = [] := by simpa using hempty
    rw [← all_nonNullish, hnil]
    rfl
  · right
    have hle : leaves.length ≤ (g.nonNullish leaves).length := by simpa using hlong
    exact List.filter_sublist.eq_of_length_le hle

theorem leaves_nonNullish (h : g.Spans use leaves) :
    g.leaves (g.nonNullish leaves) = g.nonNullish leaves :=
  leaves_of_leaves (fun _ hleaf => h.leaf_of_mem (List.mem_of_mem_filter hleaf)) (h.nodup.filter _)

/-- The leaves that are left, made a union on the way. -/
theorem makeup_rest (h : g.Spans use leaves) (hrest : g.nonNullish leaves ≠ []) :
    g.symbolOf (.union (g.nonNullish leaves)) = none ∧ g.makeup (.union (g.nonNullish leaves)) =
      if leaves.all g.standsForNothing then .plain .void else .union (g.nonNullish leaves) := by
  have hflat : ∀ leaf ∈ g.nonNullish leaves, ∀ inner, g.form leaf ≠ .union inner :=
    fun leaf hleaf => h.leaf_of_mem (List.mem_of_mem_filter hleaf)
  refine ⟨rfl, ?_⟩
  rw [makeup_of_members? rfl, isVoidLike_of_leaves hflat hrest, all_nonNullish, h.leaves_nonNullish]

theorem stripped_of_nullable (h : g.Spans use leaves) (hnullable : g.isNullable use = true)
    (hrest : g.nonNullish leaves ≠ []) (hne : (g.nonNullish leaves).length ≠ 1)
    {members : List NodeId} (hm : g.members? use = some members) : g.stripped use =
      if g.nonNullish leaves = members then use else .union (g.nonNullish leaves) := by
  have hl : g.leaves members = leaves := by
    obtain ⟨members', hm', hl⟩ := h.members?
    cases hm.symm.trans hm'
    exact hl
  have hfilter : (g.leaves members).filter (fun leaf => !g.isNullish leaf) =
      g.nonNullish leaves := by
    rw [hl]
    rfl
  rw [stripped, if_pos hnullable, nonNullable, hm]
  simp only [hfilter]
  split
  · next hnil => exact absurd hnil hrest
  · next leaf hone => simp [hone] at hne
  · rfl

/-- Otherwise the union goes on as one of the leaves that are left, or of nothing. -/
theorem stripped_of_several (h : g.Spans use leaves) (hne : (g.nonNullish leaves).length ≠ 1) :
    g.symbolOf (g.stripped use) = none ∧ g.makeup (g.stripped use) =
      if leaves.all g.standsForNothing then .plain .void else .union (g.nonNullish leaves) := by
  cases hnullable : g.isNullable use with
  | false =>
      rw [stripped, hnullable]
      exact h.makeup_whole (h.whole_of_not_nullable hnullable)
  | true =>
      have hrest : g.nonNullish leaves ≠ [] := by
        rw [h.isNullable_eq, Bool.and_eq_true] at hnullable
        simpa using hnullable.1
      obtain ⟨members, hm, hl⟩ := h.members?
      rw [h.stripped_of_nullable hnullable hrest hne hm]
      split
      · next hsame =>
          rw [← hsame] at hl
          exact h.makeup_whole (.inr (h.leaves_nonNullish.symm.trans hl))
      · exact h.makeup_rest hrest

end Spans

end TypeGraph

namespace Classify
open TypeGraph
variable {r : Rules} {g : TypeGraph} {use : TypeUse} {leaves : List NodeId} {leaf : NodeId}
  {depth : Nat}

/-- The schema of a union, given its leaves and the schemas of those that are not null or
undefined, in the order of the leaves. -/
def specOfLeaves (g : TypeGraph) (leaves : List NodeId) (specs : List PropSpec) : PropSpec :=
  if leaves.all g.standsForNothing then ⟨.void, false⟩
  else match specs with
    | [s] => ⟨s.propType, !s.propType.isVoid⟩
    | _ => ⟨.union (specs.map Spec.propType), specs.length < leaves.length⟩

theorem specOfLeaves_of_all (hvoid : leaves.all g.standsForNothing) (specs : List PropSpec) :
    specOfLeaves g leaves specs = ⟨.void, false⟩ := by
  unfold specOfLeaves
  rw [if_pos hvoid]

theorem specOfLeaves_of_several {specs : List PropSpec} (hvoid : ¬ leaves.all g.standsForNothing)
    (hne : specs.length ≠ 1) : specOfLeaves g leaves specs =
      ⟨.union (specs.map Spec.propType), specs.length < leaves.length⟩ := by
  unfold specOfLeaves
  rw [if_neg hvoid]
  split
  · exact absurd rfl hne
  · rfl

/-- A leaf is no union, so it is never nullable. -/
theorem specTo_of_leaf (r : Rules) (h : ∀ inner, g.form leaf ≠ .union inner) :
    specTo r g (depth + 1) (.node leaf) =
      (match r.registry.find? (g.symbol leaf) with
        | some known => pure known
        | none => propTypeTo r g depth (.node leaf)) >>= fun propType =>
          pure ⟨propType, false⟩ := by
  rw [specTo_succ, stripped_of_leaf h, isNullable_of_leaf h]
  rfl

/-- A union with one leaf besides null and undefined has the prop type of that leaf. -/
theorem specTo_of_single (r : Rules) (h : g.Spans use leaves)
    (hone : g.nonNullish leaves = [leaf]) :
    specTo r g (depth + 1) use = specTo r g (depth + 1) (.node leaf) >>= fun s =>
      pure ⟨s.propType, !s.propType.isVoid⟩ := by
  have hleaf := h.leaf_of_mem (mem_of_nonNullish_eq hone)
  obtain ⟨hnullable, hstripped⟩ := h.stripped_of_single hone
  rw [specTo_of_leaf r hleaf, specTo_succ, hstripped, hnullable, bind_assoc]
  rfl

/-- Any other union is void, or a union of the leaves that are left. -/
theorem specTo_of_several (r : Rules) (h : g.Spans use leaves)
    (hne : (g.nonNullish leaves).length ≠ 1) :
    specTo r g (depth + 2) use =
      makeupTo r g depth (if leaves.all g.standsForNothing then .plain .void
        else .union (g.nonNullish leaves)) >>= fun propType =>
          pure ⟨propType, g.isNullable use && !propType.isVoid⟩ := by
  obtain ⟨hsymbol, hmakeup⟩ := h.stripped_of_several hne
  rw [specTo_succ, hsymbol, propTypeTo_succ, hmakeup]
  rfl

/-- Unions that stand for the same leaves are the same to classification. -/
theorem specTo_eq_of_spans {use' : TypeUse} (r : Rules) (h : g.Spans use leaves)
    (h' : g.Spans use' leaves) (depth : Nat) : specTo r g depth use = specTo r g depth use' := by
  have hnullable : g.isNullable use = g.isNullable use' := by
    rw [h.isNullable_eq, h'.isNullable_eq]
  cases depth with
  | zero => rw [specTo, specTo]
  | succ depth =>
      by_cases hone : (g.nonNullish leaves).length = 1
      · obtain ⟨leaf, hleaf⟩ := List.length_eq_one_iff.mp hone
        rw [specTo_of_single r h hleaf, specTo_of_single r h' hleaf]
      · cases depth with
        | zero =>
            rw [specTo_succ, specTo_succ, (h.stripped_of_several hone).1,
              (h'.stripped_of_several hone).1, hnullable, propTypeTo, propTypeTo]
        | succ depth => rw [specTo_of_several r h hone, specTo_of_several r h' hone, hnullable]

/-- Null, undefined and void are void at once. -/
theorem run_of_standsForNothing (h : g.standsForNothing leaf = true) {c c' : Context} {s : PropSpec}
    (hrun : (specTo r g depth (.node leaf)).run c = (.ok s, c')) : s = ⟨.void, false⟩ ∧ c' = c := by
  obtain ⟨name, hform⟩ : ∃ name, g.form leaf = .primitive name := by
    unfold standsForNothing at h
    split at h
    · next name hform => exact ⟨name, hform⟩
    · cases h
  have hleaf : ∀ inner, g.form leaf ≠ .union inner := by simp [hform]
  have hvoid : g.isVoidLike (.node leaf) = true := by
    rw [isVoidLike, TypeGraph.depth, isVoidLikeTo_of_leaf hleaf, h]
  cases depth with
  | zero =>
      rw [specTo] at hrun
      cases hrun
  | succ depth =>
      have hsymbol : g.symbol leaf = none := by rw [symbol, hform]
      rw [specTo_of_leaf r hleaf, hsymbol] at hrun
      obtain ⟨t, c₁, ht, hrun⟩ := Pass.ok_of_bind hrun
      cases hrun
      cases depth with
      | zero =>
          rw [show r.registry.find? none = none from rfl, propTypeTo] at ht
          cases ht
      | succ depth =>
          rw [show r.registry.find? none = none from rfl, propTypeTo_succ,
            makeup_of_isVoidLike hvoid] at ht
          cases ht
          exact ⟨rfl, rfl⟩

/-- What leaves give one by one they give as the options of a union. -/
theorem run_options {step : NodeId → Pass PropSpec} {specs : List PropSpec} {c c' : Context}
    (h : (leaves.mapM step).run c = (.ok specs, c')) :
    (leaves.mapM fun leaf => Pass.unionMember (do pure (← step leaf).propType)).run c =
      (.ok (specs.map Spec.propType), c') := by
  induction leaves generalizing c specs with
  | nil =>
      cases h
      rfl
  | cons leaf leaves ih =>
      rw [List.mapM_cons] at h
      obtain ⟨s, c₁, hs, h⟩ := Pass.ok_of_bind h
      obtain ⟨rest, c₂, hrest, h⟩ := Pass.ok_of_bind h
      cases h
      have hleaf : (Pass.unionMember (do pure (← step leaf).propType)).run c =
          (.ok s.propType, c₁) := Pass.run_unionMember_ok (Pass.run_bind_ok hs _)
      rw [List.mapM_cons, Pass.run_bind_ok hleaf, Pass.run_bind_ok (ih hrest)]
      rfl

/-- What leads nowhere in the context leaves it as it is, one by one. -/
theorem run_of_all_standForNothing (h : ∀ leaf ∈ leaves, g.standsForNothing leaf = true)
    {c c' : Context} {specs : List PropSpec}
    (hrun : (leaves.mapM fun leaf => specTo r g depth (.node leaf)).run c = (.ok specs, c')) :
    c' = c := by
  induction leaves generalizing c specs with
  | nil =>
      cases hrun
      rfl
  | cons leaf leaves ih =>
      rw [List.forall_mem_cons] at h
      rw [List.mapM_cons] at hrun
      obtain ⟨s, c₁, hs, hrun⟩ := Pass.ok_of_bind hrun
      obtain ⟨rest, c₂, hrest, hrun⟩ := Pass.ok_of_bind hrun
      cases hrun
      rw [ih h.2 hrest, (run_of_standsForNothing h.1 hs).2]

theorem length_of_run {step : NodeId → Pass PropSpec} {specs : List PropSpec} {c c' : Context}
    (h : (leaves.mapM step).run c = (.ok specs, c')) : specs.length = leaves.length := by
  induction leaves generalizing c specs with
  | nil =>
      cases h
      rfl
  | cons leaf leaves ih =>
      rw [List.mapM_cons] at h
      obtain ⟨s, c₁, -, h⟩ := Pass.ok_of_bind h
      obtain ⟨rest, c₂, hrest, h⟩ := Pass.ok_of_bind h
      cases h
      rw [List.length_cons, List.length_cons, ih hrest]

theorem run_of_single (h : g.Spans use leaves) (hone : g.nonNullish leaves = [leaf])
    {s : PropSpec} {c c' : Context}
    (hrun : (specTo r g (depth + 1) (.node leaf)).run c = (.ok s, c')) :
    (specTo r g (depth + 1) use).run c = (.ok (specOfLeaves g leaves [s]), c') := by
  rw [specTo_of_single r h hone, Pass.run_bind_ok hrun, Pass.run_pure, specOfLeaves]
  by_cases hvoid : leaves.all g.standsForNothing = true
  · have hnothing := List.all_eq_true.mp hvoid leaf (mem_of_nonNullish_eq hone)
    rw [if_pos hvoid, (run_of_standsForNothing hnothing hrun).1]
    rfl
  · rw [if_neg hvoid]

theorem run_of_several (h : g.Spans use leaves) (hne : (g.nonNullish leaves).length ≠ 1)
    {specs : List PropSpec} {c c' : Context}
    (hrun : ((g.nonNullish leaves).mapM fun leaf => specTo r g depth (.node leaf)).run c =
      (.ok specs, c')) :
    (specTo r g (depth + 2) use).run c = (.ok (specOfLeaves g leaves specs), c') := by
  rw [specTo_of_several r h hne]
  by_cases hvoid : leaves.all g.standsForNothing = true
  · have hnothing : ∀ leaf ∈ g.nonNullish leaves, g.standsForNothing leaf = true := by
      rw [← List.all_eq_true, all_nonNullish, hvoid]
    rw [if_pos hvoid, run_of_all_standForNothing hnothing hrun, makeupTo,
      Pass.run_bind_ok (Pass.run_pure _ _), specOfLeaves_of_all hvoid]
    simp [PropType.isVoid]
  · have hrest : g.nonNullish leaves ≠ [] := by
      intro hnil
      refine hvoid ?_
      rw [← all_nonNullish, hnil]
      rfl
    have hlength := length_of_run hrun
    have hnullable : g.isNullable use = decide (specs.length < leaves.length) := by
      rw [h.isNullable_eq, hlength, List.isEmpty_eq_false_iff.mpr hrest]
      rfl
    rw [if_neg hvoid, makeupTo, Pass.run_bind_ok (Pass.run_bind_ok (run_options hrun) _),
      Pass.run_pure, hnullable, specOfLeaves_of_several hvoid (hlength ▸ hne)]
    simp [PropType.isVoid]

/-- If the leaves that are not null or undefined have schemas, one after the other, the union has
the schema made from these, and leaves the same context. -/
theorem run_of_spans (h : g.Spans use leaves) {specs : List PropSpec} {c c' : Context}
    (hrun : ((g.nonNullish leaves).mapM fun leaf => specTo r g depth (.node leaf)).run c =
      (.ok specs, c')) {deeper : Nat} (hdeeper : depth + 2 ≤ deeper) :
    (specTo r g deeper use).run c = (.ok (specOfLeaves g leaves specs), c') := by
  obtain ⟨d, rfl⟩ := Nat.exists_eq_add_of_le hdeeper
  have hrun' (e : Nat) (he : depth ≤ e) : ((g.nonNullish leaves).mapM fun leaf =>
      specTo r g e (.node leaf)).run c = (.ok specs, c') := by
    have hdeepens : ((g.nonNullish leaves).mapM fun leaf => specTo r g depth (.node leaf)).Deepens
        ((g.nonNullish leaves).mapM fun leaf => specTo r g e (.node leaf)) :=
      .mapM (fun leaf => specTo_deepens he (.node leaf)) _
    rw [hdeepens c (by simp [hrun]), hrun]
  rw [show depth + 2 + d = depth + d + 2 by omega]
  by_cases hone : (g.nonNullish leaves).length = 1
  · obtain ⟨leaf, hleaf⟩ := List.length_eq_one_iff.mp hone
    have hsingle := hrun' (depth + d + 2) (by omega)
    rw [hleaf, List.mapM_cons] at hsingle
    obtain ⟨s, c₁, hspec, hnil⟩ := Pass.ok_of_bind hsingle
    cases hnil
    exact run_of_single h hleaf hspec
  · exact run_of_several h hone (hrun' (depth + d) (by omega))

/-- The schema of a union depends on its leaves alone. Let the members of a union bring two different
leaves or more, through unions within unions none of which is empty, and let those leaves that are not
null or undefined have schemas, one after the other. Then the union has the schema made from these: it
is void if all leaves stand for nothing; it is what a single one is, and nullable; or it is the union
of all of them in their order, nullable if there are other leaves. The context is the one that they
leave. A union with the same leaves, however it is nested, is the same to classification, also when
that fails. To go two steps further takes nothing if no type holds itself. -/
theorem union_depends_on_leaves (r : Rules) (g : TypeGraph) {u : NodeId} {members ids : List NodeId}
    (hform : g.form u = .union members) (hids : g.Brings members ids)
    (htwo : 2 ≤ ids.eraseDups.length) :
    (∀ depth c specs c', ((g.nonNullish ids.eraseDups).mapM fun leaf =>
        specTo r g depth (.node leaf)).run c = (.ok specs, c') → ∀ deeper, depth + 2 ≤ deeper →
      (specTo r g deeper (.node u)).run c = (.ok (specOfLeaves g ids.eraseDups specs), c')) ∧
    (g.HasPrimitives → (∀ id, ¬ Relation.TransGen g.Nests id id) → ∀ c specs c',
      ((g.nonNullish ids.eraseDups).mapM fun leaf => spec r g (.node leaf)).run c =
          (.ok specs, c') →
        (spec r g (.node u)).run c = (.ok (specOfLeaves g ids.eraseDups specs), c')) ∧
    ∀ v members' ids', g.form v = .union members' → g.Brings members' ids' →
      ids'.eraseDups = ids.eraseDups →
        (∀ depth, specTo r g depth (.node u) = specTo r g depth (.node v)) ∧
          spec r g (.node u) = spec r g (.node v) := by
  have hspans := hids.spans hform htwo
  refine ⟨fun depth c specs c' hrun deeper hd => run_of_spans hspans hrun hd, ?_, ?_⟩
  · intro hg hacyclic c specs c' hrun
    have hsettled : ∀ deeper, g.classifyDepth ≤ deeper →
        (specTo r g deeper (.node u)).run c = (specTo r g g.classifyDepth (.node u)).run c :=
      (run_eq_of_settles (settles_of_acyclic r hg hacyclic (.node u)).1 c).2
    rw [spec, ← hsettled _ (Nat.le_add_right _ 2)]
    exact run_of_spans hspans hrun (Nat.le_refl _)
  · intro v members' ids' hform' hids' hsame
    have hspans' := hids'.spans hform' (hsame ▸ htwo)
    rw [hsame] at hspans'
    have heq := specTo_eq_of_spans r hspans hspans'
    exact ⟨heq, heq g.classifyDepth⟩

/-- A record with a member whose type is a union of unions in which the record comes three times,
and another union of the same leaves. -/
def nestedGraph : TypeGraph :=
  ⟨TypeGraph.initial.nodes ++ #[
    ⟨.record ⟨some "Node", [⟨"next", some 14, false, none⟩], none, [], []⟩, none⟩,
    ⟨.union [undefinedId, 11], none⟩,
    ⟨.union [numberId, 11, 12], none⟩,
    ⟨.union [11, 13, nullId], none⟩,
    ⟨.union [undefinedId, nullId], none⟩,
    ⟨.union [11, numberId, 15], none⟩]⟩

theorem nestedGraph_brings : nestedGraph.Brings [11, 13, nullId] [11, 7, 11, 4, 11, 5] := by
  have hinner : nestedGraph.Brings [undefinedId, 11] [4, 11] :=
    .leaf (by nofun) (.leaf (by nofun) .nothing)
  have hmiddle : nestedGraph.Brings [numberId, 11, 12] [7, 11, 4, 11] :=
    .leaf (by nofun) (.leaf (by nofun) (.union (by rfl) (by simp) hinner .nothing))
  exact .leaf (by nofun) (.union (by rfl) (by simp) hmiddle (.leaf (by nofun) .nothing))

theorem nestedGraph_brings_alike : nestedGraph.Brings [11, numberId, 15] [11, 7, 4, 5] := by
  have hinner : nestedGraph.Brings [undefinedId, nullId] [4, 5] :=
    .leaf (by nofun) (.leaf (by nofun) .nothing)
  exact .leaf (by nofun) (.leaf (by nofun) (.union (by rfl) (by simp) hinner .nothing))

open Components in
/-- The record and the number are left, in this order; they are the options of both unions. -/
theorem nested_unions_have_one_schema :
    [11, 7, 11, 4, 11, 5].eraseDups = [11, 7, 4, 5] ∧
    nestedGraph.nonNullish [11, 7, 4, 5] = [11, 7] ∧
    (∃ c, (spec lenientRules.toRules nestedGraph (.node 14)).run .fresh =
      (.ok ⟨.union [.ref 0, .number], true⟩, c) ∧
        c.slots = [some ⟨some "Node", [⟨"next", ⟨.union [.ref 0, .number], true⟩⟩]⟩]) ∧
    spec lenientRules.toRules nestedGraph (.node 14) =
      spec lenientRules.toRules nestedGraph (.node 16) := by
  have hdups : [11, 7, 11, 4, 11, 5].eraseDups = [11, 7, 4, 5] := by decide
  have hleft : nestedGraph.nonNullish [11, 7, 4, 5] = [11, 7] := by decide
  have hnested : ∀ a < nestedGraph.size, ∀ b ∈ nestedGraph.nested a, b < a := by decide
  have hlower : ∀ {a b}, nestedGraph.Nests a b → b < a := fun hab =>
    hnested _ (Nests.lt_size hab) _ hab
  have hacyclic : ∀ id, ¬ Relation.TransGen nestedGraph.Nests id id := fun id h =>
    Nat.lt_irrefl id (lt_of_transGen hlower h)
  have hrun : ((nestedGraph.nonNullish [11, 7, 11, 4, 11, 5].eraseDups).mapM fun leaf =>
      spec lenientRules.toRules nestedGraph (.node leaf)).run .fresh =
        (.ok [⟨.ref 0, false⟩, ⟨.number, false⟩],
          ((nestedGraph.nonNullish [11, 7, 11, 4, 11, 5].eraseDups).mapM fun leaf =>
            spec lenientRules.toRules nestedGraph (.node leaf)).run .fresh |>.2) := by rfl
  obtain ⟨-, hspec, halike⟩ := union_depends_on_leaves lenientRules.toRules nestedGraph
    (u := 14) rfl nestedGraph_brings (by decide)
  have hschema := hspec (hasPrimitives_append _) hacyclic _ _ _ hrun
  refine ⟨hdups, hleft, ⟨_, hschema, by rfl⟩, ?_⟩
  exact (halike 16 _ _ rfl nestedGraph_brings_alike (by decide)).2

end Classify

end PropSchema
