import PropSchema.Proofs.Classify.Again
import PropSchema.Proofs.Classify.Truthful
import PropSchema.Proofs.Classify.Unions
import PropSchema.Proofs.TypeGraph.Composed
import PropSchema.Proofs.TypeGraph.Texts
/-!
Partial types as props. The entry of a partial type has the members of the entry of its target, in
the same order and with the same prop types, and all of them nullable but those that are void. The
exception are members that were declared without a type: they are anything, and stay as they are.
-/
namespace PropSchema

namespace TypeGraph
variable {g : TypeGraph} {t : NodeId} {leaves leaves' : List NodeId}

/-- A type that is no union of fewer than two leaves, and has no empty union in it. -/
def Proper (g : TypeGraph) (t : NodeId) : Prop :=
  ∀ members, g.form t = .union members → ∃ ids, g.Brings members ids ∧ 2 ≤ ids.eraseDups.length

/-- Types from which the same is made once they are stripped. -/
structure SameBasis (g : TypeGraph) (use use' : TypeUse) : Prop where
  symbol : g.symbolOf (g.stripped use) = g.symbolOf (g.stripped use')
  makeup : g.makeup (g.stripped use) = g.makeup (g.stripped use')

/-- Null and undefined are not kept when a union is stripped. -/
theorem Spans.sameBasis {use use' : TypeUse} (h : g.Spans use leaves) (h' : g.Spans use' leaves')
    (hkept : g.nonNullish leaves = g.nonNullish leaves') : g.SameBasis use use' := by
  have hvoid : leaves.all g.standsForNothing = leaves'.all g.standsForNothing := by
    rw [← all_nonNullish, hkept, all_nonNullish]
  by_cases hone : (g.nonNullish leaves).length = 1
  · obtain ⟨leaf, hleaf⟩ := List.length_eq_one_iff.mp hone
    have hstripped := (h.stripped_of_single hleaf).2
    have hstripped' := (h'.stripped_of_single (hkept ▸ hleaf)).2
    constructor <;> rw [hstripped, hstripped']
  · obtain ⟨hsymbol, hmakeup⟩ := h.stripped_of_several hone
    obtain ⟨hsymbol', hmakeup'⟩ := h'.stripped_of_several (hkept ▸ hone)
    exact ⟨hsymbol.trans hsymbol'.symm, by rw [hmakeup, hmakeup', hvoid, hkept]⟩

section Optional
variable (hundefined : g.form undefinedId = .primitive "undefined")
include hundefined

theorem isNullish_undefined : g.isNullish undefinedId = true := by
  rw [isNullish, hundefined]
  rfl

theorem leaves_with_undefined (t : NodeId) :
    g.leaves [t, undefinedId] = addMissing (g.leaves [t]) [undefinedId] := by
  have hleaf : ∀ inner, g.form undefinedId ≠ .union inner := by simp [hundefined]
  have hself : g.leaves [undefinedId] = [undefinedId] := leavesTo_single_of_leaf hleaf g.size
  have hall : ([t, undefinedId].flatMap fun m => g.leaves [m]) = g.leaves [t] ++ [undefinedId] := by
    simp [hself]
  rw [leaves_eq_flatMap, hall, addMissing_append, addMissing_of_nodup (nodup_leaves g [t])]

theorem nonNullish_with_undefined (leaves : List NodeId) :
    g.nonNullish (addMissing leaves [undefinedId]) = g.nonNullish leaves := by
  have hnullish := isNullish_undefined hundefined
  rw [addMissing, List.foldl_cons, List.foldl_nil]
  split
  · rfl
  · simp [nonNullish, List.filter_append, hnullish]

omit hundefined in
theorem mem_with_undefined (leaves : List NodeId) :
    undefinedId ∈ addMissing leaves [undefinedId] :=
  mem_addMissing.mpr (.inr (List.mem_singleton_self _))

/-- Leaves and undefined, two or more together, are spanned by the union made of them. -/
theorem spans_with_undefined (hleaves : ∀ leaf ∈ leaves, ∀ inner, g.form leaf ≠ .union inner)
    (hnodup : leaves.Nodup) (htwo : 2 ≤ (addMissing leaves [undefinedId]).length) :
    g.Spans (.union (addMissing leaves [undefinedId])) (addMissing leaves [undefinedId]) := by
  refine spans_of_leaves (fun leaf hleaf => ?_) (nodup_addMissing hnodup _) htwo
  obtain hold | hnew := mem_addMissing.mp hleaf
  · exact hleaves leaf hold
  · obtain rfl := List.mem_singleton.mp hnew
    simp [hundefined]

theorem optionalUse_eq (htwo : 2 ≤ (addMissing (g.leaves [t]) [undefinedId]).length) :
    g.optionalUse t true = .union (addMissing (g.leaves [t]) [undefinedId]) := by
  have hleaves := leaves_with_undefined hundefined t
  rw [optionalUse, if_pos rfl, unionUse, hleaves]
  unfold TypeUse.ofLeaves
  split
  · next leaf hone => simp [hone] at htwo
  · rfl

/-- A leaf is stripped to the same as its union with undefined. -/
theorem sameBasis_of_leaf (hleaf : ∀ inner, g.form t ≠ .union inner) (hne : t ≠ undefinedId) :
    g.SameBasis (.node t) (.union [t, undefinedId]) := by
  have hnullish := isNullish_undefined hundefined
  have hspans : g.Spans (.union [t, undefinedId]) [t, undefinedId] := by
    refine spans_of_leaves ?_ (by simp [hne]) (Nat.le_refl 2)
    simp [hleaf, hundefined]
  cases ht : g.isNullish t with
  | false =>
      have hone : g.nonNullish [t, undefinedId] = [t] := by simp [nonNullish, ht, hnullish]
      have hstripped := (hspans.stripped_of_single hone).2
      constructor <;> rw [stripped_of_leaf hleaf, hstripped]
  | true =>
      have hnothing := standsForNothing_of_isNullish ht
      have hnone : (g.nonNullish [t, undefinedId]).length ≠ 1 := by
        simp [nonNullish, ht, hnullish]
      obtain ⟨hsymbol, hmakeup⟩ := hspans.stripped_of_several hnone
      have hall : [t, undefinedId].all g.standsForNothing = true := by
        simp [hnothing, standsForNothing_of_isNullish hnullish]
      have hvoid : g.isVoidLike (.node t) = true := by
        rw [isVoidLike, depth, isVoidLikeTo_of_leaf hleaf, hnothing]
      have hform : g.symbol t = none := by
        unfold standsForNothing at hnothing
        split at hnothing
        · next name hform => rw [symbol, hform]
        · cases hnothing
      constructor
      · rw [hsymbol, stripped_of_leaf hleaf, symbolOf, hform]
      · rw [hmakeup, if_pos hall, stripped_of_leaf hleaf, makeup_of_isVoidLike hvoid]

/-- To be optional, a type becomes a union with undefined, which is stripped to the same as the type
is. Only undefined itself stays what it is. -/
theorem optionalUse_cases (ht : g.Proper t) :
    (t = undefinedId ∧ g.optionalUse t true = .node undefinedId) ∨
      ∃ leaves, g.optionalUse t true = .union leaves ∧ g.Spans (.union leaves) leaves ∧
        undefinedId ∈ leaves ∧ g.SameBasis (.node t) (.union leaves) := by
  by_cases hunion : ∃ members, g.form t = .union members
  · obtain ⟨members, hform⟩ := hunion
    obtain ⟨ids, hids, htwo⟩ := ht members hform
    have hgrounded : Grounded g.unionParts t :=
      ⟨t, fun part hp => hids.grounded part (unionParts_of_union hform ▸ hp)⟩
    have hleaves : g.leaves [t] = ids.eraseDups := by
      rw [leaves_of_grounded hform hgrounded, hids.leaves_eq]
    have hspans : g.Spans (.node t) (g.leaves [t]) := hleaves ▸ hids.spans hform htwo
    have htwo' : 2 ≤ (addMissing (g.leaves [t]) [undefinedId]).length := by
      refine Nat.le_trans (hleaves ▸ htwo) ?_
      rw [addMissing, List.foldl_cons, List.foldl_nil]
      split
      · exact Nat.le_refl _
      · simp
    have hspans' := spans_with_undefined hundefined (fun leaf => hspans.leaf_of_mem) hspans.nodup
      htwo'
    exact .inr ⟨_, optionalUse_eq hundefined htwo', hspans', mem_with_undefined _,
      hspans.sameBasis hspans' (nonNullish_with_undefined hundefined _).symm⟩
  · have hleaf : ∀ inner, g.form t ≠ .union inner := fun inner hform => hunion ⟨inner, hform⟩
    have hleaves : g.leaves [t] = [t] := leavesTo_single_of_leaf hleaf g.size
    by_cases hne : t = undefinedId
    · refine .inl ⟨hne, ?_⟩
      have hall := leaves_with_undefined hundefined t
      subst hne
      rw [optionalUse, if_pos rfl, unionUse, hall, hleaves]
      rfl
    · have hadd : addMissing (g.leaves [t]) [undefinedId] = [t, undefinedId] := by
        rw [hleaves]
        simp [addMissing, Ne.symm hne]
      have huse := optionalUse_eq hundefined (t := t) (by simp [hadd])
      have hspans := spans_with_undefined hundefined
        (fun leaf hmem => not_union_of_mem_leaves hmem) (nodup_leaves g [t]) (by simp [hadd])
      rw [hadd] at huse hspans
      exact .inr ⟨_, huse, hspans, by simp, sameBasis_of_leaf hundefined hleaf hne⟩

end Optional

end TypeGraph

namespace Classify
open TypeGraph
variable {r : Rules} {g : TypeGraph} {slots : TypeIdentity → Option Nat} {s : PropSpec}

/-- What is stripped to the same reads as the same prop type. -/
theorem reading_of_sameBasis {use use' : TypeUse} (h : g.SameBasis use use')
    (hs : reading r g slots use' = some s) :
    ∃ s', reading r g slots use = some s' ∧ s'.propType = s.propType := by
  rw [reading_eq, specBy, ← h.symbol, ← h.makeup] at hs
  obtain ⟨propType, ht, he⟩ := Option.bind_eq_some_iff.mp hs
  cases he
  exact ⟨_, (reading_eq use).trans (Option.bind_eq_some_iff.mpr ⟨propType, ht, rfl⟩), rfl⟩

/-- A union with undefined is nullable unless it is void. -/
theorem isNullable_of_reading (hundefined : g.form undefinedId = .primitive "undefined")
    {use : TypeUse} {leaves : List NodeId} (h : g.Spans use leaves) (hmem : undefinedId ∈ leaves)
    (hs : reading r g slots use = some s) : s.isNullable = !s.propType.isVoid := by
  rw [reading_eq, specBy] at hs
  obtain ⟨propType, ht, he⟩ := Option.bind_eq_some_iff.mp hs
  cases he
  have hlt : (g.nonNullish leaves).length < leaves.length :=
    List.length_filter_lt_length_iff_exists.mpr
      ⟨undefinedId, hmem, by simp [isNullish_undefined hundefined]⟩
  by_cases hrest : g.nonNullish leaves = []
  · -- nothing is left, so the union is void
    obtain ⟨hsymbol, hmakeup⟩ := h.stripped_of_several (by simp [hrest])
    have hvoid : leaves.all g.standsForNothing = true := by
      rw [← all_nonNullish, hrest]
      rfl
    rw [hsymbol, hmakeup, if_pos hvoid] at ht
    cases ht
    simp [PropType.isVoid]
  · have hnullable : g.isNullable use = true := by
      rw [h.isNullable_eq, List.isEmpty_eq_false_iff.mpr hrest]
      simpa using hlt
    rw [hnullable, Bool.true_and]

theorem reading_of_primitive {name : String} {id : NodeId} (hform : g.form id = .primitive name)
    (hs : reading r g slots (.node id) = some s) :
    makeupBy r g slots (reading r g slots) (g.makeup (.node id)) = some s.propType ∧
      s.isNullable = false := by
  have hleaf : ∀ inner, g.form id ≠ .union inner := by simp [hform]
  have hsymbol : g.symbolOf (.node id) = none := by rw [symbolOf, symbol, hform]
  rw [reading_eq, specBy, stripped_of_leaf hleaf, hsymbol, isNullable_of_leaf hleaf] at hs
  obtain ⟨propType, ht, he⟩ := Option.bind_eq_some_iff.mp hs
  cases he
  exact ⟨ht, rfl⟩

/-- A member of partial props says the name of its property. It is nullable unless it is void, if the
property was declared with a type; without one it is anything. -/
def OptionalMember (p : Property) (m : MemberSpec) : Prop :=
  m.name = p.name ∧ match p.type? with
    | some _ => m.spec.isNullable = !m.spec.propType.isVoid
    | none => m.spec = ⟨.any, false⟩

theorem reading_of_undefined (hundefined : g.form undefinedId = .primitive "undefined")
    (hs : reading r g slots (.node undefinedId) = some s) : s = ⟨.void, false⟩ := by
  obtain ⟨hmakeup, hnullable⟩ := reading_of_primitive hundefined hs
  have hvoid : g.isVoidLike (.node undefinedId) = true := by
    rw [isVoidLike, TypeGraph.depth, isVoidLikeTo, hundefined]
    rfl
  rw [makeup_of_isVoidLike hvoid] at hmakeup
  obtain ⟨propType, isNullable⟩ := s
  cases hmakeup
  cases hnullable
  rfl

theorem reading_of_any (hany : g.form anyId = .primitive "any")
    (hs : reading r g slots (.node anyId) = some s) : s = ⟨.any, false⟩ := by
  obtain ⟨hmakeup, hnullable⟩ := reading_of_primitive hany hs
  have hvoid : g.isVoidLike (.node anyId) = false := by
    rw [isVoidLike, TypeGraph.depth, isVoidLikeTo, hany]
    rfl
  have hnode : g.nodeShape anyId = .any := by
    unfold nodeShape
    rw [hany]
    rfl
  have hshape : g.shape (.node anyId) = .any := by
    rw [shape.eq_def, hvoid]
    exact hnode
  have hplain : g.makeup (.node anyId) = .plain .any := by
    unfold makeup
    rw [hshape]
  rw [hplain] at hmakeup
  obtain ⟨propType, isNullable⟩ := s
  cases hmakeup
  cases hnullable
  rfl

/-- A typed property that is made optional is nullable unless it is void, and of the prop type that
it has otherwise. -/
theorem reading_of_optional (hundefined : g.form undefinedId = .primitive "undefined") {t : NodeId}
    (ht : g.Proper t) (hs : reading r g slots (g.optionalUse t true) = some s) :
    s.isNullable = (!s.propType.isVoid) ∧
      ∃ s', reading r g slots (.node t) = some s' ∧ s'.propType = s.propType := by
  obtain ⟨rfl, huse⟩ | ⟨leaves, huse, hspans, hmem, hbasis⟩ := optionalUse_cases hundefined ht
  · rw [huse] at hs
    obtain rfl := reading_of_undefined hundefined hs
    exact ⟨by simp [PropType.isVoid], _, hs, rfl⟩
  · rw [huse] at hs
    exact ⟨isNullable_of_reading hundefined hspans hmem hs, reading_of_sameBasis hbasis hs⟩

/-- What a property says that is made optional, it says of the same prop type as it is. -/
theorem optional_reads (hg : g.HasPrimitives) {p : Property}
    (hproper : ∀ t, p.type? = some t → g.Proper t) {m : MemberSpec}
    (hm : MemberReads r g slots { p with optional := true } m) :
    OptionalMember p m ∧
      ∃ m', MemberReads r g slots p m' ∧ m'.name = m.name ∧ m'.spec.propType = m.spec.propType := by
  have hany : g.form anyId = .primitive "any" := hg anyId (by decide)
  obtain ⟨name, type?, optional, declaration⟩ := p
  obtain ⟨hname, hspec⟩ := hm
  obtain ⟨use, huse, hs⟩ := Option.bind_eq_some_iff.mp hspec
  cases type? with
  | none =>
      -- whether it is optional is not asked
      have hsame : g.propertyUse? ⟨name, none, optional, declaration⟩ = some use := huse
      have hnode : use = .node anyId := by
        unfold propertyUse? at hsame
        dsimp only at hsame
        split at hsame
        · exact (Option.some.inj hsame).symm
        · cases hsame
      subst hnode
      exact ⟨⟨hname, reading_of_any hany hs⟩, m,
        ⟨hname, Option.bind_eq_some_iff.mpr ⟨_, hsame, hs⟩⟩, rfl, rfl⟩
  | some t =>
      cases huse
      obtain ⟨hnullable, s', hs', htype⟩ := reading_of_optional hg.undefined (hproper t rfl) hs
      refine ⟨⟨hname, hnullable⟩, ?_⟩
      cases optional with
      | true => exact ⟨m, ⟨hname, hspec⟩, rfl, rfl⟩
      | false =>
          have huse' : g.propertyUse? ⟨name, some t, false, declaration⟩ = some (.node t) := rfl
          exact ⟨⟨m.name, s'⟩, ⟨hname, Option.bind_eq_some_iff.mpr ⟨_, huse', hs'⟩⟩, rfl, htype⟩

end Classify

namespace Classify
variable {r : Rules} {g : TypeGraph} {slots : TypeIdentity → Option Nat}

theorem memberReads_unique {p : Property} {m m' : MemberSpec} (h : MemberReads r g slots p m)
    (h' : MemberReads r g slots p m') : m = m' := by
  obtain ⟨name, s⟩ := m
  obtain ⟨name', s'⟩ := m'
  obtain ⟨hname, hs⟩ := h
  obtain ⟨hname', hs'⟩ := h'
  cases hname.trans hname'.symm
  cases Option.some.inj (hs.symm.trans hs')
  rfl

/-- Members that say the same but for their nullability. -/
def SameButNullable (m m' : MemberSpec) : Prop :=
  m.name = m'.name ∧ m.spec.propType = m'.spec.propType

/-- Members of optional properties, beside members of the same properties as they are. -/
theorem optional_members (hg : g.HasPrimitives) {ps : List Property}
    (hproper : ∀ p ∈ ps, ∀ t, p.type? = some t → g.Proper t) {ms : List MemberSpec}
    (h : List.Forall₂ (MemberReads r g slots) (ps.map fun p => { p with optional := true }) ms) :
    List.Forall₂ OptionalMember ps ms ∧
      ∃ ms', List.Forall₂ (MemberReads r g slots) ps ms' ∧ List.Forall₂ SameButNullable ms ms' := by
  induction ps generalizing ms with
  | nil =>
      cases h
      exact ⟨.nil, [], .nil, .nil⟩
  | cons p ps ih =>
      rw [List.forall_mem_cons] at hproper
      cases h with
      | cons hm hms =>
          obtain ⟨hoptional, m', hm', hname, htype⟩ := optional_reads hg hproper.1 hm
          obtain ⟨hrest, ms', hms', hsame⟩ := ih hproper.2 hms
          exact ⟨.cons hoptional hrest, m' :: ms', .cons hm' hms',
            .cons ⟨hname.symm, htype.symm⟩ hsame⟩

theorem members_unique {ps : List Property} {ms ms' : List MemberSpec}
    (h : List.Forall₂ (MemberReads r g slots) ps ms)
    (h' : List.Forall₂ (MemberReads r g slots) ps ms') : ms = ms' := by
  induction h generalizing ms' with
  | nil =>
      cases h'
      rfl
  | cons hm _ ih =>
      cases h' with
      | cons hm' hms' => rw [memberReads_unique hm hm', ih hms']

end Classify

/-- A step that gives a result ends with it, in the context that it leaves. -/
theorem Pass.run_eq_of_fst {α : Type} {m : Pass α} {c : Context} {a : α}
    (h : (m.run c).1 = .ok a) : m.run c = (.ok a, (m.run c).2) :=
  Prod.ext h rfl

namespace Request
open TypeGraph Classify

variable {r : Rules} {g : TypeGraph} {id : NodeId} {c c' : Context} {depth : Nat}

/-- A partial type is asked for as it is. -/
theorem stripped_of_partialOf {part target : NodeId} (hform : g.form part = .partialOf target) :
    g.stripped (.node part) = .node part :=
  stripped_of_leaf (by simp [hform])

theorem slotTo_truthful (r : Rules) (g : TypeGraph) (depth : Nat) (use : TypeUse) :
    (slotTo r g depth use).Keeps (Truthful r g) :=
  (keepsTo Truthful.course (fun _ => slotTo_keeps_truthful) depth).2.2.1 use

/-- The entry that a record has got says what the record says, in the context from then on. -/
theorem members_of_entry (h : Truthful r g c) {slot : Nat}
    (hrun : (slotTo r g depth (.node id)).run c = (.ok slot, c')) :
    c.Extends c' ∧ Truthful r g c' ∧ ∀ record, c'.slots[slot]? = some (some record) →
      Describes r g c'.lookup (.node id) record := by
  obtain ⟨hadvances, hlookup⟩ := (tellsTo r g depth).2.2.1 (.node id) hrun
  have htruthful := slotTo_truthful r g depth (.node id) c h
  rw [hrun] at htruthful
  exact ⟨hadvances.toExtends, htruthful, fun record hs => htruthful.described hlookup hs⟩

/-- Where a partial type has a text to be reported with, its target has one. -/
theorem isSome_slotTitle_target {part target : NodeId} (hform : g.form part = .partialOf target)
    (hpart : (slotTitle g (.node part)).isSome) : (slotTitle g (.node target)).isSome := by
  have hname : g.declaredNameOf (.node part) = none := by
    rw [declaredNameOf, declaredName, hform]
  have hshown : g.shown part = [target] := by
    rw [shown, hform]
  rw [slotTitle, hname] at hpart
  have htarget : (g.render (.node target)).isSome := by
    rw [← Option.ne_none_iff_isSome] at hpart ⊢
    refine mt (fun hnone => ?_) hpart
    refine render_node_eq_none_iff.mpr (textless_iff.mpr (.inr ⟨target, ?_, ?_⟩))
    · exact hshown ▸ List.mem_singleton_self target
    · exact render_node_eq_none_iff.mp hnone
  rw [slotTitle]
  split
  · rfl
  · exact htarget

/-- A record that can be reported and whose properties can be read has an entry, unless its slot was
left open. -/
theorem entry_of_members (h : Truthful r g c) {members : List MemberSpec}
    (htitle : (slotTitle g (.node id)).isSome)
    (hreads : List.Forall₂ (MemberReads r g c.lookup) (g.properties id) members) :
    ∃ depth, ∀ deeper, depth ≤ deeper → ∃ slot c', (slotTo r g deeper (.node id)).run c =
      (.ok slot, c') ∧ (c.slots[slot]? = some none ∨
        ∃ record, c'.slots[slot]? = some (some record)) := by
  cases hl : c.lookup (.node id) with
  | some slot =>
      obtain ⟨depth, hrecalls⟩ := slotTo_recalls (r := r) (g := g) hl
      refine ⟨depth, fun deeper hd => ?_⟩
      obtain ⟨notes, hrun⟩ := hrecalls deeper hd c (.refl _)
      refine ⟨slot, _, hrun, ?_⟩
      have hlt := h.numbered.lookup_lt hl
      cases he : c.slots[slot] with
      | none => exact .inl (List.getElem?_eq_some_iff.mpr ⟨hlt, he⟩)
      | some record => exact .inr ⟨record, List.getElem?_eq_some_iff.mpr ⟨hlt, he⟩⟩
  | none =>
      obtain ⟨title, htitle⟩ := Option.isSome_iff_exists.mp htitle
      obtain ⟨depth, hentry⟩ := slotTo_of_members hl htitle hreads
      refine ⟨depth, fun deeper hd => ?_⟩
      obtain ⟨c', hrun, hfilled⟩ := hentry deeper hd
      exact ⟨_, c', hrun, .inr ⟨_, hfilled⟩⟩

/-- Let a partial type be asked for as props, whatever was asked for before. It has an entry, unless
its slot was left open before. In the entry there is one member for each property of the target, in
the order of these, which is nullable unless it is void; only a property that was declared without a
type makes a member that is anything and not nullable. If then the target is asked for as a record,
and followed far enough, it has an entry, unless its slot was left open before. In that entry,
however far it was followed, the same members stand in the same order with the same prop types. The
target may be made of records in any way that comes to an end, and its properties may be of any types
but for unions of less than two leaves. -/
theorem partial_props_are_nullable (r : ComponentRules) {g : TypeGraph} (hg : g.HasPrimitives)
    {part target : NodeId} (hform : g.form part = .partialOf target)
    (hgrounded : Grounded g.constituents target)
    (hproper : ∀ p ∈ g.properties target, ∀ t, p.type? = some t → g.Proper t)
    (earlier : List Request) {index : Nat} {c : Context}
    (hrun : (propsSlot r.toRules g (.node part)).run (afterAll r g .fresh earlier) =
      (.ok index, c)) :
    ((afterAll r g .fresh earlier).lookup (.node part) = none →
      ∃ record, c.slots[index]? = some (some record)) ∧
    ∀ record, c.slots[index]? = some (some record) →
      List.Forall₂ OptionalMember (g.properties target) record.members ∧
      (∃ depth, ∀ deeper, depth ≤ deeper → ∃ index' c',
        (slotTo r.toRules g deeper (.node target)).run c = (.ok index', c') ∧
          (c.slots[index']? = some none ∨ ∃ record', c'.slots[index']? = some (some record'))) ∧
      ∀ depth index' c' record',
        (slotTo r.toRules g depth (.node target)).run c = (.ok index', c') →
        c'.slots[index']? = some (some record') →
          List.Forall₂ SameButNullable record.members record'.members := by
  rw [propsSlot_eq, stripped_of_partialOf hform] at hrun
  obtain ⟨hadvances, hlookup⟩ := slot_tells _ _ _ hrun
  obtain ⟨-, htruthful, hentry⟩ := members_of_entry (truthful_afterAll r g earlier) hrun
  refine ⟨fun hnew => ?_, fun record hrecord => ?_⟩
  · obtain hold | ⟨record, hrecord, -⟩ := hadvances.described hlookup
    · exact absurd (hnew.symm.trans hold) (by simp)
    · exact ⟨record, hrecord⟩
  · have hdescribed := hentry record hrecord
    have htitle := isSome_slotTitle_target hform hdescribed.titled
    have hmembers : List.Forall₂ _ (g.properties part) _ := hdescribed.members
    rw [properties_of_partialOf hform hgrounded] at hmembers
    obtain ⟨hoptional, members, hreads, hsame⟩ := optional_members hg hproper hmembers
    refine ⟨hoptional, entry_of_members htruthful htitle hreads, ?_⟩
    intro depth index' c' record' hrun' hrecord'
    obtain ⟨hextends, -, hentry'⟩ := members_of_entry htruthful hrun'
    have hreads' := hreads.imp fun _ _ => MemberReads.mono hextends
    rw [members_unique (hentry' record' hrecord').members hreads']
    exact hsame

/-- A record with a member that was declared without a type, a string, a nullable member of the
record itself, and a member without value; and the partial type of the record. -/
def linkedGraph : TypeGraph :=
  ⟨TypeGraph.initial.nodes ++ #[
    ⟨.record ⟨some "Item", [⟨"tag", none, false, some ⟨"items.ts", 1, 18⟩⟩,
      ⟨"label", some stringId, false, none⟩, ⟨"next", some 12, false, none⟩,
      ⟨"end", some voidId, false, none⟩], none, [], []⟩, none⟩,
    ⟨.union [11, nullId], none⟩,
    ⟨.partialOf 11, none⟩]⟩

theorem linkedGraph_proper : ∀ p ∈ linkedGraph.properties 11, ∀ t, p.type? = some t →
    linkedGraph.Proper t := by
  have hrecord : ∀ inner, linkedGraph.form 11 ≠ .union inner := by
    rintro inner ⟨⟩
  have hnull : ∀ inner, linkedGraph.form nullId ≠ .union inner := by
    rintro inner ⟨⟩
  have htypes : ∀ p ∈ linkedGraph.properties 11, ∀ t ∈ p.type?, t ∈ [stringId, 12, voidId] := by
    decide
  intro p hp t ht members hform
  have hcases := htypes p hp t ht
  simp only [List.mem_cons, List.not_mem_nil, or_false] at hcases
  obtain rfl | rfl | rfl := hcases
  · cases hform
  · cases hform
    exact ⟨_, .leaf hrecord (.leaf hnull .nothing), by decide⟩
  · cases hform

theorem linkedGraph_grounded : Grounded linkedGraph.constituents 11 :=
  ⟨11, fun _ hp => absurd hp List.not_mem_nil⟩

/-- The names of members, whether they are nullable, and whether they are void. -/
def marks (record : RecordSpec) : List (String × Bool × Bool) :=
  record.members.map fun m => (m.name, m.spec.isNullable, m.spec.propType.isVoid)

/-- The partial type has four members. Two are nullable, one is void, and one is neither. -/
def linkedMarks : List (String × Bool × Bool) :=
  [("tag", false, false), ("label", true, false), ("next", true, false), ("end", false, true)]

open Components in
/-- The context after the partial type has been asked for. -/
def linkedContext : Context :=
  ((propsSlot lenientRules.toRules linkedGraph (.node 13)).run .fresh).2

open Components in
theorem linkedGraph_run :
    (propsSlot lenientRules.toRules linkedGraph (.node 13)).run .fresh = (.ok 0, linkedContext) := by
  have hindex : ((propsSlot lenientRules.toRules linkedGraph (.node 13)).run .fresh).1 =
      .ok 0 := by decide +kernel
  exact Pass.run_eq_of_fst hindex

theorem linkedGraph_entry : ∃ record, linkedContext.slots[0]? = some (some record) ∧
    marks record = linkedMarks := by
  have hall : (linkedContext.slots[0]?).map (Option.map marks) = some (some linkedMarks) := by
    decide +kernel
  obtain ⟨entry, hentry, hsome⟩ := Option.map_eq_some_iff.mp hall
  obtain ⟨record, rfl, hrecord⟩ := Option.map_eq_some_iff.mp hsome
  exact ⟨record, hentry, hrecord⟩

open Components in
/-- The partial type and its target say the same of four members, which are nullable in the former
but for the untyped one and the one without value. -/
theorem linked_props_are_nullable : ∃ record record',
    (propsSlot lenientRules.toRules linkedGraph (.node 13)).run .fresh = (.ok 0, linkedContext) ∧
    (Classify.slot lenientRules.toRules linkedGraph (.node 11)).run linkedContext =
      (.ok 1, linkedContext) ∧
    linkedContext.slots[0]? = some (some record) ∧ linkedContext.slots[1]? = some (some record') ∧
    marks record = linkedMarks ∧
    List.Forall₂ OptionalMember (linkedGraph.properties 11) record.members ∧
    List.Forall₂ SameButNullable record.members record'.members := by
  obtain ⟨record, hentry, hmarks⟩ := linkedGraph_entry
  have hfilled : ((linkedContext.slots[1]?).bind id).isSome := by decide +kernel
  obtain ⟨record', hrecord'⟩ := Option.isSome_iff_exists.mp hfilled
  have hentry' : linkedContext.slots[1]? = some (some record') := by
    simpa [Option.bind_eq_some_iff] using hrecord'
  have hlookup : linkedContext.lookup (.node 11) = some 1 := by decide +kernel
  have hrun' := slot_again (r := lenientRules.toRules) (g := linkedGraph) hlookup
  obtain ⟨-, hall⟩ := partial_props_are_nullable lenientRules (hasPrimitives_append _) rfl
    linkedGraph_grounded linkedGraph_proper [] linkedGraph_run
  obtain ⟨hoptional, -, hsame⟩ := hall record hentry
  exact ⟨record, record', linkedGraph_run, hrun', hentry, hentry', hmarks, hoptional,
    hsame _ _ _ _ hrun' hentry'⟩

open Components in
/-- Not every member of partial props is nullable or void: one that was declared without a type is
anything and not nullable. -/
theorem untyped_member_is_not_nullable : ¬ ∀ (r : ComponentRules) (g : TypeGraph)
    (part target : NodeId) (index : Nat) (c : Context) (record : RecordSpec), g.HasPrimitives →
    g.form part = .partialOf target → Grounded g.constituents target →
    (∀ p ∈ g.properties target, ∀ t, p.type? = some t → g.Proper t) →
    (propsSlot r.toRules g (.node part)).run .fresh = (.ok index, c) →
    c.slots[index]? = some (some record) →
      ∀ m ∈ record.members, m.spec.isNullable = true ∨ m.spec.propType.isVoid = true := by
  intro h
  obtain ⟨record, hentry, hmarks⟩ := linkedGraph_entry
  have hall := h lenientRules linkedGraph 13 11 0 linkedContext record (hasPrimitives_append _) rfl
    linkedGraph_grounded linkedGraph_proper linkedGraph_run hentry
  have htag : ("tag", false, false) ∈ marks record := by
    rw [hmarks]
    exact List.mem_cons_self
  obtain ⟨m, hm, heq⟩ := List.mem_map.mp htag
  simp only [Prod.mk.injEq] at heq
  simpa [heq.2.1, heq.2.2] using hall m hm

end Request

end PropSchema
