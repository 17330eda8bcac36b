import Mathlib.Logic.Relation
import PropSchema.Proofs.Classify.Closed
import PropSchema.Proofs.Components.Correspondence
import PropSchema.Proofs.TypeGraph.NestedUnions
/-!
Which classes are components. The search for a marker comes to an end, also where base references
lead in circles, and it finds one exactly if base references lead to one. So a search for components
finds one for each class with a base that derives from a marker, if the first such base binds props,
unless the classification of some props fails.
-/
namespace PropSchema

namespace TypeGraph

/-- A type refers to another one as its base. -/
def HasBase (g : TypeGraph) (a b : NodeId) : Prop := b ∈ g.bases a

end TypeGraph

namespace Components
open TypeGraph
variable {g : TypeGraph} {markers : List String}

/-- A type whose fully qualified name is a marker. -/
def Marked (g : TypeGraph) (markers : List String) (id : NodeId) : Prop :=
  ∃ name, g.symbol id = some name ∧ name ∈ markers

/-- A type that is a marker, or that base references lead from to one. -/
def Derives (g : TypeGraph) (markers : List String) (id : NodeId) : Prop :=
  ∃ ancestor, Relation.ReflTransGen g.HasBase id ancestor ∧ Marked g markers ancestor

section Search
variable {id : NodeId} {pending seen : List NodeId} {found : Bool}

theorem any_symbol_iff : (g.symbol id).any markers.contains = true ↔ Marked g markers id := by
  rw [Option.any_eq_true]
  exact exists_congr fun name => and_congr_right fun _ => List.contains_iff_mem

theorem derives_iff_of_not_marked (h : ¬ Marked g markers id) :
    Derives g markers id ↔ ∃ base ∈ g.bases id, Derives g markers base := by
  constructor
  · rintro ⟨ancestor, hreach, hmarked⟩
    obtain rfl | ⟨base, hbase, hrest⟩ := Relation.ReflTransGen.cases_head hreach
    · exact absurd hmarked h
    · exact ⟨base, hbase, ancestor, hrest, hmarked⟩
  · rintro ⟨base, hbase, ancestor, hrest, hmarked⟩
    exact ⟨ancestor, .head hbase hrest, hmarked⟩

/-- What a search comes to that goes on as long as types are pending: those that were seen are passed
over, and the bases of others are searched next. There is a derivation only if the search ends. -/
inductive Searches (g : TypeGraph) (markers : List String) : List NodeId → List NodeId → Bool → Prop
  | exhausted {seen : List NodeId} : Searches g markers [] seen false
  | again {id : NodeId} {pending seen : List NodeId} {found : Bool} (hseen : id ∈ seen)
      (rest : Searches g markers pending seen found) : Searches g markers (id :: pending) seen found
  | hit {id : NodeId} {pending seen : List NodeId} (hnew : id ∉ seen) (hmarked : Marked g markers id) :
      Searches g markers (id :: pending) seen true
  | onward {id : NodeId} {pending seen : List NodeId} {found : Bool} (hnew : id ∉ seen)
      (hmarked : ¬ Marked g markers id)
      (rest : Searches g markers ((g.bases id).reverse ++ pending) (id :: seen) found) :
      Searches g markers (id :: pending) seen found

/-- With steps enough for what is pending and for the bases that are not followed yet, the search
comes to its end. -/
theorem searches_searchTo {fuel : Nat} (henough : pending.length + openBases g seen < fuel) :
    Searches g markers pending seen (searchTo g markers fuel pending seen) := by
  induction fuel generalizing pending seen with
  | zero => exact absurd henough (Nat.not_lt_zero _)
  | succ fuel ih =>
      cases pending with
      | nil => exact .exhausted
      | cons id pending =>
          rw [List.length_cons] at henough
          rw [searchTo]
          split
          · next hseen => exact .again (List.contains_iff_mem.mp hseen) (ih (by omega))
          · next hseen =>
              have hnew : id ∉ seen := mt List.contains_iff_mem.mpr hseen
              split
              · next hmarked => exact .hit hnew (any_symbol_iff.mp hmarked)
              · next hmarked =>
                  have hle := openBases_cons_add_le (g := g) (Bool.eq_false_iff.mpr hseen)
                  refine .onward hnew (mt any_symbol_iff.mpr hmarked) (ih ?_)
                  rw [List.length_append, List.length_reverse]
                  omega

/-- The types that were seen are no markers, and their bases were seen too or are pending. -/
structure Explored (g : TypeGraph) (markers : List String) (pending seen : List NodeId) : Prop where
  unmarked : ∀ id ∈ seen, ¬ Marked g markers id
  closed : ∀ id ∈ seen, ∀ base ∈ g.bases id, base ∈ seen ∨ base ∈ pending

/-- From what was seen, a marker is reached only by what is pending. -/
theorem Explored.exists_pending (h : Explored g markers pending seen) (hid : id ∈ seen)
    (hderives : Derives g markers id) : ∃ other ∈ pending, Derives g markers other := by
  obtain ⟨ancestor, hreach, hmarked⟩ := hderives
  induction hreach using Relation.ReflTransGen.head_induction_on with
  | refl => exact absurd hmarked (h.unmarked _ hid)
  | head hbase hrest ih =>
      obtain hbase | hbase := h.closed _ hid _ hbase
      · exact ih hbase
      · exact ⟨_, hbase, ancestor, hrest, hmarked⟩

theorem Explored.passOver (h : Explored g markers (id :: pending) seen) (hid : id ∈ seen) :
    Explored g markers pending seen := by
  refine ⟨h.unmarked, fun other hother base hbase => ?_⟩
  obtain hold | hpending := h.closed other hother base hbase
  · exact .inl hold
  · obtain rfl | hpending := List.mem_cons.mp hpending
    · exact .inl hid
    · exact .inr hpending

theorem Explored.follow (h : Explored g markers (id :: pending) seen)
    (hmarked : ¬ Marked g markers id) :
    Explored g markers ((g.bases id).reverse ++ pending) (id :: seen) := by
  refine ⟨List.forall_mem_cons.mpr ⟨hmarked, h.unmarked⟩,
    List.forall_mem_cons.mpr ⟨fun base hbase => ?_, fun other hother base hbase => ?_⟩⟩
  · exact .inr (List.mem_append_left _ (List.mem_reverse.mpr hbase))
  · obtain hold | hpending := h.closed other hother base hbase
    · exact .inl (List.mem_cons_of_mem _ hold)
    · obtain rfl | hpending := List.mem_cons.mp hpending
      · exact .inl List.mem_cons_self
      · exact .inr (List.mem_append_right _ hpending)

/-- The search tells whether a pending type derives from a marker. -/
theorem Searches.found_iff (h : Searches g markers pending seen found)
    (hexplored : Explored g markers pending seen) :
    found = true ↔ ∃ id ∈ pending, Derives g markers id := by
  induction h with
  | exhausted => simp
  | again hseen _ ih =>
      have hrest := hexplored.passOver hseen
      rw [ih hrest, List.exists_mem_cons_iff, or_iff_right_of_imp (hrest.exists_pending hseen)]
  | hit _ hmarked => simpa using .inl ⟨_, .refl, hmarked⟩
  | onward _ hmarked _ ih =>
      rw [ih (hexplored.follow hmarked), List.exists_mem_cons_iff, derives_iff_of_not_marked hmarked]
      simp only [List.mem_append, List.mem_reverse, or_and_right, exists_or]

theorem searches_derives (g : TypeGraph) (markers : List String) (id : NodeId) :
    Searches g markers [id] [] (derives g markers id) := by
  refine searches_searchTo ?_
  rw [baseCount_eq, List.length_singleton]
  omega

theorem derives_eq_true_iff : derives g markers id = true ↔ Derives g markers id := by
  have hexplored : Explored g markers [id] [] := ⟨nofun, nofun⟩
  rw [(searches_derives g markers id).found_iff hexplored]
  simp

end Search

/-- A class binds props by its first base that derives from a marker: the first type argument there. -/
def Binds (g : TypeGraph) (markers : List String) (id props : NodeId) : Prop :=
  ∃ before base after rest, g.bases id = before ++ base :: after ∧
    (∀ other ∈ before, ¬ Derives g markers other) ∧ Derives g markers base ∧
    g.arguments base = props :: rest

theorem propsOf?_eq_some_iff {r : ComponentRules} {id props : NodeId} :
    propsOf? r g id = some props ↔ Binds g r.markers id props := by
  have hbefore : ∀ before : List NodeId, (∀ other ∈ before, (!derives g r.markers other) = true) ↔
      ∀ other ∈ before, ¬ Derives g r.markers other := fun before =>
    forall₂_congr fun other _ => by
      rw [Bool.not_eq_true', Bool.eq_false_iff, ne_eq, derives_eq_true_iff]
  constructor
  · intro h
    obtain ⟨base, hbase, hargs⟩ := Option.bind_eq_some_iff.mp h
    obtain ⟨hderives, before, after, hall, hnone⟩ := List.find?_eq_some_iff_append.mp hbase
    obtain ⟨rest, hrest⟩ := List.head?_eq_some_iff.mp hargs
    exact ⟨before, base, after, rest, hall, (hbefore _).mp hnone, derives_eq_true_iff.mp hderives,
      hrest⟩
  · rintro ⟨before, base, after, rest, hall, hnone, hderives, hrest⟩
    have hbase := List.find?_eq_some_iff_append.mpr
      ⟨derives_eq_true_iff.mpr hderives, before, after, hall, (hbefore _).mpr hnone⟩
    exact Option.bind_eq_some_iff.mpr ⟨base, hbase, by rw [hrest]; rfl⟩

section Outcome
open Classify
variable {r : ComponentRules} {c c' : Context}

/-- A type has an entry in the table of an outcome, which says what the type says. -/
structure HasEntry (r : Rules) (g : TypeGraph) (c : Context) (x : Extraction) (use : TypeUse)
    (slot : Nat) : Prop where
  known : HasSlot use slot c
  entry : ∃ record, x.refs[slot]? = some record ∧ record.name = g.declaredNameOf use ∧
    List.Forall₂ (MemberReads r g c.lookup) (g.propertiesOf use) record.members

/-- What an outcome holds for a class: a component with the class's name and with the entry of the
props that the class binds, nullability stripped, or nothing if the class binds none. -/
def Holds (r : ComponentRules) (g : TypeGraph) (c : Context) (x : Extraction) (id : NodeId) :
    Option ComponentSpec → Prop
  | some k => k.name = declarationName g id ∧ ∃ props slot, Binds g r.markers id props ∧
      k.props = (slot : Nat) ∧ HasEntry r.toRules g c x (g.stripped (.node props)) slot
  | none => ∀ props, ¬ Binds g r.markers id props

theorem hasEntry_of_hasSlot {rules : Rules} (h : Faithful rules g c) {x : Extraction}
    (hx : c.slots = x.refs.map some) {use : TypeUse} {slot : Nat} (hslot : HasSlot use slot c) :
    HasEntry rules g c x use slot := by
  have hentry : ∀ {identity}, c.lookup identity = some slot →
      ∃ record, x.refs[slot]? = some record ∧ Describes rules g c.lookup identity record := by
    intro identity hl
    obtain ⟨record, hs, hd⟩ := h identity slot hl
    rw [hx, List.getElem?_map] at hs
    obtain ⟨record', hr, he⟩ := Option.map_eq_some_iff.mp hs
    exact ⟨record', hr, Option.some.inj he ▸ hd⟩
  refine ⟨hslot, ?_⟩
  cases use with
  | node id =>
      obtain ⟨record, hr, hd⟩ := hentry hslot
      exact ⟨record, hr, hd.name, hd.members⟩
  | union leaves =>
      obtain ⟨made, hl⟩ := hslot
      obtain ⟨record, hr, hd⟩ := hentry hl
      exact ⟨record, hr, hd.name, hd.members⟩

theorem holds_of_answers {id : NodeId} (h : Faithful r.toRules g c) {x : Extraction}
    (hx : c.slots = x.refs.map some) {k? : Option ComponentSpec} (hk : Answers r g id k? c) :
    Holds r g c x id k? := by
  cases k? with
  | none =>
      intro props hprops
      cases (propsOf?_eq_some_iff.mpr hprops).symm.trans (hk.missing rfl)
  | some k =>
      have hdeclares := hk.declared k rfl
      obtain ⟨props, slot, hprops, hslot, hknown⟩ := hdeclares.exists_props
      exact ⟨hdeclares.1, props, slot, propsOf?_eq_some_iff.mp hprops, hslot,
        hasEntry_of_hasSlot h hx hknown⟩

/-- A class fails where the classification of its props does. -/
theorem propsSlot_of_ofClass_error {id : NodeId} {fault : PassFault}
    (h : (ofClass r g id).run c = (.error fault, c')) :
    ∃ props, Binds g r.markers id props ∧
      (propsSlot r.toRules g (.node props)).run c = (.error fault, c') := by
  unfold ofClass at h
  dsimp only at h
  split at h
  · cases h
  · next base hbase =>
      split at h
      · cases h
      · next props rest hargs =>
          have hbinds : propsOf? r g id = some props := by simp [propsOf?, hbase, hargs]
          obtain hf | ⟨slot, c₁, -, h₁⟩ := Pass.error_of_bind h
          · exact ⟨props, propsOf?_eq_some_iff.mp hbinds, hf⟩
          · cases h₁

theorem distinctClasses_eq (g : TypeGraph) (declarations : List NodeId) :
    distinctClasses g declarations = (declarations.filter g.isClass).eraseDups :=
  addMissing_eq_eraseDups _

/-- The search for a marker comes to an end, and finds one exactly if base references lead to one. Let
a search for components follow requests which all succeeded. Its outcome, if it has one, holds
components for the distinct classes in the order of their first declarations: one for each class that
has a deriving base the first of which has a type argument, and none for others. It has an outcome
unless it fails as the classification of the props of some class does, which follows that of the
classes before it; known symbols must not stand for records. -/
theorem find_by_derivation (r : ComponentRules) (g : TypeGraph) :
    (∀ id, Searches g r.markers [id] [] (derives g r.markers id) ∧
      (derives g r.markers id = true ↔ Derives g r.markers id)) ∧
    ∀ answers c, Request.Reached r g answers c → ∀ declarations,
      (∀ x c', (find r g declarations).run c = (.ok x, c') →
        ∃ found : List (Option ComponentSpec), x.components = found.filterMap id ∧
          List.Forall₂ (Holds r g c' x) (declarations.filter g.isClass).eraseDups found) ∧
      (r.registry.Plain → ∀ fault c', (find r g declarations).run c = (.error fault, c') →
        ∃ before declaration after found c₁ props,
          (declarations.filter g.isClass).eraseDups = before ++ declaration :: after ∧
          (before.mapM (ofClass r g)).run c = (.ok found, c₁) ∧
          Binds g r.markers declaration props ∧
          (propsSlot r.toRules g (.node props)).run c₁ = (.error fault, c')) := by
  refine ⟨fun id => ⟨searches_derives g r.markers id, derives_eq_true_iff⟩, ?_⟩
  intro answers c hreached declarations
  have hc := hreached.advances
  rw [← distinctClasses_eq]
  constructor
  · intro x c' hrun
    obtain ⟨hadv, found, hresult, hall⟩ := find_tells r g declarations hrun
    have hadv' := hc.trans hadv
    have hslots := slots_of_result hadv' hresult
    refine ⟨found, by rw [Context.eq_of_result hresult], hall.imp fun id k? hanswers => ?_⟩
    exact holds_of_answers (faithful_of_advances hadv') hslots hanswers
  · intro hr fault c' hrun
    obtain ⟨before, declaration, after, found, c₁, hall, hbefore, hfails⟩ :=
      Pass.split_of_mapM_error (classes_of_find_error hr hc hrun)
    obtain ⟨props, hbinds, hprops⟩ := propsSlot_of_ofClass_error hfails
    exact ⟨before, declaration, after, found, c₁, props, hall, hbefore, hbinds, hprops⟩

/-- Two types whose bases lead in a circle, one of them without a name and with a marker as its other
base; classes that derive from the one, from the other and from neither; and a class whose props have
a member that no rule fits. -/
def familyGraph : TypeGraph :=
  ⟨TypeGraph.initial.nodes ++ #[
    ⟨.record ⟨some "P", [⟨"label", some stringId, false, none⟩], none, [], []⟩, none⟩,
    ⟨.record ⟨none, [], none, [15], [13, 14]⟩, none⟩,
    ⟨.record ⟨some "Panel", [], some "ui.Panel", [], [12]⟩, none⟩,
    ⟨.record ⟨some "Component", [], some "React.Component", [], []⟩, none⟩,
    ⟨.union [11, nullId], none⟩,
    ⟨.classDeclaration "Button" [11, 12], none⟩,
    ⟨.classDeclaration "Bare" [13], none⟩,
    ⟨.classDeclaration "Store" [11], none⟩,
    ⟨.classDeclaration "Dated" [20], none⟩,
    ⟨.record ⟨some "Component", [], some "React.Component", [21], []⟩, none⟩,
    ⟨.record ⟨none, [⟨"day", some 22, false, none⟩], none, [], []⟩, none⟩,
    ⟨.unresolved "Date" none, none⟩]⟩

open Request (strictRules) in
theorem familyGraph_components :
    Derives familyGraph lenientRules.markers 13 ∧ ¬ Derives familyGraph lenientRules.markers 11 ∧
      (∃ x c', (find lenientRules familyGraph [16, 11, 17, 16, 18]).run .fresh = (.ok x, c') ∧
        x.components = [⟨"Button", 0⟩] ∧ ∃ found : List (Option ComponentSpec),
          x.components = found.filterMap id ∧
            List.Forall₂ (Holds lenientRules familyGraph c' x) [16, 17, 18] found) ∧
      ∃ fault c' c₁ declaration props,
        (find strictRules familyGraph [16, 19]).run .fresh = (.error fault, c') ∧
          Binds familyGraph strictRules.markers declaration props ∧
          (propsSlot strictRules.toRules familyGraph (.node props)).run c₁ = (.error fault, c') := by
  obtain ⟨hderives, hfind⟩ := find_by_derivation lenientRules familyGraph
  have hok : ((find lenientRules familyGraph [16, 11, 17, 16, 18]).run .fresh).1.toOption.map
      Extraction.components = some [⟨"Button", 0⟩] := by
    decide +kernel
  refine ⟨(hderives 13).2.mp (by decide), mt (hderives 11).2.mpr (by decide), ?_, ?_⟩
  · rcases hrun : (find lenientRules familyGraph [16, 11, 17, 16, 18]).run .fresh with
      ⟨outcome, c'⟩
    rw [hrun] at hok
    cases outcome with
    | ok x =>
        have hholds := (hfind [] .fresh .fresh [16, 11, 17, 16, 18]).1 x c' hrun
        exact ⟨x, c', rfl, Option.some.inj hok, hholds⟩
    | error fault => cases hok
  · obtain ⟨-, hstrict⟩ := find_by_derivation strictRules familyGraph
    have hfails : ((find strictRules familyGraph [16, 19]).run .fresh).1 =
        .error (.unclassifiable "Date" none none) := by rfl
    obtain ⟨-, declaration, -, -, c₁, props, -, -, hbinds, hprops⟩ :=
      (hstrict [] .fresh .fresh [16, 19]).2 Registry.plain_builtin _ _ (Prod.ext hfails rfl)
    exact ⟨_, _, c₁, declaration, props, Prod.ext hfails rfl, hbinds, hprops⟩

end Outcome

end Components

end PropSchema
