import PropSchema.Proofs.Classify.Reading
import PropSchema.Proofs.Classify.Requests
/-!
The reference table says what the types say. Where classification succeeds, every slot that it has
made is filled, and the entry of each type holds the readings of its properties under the memo as
it is in the end, no matter how much of the memo was known when they were classified.
-/
namespace PropSchema

namespace TypeIdentity

/-- A union made on the way has no name and no properties. -/
def declaredName (g : TypeGraph) : TypeIdentity → Option String
  | .node id => g.declaredName id
  | .passing _ => none

def properties (g : TypeGraph) : TypeIdentity → List Property
  | .node id => g.properties id
  | .passing _ => []

/-- A node that is given a slot has a text to be reported with. -/
def Titled (g : TypeGraph) : TypeIdentity → Prop
  | .node id => (Classify.slotTitle g (.node id)).isSome
  | .passing _ => True

end TypeIdentity

namespace Classify
variable (r : Rules) (g : TypeGraph)

/-- A member says what the property says that it stands for. -/
def MemberReads (slots : TypeIdentity → Option Nat) (p : Property) (m : MemberSpec) : Prop :=
  m.name = p.name ∧ (g.propertyUse? p).bind (reading r g slots) = some m.spec

/-- An entry says what the type says that it stands for. -/
structure Describes (slots : TypeIdentity → Option Nat) (identity : TypeIdentity)
    (record : RecordSpec) : Prop where
  name : record.name = identity.declaredName g
  members : List.Forall₂ (MemberReads r g slots) (identity.properties g) record.members
  titled : identity.Titled g

variable {r g}

/-- A type reads as a schema by the memo of a context. -/
def Reads (r : Rules) (g : TypeGraph) (use : TypeUse) (s : PropSpec) (c : Context) : Prop :=
  reading r g c.lookup use = some s

/-- A node reads as a prop type, its nullability left out. -/
def ReadsType (r : Rules) (g : TypeGraph) (id : NodeId) (t : PropType) (c : Context) : Prop :=
  (do pure (← reading r g c.lookup (.node id)).propType : Option PropType) = some t

theorem Reads.lasts {use : TypeUse} {s : PropSpec} {c c' : Context} (h : c.Extends c')
    (hs : Reads r g use s c) : Reads r g use s c' :=
  reading_mono (fun _ _ => h.kept) hs

theorem ReadsType.lasts {id : NodeId} {t : PropType} {c c' : Context} (h : c.Extends c')
    (ht : ReadsType r g id t c) : ReadsType r g id t c' := by
  obtain ⟨s, hs, he⟩ := Option.bind_eq_some_iff.mp ht
  exact Option.bind_eq_some_iff.mpr ⟨s, Reads.lasts h hs, he⟩

theorem MemberReads.mono {c c' : Context} (h : c.Extends c') {p : Property} {m : MemberSpec}
    (hm : MemberReads r g c.lookup p m) : MemberReads r g c'.lookup p m := by
  obtain ⟨hname, hspec⟩ := hm
  obtain ⟨use, hu, hs⟩ := Option.bind_eq_some_iff.mp hspec
  exact ⟨hname, Option.bind_eq_some_iff.mpr ⟨use, hu, Reads.lasts h hs⟩⟩

theorem Describes.mono {c c' : Context} (h : c.Extends c') {identity : TypeIdentity}
    {record : RecordSpec} (hd : Describes r g c.lookup identity record) :
    Describes r g c'.lookup identity record :=
  ⟨hd.name, hd.members.imp fun _ _ => MemberReads.mono h, hd.titled⟩

end Classify

namespace Context
variable {r : Rules} {g : TypeGraph}

open Classify in
/-- What a step that succeeds adds to a context: filled slots, which say what their types say. -/
structure Advances (r : Rules) (g : TypeGraph) (c c' : Context) : Prop extends c.Extends c' where
  filled : ∃ records : List RecordSpec, c'.slots = c.slots ++ records.map some
  described : ∀ {identity slot}, c'.lookup identity = some slot → c.lookup identity = some slot ∨
    ∃ record, c'.slots[slot]? = some (some record) ∧ Describes r g c'.lookup identity record

namespace Advances

theorem refl (c : Context) : c.Advances r g c :=
  ⟨.refl c, ⟨[], by simp⟩, fun h => .inl h⟩

theorem trans {c c' c'' : Context} (h : c.Advances r g c') (h' : c'.Advances r g c'') :
    c.Advances r g c'' := by
  refine ⟨h.toExtends.trans h'.toExtends, ?_, ?_⟩
  · obtain ⟨records, hr⟩ := h.filled
    obtain ⟨records', hr'⟩ := h'.filled
    exact ⟨records ++ records', by rw [hr', hr, List.map_append, List.append_assoc]⟩
  · intro identity slot hl
    obtain hl' | hd := h'.described hl
    · obtain hl'' | ⟨record, hs, hd⟩ := h.described hl'
      · exact .inl hl''
      · exact .inr ⟨record, h'.toExtends.filled hs, hd.mono h'.toExtends⟩
    · exact .inr hd

theorem notes (c : Context) (notes : List Note) : c.Advances r g { c with notes } :=
  ⟨c.extends_notes notes, ⟨[], by simp⟩, fun h => .inl h⟩

theorem pop {c c' : Context} {name : String}
    (h : ({ c with owners := name :: c.owners } : Context).Advances r g c') :
    c.Advances r g { c' with owners := c'.owners.tail } :=
  ⟨h.toExtends.pop, h.filled, h.described⟩

/-- A record that was given a slot and whose members are classified is filled in. -/
theorem fill {c c' : Context} {identity : TypeIdentity} (hnew : c.lookup identity = none)
    (h : (c.reserve identity).2.Advances r g c') {record : RecordSpec}
    (hd : Classify.Describes r g c'.lookup identity record) :
    c.Advances r g { c' with slots := c'.slots.set c.slots.length (some record) } := by
  have hext := (extends_reserve hnew).trans h.toExtends
  have hopen := h.toExtends.reserved
  obtain ⟨records, hr⟩ := h.filled
  refine ⟨hext.set (Nat.le_refl _) _, ⟨record :: records, ?_⟩, ?_⟩
  · rw [hr]
    simp [reserve]
  · intro other slot hl
    change c'.lookup other = some slot at hl
    obtain hl' | ⟨entry, hs, hd'⟩ := h.described hl
    · rw [lookup_reserve] at hl'
      split at hl'
      · next heq =>
          cases hl'
          subst heq
          refine .inr ⟨record, ?_, hd⟩
          obtain ⟨hlt, -⟩ := List.getElem?_eq_some_iff.mp hopen
          simp [hlt]
      · exact .inl hl'
    · have hne : c.slots.length ≠ slot := by
        rintro rfl
        rw [hopen] at hs
        cases hs
      exact .inr ⟨entry, by rw [List.getElem?_set_ne hne, hs], hd'⟩

end Advances

end Context

/-- What a step tells, if it succeeds, and that it goes on from there. -/
def Pass.Tells {α : Type} (r : Rules) (g : TypeGraph) (m : Pass α) (fact : α → Context → Prop) :
    Prop :=
  ∀ {c a c'}, m.run c = (.ok a, c') → c.Advances r g c' ∧ fact a c'

namespace Pass.Tells
variable {r : Rules} {g : TypeGraph} {α β : Type}

/-- A list of steps tells of each element what lasts. -/
theorem mapM {f : α → Pass β} {fact : α → β → Context → Prop}
    (h : ∀ a, (f a).Tells r g (fact a))
    (lasts : ∀ {a b c c'}, c.Extends c' → fact a b c → fact a b c') (as : List α) :
    (as.mapM f).Tells r g fun bs c' => List.Forall₂ (fun a b => fact a b c') as bs := by
  induction as with
  | nil =>
      intro c bs c' hr
      cases hr
      exact ⟨.refl c, .nil⟩
  | cons a as ih =>
      intro c bs c'' hr
      rw [List.mapM_cons] at hr
      obtain ⟨b, c₁, hb, hr⟩ := Pass.ok_of_bind hr
      obtain ⟨rest, c₂, hrest, hr⟩ := Pass.ok_of_bind hr
      cases hr
      obtain ⟨hadv, hfact⟩ := h a hb
      obtain ⟨hadv', hall⟩ := ih hrest
      exact ⟨hadv.trans hadv', .cons (lasts hadv'.toExtends hfact) hall⟩

end Pass.Tells

namespace Classify
variable {r : Rules} {g : TypeGraph} {depth : Nat}

/-- The schema that classification gives is what the type reads as afterwards. -/
def SpecTells (r : Rules) (g : TypeGraph) (depth : Nat) : Prop :=
  ∀ use, (specTo r g depth use).Tells r g (Reads r g use)

def PropTypeTells (r : Rules) (g : TypeGraph) (depth : Nat) : Prop :=
  ∀ use, (propTypeTo r g depth use).Tells r g fun t c =>
    makeupBy r g c.lookup (reading r g c.lookup) (g.makeup use) = some t

/-- The memo has a slot for a use: for a node its own, for a union made on the way one of those. -/
def HasSlot (use : TypeUse) (slot : Nat) (c : Context) : Prop :=
  match use with
  | .node id => c.lookup (.node id) = some slot
  | .union _ => ∃ made, c.lookup (.passing made) = some slot

theorem HasSlot.exists_lookup {use : TypeUse} {slot : Nat} {c : Context}
    (h : HasSlot use slot c) : ∃ identity, c.lookup identity = some slot := by
  cases use with
  | node id => exact ⟨_, h⟩
  | union leaves =>
      obtain ⟨made, hl⟩ := h
      exact ⟨_, hl⟩

theorem HasSlot.lasts {use : TypeUse} {slot : Nat} {c c' : Context} (h : c.Extends c')
    (hs : HasSlot use slot c) : HasSlot use slot c' := by
  cases use with
  | node id => exact h.kept hs
  | union leaves =>
      obtain ⟨made, hl⟩ := hs
      exact ⟨made, h.kept hl⟩

/-- The slot of a record is where the memo has it afterwards. -/
def SlotTells (r : Rules) (g : TypeGraph) (depth : Nat) : Prop :=
  ∀ use, (slotTo r g depth use).Tells r g (HasSlot use)

def MemberTells (r : Rules) (g : TypeGraph) (depth : Nat) : Prop :=
  ∀ p, (memberTo r g depth p).Tells r g fun m c => MemberReads r g c.lookup p m

theorem specTo_tells (h : PropTypeTells r g depth) : SpecTells r g (depth + 1) := by
  intro use c s c' hr
  rw [specTo_succ] at hr
  obtain ⟨t, c₁, ht, hr⟩ := Pass.ok_of_bind hr
  cases hr
  cases hk : r.registry.find? (g.symbolOf (g.stripped use)) with
  | some known =>
      rw [hk] at ht
      cases ht
      refine ⟨.refl c, ?_⟩
      rw [Reads, reading_eq, specBy, hk]
      rfl
  | none =>
      rw [hk] at ht
      obtain ⟨hadv, hmake⟩ := h _ ht
      refine ⟨hadv, ?_⟩
      rw [Reads, reading_eq, specBy, hk]
      exact Option.bind_eq_some_iff.mpr ⟨t, hmake, rfl⟩

theorem propType_tells (h : SpecTells r g depth) (id : NodeId) :
    (do pure (← specTo r g depth (.node id)).propType : Pass PropType).Tells r g
      (ReadsType r g id) := by
  intro c t c' hr
  obtain ⟨s, c₁, hs, hr⟩ := Pass.ok_of_bind hr
  cases hr
  obtain ⟨hadv, hread⟩ := h _ hs
  exact ⟨hadv, Option.bind_eq_some_iff.mpr ⟨s, hread, rfl⟩⟩

theorem makeupTo_tells (hspec : SpecTells r g depth) (hslot : SlotTells r g depth) (m : Makeup)
    (hm : ∀ leaves, m ≠ .record (.union leaves)) :
    (makeupTo r g depth m).Tells r g fun t c =>
      makeupBy r g c.lookup (reading r g c.lookup) m = some t := by
  simp only [makeupBy_eq_some_iff]
  intro c t c' hr
  cases m with
  | plain type =>
      cases hr
      exact ⟨.refl c, .plain t⟩
  | union leaves =>
      obtain ⟨options, c₁, ho, hr⟩ := Pass.ok_of_bind hr
      cases hr
      have hleaf (id : NodeId) : (Pass.unionMember (do
          pure (← specTo r g depth (.node id)).propType)).Tells r g (ReadsType r g id) :=
        fun hu => propType_tells hspec id (Pass.ok_of_unionMember hu)
      obtain ⟨hadv, hall⟩ := Pass.Tells.mapM hleaf ReadsType.lasts leaves ho
      exact ⟨hadv, .union (hall.imp fun _ _ => typeRead_iff.mp)⟩
  | tuple elements =>
      obtain ⟨types, c₁, ho, hr⟩ := Pass.ok_of_bind hr
      cases hr
      obtain ⟨hadv, hall⟩ := Pass.Tells.mapM (propType_tells hspec) ReadsType.lasts elements ho
      exact ⟨hadv, .tuple (hall.imp fun _ _ => typeRead_iff.mp)⟩
  | array element =>
      obtain ⟨s, c₁, hs, hr⟩ := Pass.ok_of_bind hr
      cases hr
      obtain ⟨hadv, hread⟩ := hspec _ hs
      exact ⟨hadv, .array hread⟩
  | function signature =>
      obtain ⟨args, c₁, ha, hr⟩ := Pass.ok_of_bind hr
      obtain ⟨s, c₂, hs, hr⟩ := Pass.ok_of_bind hr
      cases hr
      have harg (p : String × TypeUse) : (specTo r g depth (parameterUse g p.2)).Tells r g
          (Reads r g (parameterUse g p.2)) := hspec _
      obtain ⟨hadv, hall⟩ := Pass.Tells.mapM harg Reads.lasts signature.parameters ha
      obtain ⟨hadv', hread⟩ := hspec _ hs
      have hall' := hall.imp fun _ _ => Reads.lasts hadv'.toExtends
      exact ⟨hadv.trans hadv', .function hall' hread⟩
  | record use =>
      obtain ⟨slot, c₁, hs, hr⟩ := Pass.ok_of_bind hr
      cases hr
      obtain ⟨hadv, hknown⟩ := hslot _ hs
      cases use with
      | union leaves => exact absurd rfl (hm leaves)
      | node id => exact ⟨hadv, .record hknown⟩
  | partialRecord target =>
      obtain ⟨slot, c₁, hs, hr⟩ := Pass.ok_of_bind hr
      cases hr
      obtain ⟨hadv, hknown⟩ := hslot _ hs
      exact ⟨hadv, .partialRecord hknown⟩
  | unknown id =>
      obtain ⟨hp, rfl, text, htext, rfl⟩ := ok_of_unknownTo hr
      exact ⟨.notes c _, .unknown id hp htext⟩

/-- Only a node is classified as a record of its own. -/
theorem makeup_ne_record_union (g : TypeGraph) (use : TypeUse) (leaves : List NodeId) :
    g.makeup use ≠ .record (.union leaves) := by
  unfold TypeGraph.makeup
  cases use with
  | union leaves' =>
      obtain hs | hs := g.shape_union leaves' <;> simp [hs]
  | node id =>
      cases g.shape (.node id)
      case object => simp
      all_goals
        dsimp only [TypeGraph.formMakeup]
        cases g.form id
        case function f => cases g.signature? id <;> simp
        all_goals simp

theorem propTypeTo_tells (hspec : SpecTells r g depth) (hslot : SlotTells r g depth) :
    PropTypeTells r g (depth + 1) := by
  intro use c t c' hr
  rw [propTypeTo_succ] at hr
  exact makeupTo_tells hspec hslot _ (makeup_ne_record_union g use) hr

theorem memberTo_tells (h : SpecTells r g depth) : MemberTells r g (depth + 1) := by
  intro p c m c' hr
  rw [memberTo, Pass.run_within] at hr
  cases hu : g.propertyUse? p with
  | none =>
      rw [hu] at hr
      cases hr
  | some use =>
      rw [hu] at hr
      rcases hrun : (do pure ⟨p.name, ← specTo r g depth use⟩ : Pass MemberSpec).run
        { c with owners := p.name :: c.owners } with ⟨outcome, after⟩
      simp only [hrun] at hr
      cases hr
      obtain ⟨s, c₁, hs, hpure⟩ := Pass.ok_of_bind hrun
      cases hpure
      obtain ⟨hadv, hread⟩ := h _ hs
      exact ⟨hadv.pop, rfl, Option.bind_eq_some_iff.mpr ⟨use, hu, hread⟩⟩

theorem membersTo_tells (h : MemberTells r g depth) (use : TypeUse) (slot : Nat) :
    (membersTo r g depth use slot).Tells r g fun members c => (slotTitle g use).isSome ∧
      List.Forall₂ (MemberReads r g c.lookup) (g.propertiesOf use) members := by
  intro c members c' hr
  obtain ⟨title, _, hwritten, hnoted⟩ := Pass.ok_of_bind hr
  obtain ⟨htitle, rfl⟩ := Pass.ok_of_written hwritten
  obtain ⟨_, c₁, hnote, hmembers⟩ := Pass.ok_of_bind hnoted
  cases hnote
  obtain ⟨hadv, hall⟩ := Pass.Tells.mapM h (fun hext => MemberReads.mono hext)
    (g.propertiesOf use) hmembers
  exact ⟨(Context.Advances.notes _ _).trans hadv, Option.isSome_of_eq_some htitle, hall⟩

theorem slotTo_tells (h : MemberTells r g depth) : SlotTells r g (depth + 1) := by
  intro use c slot c' hr
  rw [slotTo_run] at hr
  cases hk : c.lookup (use.identity c) with
  | some known =>
      rw [hk] at hr
      cases hr
      refine ⟨.refl c, ?_⟩
      cases use with
      | node id => exact hk
      | union leaves => exact ⟨_, hk⟩
  | none =>
      rw [hk] at hr
      rcases hm : (membersTo r g depth use c.slots.length).run
        (c.reserve (use.identity c)).2 with ⟨outcome, c₁⟩
      cases outcome with
      | error fault =>
          simp only [entryTo_of_error hm] at hr
          cases hr
      | ok members =>
          obtain ⟨hadv, htitle, hall⟩ := membersTo_tells h use c.slots.length hm
          simp only [entryTo_of_ok hm hadv.toExtends.reserved] at hr
          cases hr
          have hd : Describes r g c₁.lookup (use.identity c)
              ⟨g.declaredNameOf use, members⟩ := by
            cases use with
            | node id => exact ⟨rfl, hall, htitle⟩
            | union leaves => exact ⟨rfl, hall, trivial⟩
          have hself : (c.reserve (use.identity c)).2.lookup (use.identity c) =
              some c.slots.length := by rw [Context.lookup_reserve, if_pos rfl]
          have hkept := hadv.toExtends.kept hself
          refine ⟨Context.Advances.fill hk hadv hd, ?_⟩
          cases use with
          | node id => exact hkept
          | union leaves => exact ⟨_, hkept⟩

/-- However deep it goes, classification tells what the types say. -/
theorem tellsTo (r : Rules) (g : TypeGraph) (depth : Nat) :
    SpecTells r g depth ∧ PropTypeTells r g depth ∧ SlotTells r g depth ∧
      MemberTells r g depth := by
  induction depth with
  | zero =>
      refine ⟨fun use => ?_, fun use => ?_, fun use => ?_, fun p => ?_⟩
      · intro c s c' hr
        rw [specTo] at hr
        cases hr
      · intro c t c' hr
        rw [propTypeTo] at hr
        cases hr
      · intro c slot c' hr
        rw [slotTo] at hr
        cases hr
      · intro c m c' hr
        rw [memberTo] at hr
        cases hr
  | succ depth ih =>
      obtain ⟨hspec, hprop, hslot, hmember⟩ := ih
      exact ⟨specTo_tells hprop, propTypeTo_tells hspec hslot, slotTo_tells hmember,
        memberTo_tells hspec⟩

theorem spec_tells (r : Rules) (g : TypeGraph) (use : TypeUse) :
    (spec r g use).Tells r g (Reads r g use) :=
  (tellsTo r g _).1 use

theorem slot_tells (r : Rules) (g : TypeGraph) (use : TypeUse) :
    (slot r g use).Tells r g (HasSlot use) :=
  (tellsTo r g _).2.2.1 use

theorem propsSlot_tells (r : Rules) (g : TypeGraph) (use : TypeUse) :
    (propsSlot r g use).Tells r g (HasSlot (g.stripped use)) :=
  slot_tells r g _

/-- Every type that the memo knows has an entry that says what the type says. -/
def Faithful (r : Rules) (g : TypeGraph) (c : Context) : Prop :=
  ∀ identity slot, c.lookup identity = some slot →
    ∃ record, c.slots[slot]? = some (some record) ∧ Describes r g c.lookup identity record

theorem faithful_of_advances {c : Context} (h : Context.fresh.Advances r g c) :
    Faithful r g c := by
  intro identity slot hl
  obtain hf | hd := h.described hl
  · cases hf
  · exact hd

end Classify

namespace Components
open Classify
variable {r : ComponentRules} {g : TypeGraph}

/-- A class declares a component with the props of its first base that derives from a marker. -/
def Declares (r : ComponentRules) (g : TypeGraph) (id : NodeId) (k : ComponentSpec)
    (c : Context) : Prop :=
  k.name = declarationName g id ∧ ∃ base props rest slot,
    (g.bases id).find? (derives g r.markers) = some base ∧ g.arguments base = props :: rest ∧
      k.props = (slot : Nat) ∧ HasSlot (g.stripped (.node props)) slot c

theorem Declares.lasts {id : NodeId} {k : ComponentSpec} {c c' : Context} (h : c.Extends c')
    (hk : Declares r g id k c) : Declares r g id k c' := by
  obtain ⟨hname, base, props, rest, slot, hb, ha, hs, hslot⟩ := hk
  exact ⟨hname, base, props, rest, slot, hb, ha, hs, hslot.lasts h⟩

/-- The type of the props that a class binds in its first base that derives from a marker. -/
def propsOf? (r : ComponentRules) (g : TypeGraph) (id : NodeId) : Option NodeId := do
  (g.arguments (← (g.bases id).find? (derives g r.markers))).head?

/-- What is found in a class: the component that it declares, or none if it binds no props. -/
structure Answers (r : ComponentRules) (g : TypeGraph) (id : NodeId) (found : Option ComponentSpec)
    (c : Context) : Prop where
  declared : ∀ k ∈ found, Declares r g id k c
  missing : found = none → propsOf? r g id = none

theorem Answers.lasts {id : NodeId} {found : Option ComponentSpec} {c c' : Context}
    (h : c.Extends c') (hf : Answers r g id found c) : Answers r g id found c' :=
  ⟨fun k hk => (hf.declared k hk).lasts h, hf.missing⟩

theorem ofClass_tells (r : ComponentRules) (g : TypeGraph) (id : NodeId) :
    (ofClass r g id).Tells r.toRules g (Answers r g id) := by
  intro c found c' hr
  unfold ofClass at hr
  dsimp only at hr
  split at hr
  · next hb =>
      cases hr
      exact ⟨.refl c, by simp, fun _ => by simp [propsOf?, hb]⟩
  · next base hb =>
      split at hr
      · next ha =>
          cases hr
          exact ⟨.notes c _, by simp, fun _ => by simp [propsOf?, hb, ha]⟩
      · next props rest ha =>
          obtain ⟨slot, c₁, hs, hr⟩ := Pass.ok_of_bind hr
          cases hr
          obtain ⟨hadv, hslot⟩ := propsSlot_tells _ _ _ hs
          refine ⟨hadv.trans (.notes c₁ _), ?_, by simp⟩
          intro k hk
          cases hk
          exact ⟨rfl, base, props, rest, slot, hb, ha, rfl, hslot.lasts (c₁.extends_notes _)⟩

/-- A pass answers for each class in turn, and its outcome holds the components found. -/
theorem find_tells (r : ComponentRules) (g : TypeGraph) (declarations : List NodeId) :
    (find r g declarations).Tells r.toRules g fun x c => ∃ found : List (Option ComponentSpec),
      c.result (found.filterMap id) = .ok x ∧
        List.Forall₂ (fun id o => Answers r g id o c) (distinctClasses g declarations) found := by
  intro c x c' hr
  obtain ⟨found, c₁, hf, hr⟩ := Pass.ok_of_bind hr
  obtain ⟨hadv, hall⟩ := Pass.Tells.mapM (ofClass_tells r g) Answers.lasts
    (distinctClasses g declarations) hf
  obtain ⟨hres, rfl⟩ := Prod.mk.inj ((run_finish found c₁).symm.trans hr)
  exact ⟨hadv, found, hres, hall⟩

/-- The table of an outcome is that of the context. -/
theorem slots_of_result {r : Rules} {c : Context} (h : Context.fresh.Advances r g c)
    {components : List ComponentSpec} {x : Extraction} (hres : c.result components = .ok x) :
    c.slots = x.refs.map some := by
  obtain ⟨records, hs⟩ := h.filled
  have hs' : c.slots = records.map some := hs
  rw [Context.eq_of_result hres, hs']
  simp

/-- After a pass that succeeds, the entry of every type that has one says what the type says, and a
schema that was given is the reading of its type. Readings depend on the types and on the finished
memo alone, so it does not matter at which point of the pass a type was met. -/
theorem table_reads_as_the_types (r : ComponentRules) (g : TypeGraph) :
    (∀ id s c, (Classify.spec r.toRules g (.node id)).run .fresh = (.ok s, c) →
      Faithful r.toRules g c ∧ reading r.toRules g c.lookup (.node id) = some s) ∧
    ∀ declarations x c, (find r g declarations).run .fresh = (.ok x, c) →
      Faithful r.toRules g c ∧ c.slots = x.refs.map some ∧
        ∀ k ∈ x.components, ∃ id ∈ distinctClasses g declarations, Declares r g id k c := by
  constructor
  · intro id s c hr
    obtain ⟨hadv, hreads⟩ := spec_tells _ _ _ hr
    exact ⟨faithful_of_advances hadv, hreads⟩
  · intro declarations x c hr
    obtain ⟨hadv, found, hres, hall⟩ := find_tells r g declarations hr
    refine ⟨faithful_of_advances hadv, slots_of_result hadv hres, ?_⟩
    intro k hk
    rw [Context.eq_of_result hres] at hk
    obtain ⟨entry, hentry, he⟩ := List.mem_filterMap.mp hk
    obtain ⟨id, hid, hanswers⟩ := Sequences.exists_of_forall₂ hall hentry
    exact ⟨id, hid, hanswers.declared k (by simpa using he)⟩

/-- A record with members of its own type, one of them nullable and one partial, and a component
that has it for props. -/
def loopedGraph : TypeGraph :=
  ⟨TypeGraph.initial.nodes ++ #[
    ⟨.record ⟨some "Node", [⟨"next", some 12, false, none⟩, ⟨"part", some 13, true, none⟩,
      ⟨"label", some TypeGraph.stringId, false, none⟩], none, [], []⟩, none⟩,
    ⟨.union [11, TypeGraph.nullId], none⟩,
    ⟨.partialOf 11, none⟩,
    ⟨.record ⟨some "Component", [], some "React.Component", [11], []⟩, none⟩,
    ⟨.classDeclaration "Tree" [14], none⟩]⟩

def loopedTable : List RecordSpec :=
  [⟨some "Node", [⟨"next", ⟨.ref 0, true⟩⟩, ⟨"part", ⟨.partialRef 0, true⟩⟩,
    ⟨"label", ⟨.string, false⟩⟩]⟩]

def lenientRules : ComponentRules := ⟨⟨Registry.builtin, .lenient⟩, defaultMarkers⟩

/-- The record is met three times, twice while its own members are classified. -/
theorem looped_record_reads_as_its_type :
    (∃ c, (Classify.spec lenientRules.toRules loopedGraph (.node 12)).run .fresh =
        (.ok ⟨.ref 0, true⟩, c) ∧ Faithful lenientRules.toRules loopedGraph c ∧
      reading lenientRules.toRules loopedGraph c.lookup (.node 12) = some ⟨.ref 0, true⟩) ∧
    ∃ c, (find lenientRules loopedGraph [15]).run .fresh =
        (.ok ⟨[⟨"Tree", 0⟩], loopedTable⟩, c) ∧ Faithful lenientRules.toRules loopedGraph c ∧
      c.slots = loopedTable.map some := by
  have h := table_reads_as_the_types lenientRules loopedGraph
  have hspec : (Classify.spec lenientRules.toRules loopedGraph (.node 12)).run .fresh =
      (.ok ⟨.ref 0, true⟩, ((Classify.spec lenientRules.toRules loopedGraph (.node 12)).run
        .fresh).2) := by rfl
  have hfind : (find lenientRules loopedGraph [15]).run .fresh =
      (.ok ⟨[⟨"Tree", 0⟩], loopedTable⟩, ((find lenientRules loopedGraph [15]).run .fresh).2) := by
    rfl
  obtain ⟨hfaithful, hread⟩ := h.1 12 _ _ hspec
  obtain ⟨hfaithful', hslots, -⟩ := h.2 [15] _ _ hfind
  exact ⟨⟨_, hspec, hfaithful, hread⟩, _, hfind, hfaithful', hslots⟩

end Components

end PropSchema
