import PropSchema.Proofs.Classify.Props
/-!
What has a schema in one graph has one in every graph that corresponds to it, or it is refused for
its depth there. No other fault can come up: whatever classification meets, the finished table of
the first graph has read, and whatever it reports has been reported.
-/
namespace PropSchema

/-- A step that fails with some faults only. -/
def Pass.FailsBy {α : Type} (F : PassFault → Prop) (m : Pass α) : Prop :=
  ∀ c fault c', m.run c = (.error fault, c') → F fault

namespace Pass.FailsBy
variable {α β : Type} {F : PassFault → Prop}

theorem pure (a : α) : (pure a : Pass α).FailsBy F := by
  intro c fault c' h
  cases h

theorem throw {fault : PassFault} (h : F fault) : (throw fault : Pass α).FailsBy F := by
  intro c fault' c' hr
  cases hr
  exact h

theorem note (n : Note) : (Pass.note n).FailsBy F := by
  intro c fault c' h
  cases h

theorem written {text? : Option String} (h : text? = none → F .unwritable) :
    (Pass.written text?).FailsBy F := by
  cases text? with
  | none => exact throw (h rfl)
  | some text => exact pure text

theorem bind {m : Pass α} {f : α → Pass β} (h : m.FailsBy F) (hf : ∀ a, (f a).FailsBy F) :
    (m >>= f).FailsBy F := by
  intro c fault c' hr
  obtain hm | ⟨a, c₁, -, hr⟩ := Pass.error_of_bind hr
  · exact h _ _ _ hm
  · exact hf a _ _ _ hr

theorem mapM {f : α → Pass β} {as : List α} (h : ∀ a ∈ as, (f a).FailsBy F) :
    (as.mapM f).FailsBy F := by
  intro c fault c' hr
  obtain ⟨before, a, after, -, c₁, rfl, -, hrun⟩ := Pass.split_of_mapM_error hr
  exact h a (by simp) _ _ _ hrun

theorem within {m : Pass α} (h : m.FailsBy F) (name : String) :
    (Pass.within name m).FailsBy F := by
  intro c fault c' hr
  rw [Pass.run_within] at hr
  rcases hm : m.run { c with owners := name :: c.owners } with ⟨outcome, after⟩
  rw [hm] at hr
  cases hr
  exact h _ _ _ hm

/-- A union leaves the limits of a pass as they are. -/
theorem unionMember (hF : ∀ fault, F fault → fault.IsLimit) {m : Pass α} (h : m.FailsBy F) :
    (Pass.unionMember m).FailsBy F := by
  intro c fault c' hr
  rcases hm : m.run c with ⟨outcome, after⟩
  cases outcome with
  | ok a =>
      rw [Pass.run_unionMember_ok hm] at hr
      cases hr
  | error fault' =>
      have hfault := h _ _ _ hm
      rw [Pass.run_unionMember_error hm, (hF _ hfault).inUnion_eq] at hr
      cases hr
      exact hfault

theorem congruence (hF : ∀ fault, F fault → fault.IsLimit) : Congruence fun m _ => m.FailsBy F :=
  ⟨pure, bind, fun name _ _ h => within h name, unionMember hF⟩

end Pass.FailsBy

/-- A step that fails only for depth. -/
abbrev Pass.OnlyTooDeep {α : Type} (m : Pass α) : Prop := m.FailsBy (· = .tooDeep)

namespace Classify

open TypeGraph

/-- The records that have slots were described. -/
def Described (r : Rules) (g : TypeGraph) (slots : TypeIdentity → Option Nat) : Prop :=
  ∀ id slot, slots (.node id) = some slot → ∃ record, Describes r g slots (.node id) record

theorem described_of_faithful {r : Rules} {g : TypeGraph} {ctx : Context}
    (hf : Faithful r g ctx) : Described r g ctx.lookup := by
  intro id slot hl
  obtain ⟨record, -, hd⟩ := hf _ _ hl
  exact ⟨record, hd⟩

/-- A record that can be reported is refused only if one of its members is. -/
theorem slotTo_failsBy {F : PassFault → Prop} {r : Rules} {g : TypeGraph} {depth : Nat}
    {use : TypeUse}
    (htitle : slotTitle g use = none → F .unwritable)
    (hmember : ∀ p ∈ g.propertiesOf use, (memberTo r g depth p).FailsBy F) :
    (slotTo r g (depth + 1) use).FailsBy F := by
  intro c fault c' hr
  have hmembers : ∀ slot, (membersTo r g depth use slot).FailsBy F :=
    fun slot => .bind (.written htitle) fun _ => .bind (.note _) fun _ => .mapM hmember
  rw [slotTo_run] at hr
  cases hk : c.lookup (use.identity c) with
  | some known =>
      rw [hk] at hr
      cases hr
  | none =>
      rw [hk] at hr
      have hext := membersTo_extending (extendingTo r g depth).2.2.2 use c.slots.length
        (c.reserve (use.identity c)).2
      have hempty := hext.reserved
      rcases hrun : (membersTo r g depth use c.slots.length).run
        (c.reserve (use.identity c)).2 with ⟨outcome, after⟩
      rw [hrun] at hempty
      cases outcome with
      | error fault' =>
          simp only [entryTo_of_error hrun] at hr
          cases hr
          exact hmembers _ _ _ _ hrun
      | ok members =>
          simp only [entryTo_of_ok hrun hempty] at hr
          cases hr

section Transfer
variable (r : Rules) (g h : TypeGraph) (rel : NodeId → NodeId → Prop)
  (slots : TypeIdentity → Option Nat) (depth : Nat)

/-- What reads in one graph is classified in the other, or it is too deep there. -/
def SpecTransfers : Prop :=
  ∀ use use' s, TypeUse.Rel rel use use' → reading r g slots use = some s →
    (specTo r h depth use').OnlyTooDeep

def PropTypeTransfers : Prop :=
  ∀ use use' t, TypeUse.Rel rel use use' →
    makeupBy r g slots (reading r g slots) (g.makeup use) = some t →
      (propTypeTo r h depth use').OnlyTooDeep

/-- What can be reported and has a slot, if it is a node. -/
structure Entered (use : TypeUse) : Prop where
  titled : (slotTitle g use).isSome
  known : ∀ id, use = .node id → ∃ slot, slots (.node id) = some slot

def SlotTransfers : Prop :=
  ∀ use use', TypeUse.Rel rel use use' → Entered g slots use → (slotTo r h depth use').OnlyTooDeep

def MemberTransfers : Prop :=
  ∀ p q m, Property.Rel rel p q → MemberReads r g slots p m → (memberTo r h depth q).OnlyTooDeep

end Transfer

variable {r : Rules} {g h : TypeGraph} {rel : NodeId → NodeId → Prop}
  {slots : TypeIdentity → Option Nat} {depth : Nat}

theorem specTo_transfers (c : Correspondence g h rel)
    (hprop : PropTypeTransfers r g h rel slots depth) :
    SpecTransfers r g h rel slots (depth + 1) := by
  intro use use' s hu hs
  have hstripped : TypeUse.Rel rel (g.stripped use) (h.stripped use') := c.likeness.stripped_rel hu
  rw [reading_eq] at hs
  obtain ⟨t, ht, -⟩ := Option.bind_eq_some_iff.mp hs
  rw [symbolOf_eq c hstripped] at ht
  rw [specTo_succ]
  refine .bind ?_ fun _ => .pure _
  cases hk : r.registry.find? (h.symbolOf (h.stripped use')) with
  | some known => exact .pure known
  | none =>
      simp only [hk] at ht
      exact hprop _ _ _ hstripped ht

theorem Described.entered (hd : Described r g slots) {id : NodeId} {slot : Nat}
    (h : slots (.node id) = some slot) : Entered g slots (.node id) := by
  obtain ⟨record, hrecord⟩ := hd id slot h
  refine ⟨hrecord.titled, ?_⟩
  rintro _ ⟨⟩
  exact ⟨slot, h⟩

theorem propTypeTo_transfers (c : Correspondence g h rel) (hd : Described r g slots)
    (hspec : SpecTransfers r g h rel slots depth) (hslot : SlotTransfers r g h rel slots depth) :
    PropTypeTransfers r g h rel slots (depth + 1) := by
  intro use use' t hu ht
  have hmakeup := makeup_rel c.likeness hu
  have htype : ∀ a b t, rel a b → TypeRead (reading r g slots) a t →
      (do pure (← specTo r h depth (.node b)).propType : Pass PropType).OnlyTooDeep := by
    rintro a b _ hab ⟨s, hs, -⟩
    exact .bind (hspec _ _ _ (.node hab) hs) fun _ => .pure _
  have htypes : ∀ {as bs : List NodeId} {ts : List PropType}, List.Forall₂ rel as bs →
      List.Forall₂ (TypeRead (reading r g slots)) as ts →
      ∀ b ∈ bs, (do pure (← specTo r h depth (.node b)).propType : Pass PropType).OnlyTooDeep := by
    intro as bs ts hab hts b hb
    obtain ⟨a, ha, hr⟩ := Sequences.exists_of_forall₂ hab hb
    obtain ⟨t, -, ht⟩ := Sequences.exists_of_forall₂ hts.flip ha
    exact htype a b t hr ht
  rw [propTypeTo_succ]
  rw [makeupBy_eq_some_iff] at ht
  generalize g.makeup use = m at hmakeup ht
  generalize h.makeup use' = m' at hmakeup ⊢
  cases hmakeup with
  | plain hnil => exact .pure _
  | union hs =>
      cases ht with | union ho =>
      exact .bind (.mapM fun b hb => .unionMember (fun _ => .inl) (htypes hs ho b hb)) fun _ => .pure _
  | tuple hs =>
      cases ht with | tuple hts => exact .bind (.mapM (htypes hs hts)) fun _ => .pure _
  | array hab =>
      cases ht with | array ha => exact .bind (hspec _ _ _ (.node hab) ha) fun _ => .pure _
  | function hsig =>
      cases ht with | function ha hresult =>
      refine .bind (.mapM fun q hq => ?_) fun _ =>
        .bind (hspec _ _ _ (.node hsig.result) hresult) fun _ => .pure _
      obtain ⟨p, hp, hpq⟩ := Sequences.exists_of_forall₂ hsig.parameters hq
      obtain ⟨s, -, hs⟩ := Sequences.exists_of_forall₂ ha.flip hp
      exact hspec _ _ _ (parameterUse_rel c.likeness hpq) hs
  | record hab =>
      cases ht with | record hs =>
      exact .bind (hslot _ _ (.node hab) (hd.entered hs)) fun _ => .pure _
  | partialRecord hab =>
      cases ht with | partialRecord hs =>
      exact .bind (hslot _ _ (.node hab) (hd.entered hs)) fun _ => .pure _
  | @unknown a b hab =>
      cases ht with | unknown _ hp hwritten =>
      have hsome := c.likeness.isSome_render_eq (.node hab)
      rw [hwritten] at hsome
      change (unknownTo r h b).OnlyTooDeep
      rw [unknownTo, hp]
      refine .bind (.written fun hnone => ?_) fun _ => .bind (.note _) fun _ => .pure _
      rw [hnone] at hsome
      cases hsome

theorem memberTo_transfers (c : Correspondence g h rel)
    (hspec : SpecTransfers r g h rel slots depth) :
    MemberTransfers r g h rel slots (depth + 1) := by
  intro p q m hpq hm
  obtain ⟨use, hu, hread⟩ := Option.bind_eq_some_iff.mp hm.2
  have huse := c.likeness.propertyUse?_rel hpq
  rw [hu] at huse
  rw [memberTo]
  refine .within ?_ q.name
  generalize h.propertyUse? q = use' at huse
  cases huse with
  | some huse => exact .bind (hspec _ _ _ huse hread) fun _ => .pure _

theorem slotTo_transfers (c : Correspondence g h rel) (hd : Described r g slots)
    (hmember : MemberTransfers r g h rel slots depth) :
    SlotTransfers r g h rel slots (depth + 1) := by
  intro use use' hu hentered
  refine slotTo_failsBy (fun hnone => ?_) fun q hq => ?_
  · have htitled := hentered.titled
    rw [isSome_slotTitle_eq c.likeness hu, hnone] at htitled
    cases htitled
  cases hu with
  | union hs => cases hq
  | @node a b hab =>
      obtain ⟨i, hi⟩ := hentered.known a rfl
      obtain ⟨record, hrecord⟩ := hd a i hi
      obtain ⟨p, hp, hpq⟩ := Sequences.exists_of_forall₂ (c.likeness.properties_rel hab) hq
      obtain ⟨m, -, hm⟩ := Sequences.exists_of_forall₂ hrecord.members.flip hp
      exact hmember _ _ _ hpq hm

theorem transfersTo (c : Correspondence g h rel) (hd : Described r g slots) (depth : Nat) :
    SpecTransfers r g h rel slots depth ∧ PropTypeTransfers r g h rel slots depth ∧
      SlotTransfers r g h rel slots depth ∧ MemberTransfers r g h rel slots depth := by
  induction depth with
  | zero =>
      refine ⟨?_, ?_, ?_, ?_⟩
      · intro use use' s hu hs
        rw [specTo]
        exact .throw rfl
      · intro use use' t hu ht
        rw [propTypeTo]
        exact .throw rfl
      · intro use use' hu hs
        rw [slotTo]
        exact .throw rfl
      · intro p q m hpq hm
        rw [memberTo]
        exact .throw rfl
  | succ depth ih =>
      obtain ⟨hspec, hprop, hslot, hmember⟩ := ih
      exact ⟨specTo_transfers c hprop, propTypeTo_transfers c hd hspec hslot,
        slotTo_transfers c hd hmember, memberTo_transfers c hspec⟩

end Classify

namespace Components

open TypeGraph Classify
variable {r : ComponentRules} {g h : TypeGraph} {rel : NodeId → NodeId → Prop} {ctx : Context}

section Titles
variable {declarations : List NodeId} {x : Extraction} {id props : NodeId}
  (hfind : (find r g declarations).run .fresh = (.ok x, ctx))
  (hid : id ∈ distinctClasses g declarations) (hprops : propsOf? r g id = some props)
include hfind hid hprops

/-- Where a union is made of the props of a class that a search has gone through, it has a text. -/
theorem isSome_render_of_find {leaves : List NodeId}
    (hstripped : g.stripped (.node props) = .union leaves) : (g.render (.union leaves)).isSome := by
  obtain ⟨found, c₁, hclasses, -⟩ := Pass.ok_of_bind hfind
  have hkeeps : ∀ a, (ofClass r g a).Keeps Context.Passed :=
    Request.ofClass_keeps Context.stable_passed.course fun _ h => slotTo_keeps Context.stable_passed h
  obtain ⟨c₀, found₀, c₂, hpassed, hrun⟩ :=
    Pass.Keeps.exists_run hkeeps (c := .fresh) nofun hclasses id hid
  obtain ⟨base, hbase, harguments⟩ := Option.bind_eq_some_iff.mp hprops
  obtain ⟨rest, harguments⟩ := List.head?_eq_some_iff.mp harguments
  rw [ofClass, hbase] at hrun
  dsimp only at hrun
  rw [harguments] at hrun
  obtain ⟨slot, c₃, hslot, -⟩ := Pass.ok_of_bind hrun
  rw [propsSlot_eq, hstripped] at hslot
  exact isSome_render_of_slot hpassed hslot

/-- The props of the classes that a search has gone through could all be reported. -/
theorem isSome_slotTitle_of_find : (slotTitle g (g.stripped (.node props))).isSome := by
  obtain ⟨hadvances, found, -, hanswers⟩ := find_tells r g declarations hfind
  obtain ⟨k?, -, hanswer⟩ := Sequences.exists_of_forall₂ hanswers.flip hid
  cases k? with
  | none => cases hprops.symm.trans (hanswer.missing rfl)
  | some k =>
      obtain ⟨props', slot, hprops', -, hslot⟩ := (hanswer.declared k rfl).exists_props
      cases hprops.symm.trans hprops'
      cases hstripped : g.stripped (.node props) with
      | union leaves => exact isSome_render_of_find hfind hid hprops hstripped
      | node m =>
          rw [hstripped] at hslot
          obtain ⟨record, -, hdescribed⟩ := faithful_of_advances hadvances _ _ hslot
          exact hdescribed.titled

end Titles

/-- A class whose counterpart has been answered for is refused for depth alone. -/
theorem ofClass_onlyTooDeep (c : Correspondence g h rel) (hf : Faithful r.toRules g ctx)
    {a b : NodeId} (hab : rel a b) {found : Option ComponentSpec} (ha : Answers r g a found ctx)
    (htitled : ∀ props, propsOf? r g a = some props →
      (slotTitle g (g.stripped (.node props))).isSome) : (ofClass r h b).OnlyTooDeep := by
  have hprops : Option.Rel rel (propsOf? r g a) (propsOf? r h b) :=
    propsOf?_rel c.likeness (fun hab => by rw [c.symbol_eq hab]) hab
  unfold ofClass
  dsimp only
  split
  · exact .pure none
  · next base hbase =>
      split
      · exact .bind (.note _) fun _ => .pure _
      · next props' rest hargs =>
          have hsome : propsOf? r h b = some props' := by simp [propsOf?, hbase, hargs]
          rw [hsome] at hprops
          generalize hp : propsOf? r g a = props? at hprops
          cases hprops with
          | @some props _ hpp =>
              refine .bind ?_ fun _ => .bind (.note _) fun _ => .pure _
              refine (transfersTo c (described_of_faithful hf) _).2.2.1 _ _
                (c.likeness.stripped_rel (.node hpp)) ⟨htitled props hp, ?_⟩
              intro id hid
              cases found with
              | none =>
                  rw [ha.missing rfl] at hp
                  cases hp
              | some k =>
                  obtain ⟨props₁, slot, hp₁, -, hslot⟩ := (ha.declared k rfl).exists_props
                  rw [hp] at hp₁
                  cases hp₁
                  rw [stripped, hid] at hslot
                  exact ⟨slot, hslot⟩

/-- If classes are refused for depth alone, so is the search for components among them. -/
theorem fault_of_find (hr : r.registry.Plain) {declarations : List NodeId}
    (hall : ∀ id ∈ distinctClasses g declarations, (ofClass r g id).OnlyTooDeep)
    {fault : PassFault} {c' : Context}
    (hfind : (find r g declarations).run .fresh = (.error fault, c')) : fault = .tooDeep := by
  exact Pass.FailsBy.mapM hall _ _ _ (classes_of_find_error hr (.refl _) hfind)

end Components

end PropSchema
