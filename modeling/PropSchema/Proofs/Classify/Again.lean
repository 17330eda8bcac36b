import PropSchema.Proofs.Classify.Table
/-!
Types that can be read, classified. If the memo has slots for all records that a type leads to, the
type is classified as it reads, however deep it is followed beyond a depth, and nothing is added but
notes. In particular, what has been classified is classified again with the same outcome.
-/
namespace PropSchema

/-- Steps to growing depths that from a depth on come to one outcome and add nothing but notes, where
so much is known. -/
def Pass.Recalls {α : Type} (slots : TypeIdentity → Option Nat) (m : Nat → Pass α) (a : α) : Prop :=
  ∃ depth, ∀ deeper, depth ≤ deeper → ∀ c : Context, Extends slots c.lookup →
    ∃ notes, (m deeper).run c = (.ok a, { c with notes })

namespace Pass.Recalls
variable {α β : Type} {slots : TypeIdentity → Option Nat}

theorem pure (a : α) : Recalls slots (fun _ => (Pure.pure a : Pass α)) a :=
  ⟨0, fun _ _ c _ => ⟨c.notes, rfl⟩⟩

theorem written {text? : Option String} {text : String} (h : text? = some text) :
    Recalls slots (fun _ => Pass.written text?) text := by
  rw [h]
  exact pure text

theorem note (n : Note) : Recalls slots (fun _ => Pass.note n) () :=
  ⟨0, fun _ _ c _ => ⟨n :: c.notes, rfl⟩⟩

theorem bind {m : Nat → Pass α} {f : Nat → α → Pass β} {a : α} {b : β} (hm : Recalls slots m a)
    (hf : Recalls slots (fun d => f d a) b) : Recalls slots (fun d => m d >>= f d) b := by
  obtain ⟨depth, hm⟩ := hm
  obtain ⟨depth', hf⟩ := hf
  refine ⟨max depth depth', fun deeper hd c hc => ?_⟩
  obtain ⟨notes, hr⟩ := hm deeper (by omega) c hc
  obtain ⟨notes', hr'⟩ := hf deeper (by omega) { c with notes } hc
  exact ⟨notes', (run_bind_ok hr _).trans hr'⟩

theorem mapM {f : Nat → α → Pass β} {as : List α} {bs : List β}
    (h : List.Forall₂ (fun a b => Recalls slots (fun d => f d a) b) as bs) :
    Recalls slots (fun d => as.mapM (f d)) bs := by
  induction h with
  | nil => exact pure []
  | cons ha _ ih =>
      simp only [List.mapM_cons]
      exact ha.bind (ih.bind (pure _))

theorem within (name : String) {m : Nat → Pass α} {a : α} (h : Recalls slots m a) :
    Recalls slots (fun d => Pass.within name (m d)) a := by
  obtain ⟨depth, h⟩ := h
  refine ⟨depth, fun deeper hd c hc => ?_⟩
  obtain ⟨notes, hr⟩ := h deeper hd { c with owners := name :: c.owners } hc
  exact ⟨notes, by rw [run_within, hr]; rfl⟩

theorem unionMember {m : Nat → Pass α} {a : α} (h : Recalls slots m a) :
    Recalls slots (fun d => Pass.unionMember (m d)) a := by
  obtain ⟨depth, h⟩ := h
  refine ⟨depth, fun deeper hd c hc => ?_⟩
  obtain ⟨notes, hr⟩ := h deeper hd c hc
  exact ⟨notes, run_unionMember_ok hr⟩

/-- One step more than what is recalled. -/
theorem succ {m m' : Nat → Pass α} {a : α} (hsucc : ∀ d, m (d + 1) = m' d)
    (h : Recalls slots m' a) : Recalls slots m a := by
  obtain ⟨depth, h⟩ := h
  refine ⟨depth + 1, fun deeper hd c hc => ?_⟩
  obtain ⟨d, rfl⟩ := Nat.exists_eq_add_of_le' (Nat.le_of_add_left_le hd)
  rw [hsucc]
  exact h d (Nat.le_of_succ_le_succ hd) c hc

end Pass.Recalls

namespace Classify
variable {r : Rules} {g : TypeGraph} {slots : TypeIdentity → Option Nat}

/-- A record that has a slot is not entered. -/
theorem slotTo_recalls {id : NodeId} {slot : Nat} (h : slots (.node id) = some slot) :
    Pass.Recalls slots (fun d => slotTo r g d (.node id)) slot := by
  refine ⟨1, fun deeper hd c hc => ⟨c.notes, ?_⟩⟩
  obtain ⟨d, rfl⟩ := Nat.exists_eq_add_of_le' hd
  have hl : c.lookup (TypeUse.identity (.node id) c) = some slot := hc _ _ h
  rw [slotTo_run, hl]

/-- What a makeup reads as it is classified as, if the types within it are. -/
theorem makeupTo_recalls {read : TypeUse → Option PropSpec}
    (hread : ∀ use s, read use = some s → Pass.Recalls slots (fun d => specTo r g d use) s)
    {m : Makeup} {t : PropType} (h : makeupBy r g slots read m = some t) :
    Pass.Recalls slots (fun d => makeupTo r g d m) t := by
  have htype (id : NodeId) (t : PropType) (ht : TypeRead read id t) :
      Pass.Recalls slots (fun d => do pure (← specTo r g d (.node id)).propType) t := by
    obtain ⟨s, hs, rfl⟩ := ht
    exact (hread _ s hs).bind (.pure _)
  rw [makeupBy_eq_some_iff] at h
  cases h with
  | plain type => exact .pure _
  | union ho =>
      have hoptions := ho.imp fun id t ht => (htype id t ht).unionMember
      exact (Pass.Recalls.mapM hoptions).bind (.pure _)
  | tuple hts => exact (Pass.Recalls.mapM (hts.imp htype)).bind (.pure _)
  | array hs => exact (hread _ _ hs).bind (.pure _)
  | function ha hresult =>
      have hargs := ha.imp fun (p : String × TypeUse) s => hread (parameterUse g p.2) s
      exact (Pass.Recalls.mapM hargs).bind ((hread _ _ hresult).bind (.pure _))
  | record hs => exact (slotTo_recalls hs).bind (.pure _)
  | partialRecord hs => exact (slotTo_recalls hs).bind (.pure _)
  | unknown id hp hwritten =>
      change Pass.Recalls slots (fun _ => unknownTo r g id) .any
      rw [unknownTo, hp]
      exact (Pass.Recalls.written hwritten).bind ((Pass.Recalls.note _).bind (.pure _))

/-- A type that can be read is classified as what it reads. -/
theorem specTo_recalls {use : TypeUse} {s : PropSpec} (h : reading r g slots use = some s) :
    Pass.Recalls slots (fun d => specTo r g d use) s := by
  refine reading_induction (motive := fun use s => Pass.Recalls slots (fun d => specTo r g d use) s)
    ?_ h
  intro read hread use s hs
  obtain ⟨t, ht, he⟩ := Option.bind_eq_some_iff.mp hs
  cases he
  refine .succ (fun d => specTo_succ r g d use) (.bind ?_ (.pure _))
  cases hk : r.registry.find? (g.symbolOf (g.stripped use)) with
  | some known =>
      rw [hk] at ht
      cases ht
      exact .pure _
  | none =>
      rw [hk] at ht
      exact .succ (fun d => propTypeTo_succ r g d _) (makeupTo_recalls hread ht)

/-- A property that says something is classified as the member that says so. -/
theorem memberTo_recalls {p : Property} {m : MemberSpec} (h : MemberReads r g slots p m) :
    Pass.Recalls slots (fun d => memberTo r g d p) m := by
  obtain ⟨hname, hspec⟩ := h
  obtain ⟨use, hu, hs⟩ := Option.bind_eq_some_iff.mp hspec
  obtain ⟨name, s⟩ := m
  cases hname
  have hmember (d : Nat) : memberTo r g (d + 1) p =
      Pass.within p.name (do pure ⟨p.name, ← specTo r g d use⟩) := by rw [memberTo, hu]
  exact .succ hmember (.within _ ((specTo_recalls hs).bind (.pure _)))

theorem membersTo_recalls {use : TypeUse} {members : List MemberSpec} {title : String} (slot : Nat)
    (htitle : slotTitle g use = some title)
    (h : List.Forall₂ (MemberReads r g slots) (g.propertiesOf use) members) :
    Pass.Recalls slots (fun d => membersTo r g d use slot) members := by
  have hmembers := Pass.Recalls.mapM (h.imp fun _ _ hm => memberTo_recalls hm)
  have hnoted := Pass.Recalls.bind (f := fun d _ => (g.propertiesOf use).mapM (memberTo r g d))
    (.note (.reserved slot title)) hmembers
  exact .bind (f := fun d title => do
    Pass.note (.reserved slot title)
    (g.propertiesOf use).mapM (memberTo r g d)) (.written htitle) hnoted

/-- A record that can be reported and whose properties can be read gets a slot and an entry of their
readings. -/
theorem slotTo_of_members {id : NodeId} {members : List MemberSpec} {title : String} {c : Context}
    (hnew : c.lookup (.node id) = none) (htitle : slotTitle g (.node id) = some title)
    (h : List.Forall₂ (MemberReads r g c.lookup) (g.properties id) members) :
    ∃ depth, ∀ deeper, depth ≤ deeper → ∃ c', (slotTo r g deeper (.node id)).run c =
      (.ok c.slots.length, c') ∧
        c'.slots[c.slots.length]? = some (some ⟨g.declaredName id, members⟩) := by
  have hreserve := Context.extends_reserve hnew
  have hmembers : Pass.Recalls c.lookup
      (fun d => membersTo r g d (.node id) c.slots.length) members :=
    membersTo_recalls _ htitle h
  obtain ⟨depth, hmembers⟩ := hmembers
  refine ⟨depth + 1, fun deeper hd => ?_⟩
  obtain ⟨d, rfl⟩ := Nat.exists_eq_add_of_le' (Nat.le_of_add_left_le hd)
  obtain ⟨notes, hrun⟩ := hmembers d (Nat.le_of_succ_le_succ hd) (c.reserve (.node id)).2
    fun _ _ => hreserve.kept
  have hl : c.lookup (TypeUse.identity (.node id) c) = none := hnew
  have hentry := entryTo_of_ok hrun (by simp [Context.reserve])
  have hslot := slotTo_run r g d (.node id) c
  rw [hl] at hslot
  exact ⟨_, hslot.trans hentry, by simp [Context.reserve, TypeGraph.declaredNameOf]⟩

end Classify

end PropSchema
