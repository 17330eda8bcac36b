import PropSchema.Proofs.TypeScript.Assembly
import PropSchema.Proofs.TypeScript.Parts
import PropSchema.Proofs.TypeScript.Steps
/-!
Nodes that are known before they are whole. A step of resolution leaves old nodes their forms, and
the node of each interface that becomes known is whole when the step is done. While such a node is
completed it may be copied from, but only by interfaces that its own declaration leads to.
-/
namespace PropSchema.TypeScript

open Resolve

/--
What a step changes: old nodes keep their forms, and an interface that becomes known is of certain
names, is a new node and is whole.
-/
structure Progress (sc : Scope) (P : String → Prop) (r r' : Resolution) : Prop where
  size : r.graph.size ≤ r'.graph.size
  kept : ∀ id < r.graph.size, r'.graph.form id = r.graph.form id
  recalls : r.Recalls r'
  made : ∀ {key id}, (key, id) ∈ r'.instances → (key, id) ∈ r.instances ∨
    ∀ {first more}, sc.find? key.1 = some (.interfaces first more) →
      P key.1 ∧ r.graph.size ≤ id ∧ Assembled sc r' key id first more

namespace Progress
variable {sc : Scope} {P : String → Prop} {r r' r'' : Resolution}

theorem later (h : Progress sc P r r') (name : String) : Later sc name r.graph r'.graph :=
  .of_kept h.size h.kept

theorem onward (h : Progress sc P r r') : Onward r r' := .of_kept h.size h.kept h.recalls

/-- What was whole after a step is whole after the next one. -/
theorem whole (h : Progress sc P r r') {key : Instance} {id : NodeId} {first : InterfaceDecl}
    {more : List InterfaceDecl} (hid : id < r.graph.size)
    (hwhole : Assembled sc r key id first more) : Assembled sc r' key id first more :=
  hwhole.later h.onward (h.later key.1) (h.kept id hid)

/-- Nothing becomes known. -/
theorem of_instances (hsize : r.graph.size ≤ r'.graph.size)
    (hkept : ∀ id < r.graph.size, r'.graph.form id = r.graph.form id)
    (hrecalls : r.Recalls r') (hinstances : r'.instances = r.instances) : Progress sc P r r' :=
  ⟨hsize, hkept, hrecalls, fun hm => .inl (hinstances ▸ hm)⟩

theorem refl : Progress sc P r r := of_instances (Nat.le_refl _) (fun _ _ => rfl) (.refl r) rfl

theorem trans (h : Progress sc P r r') (h' : Progress sc P r' r'') (hknown : r'.Known) :
    Progress sc P r r'' := by
  refine ⟨Nat.le_trans h.size h'.size, ?_, h.recalls.trans h'.recalls, ?_⟩
  · intro id hid
    rw [h'.kept id (Nat.lt_of_lt_of_le hid h.size), h.kept id hid]
  · intro key id hm
    obtain hm | hnew := h'.made hm
    · obtain hold | hnew := h.made hm
      · exact .inl hold
      · -- it was whole after the first step, and its bases only become more
        refine .inr fun hf => ?_
        obtain ⟨hP, hid, hwhole⟩ := hnew hf
        exact ⟨hP, hid, h'.whole (hknown.instances _ hm) hwhole⟩
    · refine .inr fun hf => ?_
      obtain ⟨hP, hid, hwhole⟩ := hnew hf
      exact ⟨hP, Nat.le_trans h.size hid, hwhole⟩

end Progress

variable {sc : Scope} {P : String → Prop} {r r₁ r₂ : Resolution}

section Change
variable {g : TypeGraph} {id : NodeId} {form : TypeForm} {name : String}

/-- One node is changed. -/
theorem Later.setForm (hid : id < g.size)
    (hfields : g.fields id <+: (g.setForm id form).fields id)
    (hnamed : (g.setForm id form).declaredName id = g.declaredName id)
    (hsettled : (g.setForm id form).fields id = g.fields id ∨ sc.LeadsBack g id name) :
    Later sc name g (g.setForm id form) := by
  have hother : ∀ b, b ≠ id → (g.setForm id form).form b = g.form b := by
    intro b hb
    rw [TypeGraph.form_setForm hid, if_neg hb]
  refine ⟨Nat.le_of_eq (TypeGraph.size_setForm g id form).symm, ?_, ?_, ?_⟩
  · intro b _
    by_cases hb : b = id
    · exact hb ▸ hfields
    · exact (TypeGraph.fields_of_form (hother b hb)).symm ▸ List.prefix_refl _
  · intro b _
    by_cases hb : b = id
    · exact hb ▸ hnamed
    · exact TypeGraph.declaredName_of_form (hother b hb)
  · intro b _
    by_cases hb : b = id
    · exact hb ▸ hsettled
    · exact .inl (TypeGraph.fields_of_form (hother b hb))

theorem fields_eq_nil (h : ∀ record, g.form id ≠ .record record) : g.fields id = [] := by
  unfold TypeGraph.fields
  split
  · next record hform => exact absurd hform (h record)
  · rfl

theorem declaredName_eq_none (h : ∀ record, g.form id ≠ .record record) :
    g.declaredName id = none := by
  unfold TypeGraph.declaredName
  split
  · next record hform => exact absurd hform (h record)
  · rfl

theorem Later.setForm_of_not_record (hid : id < g.size)
    (hold : ∀ record, g.form id ≠ .record record) (hnew : ∀ record, form ≠ .record record) :
    Later sc name g (g.setForm id form) := by
  have hnew' : ∀ record, (g.setForm id form).form id ≠ .record record := by
    rw [TypeGraph.form_setForm hid, if_pos rfl]
    exact hnew
  have hfields : (g.setForm id form).fields id = g.fields id := by
    rw [fields_eq_nil hold, fields_eq_nil hnew']
  refine .setForm hid ?_ ?_ (.inl hfields)
  · exact hfields.symm ▸ List.prefix_refl _
  · rw [declaredName_eq_none hold, declaredName_eq_none hnew']

/-- A new node that is no record may be completed at the end of a step. -/
theorem Progress.complete (h : Progress sc P r r₁) (hid : r.graph.size ≤ id)
    (hlt : id < r₁.graph.size) (hc : Completes (r₁.graph.form id) form) :
    Progress sc P r { r₁ with graph := r₁.graph.setForm id form } := by
  have hold : ∀ record, r₁.graph.form id ≠ .record record := by
    generalize r₁.graph.form id = old at hc
    cases hc <;> nofun
  have hnew : ∀ record, form ≠ .record record := by
    generalize r₁.graph.form id = old at hc
    cases hc <;> nofun
  refine ⟨(TypeGraph.size_setForm r₁.graph id form).symm ▸ h.size, ?_,
    h.recalls.trans (.of_eq _ _ _), ?_⟩
  · intro b hb
    have hne : b ≠ id := Nat.ne_of_lt (Nat.lt_of_lt_of_le hb hid)
    exact (TypeGraph.form_setForm hlt form b).trans ((if_neg hne).trans (h.kept b hb))
  · intro key other hm
    obtain hm | hnew' := h.made hm
    · exact .inl hm
    · refine .inr fun hf => ?_
      obtain ⟨hP, hle, hwhole⟩ := hnew' hf
      have hne : other ≠ id := by
        rintro rfl
        obtain ⟨m, -, hrecord, -⟩ := hwhole
        exact hold _ hrecord
      exact ⟨hP, hle, hwhole.later (.setForm hlt (.completed hc))
        (.setForm_of_not_record hlt hold hnew)
        ((TypeGraph.form_setForm hlt form other).trans (if_neg hne))⟩

/-- Progress is made by everything that steps are made of. -/
theorem Progress.relation (sc : Scope) (P : String → Prop) :
    StepRelation sc P (Progress sc P) where
  refl _ := .refl
  trans h h' hknown := h.trans h' hknown
  size h := h.size
  kept h := h.kept
  push {r form location} _ := .of_instances
    ((size_push r.graph form location).symm ▸ Nat.le_succ _)
    (fun _ hid => form_push_of_lt hid form location) (.of_eq _ _ _) rfl
  tables hgraph hinstances hrecalls :=
    .of_instances (hgraph ▸ Nat.le_refl _) (fun _ _ => by rw [hgraph]) hrecalls hinstances
  remember {r key id named} hkey hf hrecord hid := by
    refine ⟨Nat.le_refl _, fun _ _ => rfl, .remember key id, fun {other id'} hm => ?_⟩
    obtain he | hm := List.mem_cons.mp hm
    · cases he
      exact .inr fun hf' => absurd (by cases hf.symm.trans hf'; rfl) hrecord
    · exact .inl hm
  complete h hid hlt hc := h.complete hid hlt hc

end Change

/--
The record of a declared type is under construction since a resolution `r`, as its newest node. The
interfaces that have become known since are whole, and the declaration leads to all of them.
-/
structure Building (sc : Scope) (P : String → Prop) (key : Instance) (r r₁ : Resolution)
    (record : RecordType) : Prop where
  known : r₁.Known
  size : r.graph.size < r₁.graph.size
  kept : ∀ id < r.graph.size, r₁.graph.form id = r.graph.form id
  recalls : r.Recalls r₁
  form : r₁.graph.form r.graph.size = .record record
  name : record.name = some key.1
  made : ∀ {other id}, (other, id) ∈ r₁.instances → (other, id) ∈ r.instances ∨
    (other, id) = (key, r.graph.size) ∨
    ∀ {first more}, sc.find? other.1 = some (.interfaces first more) →
      (P other.1 ∧ sc.LeadsTo key.1 other.1) ∧ r.graph.size < id ∧
        Assembled sc r₁ other id first more

namespace Building
variable {key : Instance} {record : RecordType}

theorem start (hknown : r.Known) (location : Option Location) :
    Building sc P key r { r with
      graph := (r.graph.push (Scope.emptyRecord key.1 key.2) location).2
      instances := (key, r.graph.size) :: r.instances }
      ⟨some key.1, [], some key.1, key.2, []⟩ := by
  have hsize := size_push r.graph (Scope.emptyRecord key.1 key.2) location
  have hknown' := hknown.push (Scope.emptyRecord key.1 key.2) (by nofun) location
  have hlt : r.graph.size < (r.graph.push (Scope.emptyRecord key.1 key.2) location).2.size :=
    hsize ▸ Nat.lt_succ_self _
  refine ⟨⟨hknown'.primitives, hknown'.unions, ?_, hknown'.framework, hknown'.partials,
    hknown'.classes⟩, hlt, fun id hid => form_push_of_lt hid _ _,
    (Resolution.Recalls.of_eq _ _ _).trans (.remember key r.graph.size), form_push_size _ _ _, rfl,
    ?_⟩
  · rw [List.forall_mem_cons]
    exact ⟨hlt, hknown'.instances⟩
  · intro other id hm
    obtain he | hm := List.mem_cons.mp hm
    · exact .inr (.inl he)
    · exact .inl hm

/-- What happens within the declaration makes whole what the declaration leads to. -/
theorem step (h : Building sc P key r r₁ record)
    (hp : Progress sc (fun n => P n ∧ sc.LeadsTo key.1 n) r₁ r₂) (hknown : r₂.Known) :
    Building sc P key r r₂ record := by
  refine ⟨hknown, Nat.lt_of_lt_of_le h.size hp.size, ?_, h.recalls.trans hp.recalls,
    (hp.kept _ h.size).trans h.form, h.name, ?_⟩
  · intro id hid
    exact (hp.kept id (Nat.lt_trans hid h.size)).trans (h.kept id hid)
  · intro other id hm
    obtain hm | hnew := hp.made hm
    · obtain hold | he | hnew := h.made hm
      · exact .inl hold
      · exact .inr (.inl he)
      · refine .inr (.inr fun hf => ?_)
        obtain ⟨hP, hlt, hwhole⟩ := hnew hf
        exact ⟨hP, hlt, hp.whole (h.known.instances _ hm) hwhole⟩
    · refine .inr (.inr fun hf => ?_)
      obtain ⟨hP, hle, hwhole⟩ := hnew hf
      exact ⟨hP, Nat.lt_of_lt_of_le h.size hle, hwhole⟩

theorem modifyRecord_eq (h : Building sc P key r r₁ record) (change : RecordType → RecordType) :
    r₁.graph.modifyRecord r.graph.size change =
      r₁.graph.setForm r.graph.size (.record (change record)) := by
  rw [TypeGraph.modifyRecord, h.form]

section Modify
variable (change : RecordType → RecordType)

/-- More of the record: interfaces that have copied from it lead back to it. -/
theorem later (h : Building sc P key r r₁ record) (hgrown : Grown record (change record))
    {name : String} (hback : sc.LeadsTo key.1 name) :
    Later sc name r₁.graph (r₁.graph.modifyRecord r.graph.size change) := by
  rw [h.modifyRecord_eq]
  have hform : (r₁.graph.setForm r.graph.size (.record (change record))).form r.graph.size =
      .record (change record) := (TypeGraph.form_setForm h.size _ _).trans (if_pos rfl)
  refine .setForm h.size ?_ ?_ (.inr ⟨key.1, ?_, hback⟩)
  · rw [TypeGraph.fields_of_record h.form, TypeGraph.fields_of_record hform]
    exact hgrown.properties
  · rw [TypeGraph.declaredName_of_record h.form, TypeGraph.declaredName_of_record hform]
    exact hgrown.name
  · rw [TypeGraph.declaredName_of_record h.form]
    exact h.name

theorem modify (h : Building sc P key r r₁ record) (hgrown : Grown record (change record)) :
    Building sc P key r { r₁ with graph := r₁.graph.modifyRecord r.graph.size change }
      (change record) := by
  have hlater := fun {name : String} (hback : sc.LeadsTo key.1 name) => h.later change hgrown hback
  rw [h.modifyRecord_eq] at hlater ⊢
  have honward : Onward r₁ { r₁ with
      graph := r₁.graph.setForm r.graph.size (.record (change record)) } :=
    .setForm h.size (h.form ▸ .grown hgrown)
  have hsize := TypeGraph.size_setForm r₁.graph r.graph.size (.record (change record))
  refine ⟨h.known.setForm h.size (by nofun), Nat.lt_of_lt_of_eq h.size hsize.symm, ?_,
    h.recalls.trans honward.recalls, (TypeGraph.form_setForm h.size _ _).trans (if_pos rfl),
    hgrown.name.trans h.name, ?_⟩
  · intro id hid
    exact (TypeGraph.form_setForm h.size _ id).trans
      ((if_neg (Nat.ne_of_lt hid)).trans (h.kept id hid))
  · intro other id hm
    obtain hold | he | hnew := h.made hm
    · exact .inl hold
    · exact .inr (.inl he)
    · -- it may have copied from the record, and the declaration leads to it
      refine .inr (.inr fun hf => ?_)
      obtain ⟨hP, hlt, hwhole⟩ := hnew hf
      exact ⟨hP, hlt, hwhole.later honward (hlater hP.2)
        ((TypeGraph.form_setForm h.size _ id).trans (if_neg (Nat.ne_of_gt hlt)))⟩

end Modify

theorem grow {α : Type} {m : Resolve α} {Q : Nat → α → Prop} {a : α}
    (h : Building sc P key r r₁ record)
    (hm : Steps (Progress sc fun n => P n ∧ sc.LeadsTo key.1 n) r.graph.size m Q)
    (hrun : m r₁ = some (a, r₂)) :
    Building sc P key r r₂ record ∧ Later sc key.1 r₁.graph r₂.graph ∧ Q r₂.graph.size a := by
  obtain ⟨hp, hknown, hQ⟩ := hm r₁ a r₂ (Nat.le_of_lt h.size) h.known hrun
  exact ⟨h.step hp hknown, hp.later key.1, hQ⟩

/-- What has been made once the record is done. -/
theorem progress (h : Building sc P key r r₁ record) (hP : P key.1)
    (hwhole : ∀ {first more}, sc.find? key.1 = some (.interfaces first more) →
      Assembled sc r₁ key r.graph.size first more) : Progress sc P r r₁ := by
  refine ⟨Nat.le_of_lt h.size, h.kept, h.recalls, ?_⟩
  intro other id hm
  obtain hold | he | hnew := h.made hm
  · exact .inl hold
  · cases he
    exact .inr fun hf => ⟨hP, Nat.le_refl _, hwhole hf⟩
  · refine .inr fun hf => ?_
    obtain ⟨hP', hlt, hwhole⟩ := hnew hf
    exact ⟨hP'.1, Nat.le_of_lt hlt, hwhole⟩

end Building

end PropSchema.TypeScript
