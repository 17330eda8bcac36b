import PropSchema.Proofs.Classify.Pass
/-!
Passes side by side. Where each step of one pass succeeds the like step of another does, and what they
return and leave behind stays in relation, the same holds of steps in a row; and where the one stops
for a text that does not exist, so does the other. A relation of contexts may be as loose as this:
the passes have met the same records in the same order, so that their references mean the same,
whatever they have put into the slots.
-/
namespace PropSchema

/-- Contexts are related whatever owners they have and whatever was noted. -/
def Context.Blind (L : Context → Context → Prop) : Prop :=
  ∀ c c' : Context, L c c' → ∀ (owners owners' : List String) (notes notes' : List Note),
    L { c with owners, notes } { c' with owners := owners', notes := notes' }

/-- How a step ends beside another: they succeed with results and contexts in relation, or both need
a text that does not exist. A step that fails for another reason says nothing of the other. -/
inductive Pass.Beside {α β : Type} (L : Context → Context → Prop) (S : α → β → Prop) :
    Except PassFault α × Context → Except PassFault β × Context → Prop
  | returned {a : α} {b : β} {d d' : Context} (result : S a b) (after : L d d') :
      Pass.Beside L S (.ok a, d) (.ok b, d')
  | unwritable (d d' : Context) : Pass.Beside L S (.error .unwritable, d) (.error .unwritable, d')
  | failed {fault : PassFault} (other : fault ≠ .unwritable) (d : Context)
      (e : Except PassFault β × Context) : Pass.Beside L S (.error fault, d) e

/-- From contexts in relation, the one step ends beside the other. -/
def Pass.Leads {α β : Type} (L : Context → Context → Prop) (S : α → β → Prop) (m : Pass α)
    (m' : Pass β) : Prop :=
  ∀ c c', L c c' → Pass.Beside L S (m.run c) (m'.run c')

namespace Pass.Leads
variable {α β γ δ : Type} {L : Context → Context → Prop} {S : α → β → Prop} {T : γ → δ → Prop}

/-- Where the one step succeeds, so does the other. -/
theorem ok {m : Pass α} {m' : Pass β} (h : Leads L S m m') {c c' d : Context} {a : α}
    (hc : L c c') (hrun : m.run c = (.ok a, d)) :
    ∃ b d', m'.run c' = (.ok b, d') ∧ S a b ∧ L d d' := by
  have hend := h c c' hc
  rw [hrun] at hend
  rcases hm' : m'.run c' with ⟨outcome, d'⟩
  rw [hm'] at hend
  cases hend with
  | returned result after => exact ⟨_, d', rfl, result, after⟩

theorem pure {a : α} {b : β} (h : S a b) : Leads L S (Pure.pure a) (Pure.pure b) :=
  fun _ _ hc => .returned h hc

theorem throw {fault : PassFault} (h : fault ≠ .unwritable) (m' : Pass β) :
    Leads L S (throw fault) m' := fun _ _ _ => .failed h _ _

theorem note (hL : Context.Blind L) (n n' : Note) : Leads L Eq (Pass.note n) (Pass.note n') :=
  fun c c' hc => .returned rfl (hL c c' hc _ _ _ _)

/-- Texts that exist for both or for neither. -/
theorem written {text? text'? : Option String} (h : text?.isSome = text'?.isSome) :
    Leads L (fun _ _ => True) (Pass.written text?) (Pass.written text'?) := by
  cases text? <;> cases text'? <;> cases h
  · exact fun _ _ _ => .unwritable _ _
  · exact pure trivial

theorem imp {S' : α → β → Prop} {m : Pass α} {m' : Pass β} (hS : ∀ a b, S a b → S' a b)
    (h : Leads L S m m') : Leads L S' m m' := by
  intro c c' hc
  have hend := h c c' hc
  generalize m.run c = e at hend ⊢
  generalize m'.run c' = e' at hend ⊢
  cases hend with
  | returned result after => exact .returned (hS _ _ result) after
  | unwritable => exact .unwritable _ _
  | failed other => exact .failed other _ _

theorem refl (m : Pass α) : Leads Eq Eq m m := by
  intro c c' hc
  cases hc
  rcases m.run c with ⟨outcome, d⟩
  cases outcome with
  | ok a => exact .returned rfl rfl
  | error fault =>
      by_cases hfault : fault = .unwritable
      · cases hfault
        exact .unwritable d d
      · exact .failed hfault _ _

theorem trans {m : Pass α} {m' : Pass β} {m'' : Pass γ} {S' : β → γ → Prop} (h : Leads L S m m')
    (h' : Leads Eq S' m' m'') : Leads L (fun a c => ∃ b, S a b ∧ S' b c) m m'' := by
  intro c c' hc
  have hend := h c c' hc
  have hend' := h' c' c' rfl
  generalize m.run c = e at hend ⊢
  generalize m'.run c' = e' at hend hend'
  generalize m''.run c' = e'' at hend' ⊢
  cases hend with
  | returned result after =>
      cases hend' with
      | returned result' after' => exact .returned ⟨_, result, result'⟩ (after' ▸ after)
  | unwritable =>
      cases hend' with
      | unwritable => exact .unwritable _ _
      | failed other => exact absurd rfl other
  | failed other => exact .failed other _ _

theorem bind {m : Pass α} {m' : Pass β} {f : α → Pass γ} {f' : β → Pass δ} (hm : Leads L S m m')
    (hf : ∀ a b, S a b → Leads L T (f a) (f' b)) : Leads L T (m >>= f) (m' >>= f') := by
  intro c c' hc
  have hend := hm c c' hc
  rw [run_bind, run_bind]
  generalize m.run c = e at hend ⊢
  generalize m'.run c' = e' at hend ⊢
  cases hend with
  | returned result after => exact hf _ _ result _ _ after
  | unwritable => exact .unwritable _ _
  | failed other => exact .failed other _ _

theorem mapM {f : α → Pass γ} {f' : β → Pass δ} {as : List α} {bs : List β}
    (hs : List.Forall₂ S as bs) (hf : ∀ a b, S a b → Leads L T (f a) (f' b)) :
    Leads L (List.Forall₂ T) (as.mapM f) (bs.mapM f') := by
  induction hs with
  | nil => exact pure .nil
  | cons hab _ ih =>
      rw [List.mapM_cons, List.mapM_cons]
      exact (hf _ _ hab).bind fun c d hcd => ih.bind fun cs ds hcds => pure (.cons hcd hcds)

theorem mapM_same {f : α → Pass γ} {f' : α → Pass δ} (hf : ∀ a, Leads L T (f a) (f' a))
    (as : List α) : Leads L (List.Forall₂ T) (as.mapM f) (as.mapM f') := by
  refine mapM (S := Eq) (List.forall₂_same.mpr fun _ _ => rfl) fun a b hab => ?_
  cases hab
  exact hf a

theorem within (hL : Context.Blind L) (name : String) {m : Pass α} {m' : Pass β}
    (h : Leads L S m m') : Leads L S (Pass.within name m) (Pass.within name m') := by
  intro c c' hc
  have hend := h _ _ (hL c c' hc (name :: c.owners) (name :: c'.owners) c.notes c'.notes)
  rw [run_within, run_within]
  generalize m.run _ = e at hend ⊢
  generalize m'.run _ = e' at hend ⊢
  cases hend with
  | returned result after => exact .returned result (hL _ _ after _ _ _ _)
  | unwritable => exact .unwritable _ _
  | failed other => exact .failed other _ _

theorem unionMember {m : Pass α} {m' : Pass β} (h : Leads L S m m') :
    Leads L S (Pass.unionMember m) (Pass.unionMember m') := by
  intro c c' hc
  have hend := h c c' hc
  rcases hm : m.run c with ⟨outcome, d⟩
  rcases hm' : m'.run c' with ⟨outcome', d'⟩
  rw [hm, hm'] at hend
  cases hend with
  | returned result after =>
      rw [run_unionMember_ok hm, run_unionMember_ok hm']
      exact .returned result after
  | unwritable =>
      rw [run_unionMember_error hm, run_unionMember_error hm']
      exact .unwritable _ _
  | failed other =>
      rw [run_unionMember_error hm]
      exact .failed (fun h => other (PassFault.IsLimit.eq_of_inUnion (.inr rfl) h)) _ _

theorem patch {slot : Nat} {record record' : RecordSpec}
    (h : ∀ {c c' d}, L c c' → c.patch slot record = .ok d →
      ∃ d', c'.patch slot record' = .ok d' ∧ L d d') :
    Leads L Eq (Pass.patch slot record) (Pass.patch slot record') := by
  intro c c' hc
  cases hp : c.patch slot record with
  | error fault =>
      rw [run_patch_error hp]
      exact .failed (fun h => not_isLimit_of_patch hp (.inr h)) _ _
  | ok e =>
      obtain ⟨d', hd', hde⟩ := h hc hp
      rw [run_patch_ok hp, run_patch_ok hd']
      exact .returned rfl hde

end Pass.Leads

/-- Contexts of passes that have met the same records and filled the same slots. What was put into the
slots may differ. -/
structure Context.Level (c c' : Context) : Prop where
  memo : c.memo = c'.memo
  filled : c.slots.map Option.isSome = c'.slots.map Option.isSome

namespace Context.Level
variable {c c' : Context}

theorem refl (c : Context) : c.Level c := ⟨rfl, rfl⟩

theorem blind : Blind Level := fun _ _ h _ _ _ _ => ⟨h.memo, h.filled⟩

theorem length_eq (h : c.Level c') : c.slots.length = c'.slots.length := by
  simpa using congrArg List.length h.filled

theorem lookup_eq (h : c.Level c') : c.lookup = c'.lookup := by
  funext identity
  rw [lookup, lookup, h.memo]

theorem reserve (h : c.Level c') (identity : TypeIdentity) :
    (c.reserve identity).2.Level (c'.reserve identity).2 := by
  constructor
  · rw [Context.reserve, Context.reserve, h.memo, h.length_eq]
  · rw [Context.reserve, Context.reserve, List.map_append, List.map_append, h.filled]

/-- A slot that waits for its record waits for it in both contexts. -/
theorem empty (h : c.Level c') {i : Nat} (hi : c.slots[i]? = some none) :
    c'.slots[i]? = some none := by
  have heq := congrArg (·[i]?) h.filled
  simp only [List.getElem?_map, hi, Option.map_some, Option.isSome_none] at heq
  obtain ⟨slot, hslot, hsome⟩ := Option.map_eq_some_iff.mp heq.symm
  cases slot with
  | none => exact hslot
  | some record => cases hsome

/-- Whatever a slot is filled with, it can be filled in both contexts. -/
theorem patch (h : c.Level c') {slot : Nat} {record : RecordSpec} (record' : RecordSpec)
    {d : Context} (hd : c.patch slot record = .ok d) :
    ∃ d', c'.patch slot record' = .ok d' ∧ d.Level d' := by
  have hplace : c'.place? slot = c.place? slot := by rw [place?, place?, h.length_eq]
  unfold Context.patch at hd ⊢
  rw [hplace]
  cases hp : c.place? slot with
  | none =>
      rw [hp] at hd
      cases hd
  | some i =>
      rw [hp] at hd
      dsimp only at hd ⊢
      split at hd
      · next hempty =>
          cases hd
          rw [h.empty hempty]
          refine ⟨_, rfl, h.memo, ?_⟩
          rw [List.map_set, List.map_set, h.filled]
          rfl
      · cases hd

end Context.Level

end PropSchema
