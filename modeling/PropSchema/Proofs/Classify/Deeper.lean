import PropSchema.Proofs.Classify.Growth
/-!
Classification to greater depths. Whatever classification comes to without stopping for depth, be it
a schema or a failure, it comes to at every greater depth, and it leaves the same context.
-/
namespace PropSchema

/-- The second step ends as the first does, unless the first stops for depth. -/
def Pass.Deepens {α : Type} (m m' : Pass α) : Prop :=
  ∀ c : Context, (m.run c).1 ≠ .error .tooDeep → m'.run c = m.run c

namespace Pass.Deepens
variable {α β : Type}

theorem refl (m : Pass α) : m.Deepens m := fun _ _ => rfl

theorem trans {m m' m'' : Pass α} (h : m.Deepens m') (h' : m'.Deepens m'') : m.Deepens m'' := by
  intro c hc
  have hm := h c hc
  rw [h' c (hm ▸ hc), hm]

theorem tooDeep (m : Pass α) : (throw .tooDeep : Pass α).Deepens m := fun _ hc => absurd rfl hc

theorem bind {m m' : Pass α} {f f' : α → Pass β} (hm : m.Deepens m')
    (hf : ∀ a, (f a).Deepens (f' a)) : (m >>= f).Deepens (m' >>= f') := by
  intro c hc
  rcases hr : m.run c with ⟨outcome, c'⟩
  cases outcome with
  | ok a =>
      have hr' : m'.run c = (.ok a, c') := (hm c (by simp [hr])).trans hr
      rw [run_bind_ok hr] at hc ⊢
      rw [run_bind_ok hr']
      exact hf a c' hc
  | error fault =>
      rw [run_bind_error hr] at hc ⊢
      have hne : fault ≠ .tooDeep := by
        rintro rfl
        exact hc rfl
      exact run_bind_error ((hm c (by simpa [hr] using hne)).trans hr) _

theorem within (name : String) {m m' : Pass α} (h : m.Deepens m') :
    (Pass.within name m).Deepens (Pass.within name m') := by
  intro c hc
  rw [run_within] at hc ⊢
  rw [run_within, h _ hc]

/-- To name the owner of a failure makes no failure one of depth. -/
theorem unionMember {m m' : Pass α} (h : m.Deepens m') :
    (Pass.unionMember m).Deepens (Pass.unionMember m') := by
  intro c hc
  rcases hr : m.run c with ⟨outcome, c'⟩
  cases outcome with
  | ok a => rw [run_unionMember_ok hr, run_unionMember_ok ((h c (by simp [hr])).trans hr)]
  | error fault =>
      rw [run_unionMember_error hr] at hc
      have hne : fault ≠ .tooDeep := by
        rintro rfl
        exact hc rfl
      have hr' : m'.run c = (.error fault, c') := (h c (by simpa [hr] using hne)).trans hr
      rw [run_unionMember_error hr, run_unionMember_error hr']

theorem congruence : Congruence Pass.Deepens :=
  ⟨fun a => refl (pure a), bind, fun name _ _ => within name, unionMember⟩

theorem mapM {f f' : α → Pass β} (hf : ∀ a, (f a).Deepens (f' a)) (as : List α) :
    (as.mapM f).Deepens (as.mapM f') :=
  congruence.mapM f f' hf as

end Pass.Deepens

namespace Classify
variable {r : Rules} {g : TypeGraph} {depth : Nat}

theorem slotTo_deepens
    (hmember : ∀ p, (memberTo r g depth p).Deepens (memberTo r g (depth + 1) p)) (use : TypeUse) :
    (slotTo r g (depth + 1) use).Deepens (slotTo r g (depth + 2) use) := by
  intro c hc
  rw [slotTo_run] at hc ⊢
  rw [slotTo_run]
  cases hk : c.lookup (use.identity c) with
  | some slot => rfl
  | none =>
      rw [hk] at hc
      have hentry : (entryTo r g depth use c.slots.length).Deepens
          (entryTo r g (depth + 1) use c.slots.length) :=
        .bind (.bind (.refl _) fun _ => .bind (.refl _) fun _ => .mapM hmember _) fun _ => .refl _
      exact hentry _ hc

/-- One step deeper, classification comes to the same. -/
theorem deepensTo (r : Rules) (g : TypeGraph) (depth : Nat) :
    (∀ use, (specTo r g depth use).Deepens (specTo r g (depth + 1) use)) ∧
      (∀ use, (propTypeTo r g depth use).Deepens (propTypeTo r g (depth + 1) use)) ∧
      (∀ use, (slotTo r g depth use).Deepens (slotTo r g (depth + 1) use)) ∧
      ∀ p, (memberTo r g depth p).Deepens (memberTo r g (depth + 1) p) := by
  induction depth with
  | zero =>
      obtain ⟨hspec, hprop, hslot, hmember⟩ := tooDeepTo r g
      simp only [hspec, hprop, hslot, hmember]
      exact ⟨fun _ => .tooDeep _, fun _ => .tooDeep _, fun _ => .tooDeep _, fun _ => .tooDeep _⟩
  | succ depth ih =>
      obtain ⟨hspec, hprop, hslot, hmember⟩ := ih
      exact ⟨specTo_congr Pass.Deepens.congruence rfl hprop,
        propTypeTo_congr Pass.Deepens.congruence (fun _ => .refl _) hspec hslot,
        slotTo_deepens hmember,
        fun p => memberTo_congr Pass.Deepens.congruence hspec fun _ => .refl _⟩

/-- What becomes of a type without stopping for depth becomes of it at every greater depth. -/
theorem specTo_deepens {deeper : Nat} (h : depth ≤ deeper) (use : TypeUse) :
    (specTo r g depth use).Deepens (specTo r g deeper use) := by
  induction h with
  | refl => exact .refl _
  | step _ ih => exact ih.trans ((deepensTo r g _).1 use)

end Classify

end PropSchema
