/-!
Functions that need not have a result, given by an equation. If more results within never lead to
another result, the equation has a least solution, and what is passed on from the results within
holds of every result.
-/
namespace PropSchema

/-- One partial function has the results that another has. -/
def Extends {α β : Type} (f g : α → Option β) : Prop := ∀ x y, f x = some y → g x = some y

namespace Extends

theorem refl {α β : Type} (f : α → Option β) : Extends f f := fun _ _ h => h

variable {σ α β : Type}

theorem bind {c d : StateT σ Option α} {f g : α → StateT σ Option β} (hc : Extends c d)
    (hf : ∀ a, Extends (f a) (g a)) : Extends (c >>= f) (d >>= g) := by
  intro s r h
  obtain ⟨p, hp, hr⟩ := Option.bind_eq_some_iff.mp h
  exact Option.bind_eq_some_iff.mpr ⟨p, hc s p hp, hf p.1 p.2 r hr⟩

theorem mapM {f g : α → StateT σ Option β} (hf : ∀ a, Extends (f a) (g a)) (as : List α) :
    Extends (as.mapM f) (as.mapM g) := by
  induction as with
  | nil => exact refl _
  | cons a as ih =>
      rw [List.mapM_cons, List.mapM_cons]
      exact (hf a).bind fun b => ih.bind fun bs => refl _

theorem foldlM {f g : β → α → StateT σ Option β} (hf : ∀ b a, Extends (f b a) (g b a)) (as : List α)
    (b : β) : Extends (as.foldlM f b) (as.foldlM g b) := by
  induction as generalizing b with
  | nil => exact refl _
  | cons a as ih =>
      rw [List.foldlM_cons, List.foldlM_cons]
      exact (hf b a).bind ih

end Extends

variable {α β : Type} {step : (α → Option β) → α → Option β}

/-- The results that an equation has from results that it has. -/
inductive Reached (step : (α → Option β) → α → Option β) : α → β → Prop where
  | intro {f : α → Option β} {a : α} {b : β} (within : ∀ x y, f x = some y → Reached step x y)
      (result : step f a = some b) : Reached step a b

theorem Reached.unique (hmono : ∀ f g, Extends f g → Extends (step f) (step g)) {a : α} {b b' : β}
    (h : Reached step a b) (h' : Reached step a b') : b = b' := by
  induction h generalizing b' with
  | @intro f a b within result ih =>
      cases h' with
      | @intro g _ _ within' result' =>
          -- the results within agree, so there is a function that has both
          have hf : Extends f fun x => (f x).or (g x) := by
            intro x y hx
            exact Option.or_eq_some_iff.mpr (.inl hx)
          have hg : Extends g fun x => (f x).or (g x) := by
            intro x y hx
            rw [Option.or_eq_some_iff]
            cases hfx : f x with
            | none => exact .inr ⟨rfl, hx⟩
            | some z => exact .inl (congrArg some (ih x z hfx (within' x y hx)))
          have hb := hmono _ _ hf a b result
          have hb' := hmono _ _ hg a b' result'
          exact Option.some.inj (hb.symm.trans hb')

open Classical in
/-- The least solution of an equation. -/
noncomputable def least (step : (α → Option β) → α → Option β) (a : α) : Option β :=
  if h : ∃ b, Reached step a b then some h.choose else none

section
variable (hmono : ∀ f g, Extends f g → Extends (step f) (step g))
include hmono

theorem least_eq_some_iff {a : α} {b : β} : least step a = some b ↔ Reached step a b := by
  unfold least
  constructor
  · intro h
    obtain ⟨hex, hb⟩ := Option.dite_none_right_eq_some.mp h
    exact Option.some.inj hb ▸ hex.choose_spec
  · intro h
    rw [dif_pos ⟨b, h⟩]
    exact congrArg some (Reached.unique hmono (Exists.choose_spec _) h)

/-- The least solution is one. -/
theorem least_eq (a : α) : least step a = step (least step) a := by
  refine Option.ext fun b => ?_
  rw [least_eq_some_iff hmono]
  constructor
  · rintro ⟨within, result⟩
    refine hmono _ _ (fun x y hx => ?_) a b result
    exact (least_eq_some_iff hmono).mpr (within x y hx)
  · intro h
    exact .intro (fun x y hx => (least_eq_some_iff hmono).mp hx) h

theorem least_induction {motive : α → β → Prop}
    (hstep : ∀ f, (∀ x y, f x = some y → motive x y) → ∀ a b, step f a = some b → motive a b)
    {a : α} {b : β} (h : least step a = some b) : motive a b := by
  replace h := (least_eq_some_iff hmono).mp h
  induction h with
  | intro within result ih => exact hstep _ ih _ _ result

end

end PropSchema
