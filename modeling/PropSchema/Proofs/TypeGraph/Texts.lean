import Mathlib.Data.Finset.Card
import Mathlib.Order.Monotone.Basic
import PropSchema.Proofs.TypeGraph.Likeness
import PropSchema.TypeGraph.Render
/-!
Types without a text. A literal with more digits than are written has none, and neither has any type
in whose text it would stand. However far types are written out, beyond the size of the graph the
same ones lack a text, and types of graphs that are alike lack it together.
-/
namespace PropSchema.TypeGraph
variable {g h : TypeGraph} {a b : NodeId} {depth : Nat}

/-- The types whose texts stand in the text of a type. -/
def shown (g : TypeGraph) (id : NodeId) : List NodeId :=
  match g.form id with
  | .union members => members
  | .intersection members => members
  | .array element => [element]
  | .tuple elements => elements
  | .function f => f.parameters.map Parameter.type ++ [f.result]
  | .record r =>
    match r.name.filter fun name => !name.isEmpty with
    | some _ => r.arguments
    | none => []
  | .partialOf target => [target]
  | _ => []

/-- A literal has itself no text. -/
def TooLong (g : TypeGraph) (id : NodeId) : Prop :=
  ∃ value, g.form id = .literal value ∧ value.text = none

theorem isSome_bind {α β : Type} {x : Option α} {f : α → Option β} {b : Bool}
    (hf : ∀ a, (f a).isSome = b) : (x.bind f).isSome = (x.isSome && b) := by
  cases x with
  | none => rfl
  | some a => exact hf a

/-- A type has a text to one step more if it is not too long and all that is shown in it has one. -/
theorem isSome_renderTo_succ_iff : (g.renderTo (depth + 1) a).isSome ↔
    ¬ g.TooLong a ∧ ∀ b ∈ g.shown a, (g.renderTo depth b).isSome := by
  have hadded : ∀ {x : Option String} (f : String → String),
      (x.bind fun inner => some (f inner)).isSome = x.isSome := by
    intro x f
    cases x <;> rfl
  rw [renderTo, shown, TooLong]
  cases g.form a with
  | literal value => simp [Option.isSome_iff_ne_none]
  | union members => simp [Sequences.isSome_mapM_iff]
  | intersection members => simp [Sequences.isSome_mapM_iff]
  | array element => simp [hadded]
  | tuple elements => simp [hadded, Sequences.isSome_mapM_iff]
  | function f =>
      have hresult := fun parameters : List String => hadded (x := g.renderTo depth f.result)
        fun inner => "(" ++ ", ".intercalate parameters ++ ") => " ++ inner
      refine (Bool.eq_iff_iff.mp (isSome_bind hresult)).trans ?_
      rw [Bool.and_eq_true, Sequences.isSome_mapM_iff]
      simp [hadded, or_imp, forall_and]
  | record r =>
      dsimp only
      cases r.name.filter fun name => !name.isEmpty with
      | none =>
          dsimp only
          split <;> simp
      | some name =>
          dsimp only
          split
          · next hempty => simp [List.isEmpty_iff.mp hempty]
          · simp [hadded, Sequences.isSome_mapM_iff]
  | partialOf target => simp [hadded]
  | _ => simp

theorem renderTo_succ_eq_none_iff : g.renderTo (depth + 1) a = none ↔
    g.TooLong a ∨ ∃ b ∈ g.shown a, g.renderTo depth b = none := by
  rw [← Option.not_isSome_iff_eq_none, isSome_renderTo_succ_iff]
  simp only [not_and_or, not_not, not_forall, exists_prop, Option.not_isSome_iff_eq_none]

/-- What lacks a text to some depth lacks it to every greater depth. -/
theorem renderTo_eq_none_of_le {deeper : Nat} (hle : depth ≤ deeper)
    (hnone : g.renderTo depth a = none) : g.renderTo deeper a = none := by
  induction depth generalizing deeper a with
  | zero => cases hnone
  | succ depth ih =>
      cases deeper with
      | zero => exact absurd hle (Nat.not_succ_le_zero depth)
      | succ deeper =>
          rw [renderTo_succ_eq_none_iff] at hnone ⊢
          refine hnone.imp_right fun ⟨b, hb, hnone⟩ => ⟨b, hb, ih ?_ hnone⟩
          exact Nat.le_of_succ_le_succ hle

theorem lt_size_of_renderTo_eq_none (hnone : g.renderTo depth a = none) : a < g.size := by
  by_contra hge
  have hform := form_of_size_le (Nat.le_of_not_lt hge)
  cases depth with
  | zero => cases hnone
  | succ depth =>
      rw [renderTo, hform] at hnone
      cases hnone

/-- The types that lack a text to some depth. -/
def lacking (g : TypeGraph) (depth : Nat) : Finset NodeId :=
  (Finset.range g.size).filter fun id => g.renderTo depth id = none

theorem mem_lacking : a ∈ g.lacking depth ↔ g.renderTo depth a = none := by
  rw [lacking, Finset.mem_filter, Finset.mem_range, and_iff_right_of_imp]
  exact lt_size_of_renderTo_eq_none

theorem lacking_mono {deeper : Nat} (hle : depth ≤ deeper) : g.lacking depth ⊆ g.lacking deeper :=
  fun _ ha => mem_lacking.mpr (renderTo_eq_none_of_le hle (mem_lacking.mp ha))

/-- A type has no text, however far it is written out beyond some depth. -/
def Textless (g : TypeGraph) (id : NodeId) : Prop := ∃ depth, g.renderTo depth id = none

/-- Beyond the size of the graph nothing more is found to lack a text. -/
theorem renderTo_eq_none_iff (hsize : g.size ≤ depth) :
    g.renderTo depth a = none ↔ g.Textless a := by
  refine ⟨fun hnone => ⟨depth, hnone⟩, fun ⟨depth', hnone⟩ => ?_⟩
  have hmono : Monotone fun d => (g.lacking d).card := fun d d' hle =>
    Finset.card_le_card (lacking_mono hle)
  have hbound : ∀ d, (g.lacking d).card ≤ g.size := fun d =>
    (Finset.card_filter_le _ _).trans_eq (Finset.card_range g.size)
  -- once the count stands still, what is shown in a type lacks no more texts than a step before
  have hstill : ∀ d, (g.lacking d).card = (g.lacking (d + 1)).card →
      (g.lacking (d + 1)).card = (g.lacking (d + 2)).card := by
    intro d hcard
    have heq := Finset.eq_of_subset_of_card_le (lacking_mono d.le_succ) hcard.ge
    have hstep : ∀ b, g.renderTo d b = none ↔ g.renderTo (d + 1) b = none := fun b => by
      rw [← mem_lacking, heq, mem_lacking]
    refine congrArg Finset.card (Finset.ext fun b => ?_)
    rw [mem_lacking, mem_lacking, renderTo_succ_eq_none_iff, renderTo_succ_eq_none_iff]
    simp only [hstep]
  have hcard := fun {d : Nat} (hd : g.size ≤ d) =>
    Nat.stabilises_of_monotone hmono hbound hstill hd
  have hall : g.lacking depth = g.lacking (max depth depth') := by
    refine Finset.eq_of_subset_of_card_le (lacking_mono (le_max_left _ _)) (Nat.le_of_eq ?_)
    exact (hcard (hsize.trans (le_max_left _ _))).trans (hcard hsize).symm
  rw [← mem_lacking, hall, mem_lacking]
  exact renderTo_eq_none_of_le (le_max_right _ _) hnone

theorem textless_iff : g.Textless a ↔ g.TooLong a ∨ ∃ b ∈ g.shown a, g.Textless b := by
  rw [← renderTo_eq_none_iff (Nat.le_succ g.size), renderTo_succ_eq_none_iff]
  simp only [renderTo_eq_none_iff (le_refl g.size)]

theorem render_node_eq_none_iff : g.render (.node a) = none ↔ g.Textless a :=
  renderTo_eq_none_iff (Nat.le_succ g.size)

theorem render_union_eq_none_iff {leaves : List NodeId} :
    g.render (.union leaves) = none ↔ ∃ leaf ∈ leaves, g.Textless leaf := by
  rw [render, Option.map_eq_none_iff, ← Option.not_isSome_iff_eq_none, Sequences.isSome_mapM_iff]
  simp only [not_forall, exists_prop, Option.not_isSome_iff_eq_none]
  exact exists_congr fun leaf => and_congr_right' (renderTo_eq_none_iff (Nat.le_succ g.size))

/-- Where a type has no text, some literal is too long. -/
theorem Textless.exists_tooLong (hnone : g.Textless a) : ∃ b, g.TooLong b := by
  obtain ⟨depth, hnone⟩ := hnone
  induction depth generalizing a with
  | zero => cases hnone
  | succ depth ih =>
      obtain hlong | ⟨b, -, hnone⟩ := renderTo_succ_eq_none_iff.mp hnone
      · exact ⟨a, hlong⟩
      · exact ih hnone

/-- Opened intersections lack texts where their members do. -/
theorem Opens.exists_none {as xs : List NodeId} (ho : Opens g as xs) {a : NodeId} (ha : a ∈ as)
    (hnone : g.renderTo depth a = none) : ∃ x ∈ xs, g.renderTo depth x = none := by
  induction ho generalizing a depth with
  | nil => cases ha
  | keep b rest ih =>
      obtain rfl | ha := List.mem_cons.mp ha
      · exact ⟨a, List.mem_cons_self, hnone⟩
      · obtain ⟨x, hx, hnone⟩ := ih ha hnone
        exact ⟨x, List.mem_cons_of_mem _ hx, hnone⟩
  | group form nonempty inner rest ih ih' =>
      obtain rfl | ha := List.mem_cons.mp ha
      · cases depth with
        | zero => cases hnone
        | succ depth =>
            obtain ⟨value, hform, -⟩ | ⟨b, hb, hnone⟩ := renderTo_succ_eq_none_iff.mp hnone
            · cases form.symm.trans hform
            · rw [shown, form] at hb
              obtain ⟨x, hx, hnone⟩ := ih hb hnone
              exact ⟨x, List.mem_append_left _ hx, renderTo_eq_none_of_le depth.le_succ hnone⟩
      · obtain ⟨x, hx, hnone⟩ := ih' ha hnone
        exact ⟨x, List.mem_append_right _ hx, hnone⟩

theorem Opens.exists_textless {as xs : List NodeId} (ho : Opens g as xs) {x : NodeId} (hx : x ∈ xs)
    (hnone : g.Textless x) : ∃ a ∈ as, g.Textless a := by
  induction ho generalizing x with
  | nil => cases hx
  | keep b rest ih =>
      obtain rfl | hx := List.mem_cons.mp hx
      · exact ⟨x, List.mem_cons_self, hnone⟩
      · obtain ⟨a, ha, hnone⟩ := ih hx hnone
        exact ⟨a, List.mem_cons_of_mem _ ha, hnone⟩
  | @group b members ys as xs form nonempty inner rest ih ih' =>
      obtain hx | hx := List.mem_append.mp hx
      · obtain ⟨a, ha, hnone⟩ := ih hx hnone
        refine ⟨b, List.mem_cons_self, textless_iff.mpr (.inr ⟨a, ?_, hnone⟩)⟩
        rw [shown, form]
        exact ha
      · obtain ⟨a, ha, hnone⟩ := ih' hx hnone
        exact ⟨a, List.mem_cons_of_mem _ ha, hnone⟩

/-- Types lack a text together if the same ones are too long and what is shown in them, once
intersections are opened, corresponds. -/
theorem Textless.of_shown {R : NodeId → NodeId → Prop}
    (hR : ∀ a b, R a b → (g.TooLong a → h.TooLong b) ∧ ∃ xs ys,
      Opens g (g.shown a) xs ∧ Opens h (h.shown b) ys ∧ List.Forall₂ R xs ys)
    (hab : R a b) (hnone : g.Textless a) : h.Textless b := by
  obtain ⟨depth, hnone⟩ := hnone
  induction depth generalizing a b with
  | zero => cases hnone
  | succ depth ih =>
      obtain ⟨hlong, xs, ys, hx, hy, hxy⟩ := hR a b hab
      obtain ha | ⟨a', ha', hnone⟩ := renderTo_succ_eq_none_iff.mp hnone
      · exact textless_iff.mpr (.inl (hlong ha))
      · obtain ⟨x, hmem, hnone⟩ := hx.exists_none ha' hnone
        obtain ⟨y, hmem', hxy⟩ := Sequences.exists_of_forall₂ hxy.flip hmem
        exact textless_iff.mpr (.inr (hy.exists_textless hmem' (ih hxy hnone)))

namespace Likeness
variable {same : Option String → Option String → Prop} {rel : NodeId → NodeId → Prop}

theorem shown_rel (c : Likeness same g h rel) (hab : rel a b) :
    (g.TooLong a ↔ h.TooLong b) ∧ ∃ xs ys, Opens g (g.shown a) xs ∧ Opens h (h.shown b) ys ∧
      List.Forall₂ rel xs ys := by
  have hform := c.forms hab
  rw [TooLong, TooLong, shown, shown]
  generalize g.form a = x at hform ⊢
  generalize h.form b = y at hform ⊢
  cases hform with
  | literal value => exact ⟨Iff.rfl, [], [], .nil, .nil, .nil⟩
  | union hs => exact ⟨by simp, _, _, .refl _, .refl _, hs⟩
  | intersection hs => exact ⟨by simp, hs⟩
  | array hr => exact ⟨by simp, _, _, .refl _, .refl _, .cons hr .nil⟩
  | tuple hs => exact ⟨by simp, _, _, .refl _, .refl _, hs⟩
  | function hf =>
      have htypes : List.Forall₂ rel _ _ :=
        List.rel_map (fun _ _ hp => Parameter.Rel.type hp) hf.parameters
      exact ⟨by simp, _, _, .refl _, .refl _, List.rel_append htypes (.cons hf.result .nil)⟩
  | record hr =>
      refine ⟨by simp, _, _, .refl _, .refl _, ?_⟩
      dsimp only
      rw [hr.name]
      split
      · exact hr.arguments
      · exact .nil
  | partialOf hr => exact ⟨by simp, _, _, .refl _, .refl _, .cons hr .nil⟩
  | _ => exact ⟨by simp, [], [], .nil, .nil, .nil⟩

theorem textless_iff (c : Likeness same g h rel) (hab : rel a b) :
    g.Textless a ↔ h.Textless b := by
  constructor
  · refine Textless.of_shown (fun a b hab => ?_) hab
    obtain ⟨hlong, hshown⟩ := c.shown_rel hab
    exact ⟨hlong.mp, hshown⟩
  · refine Textless.of_shown (R := flip rel) (fun b a hab => ?_) hab
    obtain ⟨hlong, xs, ys, hx, hy, hxy⟩ := c.shown_rel hab
    exact ⟨hlong.mpr, ys, xs, hy, hx, hxy.flip⟩

/-- Uses that correspond have a text together. -/
theorem isSome_render_eq (c : Likeness same g h rel) {use use' : TypeUse}
    (hu : TypeUse.Rel rel use use') : (g.render use).isSome = (h.render use').isSome := by
  rw [Bool.eq_iff_iff, ← not_iff_not, Option.not_isSome_iff_eq_none, Option.not_isSome_iff_eq_none]
  cases hu with
  | node hab => rw [render_node_eq_none_iff, render_node_eq_none_iff, c.textless_iff hab]
  | union hs =>
      rw [render_union_eq_none_iff, render_union_eq_none_iff]
      constructor
      · rintro ⟨a, ha, hnone⟩
        obtain ⟨b, hb, hab⟩ := Sequences.exists_of_forall₂ hs.flip ha
        exact ⟨b, hb, (c.textless_iff hab).mp hnone⟩
      · rintro ⟨b, hb, hnone⟩
        obtain ⟨a, ha, hab⟩ := Sequences.exists_of_forall₂ hs hb
        exact ⟨a, ha, (c.textless_iff hab).mpr hnone⟩

end Likeness

end PropSchema.TypeGraph
