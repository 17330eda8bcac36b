import Mathlib.Order.Filter.AtTopBot.Basic
import PropSchema.Proofs.TypeScript.Link
import PropSchema.Proofs.TypeScript.Records
/-!
One resolution follows another. Whatever the first gives, the second gives what is paired with it,
and the link of the two resolutions has grown. The second is a family of steps, one for each depth;
it has to follow at almost all depths, as it may have to go through more parentheses.
-/
namespace PropSchema

namespace Sequences
variable {α β : Type} {R : α → β → Prop}

theorem erase_rel [BEq α] [LawfulBEq α] [BEq β] [LawfulBEq β]
    (hinj : ∀ {a b a' b'}, R a b → R a' b' → (a = a' ↔ b = b')) {as : List α} {bs : List β}
    (h : List.Forall₂ R as bs) {a : α} {b : β} (hab : R a b) :
    List.Forall₂ R (as.erase a) (bs.erase b) := by
  induction h with
  | nil => exact .nil
  | @cons x y _ _ hxy hrest ih =>
      have he : (x == a) = (y == b) := by
        rw [Bool.eq_iff_iff, beq_iff_eq, beq_iff_eq]
        exact hinj hxy hab
      rw [List.erase_cons, List.erase_cons, he]
      split
      · exact hrest
      · exact .cons hxy ih

end Sequences

namespace TypeScript

open Filter Resolve
variable {α β γ δ ι κ : Type} {v : Variation} {l l' : Filter Nat} {w : Link v}

theorem run_unionOf_of_single {r : Resolution} {members : List NodeId} {leaf : NodeId}
    (h : r.graph.leaves members = [leaf]) (location : Option Location) :
    Resolve.unionOf members location r = some (leaf, r) := by
  rw [unionOf_run, h]

theorem run_unionOf_of_ne {r : Resolution} {members : List NodeId}
    (h : ∀ leaf, r.graph.leaves members ≠ [leaf]) (location : Option Location) :
    Resolve.unionOf members location r =
      Resolve.push (.union (r.graph.leaves members)) location r := by
  rw [unionOf_run]
  split
  · next leaf hleaf => exact absurd hleaf (h leaf)
  · rfl

def Follows (l : Filter Nat) (w : Link v) (m : Resolve α) (m' : Nat → Resolve β)
    (Q : Link v → α → β → Prop) : Prop :=
  ∀ a s, m w.left = some (a, s) → ∃ b, ∃ w' : Link v, w ≤ w' ∧ w'.left = s ∧
    (∀ᶠ n in l, m' n w.right = some (b, w'.right)) ∧ Q w' a b

namespace Follows
variable {m : Resolve α} {m' : Nat → Resolve β} {Q Q' : Link v → α → β → Prop}

theorem fail (m' : Nat → Resolve β) (Q : Link v → α → β → Prop) :
    Follows l w (fun _ => none) m' Q := nofun

theorem pure {a : α} {b : β} (h : Q w a b) :
    Follows l w (Pure.pure a) (fun _ => Pure.pure b) Q := by
  rintro a' s ⟨⟩
  exact ⟨b, w, le_refl w, rfl, .of_forall fun _ => rfl, h⟩

theorem bind {k : α → Resolve γ} {k' : Nat → β → Resolve δ} {P : Link v → γ → δ → Prop}
    (h : Follows l w m m' Q)
    (hk : ∀ w', w ≤ w' → ∀ a b, Q w' a b → Follows l w' (k a) (fun n => k' n b) P) :
    Follows l w (m >>= k) (fun n => m' n >>= k' n) P := by
  intro c t hrun
  obtain ⟨⟨a, s⟩, ha, hc⟩ := Option.bind_eq_some_iff.mp hrun
  obtain ⟨b, w', hw, rfl, hm', hQ⟩ := h a s ha
  obtain ⟨d, w'', hw', rfl, hk', hP⟩ := hk w' hw a b hQ c t hc
  refine ⟨d, w'', hw.trans hw', rfl, ?_, hP⟩
  filter_upwards [hm', hk'] with n hn hn'
  exact Option.bind_eq_some_iff.mpr ⟨_, hn, hn'⟩

theorem imp (h : Follows l w m m' Q) (hQ : ∀ w', w ≤ w' → ∀ a b, Q w' a b → Q' w' a b) :
    Follows l w m m' Q' := by
  intro a s hrun
  obtain ⟨b, w', hw, hs, hm', hq⟩ := h a s hrun
  exact ⟨b, w', hw, hs, hm', hQ w' hw a b hq⟩

theorem congr {m₁ : Resolve α} {m₁' : Nat → Resolve β} (h : Follows l w m m' Q)
    (he : m₁ w.left = m w.left) (he' : ∀ᶠ n in l, m₁' n w.right = m' n w.right) :
    Follows l w m₁ m₁' Q := by
  intro a s hrun
  obtain ⟨b, w', hw, hs, hm', hq⟩ := h a s (he ▸ hrun)
  refine ⟨b, w', hw, hs, ?_, hq⟩
  filter_upwards [hm', he'] with n hn hn'
  rw [hn', hn]

theorem comp {f : Nat → Nat} (h : Follows l' w m m' Q) (hf : Tendsto f l l') :
    Follows l w m (fun n => m' (f n)) Q := by
  intro a s hrun
  obtain ⟨b, w', hw, hs, hm', hq⟩ := h a s hrun
  exact ⟨b, w', hw, hs, hf.eventually hm', hq⟩

theorem filter_mono (h : Follows l' w m m' Q) (hl : l ≤ l') : Follows l w m m' Q :=
  h.comp (tendsto_id'.mpr hl)

theorem mapM {R : ι → κ → Prop} {k : ι → Resolve α} {k' : Nat → κ → Resolve β}
    (hQ : ∀ a b, Monotone fun w => Q w a b) {is : List ι} {js : List κ}
    (hs : List.Forall₂ R is js)
    (h : ∀ w', w ≤ w' → ∀ i j, R i j → Follows l w' (k i) (fun n => k' n j) Q) :
    Follows l w (is.mapM k) (fun n => js.mapM (k' n)) fun w => List.Forall₂ (Q w) := by
  induction hs generalizing w with
  | nil => exact pure .nil
  | cons hij _ ih =>
      simp only [List.mapM_cons]
      refine (h w (le_refl w) _ _ hij).bind fun w₁ hw₁ a b hab => ?_
      refine (ih fun w' hw' => h w' (hw₁.trans hw')).bind fun w₂ hw₂ as bs hrest => ?_
      exact pure (.cons (hQ a b hw₂ hab) hrest)

theorem forM {R : ι → κ → Prop} {k : ι → Resolve PUnit} {k' : Nat → κ → Resolve PUnit}
    {is : List ι} {js : List κ} (hs : List.Forall₂ R is js)
    (h : ∀ w', w ≤ w' → ∀ i j, R i j →
      Follows l w' (k i) (fun n => k' n j) fun _ _ _ => True) :
    Follows l w (forM is k) (fun n => forM js (k' n)) fun _ _ _ => True := by
  induction hs generalizing w with
  | nil => exact pure trivial
  | cons hij _ ih =>
      simp only [List.forM_cons]
      exact (h w (le_refl w) _ _ hij).bind fun w₁ hw₁ _ _ _ => ih fun w' hw' => h w' (hw₁.trans hw')

/-- What goes on from the states that the link is at. -/
theorem get_bind {k : Resolution → Resolve α} {k' : Nat → Resolution → Resolve β}
    (h : Follows l w (k w.left) (fun n => k' n w.right) Q) :
    Follows l w (get >>= k) (fun n => get >>= k' n) Q := h

/-- What is remembered beside the graphs changes. -/
theorem modify {change change' : Resolution → Resolution}
    (hgraph : (change w.left).graph = w.left.graph)
    (hgraph' : (change' w.right).graph = w.right.graph)
    (h : SameMemory v (change w.left) (change' w.right) w.rel) :
    Follows l w (modify change) (fun _ => modify change') fun _ _ _ => True := by
  rintro a s ⟨⟩
  obtain ⟨w', hw, hleft, hright, -⟩ := w.exists_remember hgraph hgraph' h
  exact ⟨⟨⟩, w', hw, hleft, .of_forall fun _ => by rw [hright]; rfl, trivial⟩

/-- Nodes that are new are paired, and are of the forms that they are made with. -/
theorem pushed {form form' : TypeForm} (location location' : Option Location)
    (h : form.Alike v.symbol (TypeGraph.OpenedAlike w.left.graph w.right.graph w.rel) w.rel form') :
    Follows l w (Resolve.push form location) (fun _ => Resolve.push form' location')
      fun w' a b => w'.rel a b ∧ w'.left.graph.form a = form ∧ w'.right.graph.form b = form' := by
  rintro a s ⟨⟩
  obtain ⟨w', hw, hleft, hright, hrel⟩ := w.exists_push location location' h
  refine ⟨_, w', hw, hleft, .of_forall fun _ => by rw [hright]; rfl, hrel, ?_, ?_⟩
  · rw [hleft]
    exact form_push_size _ _ _
  · rw [hright]
    exact form_push_size _ _ _

theorem push {form form' : TypeForm} (location location' : Option Location)
    (h : form.Alike v.symbol (TypeGraph.OpenedAlike w.left.graph w.right.graph w.rel) w.rel form') :
    Follows l w (Resolve.push form location) (fun _ => Resolve.push form' location') Link.rel :=
  (pushed location location' h).imp fun _ _ _ _ hab => hab.1

/-- A node that only the first resolution makes. -/
theorem pushLeft (hv : v.left) (form : TypeForm) (location : Option Location)
    (hparts : ∀ part ∈ form.constituents, part < w.left.graph.size) (b : β) :
    Follows l w (Resolve.push form location) (fun _ => Pure.pure b) fun w' a b' =>
      b' = b ∧ a < w'.left.graph.size ∧ w'.left.graph.form a = form := by
  rintro a s ⟨⟩
  obtain ⟨w', hw, hleft, hright, -⟩ := w.exists_pushLeft hv location hparts
  refine ⟨b, w', hw, hleft, .of_forall fun _ => by rw [hright]; rfl, rfl, ?_⟩
  rw [hleft]
  refine ⟨?_, form_push_size _ _ _⟩
  rw [size_push]
  exact Nat.lt_succ_self _

/-- A node that only the second resolution makes. -/
theorem pushRight (form : TypeForm) (location : Option Location)
    (hparts : ∀ part ∈ form.constituents, part < w.right.graph.size) (a : α) :
    Follows l w (Pure.pure a) (fun _ => Resolve.push form location) fun w' a' b =>
      a' = a ∧ b < w'.right.graph.size ∧ w'.right.graph.form b = form := by
  rintro a' s ⟨⟩
  obtain ⟨w', hw, hleft, hright, -⟩ := w.exists_pushRight location hparts
  refine ⟨_, w', hw, hleft, .of_forall fun _ => by rw [hright]; rfl, rfl, ?_⟩
  rw [hright]
  refine ⟨?_, form_push_size _ _ _⟩
  rw [size_push]
  exact Nat.lt_succ_self _

theorem setForm {a b : NodeId} (hab : w.rel a b) {form form' : TypeForm}
    (h : form.Alike v.symbol (TypeGraph.OpenedAlike w.left.graph w.right.graph w.rel) w.rel form')
    (hparts : form.constituents = []) (hparts' : form'.constituents = [])
    (hform : form.combined = (w.left.graph.form a).combined)
    (hform' : form'.combined = (w.right.graph.form b).combined) :
    Follows l w (Resolve.setForm a form) (fun _ => Resolve.setForm b form') fun _ _ _ => True := by
  rintro u s ⟨⟩
  obtain ⟨w', hw, hleft, hright⟩ := w.exists_setForm hab h hparts hparts' hform hform'
  exact ⟨⟨⟩, w', hw, hleft, .of_forall fun _ => by rw [hright]; rfl, trivial⟩

theorem modifyRecord {a b : NodeId} (hab : w.rel a b) {change change' : RecordType → RecordType}
    (h : ∀ {r r'}, RecordType.Rel w.rel r r' → RecordType.Rel w.rel (change r) (change' r')) :
    Follows l w (Resolve.modifyRecord a change) (fun _ => Resolve.modifyRecord b change')
      fun _ _ _ => True := by
  rintro u s ⟨⟩
  obtain ⟨w', hw, hleft, hright⟩ := w.exists_modifyRecord hab h
  exact ⟨⟨⟩, w', hw, hleft, .of_forall fun _ => by rw [hright]; rfl, trivial⟩

theorem addProperties {a b : NodeId} (hab : w.rel a b) {ps qs : List Property}
    (hs : List.Forall₂ (Property.Rel w.rel) ps qs) :
    Follows l w (Resolve.addProperties a ps) (fun _ => Resolve.addProperties b qs)
      fun _ _ _ => True :=
  modifyRecord hab fun hr => withProperties_rel hr hs

theorem addNewProperties {a b : NodeId} (hab : w.rel a b) {ps qs : List Property}
    (hs : List.Forall₂ (Property.Rel w.rel) ps qs) :
    Follows l w (Resolve.addNewProperties a ps) (fun _ => Resolve.addNewProperties b qs)
      fun _ _ _ => True :=
  modifyRecord hab fun hr => withNew_rel hr hs

/-- Unions of leaves that are paired. -/
theorem unionOf {as bs : List NodeId} (location location' : Option Location)
    (h : List.Forall₂ w.rel (w.left.graph.leaves as) (w.right.graph.leaves bs)) :
    Follows l w (Resolve.unionOf as location) (fun _ => Resolve.unionOf bs location') Link.rel := by
  have hpush : Follows l w (Resolve.push (.union (w.left.graph.leaves as)) location)
      (fun _ => Resolve.push (.union (w.right.graph.leaves bs)) location') Link.rel :=
    push location location' (.union h)
  by_cases hone : ∃ leaf, w.left.graph.leaves as = [leaf]
  · obtain ⟨leaf, hleaf⟩ := hone
    rw [hleaf] at h
    obtain ⟨leaf', rest, hab, hnil, hleaf'⟩ := List.forall₂_cons_left_iff.mp h
    rw [List.forall₂_nil_left_iff.mp hnil] at hleaf'
    exact (pure hab).congr (run_unionOf_of_single hleaf location)
      (.of_forall fun _ => run_unionOf_of_single hleaf' location')
  · have hone' : ¬ ∃ leaf, w.right.graph.leaves bs = [leaf] := by
      rintro ⟨leaf', hleaf'⟩
      rw [hleaf'] at h
      obtain ⟨leaf, rest, -, hnil, hleaf⟩ := List.forall₂_cons_right_iff.mp h
      exact hone ⟨leaf, by rw [hleaf, List.forall₂_nil_right_iff.mp hnil]⟩
    exact hpush.congr (run_unionOf_of_ne (not_exists.mp hone) location)
      (.of_forall fun _ => run_unionOf_of_ne (not_exists.mp hone') location')

end Follows

end TypeScript

end PropSchema
