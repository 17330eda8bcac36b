import PropSchema.Proofs.TypeScript.Labelled
/-!
Resolution in step with labels. A step of resolution tracks a step of labelling if the labelling has
a result whenever the resolution has one, the new nodes get the new labels, and everything that is
remembered stays in agreement.
-/
namespace PropSchema.TypeScript

open Resolve

/--
A step of resolution in the course of a text goes as its labels say. What is open afterwards may
depend on what was labelled.
-/
def Tracks (sc : RootedScope) (sites : Nat → Option (ClassSite × String)) (owner : Owner) (o : Opens)
    {α β : Type} (labels : List Label) (m : Resolve α) (e : Numbering β) (post : β → Opens)
    (R : List Label → α → β → Prop) : Prop :=
  ∀ count r a r', Labelled sc sites (o.within owner count) r labels → m r = some (a, r') →
    ∃ b count' labels', e count = some (b, count') ∧ labels <+: labels' ∧
      Labelled sc sites ((post b).within owner count') r' labels' ∧ R labels' a b

/-- A step that looks at the resolution first. -/
theorem get_bind {α : Type} (f : Resolution → Resolve α) (r : Resolution) :
    (get >>= f) r = f r r := rfl

theorem modifyRecord_bind {α : Type} (id : NodeId) (change : RecordType → RecordType)
    (f : PUnit → Resolve α) (r : Resolution) :
    (modifyRecord id change >>= f) r =
      f ⟨⟩ { r with graph := r.graph.modifyRecord id change } := rfl

/-- An instance that is known is not made again. -/
theorem declaredType_of_known {sc : Scope} {resolve : Resolver} {key : Instance} {r : Resolution}
    {id : NodeId} (h : r.instances.lookup key = some id) (named : Named) :
    sc.declaredType resolve key named r = some (id, r) := by
  rw [Scope.declaredType, get_bind, h]
  rfl

/-- A member with a type is resolved as its type is. -/
theorem Scope.property_some (sc : Scope) (resolve : Resolver) (bindings : Bindings) (name : String)
    (type : TypeExpr) (optional : Bool) (place : Place) :
    sc.property resolve bindings name (some type) optional place =
      resolve bindings type >>= fun id =>
        pure ⟨name, some id, optional, some (sc.location place)⟩ := by
  simp [property]

/-- A union of one leaf is the leaf. -/
theorem unionOf_run (members : List NodeId) (location : Option Location) (r : Resolution) :
    unionOf members location r = match r.graph.leaves members with
      | [leaf] => some (leaf, r)
      | leaves => push (.union leaves) location r := by
  have hgraph : unionOf members location r =
      some ((r.graph.unionOf members location).1,
        { r with graph := (r.graph.unionOf members location).2 }) := rfl
  rw [hgraph]
  unfold TypeGraph.unionOf
  obtain _ | ⟨leaf, _ | ⟨other, more⟩⟩ := r.graph.leaves members <;> rfl

theorem partialType_run (target : NodeId) (location : Option Location) (r : Resolution) :
    partialType target location r = match r.partials.lookup target with
      | some id => some (id, r)
      | none => some (r.graph.size, { r with
          graph := (r.graph.push (.partialOf target) location).2
          partials := (target, r.graph.size) :: r.partials }) := by
  rw [partialType, get_bind]
  cases r.partials.lookup target <;> rfl

namespace Tracks
variable {sc : RootedScope} {sites : Nat → Option (ClassSite × String)} {owner : Owner} {o : Opens}
  {α β γ δ ι : Type} {labels : List Label}

theorem pure {R : List Label → α → β → Prop} {a : α} {b : β} (hR : R labels a b) :
    Tracks sc sites owner o labels (pure a) (pure b) (fun _ => o) R := by
  intro count r a' r' h hm
  cases hm
  exact ⟨b, count, labels, rfl, List.prefix_refl _, h, hR⟩

theorem bind {m : Resolve α} {e : Numbering β} {post : β → Opens} {R : List Label → α → β → Prop}
    {f : α → Resolve γ} {g : β → Numbering δ} {post' : δ → Opens}
    {T : List Label → γ → δ → Prop} (h : Tracks sc sites owner o labels m e post R)
    (hnext : ∀ labels' a b, labels <+: labels' → R labels' a b →
      Tracks sc sites owner (post b) labels' (f a) (g b) post' T) :
    Tracks sc sites owner o labels (m >>= f) (e >>= g) post' T := by
  intro count r c r' hl hm
  obtain ⟨⟨a, r₁⟩, hm₁, hm₂⟩ := Option.bind_eq_some_iff.mp hm
  obtain ⟨b, count₁, labels₁, he₁, hpre₁, hl₁, hR⟩ := h count r a r₁ hl hm₁
  obtain ⟨d, count₂, labels₂, he₂, hpre₂, hl₂, hT⟩ := hnext labels₁ a b hpre₁ hR count₁ r₁ c r' hl₁ hm₂
  refine ⟨d, count₂, labels₂, ?_, hpre₁.trans hpre₂, hl₂, hT⟩
  exact Option.bind_eq_some_iff.mpr ⟨(b, count₁), he₁, he₂⟩

theorem imp {m : Resolve α} {e : Numbering β} {post : β → Opens} {R T : List Label → α → β → Prop}
    (h : Tracks sc sites owner o labels m e post R)
    (himp : ∀ labels' a b, labels <+: labels' → R labels' a b → T labels' a b) :
    Tracks sc sites owner o labels m e post T := by
  intro count r a r' hl hm
  obtain ⟨b, count', labels', he, hpre, hl', hR⟩ := h count r a r' hl hm
  exact ⟨b, count', labels', he, hpre, hl', himp labels' a b hpre hR⟩

/-- A step that changes a result and nothing else. -/
theorem map {m : Resolve α} {e : Numbering β} {R : List Label → α → β → Prop} {f : α → γ}
    {g : β → δ} {T : List Label → γ → δ → Prop}
    (h : Tracks sc sites owner o labels m e (fun _ => o) R)
    (himp : ∀ labels' a b, labels <+: labels' → R labels' a b → T labels' (f a) (g b)) :
    Tracks sc sites owner o labels (m >>= fun a => Pure.pure (f a)) (e >>= fun b => Pure.pure (g b))
      (fun _ => o) T :=
  h.bind fun labels' a b hpre hR => pure (himp labels' a b hpre hR)

/-- A step after which only the resolution has a result to change. -/
theorem map_left {m : Resolve α} {e : Numbering β} {post : β → Opens}
    {R : List Label → α → β → Prop} {f : α → γ} {T : List Label → γ → β → Prop}
    (h : Tracks sc sites owner o labels m e post R)
    (himp : ∀ labels' a b, R labels' a b → T labels' (f a) b) :
    Tracks sc sites owner o labels (m >>= fun a => Pure.pure (f a)) e post T := by
  intro count r c r' hl hm
  obtain ⟨⟨a, r₁⟩, hm, he⟩ := Option.bind_eq_some_iff.mp hm
  cases he
  obtain ⟨b, count', labels', he, hpre, hl', hR⟩ := h count r a _ hl hm
  exact ⟨b, count', labels', he, hpre, hl', himp labels' a b hR⟩

/-- A step with a label that is known before. -/
theorem bind_of_pure {m : Resolve α} {b : β} {post : β → Opens} {R : List Label → α → β → Prop}
    {f : α → Resolve γ} {e : Numbering δ} {post' : δ → Opens} {T : List Label → γ → δ → Prop}
    (h : Tracks sc sites owner o labels m (Pure.pure b) post R)
    (hnext : ∀ labels' a, labels <+: labels' → R labels' a b →
      Tracks sc sites owner (post b) labels' (f a) e post' T) :
    Tracks sc sites owner o labels (m >>= f) e post' T := by
  intro count r c r' hl hm
  obtain ⟨⟨a, r₁⟩, hm₁, hm₂⟩ := Option.bind_eq_some_iff.mp hm
  obtain ⟨b', count₁, labels₁, he₁, hpre₁, hl₁, hR⟩ := h count r a r₁ hl hm₁
  cases he₁
  obtain ⟨d, count₂, labels₂, he₂, hpre₂, hl₂, hT⟩ :=
    hnext labels₁ a hpre₁ hR count r₁ c r' hl₁ hm₂
  exact ⟨d, count₂, labels₂, he₂, hpre₁.trans hpre₂, hl₂, hT⟩

/-- A step that looks at the resolution first. -/
theorem of_get {f : Resolution → Resolve α} {e : Numbering β} {post : β → Opens}
    {R : List Label → α → β → Prop}
    (h : ∀ count r, Labelled sc sites (o.within owner count) r labels →
      Tracks sc sites owner o labels (f r) e post R) :
    Tracks sc sites owner o labels (get >>= f) e post R :=
  fun count r a r' hl hm => h count r hl count r a r' hl hm

/-- What a step is labelled is what its labelling gives. -/
theorem of_result {m : Resolve α} {e : Numbering β} {post : β → Opens}
    {R : List Label → α → β → Prop} (h : Tracks sc sites owner o labels m e post R) :
    Tracks sc sites owner o labels m e post
      fun labels' a b => R labels' a b ∧ ∃ count count', e count = some (b, count') := by
  intro count r a r' hl hm
  obtain ⟨b, count', labels', he, hpre, hl', hR⟩ := h count r a r' hl hm
  exact ⟨b, count', labels', he, hpre, hl', hR, count, count', he⟩

theorem mapM {R : List Label → α → β → Prop} {f : ι → Resolve α} {g : ι → Numbering β}
    (hmono : ∀ {labels labels' a b}, labels <+: labels' → R labels a b → R labels' a b)
    {xs : List ι} (h : ∀ x ∈ xs, ∀ labels', labels <+: labels' →
      Tracks sc sites owner o labels' (f x) (g x) (fun _ => o) R) :
    Tracks sc sites owner o labels (xs.mapM f) (xs.mapM g) (fun _ => o)
      fun labels' as bs => List.Forall₂ (R labels') as bs := by
  induction xs generalizing labels with
  | nil => exact pure .nil
  | cons x xs ih =>
      rw [List.mapM_cons, List.mapM_cons]
      rw [List.forall_mem_cons] at h
      refine (h.1 labels (List.prefix_refl _)).bind fun labels₁ a b hpre₁ hR => ?_
      have hrest := ih fun y hy labels' hpre => h.2 y hy labels' (hpre₁.trans hpre)
      exact hrest.map fun labels₂ as bs hpre₂ hRs => .cons (hmono hpre₂ hR) hRs

/-- A new node of a form that leads to labelled nodes. -/
theorem make {form : TypeForm} {lform : TypeForm Label} (hrel : form.Rel (At labels) lform)
    (hflat : ∀ members, lform = .union members → ∀ m ∈ members, m.parts = [m])
    (location : Option Location) :
    Tracks sc sites owner o labels (push form location) (make owner lform) (fun _ => o) At := by
  intro count r id r' h hm
  cases hm
  refine ⟨_, _, labels ++ [.made owner count lform], rfl, List.prefix_append _ _, ?_, ?_⟩
  · refine h.next rfl rfl hrel ?_ location
    rintro owner index members he
    cases he
    exact hflat members rfl
  · have hlast := At.last labels (.made owner count lform)
    rw [h.size] at hlast
    exact hlast

theorem unionOf {members : List NodeId} {lmembers : List Label}
    (hall : List.Forall₂ (At labels) members lmembers) (location : Option Location) :
    Tracks sc sites owner o labels (unionOf members location) (Label.union owner lmembers)
      (fun _ => o) At := by
  intro count r id r' h hm
  have hleaves := h.nodes.leaves_rel hall
  have hflat := h.nodes.parts_of_mem_leaves hall
  rw [unionOf_run] at hm
  unfold Label.union
  generalize r.graph.leaves members = leaves at hleaves hm
  generalize Label.leaves lmembers = lleaves at hleaves hflat ⊢
  have hmake : ∀ leaves lleaves, List.Forall₂ (At labels) leaves lleaves →
      (∀ l ∈ lleaves, l.parts = [l]) → push (.union leaves) location r = some (id, r') →
      ∃ b count' labels', TypeScript.make owner (.union lleaves) count = some (b, count') ∧
        labels <+: labels' ∧ Labelled sc sites (o.within owner count') r' labels' ∧
        At labels' id b := by
    intro leaves lleaves hleaves hflat hm
    refine make (.union hleaves) ?_ location count r id r' h hm
    rintro members he
    cases he
    exact hflat
  cases hleaves with
  | nil => exact hmake [] [] .nil hflat hm
  | @cons leaf lleaf leaves lleaves ha hrest =>
      cases hrest with
      | nil =>
          cases hm
          exact ⟨lleaf, count, labels, rfl, List.prefix_refl _, h, ha⟩
      | cons ha' hrest => exact hmake _ _ (.cons ha (.cons ha' hrest)) hflat hm

theorem partialType {target : NodeId} {label : Label} (ha : At labels target label)
    (location : Option Location) :
    Tracks sc sites owner o labels (partialType target location) (Pure.pure (.partialOf label))
      (fun _ => o) At := by
  intro count r id r' h hm
  rw [partialType_run] at hm
  split at hm
  · next hl =>
      cases hm
      have hfound := h.tables.partials.found (fun hk hk' => hk.label_eq hk') ha hl
      exact ⟨_, _, labels, rfl, List.prefix_refl _, h, hfound⟩
  · next hl =>
      cases hm
      refine ⟨_, _, labels ++ [.partialOf label], rfl, List.prefix_append _ _,
        h.push_partial ha hl location, ?_⟩
      have hlast := At.last labels (.partialOf label)
      rw [h.size] at hlast
      exact hlast

end Tracks

end PropSchema.TypeScript
