import Mathlib.Order.Filter.AtTopBot.Basic
import PropSchema.Proofs.TypeGraph.Likeness
import PropSchema.Proofs.TypeScript.Alike
import PropSchema.Proofs.TypeScript.Nodes
/-!
Two resolutions side by side. A link pairs the nodes of their graphs, so that the graphs are alike
and that what has been remembered is the same. It grows as the resolutions go on: a step of the one
is followed by the other if the link can be made to grow along with it.
-/
namespace PropSchema

namespace TypeGraph
variable {g h g' h' : TypeGraph}

theorem OpenedAlike.mono {rel rel' : NodeId → NodeId → Prop} (hg : Grows g g') (hh : Grows h h')
    (hrel : ∀ a b, rel a b → rel' a b) {as bs : List NodeId} (ho : OpenedAlike g h rel as bs) :
    OpenedAlike g' h' rel' as bs := by
  obtain ⟨xs, ys, hx, hy, hxy⟩ := ho
  exact ⟨xs, ys, hg.opens hx, hh.opens hy, hxy.imp hrel⟩

end TypeGraph

theorem TypeForm.Alike.imp {same : Option String → Option String → Prop}
    {opened opened' : List NodeId → List NodeId → Prop} {rel rel' : NodeId → NodeId → Prop}
    (ho : ∀ as bs, opened as bs → opened' as bs) (hrel : ∀ a b, rel a b → rel' a b)
    {x y : TypeForm} (hxy : x.Alike same opened rel y) : x.Alike same opened' rel' y := by
  cases hxy with
  | primitive name => exact .primitive name
  | literal value => exact .literal value
  | union h => exact .union (h.imp hrel)
  | intersection h => exact .intersection (ho _ _ h)
  | array h => exact .array (hrel _ _ h)
  | tuple h => exact .tuple (h.imp hrel)
  | parameter name name' h => exact .parameter name name' (Sequences.optionRel_imp hrel h)
  | function h => exact .function (h.imp hrel)
  | record h => exact .record (h.imp hrel)
  | partialOf h => exact .partialOf (hrel _ _ h)
  | unresolved text text' h => exact .unresolved text text' h
  | classDeclaration name h => exact .classDeclaration name (h.imp hrel)

namespace TypeGraph

open TypeScript
variable {g : TypeGraph}

theorem Grows.push (g : TypeGraph) (form : TypeForm) (location : Option Location) :
    Grows g (g.push form location).2 :=
  ⟨by rw [size_push]; exact Nat.le_succ _, fun hid => by rw [form_push_of_lt hid]⟩

theorem Founded.push (hg : g.Founded) {form : TypeForm}
    (hparts : ∀ part ∈ form.constituents, part < g.size) (location : Option Location) :
    (g.push form location).2.Founded := by
  refine founded_of_constituents fun {a part} hp => ?_
  rw [form_push] at hp
  split at hp
  · next ha => exact ha ▸ hparts part hp
  · exact hg.lt_of_mem_constituents hp

theorem Grows.setForm {id : NodeId} (hid : id < g.size) {form : TypeForm}
    (hform : form.combined = (g.form id).combined) : Grows g (g.setForm id form) := by
  refine ⟨by rw [size_setForm], fun {other} hother => ?_⟩
  rw [form_setForm hid]
  split
  · next he => rw [he, hform]
  · rfl

theorem Founded.setForm (hg : g.Founded) {id : NodeId} (hid : id < g.size) {form : TypeForm}
    (hparts : form.constituents = []) : (g.setForm id form).Founded := by
  refine founded_of_constituents fun {a part} hp => ?_
  rw [form_setForm hid] at hp
  split at hp
  · rw [hparts] at hp
    cases hp
  · exact hg.lt_of_mem_constituents hp

end TypeGraph

namespace TypeGraph.Likeness
variable {same : Option String → Option String → Prop} {g h g' h' : TypeGraph}
  {rel rel' : NodeId → NodeId → Prop}

/-- Graphs that grow stay alike if the pairs that are new or changed are alike. -/
theorem grow (c : Likeness same g h rel) (hg : Grows g g') (hh : Grows h h')
    (hrel : ∀ a b, rel a b → rel' a b)
    (hforms : ∀ a b, rel' a b → rel a b ∧ g'.form a = g.form a ∧ h'.form b = h.form b ∨
      (g'.form a).Alike same (OpenedAlike g' h' rel') rel' (h'.form b))
    (hinj : ∀ {a b a' b'}, rel' a b → rel' a' b' → (a = a' ↔ b = b'))
    (hleft : g'.Founded) (hright : h'.Founded) : Likeness same g' h' rel' where
  forms {a b} hab := by
    obtain ⟨hold, hfa, hfb⟩ | hnew := hforms a b hab
    · rw [hfa, hfb]
      exact (c.forms hold).imp (fun _ _ => OpenedAlike.mono hg hh hrel) hrel
    · exact hnew
  injective := hinj
  shared hid := hrel _ _ (c.shared hid)
  left := hleft
  right := hright

end TypeGraph.Likeness

namespace TypeScript

/-- Keys of one name whose type arguments are paired. -/
def SameKey (rel : NodeId → NodeId → Prop) (key key' : Instance) : Prop :=
  key.1 = key'.1 ∧ List.Forall₂ rel key.2 key'.2

theorem SameKey.mono {rel rel' : NodeId → NodeId → Prop} (hrel : ∀ a b, rel a b → rel' a b)
    {key key' : Instance} (h : SameKey rel key key') : SameKey rel' key key' :=
  ⟨h.1, h.2.imp hrel⟩

/-- What two resolutions have remembered is the same, by a relation of their nodes. -/
structure SameMemory (v : Variation) (r r' : Resolution) (rel : NodeId → NodeId → Prop) :
    Prop where
  instances : List.Forall₂ (fun e e' => SameKey rel e.1 e'.1 ∧ rel e.2 e'.2) r.instances r'.instances
  framework : List.Forall₂ (fun e e' => SameKey rel e.1 e'.1 ∧ rel e.2 e'.2) r.framework r'.framework
  partials : List.Forall₂ (fun e e' => rel e.1 e'.1 ∧ rel e.2 e'.2) r.partials r'.partials
  classes : List.Forall₂ (fun e e' => v.position e.1 e'.1 ∧ rel e.2 e'.2) r.classes r'.classes
  pending : List.Forall₂ (SameKey rel) r.pending r'.pending

theorem SameMemory.mono {v : Variation} {r r' : Resolution} {rel rel' : NodeId → NodeId → Prop}
    (h : SameMemory v r r' rel) (hrel : ∀ a b, rel a b → rel' a b) (graph graph' : TypeGraph) :
    SameMemory v { r with graph } { r' with graph := graph' } rel' :=
  ⟨h.instances.imp fun _ _ he => ⟨he.1.mono hrel, hrel _ _ he.2⟩,
    h.framework.imp fun _ _ he => ⟨he.1.mono hrel, hrel _ _ he.2⟩,
    h.partials.imp fun _ _ he => ⟨hrel _ _ he.1, hrel _ _ he.2⟩,
    h.classes.imp fun _ _ he => ⟨he.1, hrel _ _ he.2⟩,
    h.pending.imp fun _ _ he => he.mono hrel⟩

/-- Two resolutions and a relation of their nodes by which they are alike. -/
structure Link (v : Variation) where
  left : Resolution
  right : Resolution
  rel : NodeId → NodeId → Prop
  likeness : TypeGraph.Likeness v.symbol left.graph right.graph rel
  bounded : ∀ {a b}, rel a b → a < left.graph.size ∧ b < right.graph.size
  sizes : ¬ v.left → left.graph.size ≤ right.graph.size
  remembered : SameMemory v left right rel

namespace Link
variable {v : Variation}

/-- The second link goes on from the first. -/
structure Before (w w' : Link v) : Prop where
  rel : ∀ a b, w.rel a b → w'.rel a b
  left : TypeGraph.Grows w.left.graph w'.left.graph
  right : TypeGraph.Grows w.right.graph w'.right.graph

instance : Preorder (Link v) where
  le := Before
  le_refl w := ⟨fun _ _ => id, .refl _, .refl _⟩
  le_trans _ _ _ h h' := ⟨fun a b hab => h'.rel a b (h.rel a b hab), h.left.trans h'.left,
    h.right.trans h'.right⟩

variable {w w' : Link v}

theorem rel_mono (h : w ≤ w') {a b : NodeId} (hab : w.rel a b) : w'.rel a b := Before.rel h a b hab

theorem rels_mono (h : w ≤ w') {as bs : List NodeId} (hs : List.Forall₂ w.rel as bs) :
    List.Forall₂ w'.rel as bs :=
  hs.imp (Before.rel h)

theorem forall_lt_left {as bs : List NodeId} (hs : List.Forall₂ w.rel as bs) :
    ∀ a ∈ as, a < w.left.graph.size := by
  intro a ha
  obtain ⟨b, -, hab⟩ := Sequences.exists_of_forall₂ hs.flip ha
  exact (w.bounded hab).1

theorem forall_lt_right {as bs : List NodeId} (hs : List.Forall₂ w.rel as bs) :
    ∀ b ∈ bs, b < w.right.graph.size := by
  intro b hb
  obtain ⟨a, -, hab⟩ := Sequences.exists_of_forall₂ hs hb
  exact (w.bounded hab).2

/-- What new nodes that are alike are made of is there. -/
theorem constituents_lt {form form' : TypeForm} (h : form.Alike v.symbol
    (TypeGraph.OpenedAlike w.left.graph w.right.graph w.rel) w.rel form') :
    (∀ part ∈ form.constituents, part < w.left.graph.size) ∧
      ∀ part ∈ form'.constituents, part < w.right.graph.size := by
  cases h with
  | union hs => exact ⟨forall_lt_left hs, forall_lt_right hs⟩
  | intersection hs =>
      obtain ⟨xs, ys, hx, hy, hxy⟩ := hs
      exact ⟨hx.lt_size (forall_lt_left hxy), hy.lt_size (forall_lt_right hxy)⟩
  | partialOf h => exact ⟨forall_lt_left (.cons h .nil), forall_lt_right (.cons h .nil)⟩
  | _ => exact ⟨nofun, nofun⟩

/-- New nodes that are alike are paired. -/
theorem exists_push (w : Link v) {form form' : TypeForm} (location location' : Option Location)
    (h : form.Alike v.symbol (TypeGraph.OpenedAlike w.left.graph w.right.graph w.rel) w.rel form') :
    ∃ w' : Link v, w ≤ w' ∧
      w'.left = { w.left with graph := (w.left.graph.push form location).2 } ∧
      w'.right = { w.right with graph := (w.right.graph.push form' location').2 } ∧
      w'.rel w.left.graph.size w.right.graph.size := by
  have hrel : ∀ a b, w.rel a b →
      w.rel a b ∨ a = w.left.graph.size ∧ b = w.right.graph.size := fun _ _ => .inl
  have hg := TypeGraph.Grows.push w.left.graph form location
  have hh := TypeGraph.Grows.push w.right.graph form' location'
  obtain ⟨hparts, hparts'⟩ := constituents_lt h
  refine ⟨⟨{ w.left with graph := (w.left.graph.push form location).2 },
    { w.right with graph := (w.right.graph.push form' location').2 },
    fun a b => w.rel a b ∨ a = w.left.graph.size ∧ b = w.right.graph.size,
    w.likeness.grow hg hh hrel ?_ ?_ (w.likeness.left.push hparts location)
      (w.likeness.right.push hparts' location'), ?_, ?_, w.remembered.mono hrel _ _⟩,
    ⟨hrel, hg, hh⟩, rfl, rfl, .inr ⟨rfl, rfl⟩⟩
  · rintro a b (hab | ⟨rfl, rfl⟩)
    · have hlt := w.bounded hab
      exact .inl ⟨hab, form_push_of_lt hlt.1 _ _, form_push_of_lt hlt.2 _ _⟩
    · rw [form_push_size, form_push_size]
      exact .inr (h.imp (fun _ _ => TypeGraph.OpenedAlike.mono hg hh hrel) hrel)
  · rintro a b a' b' (hab | ⟨rfl, rfl⟩) (hab' | ⟨rfl, rfl⟩)
    · exact w.likeness.injective hab hab'
    · have hlt := w.bounded hab
      exact iff_of_false (Nat.ne_of_lt hlt.1) (Nat.ne_of_lt hlt.2)
    · have hlt := w.bounded hab'
      exact iff_of_false (Nat.ne_of_gt hlt.1) (Nat.ne_of_gt hlt.2)
    · simp
  · rintro a b (hab | ⟨rfl, rfl⟩)
    · have hlt := w.bounded hab
      exact ⟨Nat.lt_of_lt_of_le hlt.1 hg.size, Nat.lt_of_lt_of_le hlt.2 hh.size⟩
    · rw [size_push, size_push]
      exact ⟨Nat.lt_succ_self _, Nat.lt_succ_self _⟩
  · intro hv
    rw [size_push, size_push]
    exact Nat.succ_le_succ (w.sizes hv)

/-- A node of the first graph that has no counterpart. -/
theorem exists_pushLeft (w : Link v) (hv : v.left) {form : TypeForm} (location : Option Location)
    (hparts : ∀ part ∈ form.constituents, part < w.left.graph.size) :
    ∃ w' : Link v, w ≤ w' ∧
      w'.left = { w.left with graph := (w.left.graph.push form location).2 } ∧
      w'.right = w.right ∧ w'.rel = w.rel := by
  have hg := TypeGraph.Grows.push w.left.graph form location
  have hh := TypeGraph.Grows.refl w.right.graph
  refine ⟨⟨{ w.left with graph := (w.left.graph.push form location).2 }, w.right, w.rel,
      w.likeness.grow hg hh (fun _ _ => id) ?_ w.likeness.injective
      (w.likeness.left.push hparts location) w.likeness.right, ?_, fun h => absurd hv h,
      w.remembered.mono (fun _ _ => id) _ _⟩,
    ⟨fun _ _ => id, hg, hh⟩, rfl, rfl, rfl⟩
  · exact fun a b hab => .inl ⟨hab, form_push_of_lt (w.bounded hab).1 _ _, rfl⟩
  · exact fun {a b} hab => ⟨Nat.lt_of_lt_of_le (w.bounded hab).1 hg.size, (w.bounded hab).2⟩

/-- A node of the second graph that has no counterpart. -/
theorem exists_pushRight (w : Link v) {form : TypeForm} (location : Option Location)
    (hparts : ∀ part ∈ form.constituents, part < w.right.graph.size) :
    ∃ w' : Link v, w ≤ w' ∧ w'.left = w.left ∧
      w'.right = { w.right with graph := (w.right.graph.push form location).2 } ∧
      w'.rel = w.rel := by
  have hg := TypeGraph.Grows.refl w.left.graph
  have hh := TypeGraph.Grows.push w.right.graph form location
  refine ⟨⟨w.left, { w.right with graph := (w.right.graph.push form location).2 }, w.rel,
      w.likeness.grow hg hh (fun _ _ => id) ?_ w.likeness.injective
      w.likeness.left (w.likeness.right.push hparts location), ?_,
      fun hv => Nat.le_trans (w.sizes hv) hh.size, w.remembered.mono (fun _ _ => id) _ _⟩,
    ⟨fun _ _ => id, hg, hh⟩, rfl, rfl, rfl⟩
  · exact fun a b hab => .inl ⟨hab, rfl, form_push_of_lt (w.bounded hab).2 _ _⟩
  · exact fun {a b} hab => ⟨(w.bounded hab).1, Nat.lt_of_lt_of_le (w.bounded hab).2 hh.size⟩

/-- Two nodes that are paired get other forms that are alike. -/
theorem exists_setForm (w : Link v) {a b : NodeId} (hab : w.rel a b) {form form' : TypeForm}
    (h : form.Alike v.symbol (TypeGraph.OpenedAlike w.left.graph w.right.graph w.rel) w.rel form')
    (hparts : form.constituents = []) (hparts' : form'.constituents = [])
    (hform : form.combined = (w.left.graph.form a).combined)
    (hform' : form'.combined = (w.right.graph.form b).combined) :
    ∃ w' : Link v, w ≤ w' ∧ w'.left = { w.left with graph := w.left.graph.setForm a form } ∧
      w'.right = { w.right with graph := w.right.graph.setForm b form' } := by
  obtain ⟨ha, hb⟩ := w.bounded hab
  have hg := TypeGraph.Grows.setForm ha hform
  have hh := TypeGraph.Grows.setForm hb hform'
  refine ⟨⟨{ w.left with graph := w.left.graph.setForm a form },
      { w.right with graph := w.right.graph.setForm b form' }, w.rel,
      w.likeness.grow hg hh (fun _ _ => id) ?_ w.likeness.injective
      (w.likeness.left.setForm ha hparts) (w.likeness.right.setForm hb hparts'), ?_, ?_,
      w.remembered.mono (fun _ _ => id) _ _⟩,
    ⟨fun _ _ => id, hg, hh⟩, rfl, rfl⟩
  · intro a' b' hab'
    have hinj := w.likeness.injective hab' hab
    rw [TypeGraph.form_setForm ha, TypeGraph.form_setForm hb]
    by_cases he : a' = a
    · rw [if_pos he, if_pos (hinj.mp he)]
      exact .inr (h.imp (fun _ _ => TypeGraph.OpenedAlike.mono hg hh fun _ _ => id) fun _ _ => id)
    · rw [if_neg he, if_neg fun hb' => he (hinj.mpr hb')]
      exact .inl ⟨hab', rfl, rfl⟩
  · intro a' b' hab'
    rw [TypeGraph.size_setForm, TypeGraph.size_setForm]
    exact w.bounded hab'
  · intro hv
    rw [TypeGraph.size_setForm, TypeGraph.size_setForm]
    exact w.sizes hv

/-- Two records that are paired change alike. -/
theorem exists_modifyRecord (w : Link v) {a b : NodeId} (hab : w.rel a b)
    {change change' : RecordType → RecordType}
    (h : ∀ {r r'}, RecordType.Rel w.rel r r' → RecordType.Rel w.rel (change r) (change' r')) :
    ∃ w' : Link v, w ≤ w' ∧
      w'.left = { w.left with graph := w.left.graph.modifyRecord a change } ∧
      w'.right = { w.right with graph := w.right.graph.modifyRecord b change' } := by
  have hforms := w.likeness.forms hab
  unfold TypeGraph.modifyRecord
  generalize hfa : w.left.graph.form a = x at hforms ⊢
  generalize hfb : w.right.graph.form b = y at hforms ⊢
  cases hforms with
  | record hr =>
      exact w.exists_setForm hab (.record (h hr)) rfl rfl (by rw [hfa]; rfl) (by rw [hfb]; rfl)
  | _ => exact ⟨w, le_refl w, rfl, rfl⟩

/-- What is remembered beside the graphs changes. -/
theorem exists_remember (w : Link v) {r r' : Resolution} (hr : r.graph = w.left.graph)
    (hr' : r'.graph = w.right.graph) (h : SameMemory v r r' w.rel) :
    ∃ w' : Link v, w ≤ w' ∧ w'.left = r ∧ w'.right = r' ∧ w'.rel = w.rel := by
  refine ⟨⟨r, r', w.rel, ?_, ?_, ?_, h⟩, ⟨fun _ _ => id, ?_, ?_⟩, rfl, rfl, rfl⟩
  · rw [hr, hr']
    exact w.likeness
  · rw [hr, hr']
    exact w.bounded
  · rw [hr, hr']
    exact w.sizes
  · rw [hr]
    exact .refl _
  · rw [hr']
    exact .refl _

end Link

end TypeScript

end PropSchema
