import PropSchema.Proofs.TypeGraph.Founded
/-!
Intersections within intersections. Among the members of an intersection, one that is itself an
intersection may be opened, that is replaced by its own members where it stands: the whole is a
record as before, with the same properties in the same order. Unions are opened by their leaves.
Both hold on while a graph grows, as its unions and intersections stay what they are.
-/
namespace PropSchema

namespace TypeForm

/-- The members of a union or an intersection, with which of the two it is. -/
def combined : TypeForm → Option (Bool × List NodeId)
  | .union members => some (true, members)
  | .intersection members => some (false, members)
  | _ => none

theorem combined_eq_union {form : TypeForm} {members : List NodeId} :
    form.combined = some (true, members) ↔ form = .union members := by
  cases form <;> simp [combined]

theorem combined_eq_intersection {form : TypeForm} {members : List NodeId} :
    form.combined = some (false, members) ↔ form = .intersection members := by
  cases form <;> simp [combined]

end TypeForm

namespace TypeGraph
variable {g h : TypeGraph} {as bs xs ys : List NodeId}

/-- A list of types, and the same list with some of its intersections opened. -/
inductive Opens (g : TypeGraph) : List NodeId → List NodeId → Prop
  | nil : Opens g [] []
  | keep (a : NodeId) {as xs : List NodeId} (rest : Opens g as xs) : Opens g (a :: as) (a :: xs)
  | group {a : NodeId} {members ys as xs : List NodeId} (form : g.form a = .intersection members)
      (nonempty : members ≠ []) (inner : Opens g members ys) (rest : Opens g as xs) :
      Opens g (a :: as) (ys ++ xs)

namespace Opens

theorem refl (as : List NodeId) : Opens g as as := by
  induction as with
  | nil => exact .nil
  | cons a as ih => exact .keep a ih

theorem append (h : Opens g as xs) (h' : Opens g bs ys) : Opens g (as ++ bs) (xs ++ ys) := by
  induction h with
  | nil => exact h'
  | keep a _ ih => exact .keep a ih
  | group form nonempty inner _ _ ih =>
      rw [List.append_assoc]
      exact .group form nonempty inner ih

theorem mono (hgrown : ∀ a members, g.form a = .intersection members →
    h.form a = .intersection members) (ho : Opens g as xs) : Opens h as xs := by
  induction ho with
  | nil => exact .nil
  | keep a _ ih => exact .keep a ih
  | group form nonempty _ _ ih ih' => exact .group (hgrown _ _ form) nonempty ih ih'

theorem isEmpty_eq (ho : Opens g as xs) : as.isEmpty = xs.isEmpty := by
  induction ho with
  | nil => rfl
  | keep => rfl
  | @group _ _ _ _ xs form nonempty _ _ ih _ =>
      rw [List.isEmpty_eq_false_iff.mpr nonempty] at ih
      have hne := List.append_ne_nil_of_left_ne_nil (List.isEmpty_eq_false_iff.mp ih.symm) xs
      rw [List.isEmpty_cons, List.isEmpty_eq_false_iff.mpr hne]

/-- Opened members come before whatever the members come before. -/
theorem lt_of_mem (hg : g.Founded) {bound : Nat} (ho : Opens g as xs)
    (has : ∀ a ∈ as, a < bound) : ∀ x ∈ xs, x < bound := by
  induction ho with
  | nil => exact nofun
  | keep a _ ih =>
      rw [List.forall_mem_cons] at has ⊢
      exact ⟨has.1, ih has.2⟩
  | group form _ _ _ ih ih' =>
      rw [List.forall_mem_cons] at has
      rw [List.forall_mem_append]
      exact ⟨ih fun m hm => Nat.lt_trans (hg.intersection form m hm) has.1, ih' has.2⟩

/-- Whatever is opened is there if what it is opened to is. -/
theorem lt_size (ho : Opens g as xs) (hxs : ∀ x ∈ xs, x < g.size) : ∀ a ∈ as, a < g.size := by
  induction ho with
  | nil => exact nofun
  | keep a _ ih =>
      rw [List.forall_mem_cons] at hxs ⊢
      exact ⟨hxs.1, ih hxs.2⟩
  | group form _ _ _ _ ih =>
      rw [List.forall_mem_append] at hxs
      refine List.forall_mem_cons.mpr ⟨Nat.lt_of_not_le fun hge => ?_, ih hxs.2⟩
      rw [form_of_size_le hge] at form
      cases form

theorem all_isRecord (hg : g.Founded) (ho : Opens g as xs) :
    as.all g.isRecord = xs.all g.isRecord := by
  induction ho with
  | nil => rfl
  | keep a _ ih => rw [List.all_cons, List.all_cons, ih]
  | group form nonempty _ _ ih ih' =>
      rw [List.all_cons, List.all_append, ih', ← ih, hg.isRecord_of_intersection form,
        List.isEmpty_eq_false_iff.mpr nonempty, Bool.not_false, Bool.true_and]

/-- Where the first property of each name counts, opened members have those of the members. -/
theorem addNew_properties (hg : g.Founded) (ho : Opens g as xs) (kept : List Property) :
    Sequences.addNew (fun p q => p.name == q.name) kept (as.flatMap g.properties) =
      Sequences.addNew (fun p q => p.name == q.name) kept (xs.flatMap g.properties) := by
  induction ho generalizing kept with
  | nil => rfl
  | keep a _ ih =>
      rw [List.flatMap_cons, List.flatMap_cons, Sequences.addNew_append, Sequences.addNew_append,
        ih]
  | group form _ _ _ ih ih' =>
      rw [List.flatMap_cons, List.flatMap_append, Sequences.addNew_append,
        Sequences.addNew_append, ih', hg.properties_of_intersection form,
        firstOfEachName_eq_addNew, Sequences.addNew_addNew sameName_trans, ← ih]
      rfl

end Opens

/-- A graph that has grown: what was a union or an intersection is the same one, and no other node
has become one. -/
structure Grows (g h : TypeGraph) : Prop where
  size : g.size ≤ h.size
  combined : ∀ {id}, id < g.size → (h.form id).combined = (g.form id).combined

namespace Grows

theorem refl (g : TypeGraph) : Grows g g := ⟨Nat.le_refl _, fun _ => rfl⟩

theorem trans {k : TypeGraph} (hgh : Grows g h) (hhk : Grows h k) : Grows g k :=
  ⟨Nat.le_trans hgh.size hhk.size, fun hid =>
    (hhk.combined (Nat.lt_of_lt_of_le hid hgh.size)).trans (hgh.combined hid)⟩

theorem union_iff (hgh : Grows g h) {id : NodeId} (hid : id < g.size) (members : List NodeId) :
    h.form id = .union members ↔ g.form id = .union members := by
  rw [← TypeForm.combined_eq_union, ← TypeForm.combined_eq_union, hgh.combined hid]

theorem intersection_iff (hgh : Grows g h) {id : NodeId} (hid : id < g.size)
    (members : List NodeId) :
    h.form id = .intersection members ↔ g.form id = .intersection members := by
  rw [← TypeForm.combined_eq_intersection, ← TypeForm.combined_eq_intersection, hgh.combined hid]

theorem opens (hgh : Grows g h) (ho : Opens g as xs) : Opens h as xs := by
  refine ho.mono fun a members hform => ?_
  have hlt : a < g.size := Nat.lt_of_not_le fun hge => by simp [form_of_size_le hge] at hform
  exact (hgh.intersection_iff hlt members).mpr hform

theorem spread_eq (hgh : Grows g h) (hg : g.Founded) (hh : h.Founded) {a : NodeId}
    (ha : a < g.size) : h.spread a = g.spread a := by
  induction a using Nat.strongRecOn with
  | ind a ih =>
      by_cases hunion : ∃ members, g.form a = .union members
      · obtain ⟨members, hform⟩ := hunion
        rw [spread_of_union hform, spread_of_union ((hgh.union_iff ha members).mpr hform),
          hg.leaves_eq, hh.leaves_eq]
        refine congrArg _ (List.flatMap_congr fun m hm => ?_)
        have hlt := hg.union hform m hm
        exact ih m hlt (Nat.lt_trans hlt ha)
      · have hne : ∀ members, g.form a ≠ .union members := fun members hform =>
          hunion ⟨members, hform⟩
        rw [spread_of_ne_union hne,
          spread_of_ne_union fun members hform => hne members ((hgh.union_iff ha members).mp hform)]

/-- The leaves of members that are there stay the same. -/
theorem leaves_eq (hgh : Grows g h) (hg : g.Founded) (hh : h.Founded) {members : List NodeId}
    (hm : ∀ m ∈ members, m < g.size) : h.leaves members = g.leaves members := by
  rw [hg.leaves_eq, hh.leaves_eq]
  exact congrArg _ (List.flatMap_congr fun m hmem => hgh.spread_eq hg hh (hm m hmem))

end Grows

end TypeGraph

end PropSchema
