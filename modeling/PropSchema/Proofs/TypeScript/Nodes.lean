import PropSchema.Proofs.TypeGraph.Likeness
import PropSchema.Proofs.TypeScript.Label
/-!
Graphs whose nodes are labelled. Every node has one label, no label belongs to two nodes, and the
form of a node is the form of its label unless the node is still being filled.
-/
namespace PropSchema.TypeScript

/-- A node has a label. -/
def At (labels : List Label) (id : NodeId) (label : Label) : Prop := labels[id]? = some label

namespace At
variable {labels labels' : List Label} {id id' : NodeId} {label label' : Label}

theorem mono (h : labels <+: labels') (ha : At labels id label) : At labels' id label := by
  obtain ⟨rest, rfl⟩ := h
  obtain ⟨hlt, -⟩ := List.getElem?_eq_some_iff.mp ha
  rw [At, List.getElem?_append_left hlt]
  exact ha

theorem lt (ha : At labels id label) : id < labels.length :=
  (List.getElem?_eq_some_iff.mp ha).1

theorem mem (ha : At labels id label) : label ∈ labels := List.mem_of_getElem? ha

theorem label_eq (ha : At labels id label) (ha' : At labels id label') : label = label' :=
  Option.some.inj (ha.symm.trans ha')

theorem id_eq (hn : labels.Nodup) (ha : At labels id label) (ha' : At labels id' label) :
    id = id' := by
  have he : labels[id]? = labels[id']? := ha.trans ha'.symm
  exact (List.getElem?_inj ha.lt hn).mp he

theorem last (labels : List Label) (label : Label) :
    At (labels ++ [label]) labels.length label := by
  simp [At]

/-- A label of a longer list is one of the list or the last one. -/
theorem of_append (ha : At (labels ++ [label]) id label') :
    At labels id label' ∨ id = labels.length ∧ label' = label := by
  by_cases hlt : id < labels.length
  · rw [At, List.getElem?_append_left hlt] at ha
    exact .inl ha
  · have hid : id < (labels ++ [label]).length := ha.lt
    have he : id = labels.length := by
      rw [List.length_append, List.length_singleton] at hid
      exact Nat.le_antisymm (Nat.le_of_lt_succ hid) (Nat.le_of_not_lt hlt)
    subst he
    exact .inr ⟨rfl, label_eq ha (last labels label)⟩

theorem all_mono (h : labels <+: labels') {ids : List NodeId} {args : List Label}
    (ha : List.Forall₂ (At labels) ids args) : List.Forall₂ (At labels') ids args :=
  ha.imp fun _ _ => mono h

theorem labels_eq {ids : List NodeId} {args args' : List Label}
    (ha : List.Forall₂ (At labels) ids args) (ha' : List.Forall₂ (At labels) ids args') :
    args = args' := by
  have hu : Relator.RightUnique (At labels) := fun _ _ _ h h' => label_eq h h'
  exact List.right_unique_forall₂' hu ha ha'

theorem ids_eq (hn : labels.Nodup) {ids ids' : List NodeId} {args : List Label}
    (ha : List.Forall₂ (At labels) ids args) (ha' : List.Forall₂ (At labels) ids' args) :
    ids = ids' := by
  have hu : Relator.LeftUnique (At labels) := fun _ _ _ h h' => id_eq hn h h'
  exact List.left_unique_forall₂' hu ha ha'

end At

/-- A memo has the nodes of all labels of one kind, each under its key. -/
structure Tabled {κ ι : Type} [BEq κ] (labels : List Label) (table : List (κ × NodeId))
    (key : κ → ι → Prop) (label : ι → Label) : Prop where
  sound : ∀ {k id}, table.lookup k = some id → ∃ i, key k i ∧ At labels id (label i)
  complete : ∀ {i id}, At labels id (label i) → ∃ k, key k i ∧ table.lookup k = some id

namespace Tabled
variable {κ ι : Type} [BEq κ] {labels : List Label} {table : List (κ × NodeId)}
  {key key' : κ → ι → Prop} {label : ι → Label}

/-- A node of another kind changes nothing. -/
theorem extend (h : Tabled labels table key label) {new : Label}
    (hkey : ∀ k i, key k i → key' k i) (hnew : ∀ i, new ≠ label i) :
    Tabled (labels ++ [new]) table key' label := by
  refine ⟨?_, ?_⟩
  · intro k id hl
    obtain ⟨i, hk, ha⟩ := h.sound hl
    exact ⟨i, hkey k i hk, ha.mono (List.prefix_append _ _)⟩
  · intro i id ha
    obtain ha | ⟨-, he⟩ := ha.of_append
    · obtain ⟨k, hk, hl⟩ := h.complete ha
      exact ⟨k, hkey k i hk, hl⟩
    · exact absurd he.symm (hnew i)

/-- A node of the kind is put under its key, which was free. -/
theorem insert [LawfulBEq κ] (h : Tabled labels table key label) {k : κ} {i : ι}
    (hkey : ∀ k i, key k i → key' k i) (hk : key' k i) (hfree : table.lookup k = none)
    (hinj : ∀ i', label i' = label i → i' = i) :
    Tabled (labels ++ [label i]) ((k, labels.length) :: table) key' label := by
  refine ⟨?_, ?_⟩
  · intro k' id hl
    rw [List.lookup_cons] at hl
    split at hl
    · next he =>
        cases hl
        rw [beq_iff_eq] at he
        subst he
        exact ⟨i, hk, At.last labels _⟩
    · obtain ⟨i', hk', ha⟩ := h.sound hl
      exact ⟨i', hkey k' i' hk', ha.mono (List.prefix_append _ _)⟩
  · intro i' id ha
    obtain ha | ⟨rfl, he⟩ := ha.of_append
    · obtain ⟨k', hk', hl⟩ := h.complete ha
      refine ⟨k', hkey k' i' hk', ?_⟩
      have hne : (k' == k) = false := by
        refine beq_false_of_ne ?_
        rintro rfl
        rw [hfree] at hl
        cases hl
      rw [List.lookup_cons, hne]
      exact hl
    · rw [hinj i' he]
      exact ⟨k, hk, by rw [List.lookup_cons, beq_self_eq_true]⟩

/-- What is found under a key is the node of what the key stands for. -/
theorem found (h : Tabled labels table key label)
    (huniq : ∀ {k i i'}, key k i → key k i' → i = i') {k : κ} {i : ι} (hk : key k i) {id : NodeId}
    (hl : table.lookup k = some id) : At labels id (label i) := by
  obtain ⟨i', hk', ha⟩ := h.sound hl
  rw [huniq hk hk']
  exact ha

/-- Where nothing is found, there is no such node. -/
theorem missing (h : Tabled labels table key label)
    (huniq : ∀ {k k' i}, key k i → key k' i → k = k') {k : κ} {i : ι} (hk : key k i)
    (hl : table.lookup k = none) : label i ∉ labels := by
  intro hm
  obtain ⟨id, ha⟩ := List.mem_iff_getElem?.mp hm
  obtain ⟨k', hk', hl'⟩ := h.complete ha
  rw [huniq hk hk', hl'] at hl
  cases hl

end Tabled

namespace Label

/-- The owner of a node that is made in the course of a text, and its place there. -/
def place? : Label → Option (Owner × Nat)
  | .made owner index _ => some (owner, index)
  | .parameter owner index _ _ => some (owner, index)
  | _ => none

theorem parts_made_union (owner : Owner) (index : Nat) (members : List Label) :
    (Label.made owner index (.union members)).parts = members := rfl

theorem parts_of_ne_union {label : Label}
    (h : ∀ owner index members, label ≠ .made owner index (.union members)) :
    label.parts = [label] := by
  unfold parts
  split
  · next owner index members => exact absurd rfl (h owner index members)
  · rfl

theorem mem_addMissing {xs ys : List Label} {label : Label} :
    label ∈ addMissing xs ys ↔ label ∈ xs ∨ label ∈ ys := by
  unfold addMissing
  induction ys generalizing xs with
  | nil => simp
  | cons y ys ih =>
      rw [List.foldl_cons, ih]
      split <;> grind

/-- The leaves of a union are the parts of its members. -/
theorem mem_leaves {members : List Label} {label : Label} :
    label ∈ leaves members ↔ ∃ m ∈ members, label ∈ m.parts := by
  have hfold : ∀ acc, label ∈ members.foldl (fun leaves m =>
      addMissing leaves (addMissing [] m.parts)) acc ↔
        label ∈ acc ∨ ∃ m ∈ members, label ∈ m.parts := by
    induction members with
    | nil => simp
    | cons m ms ih =>
        intro acc
        rw [List.foldl_cons, ih]
        simp [mem_addMissing, or_assoc]
  rw [leaves, hfold]
  simp

end Label

theorem RootedScope.label_of_formOf_union {sc : RootedScope}
    {sites : Nat → Option (ClassSite × String)} {label : Label} {members : List Label} (h : sc.formOf sites label = some (.union members)) :
    ∃ owner index, label = .made owner index (.union members) := by
  cases label with
  | made owner index form =>
      cases h
      exact ⟨owner, index, rfl⟩
  | shared id => simp [RootedScope.formOf] at h
  | parameter owner index param names =>
      simp only [RootedScope.formOf] at h
      split at h
      · cases h
      · simp [Option.bind_eq_some_iff] at h
  | declared name arguments => simp [RootedScope.formOf, Option.bind_eq_some_iff] at h
  | framework symbol arguments =>
      simp only [RootedScope.formOf, Label.frameworkForm] at h
      split at h
      · cases h
      · split at h <;> cases h
  | partialOf target => cases h
  | classOf position => simp [RootedScope.formOf, Option.bind_eq_some_iff] at h

/-- What may still be filled: records, type parameters with a bound, and class declarations. -/
inductive Fillable : Label → TypeForm Label → Prop
  | record (name : String) (arguments : List Label) (record : RecordType Label) :
      Fillable (.declared name arguments) (.record record)
  | parameter (owner : Owner) (index : Nat) (param : TypeParam TypeExpr) (names : Names)
      (name : String) (bound : Option Label) :
      Fillable (.parameter owner index param names) (.parameter name bound)
  | classOf (position : Nat) (name : String) (bases : List Label) :
      Fillable (.classOf position) (.classDeclaration name bases)

/-- The form that a node has: the one it has so far while it is being filled, its own else. -/
def HasForm (sc : RootedScope) (sites : Nat → Option (ClassSite × String))
    (unfilled : List (Label × TypeForm Label)) (label : Label) (form : TypeForm Label) : Prop :=
  (label, form) ∈ unfilled ∨ label ∉ unfilled.map Prod.fst ∧ sc.formOf sites label = some form

/-- A graph whose nodes have labels, with the forms that some of them have so far. -/
structure Nodes (sc : RootedScope) (sites : Nat → Option (ClassSite × String))
    (unfilled : List (Label × TypeForm Label)) (g : TypeGraph) (labels : List Label) : Prop where
  size : labels.length = g.size
  nodup : labels.Nodup
  shared : ∀ {id}, id < TypeGraph.primitiveNames.length → At labels id (.shared id)
  forms : ∀ {id label}, At labels id label →
    ∃ form, HasForm sc sites unfilled label form ∧ (g.form id).Rel (At labels) form
  founded : g.Founded
  /-- A union is made of no unions. -/
  flat : ∀ {owner index members}, .made owner index (.union members) ∈ labels →
    ∀ m ∈ members, m.parts = [m]
  fillable : ∀ {label form}, (label, form) ∈ unfilled → Fillable label form
  present : ∀ {label}, label ∈ unfilled.map Prod.fst → label ∈ labels
  distinct : (unfilled.map Prod.fst).Nodup

theorem exists_at_of_mem {labels : List Label} {ids : List NodeId} {args : List Label}
    (h : List.Forall₂ (At labels) ids args) {id : NodeId} (hid : id ∈ ids) :
    ∃ label, At labels id label := by
  obtain ⟨label, -, ha⟩ := Sequences.exists_of_forall₂ h.flip hid
  exact ⟨label, ha⟩

namespace Nodes
variable {sc : RootedScope} {sites : Nat → Option (ClassSite × String)}
  {unfilled unfilled' : List (Label × TypeForm Label)} {g : TypeGraph}
  {labels : List Label} {label : Label} {form : TypeForm} {lform : TypeForm Label}

/-- A new node leads to nodes that are there. -/
theorem founded_push (h : Nodes sc sites unfilled g labels) (hrel : form.Rel (At labels) lform)
    (location : Option Location) : (g.push form location).2.Founded := by
  have hcases : ∀ id, (g.push form location).2.form id = g.form id ∨
      id = g.size ∧ (g.push form location).2.form id = form := by
    intro id
    obtain hlt | hge := Nat.lt_or_ge id g.size
    · exact .inl (form_push_of_lt hlt form location)
    · obtain rfl | hgt := Nat.eq_or_lt_of_le hge
      · exact .inr ⟨rfl, form_push_size g form location⟩
      · have hsize : (g.push form location).2.size ≤ id := by
          rw [size_push]
          exact hgt
        refine .inl ?_
        rw [TypeGraph.form_of_size_le hsize, TypeGraph.form_of_size_le hge]
  have hmember : ∀ {members : List NodeId} {lmembers : List Label},
      List.Forall₂ (At labels) members lmembers → ∀ m ∈ members, m < g.size := by
    intro members lmembers hall m hm
    obtain ⟨_, ha⟩ := exists_at_of_mem hall hm
    rw [← h.size]
    exact ha.lt
  refine ⟨?_, ?_, ?_⟩
  · intro id members hform
    obtain he | ⟨rfl, he⟩ := hcases id <;> rw [he] at hform
    · exact h.founded.union hform
    · subst hform
      cases hrel with
      | union hall => exact hmember hall
  · intro id members hform
    obtain he | ⟨rfl, he⟩ := hcases id <;> rw [he] at hform
    · exact h.founded.intersection hform
    · subst hform
      cases hrel with
      | intersection hall => exact hmember hall
  · intro id target hform
    obtain he | ⟨rfl, he⟩ := hcases id <;> rw [he] at hform
    · exact h.founded.partialOf hform
    · subst hform
      cases hrel with
      | partialOf ha => exact h.size ▸ ha.lt

/-- A new node gets a new label, and the form of its label unless it is to be filled. -/
theorem push (h : Nodes sc sites unfilled g labels) (hnew : label ∉ labels)
    (hform : unfilled' = unfilled ∧ sc.formOf sites label = some lform ∨
      unfilled' = (label, lform) :: unfilled ∧ Fillable label lform)
    (hrel : form.Rel (At labels) lform)
    (hflat : ∀ {owner index members}, label = .made owner index (.union members) →
      ∀ m ∈ members, m.parts = [m]) (location : Option Location) :
    Nodes sc sites unfilled' (g.push form location).2 (labels ++ [label]) := by
  have hpre : labels <+: labels ++ [label] := List.prefix_append _ _
  have hfree : label ∉ unfilled.map Prod.fst := fun hm => hnew (h.present hm)
  refine ⟨?_, ?_, ?_, ?_, h.founded_push hrel location, ?_, ?_, ?_, ?_⟩
  · rw [List.length_append, List.length_singleton, h.size, size_push]
  · rw [List.nodup_append]
    refine ⟨h.nodup, List.nodup_cons.mpr ⟨List.not_mem_nil, List.nodup_nil⟩, ?_⟩
    rintro a ha b hb rfl
    cases List.mem_singleton.mp hb
    exact hnew ha
  · intro id hid
    exact (h.shared hid).mono hpre
  · intro id l ha
    obtain ha' | ⟨rfl, rfl⟩ := ha.of_append
    · obtain ⟨f, hf, hr⟩ := h.forms ha'
      have hne : l ≠ label := by
        rintro rfl
        exact hnew ha'.mem
      refine ⟨f, ?_, ?_⟩
      · obtain ⟨rfl, -⟩ | ⟨rfl, -⟩ := hform
        · exact hf
        · obtain hf | ⟨hf, he⟩ := hf
          · exact .inl (List.mem_cons_of_mem _ hf)
          · exact .inr ⟨by simp only [List.map_cons, List.mem_cons, hne, hf, or_self,
              not_false_eq_true], he⟩
      · rw [form_push_of_lt (h.size ▸ ha'.lt)]
        exact hr.imp fun _ _ => At.mono hpre
    · refine ⟨lform, ?_, ?_⟩
      · obtain ⟨rfl, he⟩ | ⟨rfl, -⟩ := hform
        · exact .inr ⟨hfree, he⟩
        · exact .inl List.mem_cons_self
      · rw [h.size, form_push_size]
        exact hrel.imp fun _ _ => At.mono hpre
  · intro owner index members hm
    obtain hm | hm := List.mem_append.mp hm
    · exact h.flat hm
    · exact hflat (List.mem_singleton.mp hm).symm
  · intro l f hl
    obtain ⟨rfl, -⟩ | ⟨rfl, hfill⟩ := hform
    · exact h.fillable hl
    · obtain he | hl := List.mem_cons.mp hl
      · cases he
        exact hfill
      · exact h.fillable hl
  · intro l hl
    obtain ⟨rfl, -⟩ | ⟨rfl, -⟩ := hform
    · exact List.mem_append_left _ (h.present hl)
    · obtain rfl | hl := List.mem_cons.mp hl
      · exact List.mem_append_right _ List.mem_cons_self
      · exact List.mem_append_left _ (h.present hl)
  · obtain ⟨rfl, -⟩ | ⟨rfl, -⟩ := hform
    · exact h.distinct
    · exact List.nodup_cons.mpr ⟨hfree, h.distinct⟩

/-- What a node that is being filled is so far. -/
theorem form_rel (h : Nodes sc sites ((label, lform) :: unfilled) g labels) {id : NodeId}
    (ha : At labels id label) : (g.form id).Rel (At labels) lform := by
  obtain ⟨f, hf, hr⟩ := h.forms ha
  obtain hf | ⟨hf, -⟩ := hf
  · obtain hf | hf := List.mem_cons.mp hf
    · cases hf
      exact hr
    · have hdistinct := List.nodup_cons.mp h.distinct
      exact absurd (List.mem_map_of_mem hf) hdistinct.1
  · exact absurd List.mem_cons_self hf

/-- A node that is being filled may get another form. -/
theorem setForm (h : Nodes sc sites ((label, lform) :: unfilled) g labels) {id : NodeId}
    (ha : At labels id label) {lform' : TypeForm Label} (hrel : form.Rel (At labels) lform')
    (hfill : Fillable label lform') :
    Nodes sc sites ((label, lform') :: unfilled) (g.setForm id form) labels := by
  have hid : id < g.size := h.size ▸ ha.lt
  have hform := TypeGraph.form_setForm hid form
  refine ⟨?_, h.nodup, h.shared, ?_, ⟨?_, ?_, ?_⟩, h.flat, ?_, h.present, h.distinct⟩
  · rw [TypeGraph.size_setForm, h.size]
  · intro other l hl
    rw [hform]
    by_cases he : other = id
    · subst he
      rw [if_pos rfl]
      cases ha.label_eq hl
      exact ⟨lform', .inl List.mem_cons_self, hrel⟩
    · rw [if_neg he]
      obtain ⟨f, hf, hr⟩ := h.forms hl
      have hne : l ≠ label := by
        rintro rfl
        exact he (At.id_eq h.nodup hl ha)
      refine ⟨f, ?_, hr⟩
      obtain hf | hf := hf
      · obtain hf | hf := List.mem_cons.mp hf
        · cases hf
          exact absurd rfl hne
        · exact .inl (List.mem_cons_of_mem _ hf)
      · exact .inr hf
  · intro other members ho
    rw [hform] at ho
    split at ho
    · subst ho
      cases hrel
      cases hfill
    · exact h.founded.union ho
  · intro other members ho
    rw [hform] at ho
    split at ho
    · subst ho
      cases hrel
      cases hfill
    · exact h.founded.intersection ho
  · intro other target ho
    rw [hform] at ho
    split at ho
    · subst ho
      cases hrel
      cases hfill
    · exact h.founded.partialOf ho
  · intro l f hl
    obtain he | hl := List.mem_cons.mp hl
    · cases he
      exact hfill
    · exact h.fillable (List.mem_cons_of_mem _ hl)

/-- Only what is labelled as a union is one. -/
theorem union_of_form (h : Nodes sc sites unfilled g labels) {id : NodeId}
    (ha : At labels id label) {members : List NodeId} (hform : g.form id = .union members) :
    ∃ owner index lmembers, label = .made owner index (.union lmembers) ∧
      List.Forall₂ (At labels) members lmembers := by
  obtain ⟨f, hf, hr⟩ := h.forms ha
  rw [hform] at hr
  cases hr with
  | @union _ lmembers hall =>
      obtain hf | ⟨-, hf⟩ := hf
      · cases h.fillable hf
      · obtain ⟨owner, index, rfl⟩ := RootedScope.label_of_formOf_union hf
        exact ⟨owner, index, lmembers, rfl, hall⟩

theorem form_of_union (h : Nodes sc sites unfilled g labels) {id : NodeId} {owner : Owner}
    {index : Nat} {lmembers : List Label} (ha : At labels id (.made owner index (.union lmembers))) :
    ∃ members, g.form id = .union members ∧ List.Forall₂ (At labels) members lmembers := by
  obtain ⟨f, hf, hr⟩ := h.forms ha
  obtain hf | ⟨-, hf⟩ := hf
  · cases h.fillable hf
  · cases hf
    generalize g.form id = form at hr
    cases hr with
    | union hall => exact ⟨_, rfl, hall⟩

theorem parts_parts (h : Nodes sc sites unfilled g labels) (hm : label ∈ labels) :
    ∀ p ∈ label.parts, p.parts = [p] := by
  by_cases hu : ∃ owner index members, label = .made owner index (.union members)
  · obtain ⟨owner, index, members, rfl⟩ := hu
    exact h.flat hm
  · have hparts : label.parts = [label] := Label.parts_of_ne_union fun owner index members he =>
      hu ⟨owner, index, members, he⟩
    intro p hp
    rw [hparts, List.mem_singleton] at hp
    rw [hp, hparts]

theorem contains_iff (h : Nodes sc sites unfilled g labels) {ids : List NodeId} {ls : List Label}
    (hall : List.Forall₂ (At labels) ids ls) {id : NodeId} (ha : At labels id label) :
    ids.contains id = true ↔ label ∈ ls := by
  induction hall with
  | nil => simp
  | @cons other l _ _ hl _ ih =>
      have he : id = other ↔ label = l := by
        constructor
        · rintro rfl
          exact ha.label_eq hl
        · rintro rfl
          exact At.id_eq h.nodup ha hl
      rw [List.contains_cons, Bool.or_eq_true, beq_iff_eq, List.mem_cons, he, ih]

theorem addMissing_rel (h : Nodes sc sites unfilled g labels) {xs ys : List NodeId}
    {lxs lys : List Label} (hx : List.Forall₂ (At labels) xs lxs)
    (hy : List.Forall₂ (At labels) ys lys) :
    List.Forall₂ (At labels) (addMissing xs ys) (Label.addMissing lxs lys) := by
  refine List.rel_foldl ?_ hx hy
  intro acc lacc hacc y ly hay
  have hmem := h.contains_iff hacc hay
  dsimp only
  by_cases hm : ly ∈ lacc
  · rw [if_pos (hmem.mpr hm), if_pos hm]
    exact hacc
  · rw [if_neg (mt hmem.mp hm), if_neg hm]
    exact List.rel_append hacc (.cons hay .nil)

/-- The leaves of types that are no unions are these types. -/
theorem leavesTo_rel (h : Nodes sc sites unfilled g labels) {ids : List NodeId} {ls : List Label}
    (hall : List.Forall₂ (At labels) ids ls) (hflat : ∀ l ∈ ls, l.parts = [l]) (depth : Nat) :
    List.Forall₂ (At labels) (g.leavesTo (depth + 1) ids) (Label.addMissing [] ls) := by
  have hboth := Sequences.forall₂_and (P := fun _ => True) hall (fun _ _ => trivial) hflat
  have hfold : Label.addMissing [] ls = ls.foldl (fun acc l => Label.addMissing acc [l]) [] := rfl
  rw [TypeGraph.leavesTo, hfold]
  refine List.rel_foldl ?_ .nil hboth
  rintro acc lacc hacc id l ⟨ha, -, hl⟩
  dsimp only
  split
  · next inner hform =>
      obtain ⟨owner, index, members, rfl, -⟩ := h.union_of_form ha hform
      -- A union cannot be its own part, for it would have to be larger than itself.
      have hsize := congrArg sizeOf hl
      simp only [Label.parts_made_union, List.cons.sizeOf_spec, List.nil.sizeOf_spec,
        Label.made.sizeOf_spec, TypeForm.union.sizeOf_spec] at hsize
      omega
  · exact h.addMissing_rel hacc (.cons ha .nil)

theorem leaves_rel (h : Nodes sc sites unfilled g labels) {ids : List NodeId} {ls : List Label}
    (hall : List.Forall₂ (At labels) ids ls) :
    List.Forall₂ (At labels) (g.leaves ids) (Label.leaves ls) := by
  rw [TypeGraph.leaves, TypeGraph.depth, TypeGraph.leavesTo, Label.leaves]
  refine List.rel_foldl ?_ .nil hall
  intro acc lacc hacc id l ha
  dsimp only
  split
  · next inner hform =>
      obtain ⟨owner, index, members, rfl, hinner⟩ := h.union_of_form ha hform
      obtain ⟨size, hsize⟩ := Nat.exists_eq_succ_of_ne_zero (Nat.ne_of_gt (h.size ▸ Nat.zero_lt_of_lt ha.lt))
      rw [hsize]
      exact h.addMissing_rel hacc (h.leavesTo_rel hinner (h.flat ha.mem) size)
  · next hform =>
      have hparts : l.parts = [l] := by
        refine Label.parts_of_ne_union ?_
        rintro owner index members rfl
        obtain ⟨inner, hinner, -⟩ := h.form_of_union ha
        exact hform inner hinner
      rw [hparts]
      exact h.addMissing_rel hacc (.cons ha .nil)

theorem parts_of_mem_leaves (h : Nodes sc sites unfilled g labels) {ids : List NodeId}
    {ls : List Label} (hall : List.Forall₂ (At labels) ids ls) :
    ∀ l ∈ Label.leaves ls, l.parts = [l] := by
  intro l hl
  obtain ⟨m, hm, hl⟩ := Label.mem_leaves.mp hl
  obtain ⟨id, -, ha⟩ := Sequences.exists_of_forall₂ hall hm
  exact h.parts_parts ha.mem l hl

/-- A node that is not being filled has the form that its label tells. -/
theorem whole_form (h : Nodes sc sites unfilled g labels) {id : NodeId} (ha : At labels id label)
    (hw : label ∉ unfilled.map Prod.fst) :
    ∃ form, sc.formOf sites label = some form ∧ (g.form id).Rel (At labels) form := by
  obtain ⟨f, hf, hr⟩ := h.forms ha
  obtain hf | ⟨-, hf⟩ := hf
  · exact absurd (List.mem_map_of_mem hf) hw
  · exact ⟨f, hf, hr⟩

theorem made_whole (h : Nodes sc sites unfilled g labels) {owner : Owner} {index : Nat}
    {form : TypeForm Label} : .made owner index form ∉ unfilled.map Prod.fst := by
  intro hm
  obtain ⟨⟨l, f⟩, hf, rfl⟩ := List.mem_map.mp hm
  cases h.fillable hf

/-- A record that is no declared one, and made in no text, is one of the framework. -/
theorem properties_eq_nil (h : Nodes sc sites unfilled g labels) {record : RecordType Label}
    (hf : HasForm sc sites unfilled label (.record record))
    (hdeclared : ∀ name arguments, label ≠ .declared name arguments)
    (hmade : ∀ owner index record, label ≠ .made owner index (.record record)) :
    record.properties = [] := by
  obtain hf | ⟨-, hf⟩ := hf
  · cases h.fillable hf with
    | record name arguments => exact absurd rfl (hdeclared name arguments)
  · cases label with
    | declared name arguments => exact absurd rfl (hdeclared name arguments)
    | made owner index form =>
        cases hf
        exact absurd rfl (hmade owner index record)
    | shared id => simp [RootedScope.formOf] at hf
    | parameter owner index param names =>
        simp only [RootedScope.formOf] at hf
        split at hf
        · cases hf
        · simp [Option.bind_eq_some_iff] at hf
    | partialOf target => cases hf
    | classOf position => simp [RootedScope.formOf, Option.bind_eq_some_iff] at hf
    | framework symbol arguments =>
        simp only [RootedScope.formOf, Label.frameworkForm] at hf
        split at hf
        · cases hf
        · split at hf <;>
          · cases hf
            rfl

/-- A node is filled once it has the form of its label. -/
theorem filled (h : Nodes sc sites ((label, lform) :: unfilled) g labels)
    (hform : sc.formOf sites label = some lform) : Nodes sc sites unfilled g labels := by
  have hdistinct := List.nodup_cons.mp h.distinct
  refine ⟨h.size, h.nodup, h.shared, ?_, h.founded, h.flat,
    fun hl => h.fillable (List.mem_cons_of_mem _ hl),
    fun hl => h.present (List.mem_cons_of_mem _ hl), hdistinct.2⟩
  intro id l ha
  obtain ⟨f, hf, hr⟩ := h.forms ha
  refine ⟨f, ?_, hr⟩
  obtain hf | ⟨hf, he⟩ := hf
  · obtain hf | hf := List.mem_cons.mp hf
    · cases hf
      exact .inr ⟨hdistinct.1, hform⟩
    · exact .inl hf
  · exact .inr ⟨fun hl => hf (List.mem_cons_of_mem _ hl), he⟩

end Nodes

end PropSchema.TypeScript
