import PropSchema.Proofs.TypeScript.Nodes
/-!
Resolutions under way. What is remembered agrees with the labels of the nodes, and what a text still
has to make has no label yet. Several texts may be gone through at once, one within another.
-/
namespace PropSchema.TypeScript

/-- What is open in a resolution. -/
structure Opens where
  /-- The texts that are gone through, with how many nodes each has made so far. -/
  frames : List (Owner × Nat)
  /-- Declared types that are begun but not known yet. -/
  hidden : List LabelledInstance
  /-- Those of them whose value is being resolved. -/
  aliases : List LabelledInstance
  unfilled : List (Label × TypeForm Label)

namespace Opens

def none : Opens := ⟨[], [], [], []⟩

def within (o : Opens) (owner : Owner) (count : Nat) : Opens :=
  { o with frames := (owner, count) :: o.frames }

def hide (o : Opens) (i : LabelledInstance) : Opens := { o with hidden := i :: o.hidden }

def resolve (o : Opens) (i : LabelledInstance) : Opens := { o with aliases := i :: o.aliases }

def fill (o : Opens) (label : Label) (form : TypeForm Label) : Opens :=
  { o with unfilled := (label, form) :: o.unfilled }

end Opens

/-- An instance by its nodes is one by their labels. -/
structure SameInstance (labels : List Label) (key : Instance) (i : LabelledInstance) : Prop where
  name : key.1 = i.1
  arguments : List.Forall₂ (At labels) key.2 i.2

/-- The label of a declared type, wherever it is mentioned and not left without structure. -/
def Denotes (sc : RootedScope) (i : LabelledInstance) (label : Label) : Prop :=
  ∀ owner (names : Names) k, names.lookup i.1 = none → ¬ sc.Closes owner i →
    sc.labelOfName sc.labelOf owner names i.1 i.2 k = some (label, k)

/-- A declared type has a node that it is known by. -/
def Remembered (r : Resolution) (labels : List Label) (i : LabelledInstance) : Prop :=
  ∃ key, SameInstance labels key i ∧ (r.instances.lookup key).isSome

/-- An owner of text is known, so its text is not gone through again. -/
def Settled (r : Resolution) (labels : List Label) : Owner → Prop
  | .type name arguments => Remembered r labels (name, arguments)
  | .site position => (r.classes.lookup position).isSome

/-- The memos of what is known by itself. -/
structure Tables (r : Resolution) (labels : List Label) : Prop where
  framework : Tabled labels r.framework (SameInstance labels) fun i : LabelledInstance =>
    .framework i.1 i.2
  partials : Tabled labels r.partials (At labels) .partialOf
  classes : Tabled labels r.classes (fun position i : Nat => position = i) .classOf

/-- The memo of declared types. -/
structure Known (sc : RootedScope) (r : Resolution) (labels : List Label) : Prop where
  instances : ∀ {key id}, r.instances.lookup key = some id →
    ∃ i label, SameInstance labels key i ∧ At labels id label ∧ Denotes sc i label
  records : ∀ {name arguments}, .declared name arguments ∈ labels →
    Remembered r labels (name, arguments)

/-- What is open agrees with what has been made. -/
structure Course (o : Opens) (r : Resolution) (labels : List Label) : Prop where
  pending : List.Forall₂ (SameInstance labels) r.pending o.aliases
  aliases : ∀ i ∈ o.aliases, i ∈ o.hidden
  unknown : ∀ i ∈ o.hidden, ∃ key, SameInstance labels key i ∧ r.instances.lookup key = .none
  /-- A node was made earlier in the course of its text. -/
  started : ∀ {label owner index}, label ∈ labels → label.place? = some (owner, index) →
    (∃ count, (owner, count) ∈ o.frames ∧ index < count) ∨
      owner ∉ o.frames.map Prod.fst ∧ Settled r labels owner
  owners : (o.frames.map Prod.fst).Nodup
  /-- An open text cannot be begun again. -/
  current : ∀ {owner}, owner ∈ o.frames.map Prod.fst →
    Settled r labels owner ∨ ∃ i ∈ o.hidden, owner = .type i.1 i.2

/-- A resolution whose nodes are labelled, with what is open in it. -/
structure Labelled (sc : RootedScope) (sites : Nat → Option (ClassSite × String)) (o : Opens)
    (r : Resolution) (labels : List Label) : Prop where
  nodes : Nodes sc sites o.unfilled r.graph labels
  tables : Tables r labels
  known : Known sc r labels
  course : Course o r labels

namespace SameInstance
variable {labels labels' : List Label} {key key' : Instance} {i i' : LabelledInstance}

theorem mono (hpre : labels <+: labels') (h : SameInstance labels key i) :
    SameInstance labels' key i :=
  ⟨h.name, At.all_mono hpre h.arguments⟩

theorem key_eq (hn : labels.Nodup) (h : SameInstance labels key i)
    (h' : SameInstance labels key' i) : key = key' :=
  Prod.ext (h.name.trans h'.name.symm) (At.ids_eq hn h.arguments h'.arguments)

theorem instance_eq (h : SameInstance labels key i) (h' : SameInstance labels key i') : i = i' :=
  Prod.ext (h.name.symm.trans h'.name) (At.labels_eq h.arguments h'.arguments)

end SameInstance

section Growth
variable {sc : RootedScope} {sites : Nat → Option (ClassSite × String)} {o : Opens} {r r' : Resolution}
  {labels labels' : List Label} {label : Label} {i : LabelledInstance} {owner : Owner}

theorem isSome_lookup_cons {κ : Type} [BEq κ] {table : List (κ × NodeId)} {k : κ}
    (h : (table.lookup k).isSome) (entry : κ × NodeId) : ((entry :: table).lookup k).isSome := by
  rw [List.lookup_cons]
  split
  · rfl
  · exact h

theorem Remembered.mono (hpre : labels <+: labels')
    (hkeep : ∀ key, (r.instances.lookup key).isSome → (r'.instances.lookup key).isSome)
    (h : Remembered r labels i) : Remembered r' labels' i := by
  obtain ⟨key, hkey, hsome⟩ := h
  exact ⟨key, hkey.mono hpre, hkeep key hsome⟩

theorem Settled.mono (hpre : labels <+: labels')
    (hkeep : ∀ key, (r.instances.lookup key).isSome → (r'.instances.lookup key).isSome)
    (hclasses : ∀ position, (r.classes.lookup position).isSome →
      (r'.classes.lookup position).isSome)
    (h : Settled r labels owner) : Settled r' labels' owner := by
  cases owner with
  | type name arguments => exact Remembered.mono hpre hkeep h
  | site position => exact hclasses position h

/-- A node of no kind that has a memo changes none of them. -/
theorem Tables.extend (h : Tables r labels)
    (hnew : label.place?.isSome ∨ ∃ name arguments, label = .declared name arguments)
    (hf : r'.framework = r.framework) (hp : r'.partials = r.partials)
    (hc : r'.classes = r.classes) : Tables r' (labels ++ [label]) := by
  have hpre : labels <+: labels ++ [label] := List.prefix_append _ _
  refine ⟨?_, ?_, ?_⟩
  · rw [hf]
    refine h.framework.extend (fun _ _ => SameInstance.mono hpre) ?_
    rintro i rfl
    obtain h' | ⟨_, _, h'⟩ := hnew <;> cases h'
  · rw [hp]
    refine h.partials.extend (fun _ _ => At.mono hpre) ?_
    rintro i rfl
    obtain h' | ⟨_, _, h'⟩ := hnew <;> cases h'
  · rw [hc]
    refine h.classes.extend (fun _ _ hk => hk) ?_
    rintro i rfl
    obtain h' | ⟨_, _, h'⟩ := hnew <;> cases h'

theorem Tables.extend_framework (h : Tables r labels) {key : Instance}
    (hkey : SameInstance labels key i) (hfree : r.framework.lookup key = none)
    (hf : r'.framework = (key, labels.length) :: r.framework) (hp : r'.partials = r.partials)
    (hc : r'.classes = r.classes) : Tables r' (labels ++ [.framework i.1 i.2]) := by
  have hpre : labels <+: labels ++ [.framework i.1 i.2] := List.prefix_append _ _
  refine ⟨?_, ?_, ?_⟩
  · rw [hf]
    refine h.framework.insert (fun _ _ => SameInstance.mono hpre) (hkey.mono hpre) hfree ?_
    rintro ⟨name, arguments⟩ he
    cases he
    rfl
  · rw [hp]
    exact h.partials.extend (fun _ _ => At.mono hpre) fun _ => Label.noConfusion
  · rw [hc]
    exact h.classes.extend (fun _ _ hk => hk) fun _ => Label.noConfusion

theorem Tables.extend_partial (h : Tables r labels) {target : NodeId}
    (ha : At labels target label) (hfree : r.partials.lookup target = none)
    (hf : r'.framework = r.framework) (hp : r'.partials = (target, labels.length) :: r.partials)
    (hc : r'.classes = r.classes) : Tables r' (labels ++ [.partialOf label]) := by
  have hpre : labels <+: labels ++ [.partialOf label] := List.prefix_append _ _
  refine ⟨?_, ?_, ?_⟩
  · rw [hf]
    exact h.framework.extend (fun _ _ => SameInstance.mono hpre) fun _ => Label.noConfusion
  · rw [hp]
    refine h.partials.insert (fun _ _ => At.mono hpre) (ha.mono hpre) hfree ?_
    rintro l he
    cases he
    rfl
  · rw [hc]
    exact h.classes.extend (fun _ _ hk => hk) fun _ => Label.noConfusion

theorem Tables.extend_class (h : Tables r labels) {position : Nat}
    (hfree : r.classes.lookup position = none) (hf : r'.framework = r.framework)
    (hp : r'.partials = r.partials) (hc : r'.classes = (position, labels.length) :: r.classes) :
    Tables r' (labels ++ [.classOf position]) := by
  have hpre : labels <+: labels ++ [.classOf position] := List.prefix_append _ _
  refine ⟨?_, ?_, ?_⟩
  · rw [hf]
    exact h.framework.extend (fun _ _ => SameInstance.mono hpre) fun _ => Label.noConfusion
  · rw [hp]
    exact h.partials.extend (fun _ _ => At.mono hpre) fun _ => Label.noConfusion
  · rw [hc]
    refine h.classes.insert (fun _ _ hk => hk) rfl hfree ?_
    rintro p he
    cases he
    rfl

theorem Known.extend (h : Known sc r labels) (hi : r'.instances = r.instances)
    (hnew : ∀ name arguments, label ≠ .declared name arguments) :
    Known sc r' (labels ++ [label]) := by
  have hpre : labels <+: labels ++ [label] := List.prefix_append _ _
  refine ⟨?_, ?_⟩
  · intro key id hl
    rw [hi] at hl
    obtain ⟨i, l, hkey, ha, hd⟩ := h.instances hl
    exact ⟨i, l, hkey.mono hpre, ha.mono hpre, hd⟩
  · intro name arguments hm
    obtain hm | hm := List.mem_append.mp hm
    · exact (h.records hm).mono hpre fun key hk => hi ▸ hk
    · exact absurd (List.mem_singleton.mp hm).symm (hnew name arguments)

/-- A node that a declared type is known by from now on. -/
theorem Known.remember (h : Known sc r labels) (hpre : labels <+: labels') {key : Instance}
    {id : NodeId} (hkey : SameInstance labels' key i) (ha : At labels' id label)
    (hd : Denotes sc i label) (hi : r'.instances = (key, id) :: r.instances)
    (hnew : ∀ name arguments, .declared name arguments ∈ labels' →
      .declared name arguments ∈ labels ∨ i = (name, arguments)) : Known sc r' labels' := by
  have hkeep : ∀ key, (r.instances.lookup key).isSome → (r'.instances.lookup key).isSome := by
    intro other hsome
    rw [hi]
    exact isSome_lookup_cons hsome _
  refine ⟨?_, ?_⟩
  · intro other id' hl
    rw [hi, List.lookup_cons] at hl
    split at hl
    · next he =>
        cases hl
        rw [eq_of_beq he]
        exact ⟨i, label, hkey, ha, hd⟩
    · obtain ⟨i', l, hkey', ha', hd'⟩ := h.instances hl
      exact ⟨i', l, hkey'.mono hpre, ha'.mono hpre, hd'⟩
  · intro name arguments hm
    obtain hm | rfl := hnew name arguments hm
    · exact (h.records hm).mono hpre hkeep
    · refine ⟨key, hkey, ?_⟩
      rw [hi, List.lookup_cons, beq_self_eq_true]
      rfl

end Growth

namespace Course
variable {o : Opens} {r r' : Resolution} {labels : List Label} {label : Label} {owner : Owner}
  {count : Nat} {i : LabelledInstance} {key : Instance}

/-- What is filled meanwhile makes no difference. -/
theorem fill_iff {form : TypeForm Label} : Course (o.fill label form) r labels ↔ Course o r labels :=
  ⟨fun h => ⟨h.pending, h.aliases, h.unknown, h.started, h.owners, h.current⟩,
    fun h => ⟨h.pending, h.aliases, h.unknown, h.started, h.owners, h.current⟩⟩

/-- What is hidden has no node yet. -/
theorem not_remembered (h : Course o r labels) (hn : labels.Nodup) (hi : i ∈ o.hidden) :
    ¬ Remembered r labels i := by
  rintro ⟨key, hkey, hsome⟩
  obtain ⟨key', hkey', hnone⟩ := h.unknown i hi
  rw [hkey.key_eq hn hkey', hnone] at hsome
  cases hsome

theorem unknown_mono (h : Course o r labels) {labels' : List Label} (hpre : labels <+: labels')
    (hi : r'.instances = r.instances) :
    ∀ i ∈ o.hidden, ∃ key, SameInstance labels' key i ∧ r'.instances.lookup key = .none := by
  intro i hm
  obtain ⟨key, hkey, hnone⟩ := h.unknown i hm
  exact ⟨key, hkey.mono hpre, hi ▸ hnone⟩

/-- The place that a text has come to is free. -/
theorem fresh (h : Course (o.within owner count) r labels)
    (hplace : label.place? = some (owner, count)) : label ∉ labels := by
  intro hm
  have howners := List.nodup_cons.mp h.owners
  obtain ⟨other, hf, hlt⟩ | ⟨hnot, -⟩ := h.started hm hplace
  · obtain he | hf := List.mem_cons.mp hf
    · cases he
      exact Nat.lt_irrefl _ hlt
    · exact howners.1 (List.mem_map.mpr ⟨(owner, other), hf, rfl⟩)
  · exact hnot List.mem_cons_self

/-- A text that is neither open nor known has made nothing. -/
theorem free (h : Course o r labels) (hopen : owner ∉ o.frames.map Prod.fst)
    (hknown : ¬ Settled r labels owner) :
    ∀ label ∈ labels, ∀ index, label.place? ≠ some (owner, index) := by
  intro label hm index hplace
  obtain ⟨other, hf, -⟩ | ⟨-, hs⟩ := h.started hm hplace
  · exact hopen (List.mem_map_of_mem hf)
  · exact hknown hs

/-- A node that no text makes. -/
theorem extend (h : Course o r labels) (hplace : label.place? = none)
    (hi : r'.instances = r.instances)
    (hclasses : ∀ position, (r.classes.lookup position).isSome →
      (r'.classes.lookup position).isSome)
    (hpending : r'.pending = r.pending) : Course o r' (labels ++ [label]) := by
  have hpre : labels <+: labels ++ [label] := List.prefix_append _ _
  have hmono : ∀ {other}, Settled r labels other → Settled r' (labels ++ [label]) other :=
    Settled.mono hpre (fun key hk => hi ▸ hk) hclasses
  refine ⟨?_, h.aliases, h.unknown_mono hpre hi, ?_, h.owners, ?_⟩
  · rw [hpending]
    exact h.pending.imp fun _ _ => SameInstance.mono hpre
  · intro l owner index hm hp
    obtain hm | hm := List.mem_append.mp hm
    · exact (h.started hm hp).imp_right fun hs => ⟨hs.1, hmono hs.2⟩
    · cases List.mem_singleton.mp hm
      rw [hplace] at hp
      cases hp
  · intro owner ho
    exact (h.current ho).imp_left hmono

/-- The next node of a text. -/
theorem next (h : Course (o.within owner count) r labels)
    (hplace : label.place? = some (owner, count)) (hi : r'.instances = r.instances)
    (hc : r'.classes = r.classes) (hpending : r'.pending = r.pending) :
    Course (o.within owner (count + 1)) r' (labels ++ [label]) := by
  have hpre : labels <+: labels ++ [label] := List.prefix_append _ _
  have hmono : ∀ {other}, Settled r labels other → Settled r' (labels ++ [label]) other :=
    Settled.mono hpre (fun key hk => hi ▸ hk) fun position hp => hc ▸ hp
  refine ⟨?_, h.aliases, h.unknown_mono hpre hi, ?_, h.owners, ?_⟩
  · rw [hpending]
    exact h.pending.imp fun _ _ => SameInstance.mono hpre
  · intro l other index hm hp
    obtain hm | hm := List.mem_append.mp hm
    · obtain ⟨n, hf, hlt⟩ | ⟨hnot, hs⟩ := h.started hm hp
      · obtain he | hf := List.mem_cons.mp hf
        · cases he
          exact .inl ⟨count + 1, List.mem_cons_self, Nat.lt_succ_of_lt hlt⟩
        · exact .inl ⟨n, List.mem_cons_of_mem _ hf, hlt⟩
      · exact .inr ⟨hnot, hmono hs⟩
    · cases List.mem_singleton.mp hm
      rw [hplace] at hp
      cases hp
      exact .inl ⟨count + 1, List.mem_cons_self, Nat.lt_succ_self count⟩
  · intro other ho
    exact (h.current ho).imp_left hmono

/-- A text is begun. -/
theorem enter (h : Course o r labels) (hopen : owner ∉ o.frames.map Prod.fst)
    (hfree : ∀ label ∈ labels, ∀ index, label.place? ≠ some (owner, index))
    (hcurrent : Settled r labels owner ∨ ∃ i ∈ o.hidden, owner = .type i.1 i.2) :
    Course (o.within owner 0) r labels := by
  refine ⟨h.pending, h.aliases, h.unknown, ?_, List.nodup_cons.mpr ⟨hopen, h.owners⟩, ?_⟩
  · intro label other index hm hp
    obtain ⟨n, hf, hlt⟩ | ⟨hnot, hs⟩ := h.started hm hp
    · exact .inl ⟨n, List.mem_cons_of_mem _ hf, hlt⟩
    · refine .inr ⟨?_, hs⟩
      rw [Opens.within, List.map_cons, List.mem_cons]
      rintro (rfl | ho)
      · exact hfree label hm index hp
      · exact hnot ho
  · intro other ho
    obtain rfl | ho := List.mem_cons.mp ho
    · exact hcurrent
    · exact h.current ho

/-- A text is left, whose owner is known by now. -/
theorem leave (h : Course (o.within owner count) r labels) (hs : Settled r labels owner) :
    Course o r labels := by
  have howners := List.nodup_cons.mp h.owners
  refine ⟨h.pending, h.aliases, h.unknown, ?_, howners.2,
    fun ho => h.current (List.mem_cons_of_mem _ ho)⟩
  intro label other index hm hp
  obtain ⟨n, hf, hlt⟩ | ⟨hnot, hs'⟩ := h.started hm hp
  · obtain he | hf := List.mem_cons.mp hf
    · cases he
      exact .inr ⟨howners.1, hs⟩
    · exact .inl ⟨n, hf, hlt⟩
  · exact .inr ⟨fun ho => hnot (List.mem_cons_of_mem _ ho), hs'⟩

theorem hide (h : Course o r labels) (hkey : SameInstance labels key i)
    (hnone : r.instances.lookup key = none) : Course (o.hide i) r labels := by
  refine ⟨h.pending, fun j hj => List.mem_cons_of_mem _ (h.aliases j hj), ?_, h.started, h.owners,
    ?_⟩
  · intro j hj
    obtain rfl | hj := List.mem_cons.mp hj
    · exact ⟨key, hkey, hnone⟩
    · exact h.unknown j hj
  · intro owner ho
    obtain hs | ⟨j, hj, he⟩ := h.current ho
    · exact .inl hs
    · exact .inr ⟨j, List.mem_cons_of_mem _ hj, he⟩

/-- A declared type that is known is not hidden any longer. -/
theorem remember (h : Course (o.hide i) r labels) (ha : ∀ j ∈ o.aliases, j ∈ o.hidden)
    (hi : i ∉ o.hidden) (hkey : SameInstance labels key i) {id : NodeId}
    (hr : r'.instances = (key, id) :: r.instances) (hc : r'.classes = r.classes)
    (hpending : r'.pending = r.pending) : Course o r' labels := by
  have hmono : ∀ {other}, Settled r labels other → Settled r' labels other :=
    Settled.mono (List.prefix_refl _) (fun key hk => hr ▸ isSome_lookup_cons hk _)
      fun position hp => hc ▸ hp
  have hs : Settled r' labels (.type i.1 i.2) := by
    refine ⟨key, hkey, ?_⟩
    rw [hr, List.lookup_cons, beq_self_eq_true]
    rfl
  refine ⟨hpending ▸ h.pending, ha, ?_, ?_, h.owners, ?_⟩
  · intro j hj
    obtain ⟨key', hkey', hnone⟩ := h.unknown j (List.mem_cons_of_mem _ hj)
    refine ⟨key', hkey', ?_⟩
    have hne : (key' == key) = false := by
      refine beq_false_of_ne ?_
      rintro rfl
      exact hi (hkey.instance_eq hkey' ▸ hj)
    rw [hr, List.lookup_cons, hne]
    exact hnone
  · intro l owner index hm hp
    exact (h.started hm hp).imp_right fun hs => ⟨hs.1, hmono hs.2⟩
  · intro owner ho
    obtain hs' | ⟨j, hj, he⟩ := h.current ho
    · exact .inl (hmono hs')
    · obtain rfl | hj := List.mem_cons.mp hj
      · exact .inl (he ▸ hs)
      · exact .inr ⟨j, hj, he⟩

theorem resolve (h : Course o r labels) (hkey : SameInstance labels key i) (hi : i ∈ o.hidden) :
    Course (o.resolve i) { r with pending := key :: r.pending } labels := by
  refine ⟨.cons hkey h.pending, ?_, h.unknown, h.started, h.owners, h.current⟩
  intro j hj
  obtain rfl | hj := List.mem_cons.mp hj
  · exact hi
  · exact h.aliases j hj

theorem resolved (h : Course (o.resolve i) r labels) (hn : labels.Nodup)
    (hkey : SameInstance labels key i) :
    Course o { r with pending := r.pending.erase key } labels := by
  refine ⟨?_, fun j hj => h.aliases j (List.mem_cons_of_mem _ hj), h.unknown, h.started, h.owners,
    h.current⟩
  have hpending := h.pending
  dsimp only
  generalize r.pending = pending at hpending ⊢
  cases hpending with
  | cons hkey' hrest =>
      rw [hkey.key_eq hn hkey', List.erase_cons_head]
      exact hrest

/-- An alias that is not hidden is not being resolved. -/
theorem not_pending (h : Course o r labels) (hkey : SameInstance labels key i)
    (hi : i ∉ o.aliases) : key ∉ r.pending := by
  intro hm
  obtain ⟨j, hj, hkey'⟩ := Sequences.exists_of_forall₂ h.pending.flip hm
  rw [hkey.instance_eq hkey'] at hi
  exact hi hj

end Course

namespace Labelled
variable {sc : RootedScope} {sites : Nat → Option (ClassSite × String)} {o : Opens} {r : Resolution}
  {labels : List Label} {label : Label} {owner : Owner} {count : Nat} {i : LabelledInstance}
  {key : Instance} {form : TypeForm} {lform : TypeForm Label}

theorem size (h : Labelled sc sites o r labels) : labels.length = r.graph.size := h.nodes.size

/-- A node that a text makes, of the form that its label tells. -/
theorem next (h : Labelled sc sites (o.within owner count) r labels)
    (hplace : label.place? = some (owner, count)) (hform : sc.formOf sites label = some lform)
    (hrel : form.Rel (At labels) lform)
    (hflat : ∀ {owner index members}, label = .made owner index (.union members) →
      ∀ m ∈ members, m.parts = [m]) (location : Option Location) :
    Labelled sc sites (o.within owner (count + 1))
      { r with graph := (r.graph.push form location).2 } (labels ++ [label]) where
  nodes := h.nodes.push (h.course.fresh hplace) (.inl ⟨rfl, hform⟩) hrel hflat location
  tables := h.tables.extend (.inl (by rw [hplace]; rfl)) rfl rfl rfl
  known := by
    refine h.known.extend rfl ?_
    rintro name arguments rfl
    cases hplace
  course := h.course.next hplace rfl rfl rfl

/-- A type parameter that a text makes, whose bound is still to come. -/
theorem next_parameter {param : TypeParam TypeExpr} {names : Names}
    (h : Labelled sc sites (o.within owner count) r labels) (location : Option Location) :
    Labelled sc sites
      ((o.fill (.parameter owner count param names) (.parameter param.name none)).within owner
        (count + 1))
      { r with graph := (r.graph.push (.parameter param.name none) location).2 }
      (labels ++ [.parameter owner count param names]) where
  nodes := h.nodes.push (h.course.fresh rfl) (.inr ⟨rfl, .parameter ..⟩)
    (.parameter param.name .none) (fun he => Label.noConfusion he) location
  tables := h.tables.extend (.inl rfl) rfl rfl rfl
  known := h.known.extend rfl fun _ _ => Label.noConfusion
  course := by
    have hnext : Course (o.within owner (count + 1))
        { r with graph := (r.graph.push (.parameter param.name none) location).2 }
        (labels ++ [.parameter owner count param names]) := h.course.next rfl rfl rfl rfl
    exact Course.fill_iff.mpr hnext

theorem push_framework (h : Labelled sc sites o r labels) (hkey : SameInstance labels key i)
    (hfree : r.framework.lookup key = none)
    (hrel : form.Rel (At labels) (Label.frameworkForm i.1 i.2)) (location : Option Location) :
    Labelled sc sites o
      { r with
        graph := (r.graph.push form location).2
        framework := (key, r.graph.size) :: r.framework } (labels ++ [.framework i.1 i.2]) where
  nodes := by
    have hnew := h.tables.framework.missing (SameInstance.key_eq h.nodes.nodup) hkey hfree
    exact h.nodes.push hnew (.inl ⟨rfl, rfl⟩) hrel (fun he => Label.noConfusion he) location
  tables := h.tables.extend_framework hkey hfree (by rw [h.size]) rfl rfl
  known := h.known.extend rfl fun _ _ => Label.noConfusion
  course := h.course.extend rfl rfl (fun _ hp => hp) rfl

theorem push_partial (h : Labelled sc sites o r labels) {target : NodeId}
    (ha : At labels target label) (hfree : r.partials.lookup target = none)
    (location : Option Location) :
    Labelled sc sites o
      { r with
        graph := (r.graph.push (.partialOf target) location).2
        partials := (target, r.graph.size) :: r.partials } (labels ++ [.partialOf label]) where
  nodes := by
    have hnew := h.tables.partials.missing (At.id_eq h.nodes.nodup) ha hfree
    exact h.nodes.push hnew (.inl ⟨rfl, rfl⟩) (.partialOf ha) (fun he => Label.noConfusion he)
      location
  tables := h.tables.extend_partial ha hfree rfl (by rw [h.size]) rfl
  known := h.known.extend rfl fun _ _ => Label.noConfusion
  course := h.course.extend rfl rfl (fun _ hp => hp) rfl

/-- A class declaration, whose bases are still to come. -/
theorem push_class (h : Labelled sc sites o r labels) {position : Nat}
    (hfree : r.classes.lookup position = none) (name : String) (location : Option Location) :
    Labelled sc sites (o.fill (.classOf position) (.classDeclaration name []))
      { r with
        graph := (r.graph.push (.classDeclaration name []) location).2
        classes := (position, r.graph.size) :: r.classes } (labels ++ [.classOf position]) where
  nodes := by
    have hnew := h.tables.classes.missing (fun hk hk' => hk.trans hk'.symm) rfl hfree
    exact h.nodes.push hnew (.inr ⟨rfl, .classOf ..⟩) (.classDeclaration name .nil)
      (fun he => Label.noConfusion he) location
  tables := h.tables.extend_class hfree rfl rfl (by rw [h.size])
  known := h.known.extend rfl fun _ _ => Label.noConfusion
  course := Course.fill_iff.mpr
    (h.course.extend rfl rfl (fun _ hp => isSome_lookup_cons hp _) rfl)

/-- A record of a declared type, which is known at once; its members are still to come. -/
theorem push_declared (h : Labelled sc sites (o.hide i) r labels)
    (hpending : ∀ j ∈ o.aliases, j ∈ o.hidden) (hi : i ∉ o.hidden)
    (hkey : SameInstance labels key i) (hd : Denotes sc i (.declared i.1 i.2))
    (location : Option Location) :
    Labelled sc sites (o.fill (.declared i.1 i.2) (.record (Scope.emptyLabels i.1 i.2)))
      { r with
        graph := (r.graph.push (Scope.emptyRecord key.1 key.2) location).2
        instances := (key, r.graph.size) :: r.instances } (labels ++ [.declared i.1 i.2]) := by
  have hpre : labels <+: labels ++ [.declared i.1 i.2] := List.prefix_append _ _
  have hlast := At.last labels (.declared i.1 i.2)
  rw [h.size] at hlast
  have hnew : .declared i.1 i.2 ∉ labels := fun hm =>
    h.course.not_remembered h.nodes.nodup List.mem_cons_self (h.known.records hm)
  have hrel : (Scope.emptyRecord key.1 key.2).Rel (At labels)
      (.record (Scope.emptyLabels i.1 i.2)) := by
    refine .record ⟨?_, .nil, ?_, hkey.arguments, .nil⟩
    · exact congrArg some hkey.name
    · exact congrArg some hkey.name
  refine ⟨?_, ?_, ?_, ?_⟩
  · exact h.nodes.push hnew (.inr ⟨rfl, .record ..⟩) hrel (fun he => Label.noConfusion he) location
  · exact h.tables.extend (.inr ⟨i.1, i.2, rfl⟩) rfl rfl rfl
  · refine h.known.remember hpre (hkey.mono hpre) hlast hd rfl ?_
    intro name arguments hm
    obtain hm | hm := List.mem_append.mp hm
    · exact .inl hm
    · cases List.mem_singleton.mp hm
      exact .inr rfl
  · have hextended : Course (o.hide i)
        { r with graph := (r.graph.push (Scope.emptyRecord key.1 key.2) location).2 }
        (labels ++ [.declared i.1 i.2]) := h.course.extend rfl rfl (fun _ hp => hp) rfl
    exact Course.fill_iff.mpr (hextended.remember hpending hi (hkey.mono hpre) rfl rfl rfl)

/-- A declared type is known by the node of its value. -/
theorem remember (h : Labelled sc sites (o.hide i) r labels)
    (hpending : ∀ j ∈ o.aliases, j ∈ o.hidden) (hi : i ∉ o.hidden)
    (hkey : SameInstance labels key i) {id : NodeId} (ha : At labels id label)
    (hd : Denotes sc i label) :
    Labelled sc sites o { r with instances := (key, id) :: r.instances } labels where
  nodes := h.nodes
  tables := ⟨h.tables.framework, h.tables.partials, h.tables.classes⟩
  known := h.known.remember (List.prefix_refl _) hkey ha hd rfl fun _ _ hm => .inl hm
  course := h.course.remember hpending hi hkey rfl rfl rfl

/-- The text of a declared type is begun. -/
theorem enter (h : Labelled sc sites o r labels)
    (hopen : Owner.type i.1 i.2 ∉ o.frames.map Prod.fst) (hkey : SameInstance labels key i)
    (hnone : r.instances.lookup key = none) :
    Labelled sc sites ((o.hide i).within (.type i.1 i.2) 0) r labels where
  nodes := h.nodes
  tables := h.tables
  known := h.known
  course := by
    have hhidden := h.course.hide hkey hnone
    have hnew := hhidden.not_remembered h.nodes.nodup List.mem_cons_self
    exact hhidden.enter hopen (h.course.free hopen hnew) (.inr ⟨i, List.mem_cons_self, rfl⟩)

theorem leave (h : Labelled sc sites (o.within owner count) r labels)
    (hs : Settled r labels owner) : Labelled sc sites o r labels :=
  ⟨h.nodes, h.tables, h.known, h.course.leave hs⟩

/-- Which aliases are pending, and which were left without structure, is no matter of the nodes. -/
theorem of_pending (h : Labelled sc sites o r labels) {o' : Opens} {pending : List Instance}
    {recursive : List String} (hcourse : Course o' { r with pending, recursive } labels)
    (hunfilled : o'.unfilled = o.unfilled) :
    Labelled sc sites o' { r with pending, recursive } labels where
  nodes := hunfilled ▸ h.nodes
  tables := ⟨h.tables.framework, h.tables.partials, h.tables.classes⟩
  known := ⟨h.known.instances, h.known.records⟩
  course := hcourse

/-- A node that is being filled gets another form. -/
theorem setForm (h : Labelled sc sites (o.fill label lform) r labels) {id : NodeId}
    (ha : At labels id label) {lform' : TypeForm Label} (hrel : form.Rel (At labels) lform')
    (hfill : Fillable label lform') :
    Labelled sc sites (o.fill label lform') { r with graph := r.graph.setForm id form } labels where
  nodes := h.nodes.setForm ha hrel hfill
  tables := ⟨h.tables.framework, h.tables.partials, h.tables.classes⟩
  known := ⟨h.known.instances, h.known.records⟩
  course := ⟨h.course.pending, h.course.aliases, h.course.unknown, h.course.started,
    h.course.owners, h.course.current⟩

theorem modifyRecord {record record' : RecordType Label}
    (h : Labelled sc sites (o.fill (.declared i.1 i.2) (.record record)) r labels) {id : NodeId}
    (ha : At labels id (.declared i.1 i.2)) {change : RecordType → RecordType}
    (hchange : ∀ x, x.Rel (At labels) record → (change x).Rel (At labels) record') :
    Labelled sc sites (o.fill (.declared i.1 i.2) (.record record'))
      { r with graph := r.graph.modifyRecord id change } labels := by
  have hrel := h.nodes.form_rel ha
  generalize hform : r.graph.form id = form at hrel
  cases hrel with
  | @record x _ hx =>
      have hmodify : r.graph.modifyRecord id change = r.graph.setForm id (.record (change x)) := by
        rw [TypeGraph.modifyRecord, hform]
      rw [hmodify]
      exact h.setForm ha (.record (hchange x hx)) (.record ..)

theorem filled (h : Labelled sc sites (o.fill label lform) r labels)
    (hform : sc.formOf sites label = some lform) : Labelled sc sites o r labels :=
  ⟨h.nodes.filled hform, h.tables, h.known, Course.fill_iff.mp h.course⟩

end Labelled

end PropSchema.TypeScript
