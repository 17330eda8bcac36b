import PropSchema.Proofs.TypeGraph.Heights
import PropSchema.Proofs.TypeScript.Framework
import PropSchema.Proofs.TypeScript.Mentions
/-!
Steps of resolution, and relations between what a step starts from and what it leads to. A relation
that runs through a few changes runs through all that steps make but the records of declarations.
-/
namespace PropSchema.TypeScript

open Resolve

/-- All nodes that are remembered, and those that unions are made of, are there. -/
structure Resolution.Known (r : Resolution) : Prop where
  primitives : TypeGraph.primitiveNames.length ≤ r.graph.size
  unions : ∀ {id members}, r.graph.form id = .union members → ∀ m ∈ members, m < r.graph.size
  instances : ∀ e ∈ r.instances, e.2 < r.graph.size
  framework : ∀ e ∈ r.framework, e.2 < r.graph.size
  partials : ∀ e ∈ r.partials, e.2 < r.graph.size
  classes : ∀ e ∈ r.classes, e.2 < r.graph.size

theorem lt_of_lookup {κ : Type} [BEq κ] [LawfulBEq κ] {table : List (κ × NodeId)} {size : Nat}
    (h : ∀ e ∈ table, e.2 < size) {key : κ} {id : NodeId} (hl : table.lookup key = some id) :
    id < size := by
  obtain ⟨before, after, he, -⟩ := List.lookup_eq_some_iff.mp hl
  exact h (key, id) (by simp [he])

theorem lt_of_mem_leavesTo {g : TypeGraph} {size depth : Nat}
    (hunions : ∀ {id members}, g.form id = .union members → ∀ m ∈ members, m < size)
    {members : List NodeId} (h : ∀ m ∈ members, m < size) :
    ∀ leaf ∈ g.leavesTo depth members, leaf < size :=
  TypeGraph.forall_leavesTo (fun hform _ => hunions hform) h

namespace Resolution.Known
variable {r : Resolution}

/-- What is being resolved does not matter. -/
theorem course (h : r.Known) (pending : List Instance) (recursive : List String) :
    ({ r with pending, recursive } : Resolution).Known :=
  ⟨h.primitives, h.unions, h.instances, h.framework, h.partials, h.classes⟩

/-- The graph may change while what is remembered is the same. -/
theorem of_grown (h : r.Known) {graph : TypeGraph} (hsize : r.graph.size ≤ graph.size)
    (hunions : ∀ {id members}, graph.form id = .union members → ∀ m ∈ members, m < graph.size) :
    ({ r with graph } : Resolution).Known :=
  ⟨Nat.le_trans h.primitives hsize, hunions,
    fun e he => Nat.lt_of_lt_of_le (h.instances e he) hsize,
    fun e he => Nat.lt_of_lt_of_le (h.framework e he) hsize,
    fun e he => Nat.lt_of_lt_of_le (h.partials e he) hsize,
    fun e he => Nat.lt_of_lt_of_le (h.classes e he) hsize⟩

theorem push (h : r.Known) (form : TypeForm)
    (hform : ∀ members, form = .union members → ∀ m ∈ members, m < r.graph.size)
    (location : Option Location) :
    ({ r with graph := (r.graph.push form location).2 } : Resolution).Known := by
  have hsize := size_push r.graph form location
  refine h.of_grown (hsize ▸ Nat.le_succ _) ?_
  intro id members hunion m hm
  rw [hsize]
  rw [form_push] at hunion
  split at hunion
  · exact Nat.lt_succ_of_lt (hform members hunion m hm)
  · exact Nat.lt_succ_of_lt (h.unions hunion m hm)

theorem setForm (h : r.Known) {id : NodeId} (hid : id < r.graph.size) {form : TypeForm}
    (hform : ∀ members, form ≠ .union members) :
    ({ r with graph := r.graph.setForm id form } : Resolution).Known := by
  have hsize := TypeGraph.size_setForm r.graph id form
  refine h.of_grown (Nat.le_of_eq hsize.symm) ?_
  intro other members hunion
  rw [TypeGraph.form_setForm hid] at hunion
  rw [hsize]
  split at hunion
  · exact absurd hunion (hform members)
  · exact h.unions hunion

end Resolution.Known

/-- A node that is there. -/
def Present (size : Nat) (id : NodeId) : Prop := id < size

/--
A node as steps make it: what it is made of is there, the properties of a record say where they are
declared, and a record with a name has no place. Records of declarations are made in another way.
-/
structure Plain (size : Nat) (form : TypeForm) (location : Option Location) : Prop where
  parts : ∀ part ∈ form.parts, part < size
  declared : ∀ {record}, form = .record record → ∀ p ∈ record.properties, p.declaration.isSome
  nameless : ∀ {record}, form = .record record → record.name = none ∨ location = none

theorem Plain.of_no_record {size : Nat} {form : TypeForm} {location : Option Location}
    (hparts : ∀ part ∈ form.parts, part < size) (hform : ∀ record, form ≠ .record record) :
    Plain size form location :=
  ⟨hparts, fun h => absurd h (hform _), fun h => absurd h (hform _)⟩

/-- A node that is known before its bound or its bases are gets them. -/
inductive Completes : TypeForm → TypeForm → Prop
  | parameter (name : String) (bound : Option NodeId) :
      Completes (.parameter name none) (.parameter name bound)
  | classDeclaration (name : String) (bases : List NodeId) :
      Completes (.classDeclaration name []) (.classDeclaration name bases)

/-- What was remembered in a resolution still is in another one, behind what is new there. -/
structure Resolution.Recalls (r r' : Resolution) : Prop where
  instances : r.instances <:+ r'.instances
  framework : r.framework <:+ r'.framework
  partials : r.partials <:+ r'.partials
  classes : r.classes <:+ r'.classes

namespace Resolution.Recalls
variable {r r' r'' : Resolution}

/-- The graph, and what is being resolved, do not matter. -/
theorem of_eq (graph : TypeGraph) (pending : List Instance) (recursive : List String) :
    r.Recalls { r with graph, pending, recursive } :=
  ⟨List.suffix_refl _, List.suffix_refl _, List.suffix_refl _, List.suffix_refl _⟩

theorem refl (r : Resolution) : r.Recalls r := of_eq r.graph r.pending r.recursive

theorem remember (key : Instance) (id : NodeId) :
    r.Recalls { r with instances := (key, id) :: r.instances } :=
  ⟨List.suffix_cons _ _, List.suffix_refl _, List.suffix_refl _, List.suffix_refl _⟩

theorem trans (h : r.Recalls r') (h' : r'.Recalls r'') : r.Recalls r'' :=
  ⟨h.instances.trans h'.instances, h.framework.trans h'.framework, h.partials.trans h'.partials,
    h.classes.trans h'.classes⟩

end Resolution.Recalls

/-- A relation that runs through what steps are made of. -/
structure StepRelation (sc : Scope) (P : String → Prop) (R : Resolution → Resolution → Prop) :
    Prop where
  refl : ∀ r, R r r
  trans : ∀ {r r' r''}, R r r' → R r' r'' → r'.Known → R r r''
  size : ∀ {r r'}, R r r' → r.graph.size ≤ r'.graph.size
  kept : ∀ {r r'}, R r r' → ∀ id < r.graph.size, r'.graph.form id = r.graph.form id
  push : ∀ {r form location}, Plain r.graph.size form location →
    R r { r with graph := (r.graph.push form location).2 }
  tables : ∀ {r r'}, r'.graph = r.graph → r'.instances = r.instances → r.Recalls r' → R r r'
  remember : ∀ {r key id named}, P key.1 → sc.find? key.1 = some named → ¬ named.isRecord →
    id < r.graph.size → R r { r with instances := (key, id) :: r.instances }
  complete : ∀ {r r' id form}, R r r' → r.graph.size ≤ id → id < r'.graph.size →
    Completes (r'.graph.form id) form → R r { r' with graph := r'.graph.setForm id form }

/-- A step goes as a relation says from wherever there are enough nodes, with a result that is right
for the nodes that there are then. -/
def Steps (R : Resolution → Resolution → Prop) (size : Nat) {α : Type} (m : Resolve α)
    (Q : Nat → α → Prop) : Prop :=
  ∀ r a r', size ≤ r.graph.size → r.Known → m r = some (a, r') →
    R r r' ∧ r'.Known ∧ Q r'.graph.size a

namespace Steps
variable {sc : Scope} {P : String → Prop} {R : Resolution → Resolution → Prop} {size : Nat}
  {α β : Type} {Q : Nat → α → Prop} {S : Nat → β → Prop}

theorem imp {m : Resolve α} {Q' : Nat → α → Prop} (h : Steps R size m Q)
    (himp : ∀ size' a, Q size' a → Q' size' a) : Steps R size m Q' := by
  intro r a r' hsize hknown hm
  obtain ⟨hR, hknown', hQ⟩ := h r a r' hsize hknown hm
  exact ⟨hR, hknown', himp _ a hQ⟩

/-- A step that looks at the resolution first. -/
theorem of_get {f : Resolution → Resolve α}
    (h : ∀ r, size ≤ r.graph.size → r.Known → Steps R r.graph.size (f r) Q) :
    Steps R size (get >>= f) Q :=
  fun r a r' hsize hknown hm => h r hsize hknown r a r' (Nat.le_refl _) hknown hm

section Closure
variable (hR : StepRelation sc P R)
include hR

theorem pure {a : α} (h : ∀ size', size ≤ size' → Q size' a) : Steps R size (pure a) Q := by
  intro r a' r' hsize hknown hm
  cases hm
  exact ⟨hR.refl r, hknown, h _ hsize⟩

theorem present {id : NodeId} (h : id < size) : Steps R size (Pure.pure id) Present :=
  pure hR fun _ hle => Nat.lt_of_lt_of_le h hle

theorem bind {m : Resolve α} {f : α → Resolve β} (h : Steps R size m Q)
    (hnext : ∀ size' a, size ≤ size' → Q size' a → Steps R size' (f a) S) :
    Steps R size (m >>= f) S := by
  intro r b r' hsize hknown hm
  obtain ⟨⟨a, r₁⟩, hm, hf⟩ := Option.bind_eq_some_iff.mp hm
  obtain ⟨hfirst, hknown₁, hQ⟩ := h r a r₁ hsize hknown hm
  obtain ⟨hsecond, hknown', hS⟩ :=
    hnext _ a (Nat.le_trans hsize (hR.size hfirst)) hQ r₁ b r' (Nat.le_refl _) hknown₁ hf
  exact ⟨hR.trans hfirst hsecond hknown₁, hknown', hS⟩

/-- A step goes the same way whatever is being resolved around it. -/
theorem around {m : Resolve α} {r r' : Resolution} {a : α} {pending : List Instance}
    {recursive : List String} (h : Steps R size m Q) (hsize : size ≤ r.graph.size)
    (hknown : r.Known) (hm : m { r with pending, recursive } = some (a, r')) :
    R r r' ∧ r'.Known ∧ Q r'.graph.size a := by
  have hknown₁ := hknown.course pending recursive
  obtain ⟨hstep, hknown', hQ⟩ := h { r with pending, recursive } a r' hsize hknown₁ hm
  have hcourse : R r { r with pending, recursive } := hR.tables rfl rfl (.of_eq _ _ _)
  exact ⟨hR.trans hcourse hstep hknown₁, hknown', hQ⟩

theorem mapM {f : α → Resolve β} {xs : List α}
    (hmono : ∀ {size size' b}, size ≤ size' → S size b → S size' b)
    (h : ∀ x ∈ xs, ∀ size', size ≤ size' → Steps R size' (f x) S) :
    Steps R size (xs.mapM f) fun size' bs => ∀ b ∈ bs, S size' b := by
  induction xs generalizing size with
  | nil => exact pure hR fun _ _ => nofun
  | cons x xs ih =>
      rw [List.mapM_cons]
      rw [List.forall_mem_cons] at h
      refine bind hR (h.1 size (Nat.le_refl _)) fun size₁ b hle hb => ?_
      refine bind hR (ih fun y hy size' hle' => h.2 y hy size' (Nat.le_trans hle hle'))
        fun size₂ bs hle₂ hbs => pure hR fun size₃ hle₃ => ?_
      rw [List.forall_mem_cons]
      exact ⟨hmono (Nat.le_trans hle₂ hle₃) hb, fun b hm => hmono hle₃ (hbs b hm)⟩

/-- Steps whose results do not matter. -/
theorem mapM_of_true {f : α → Resolve β} {xs : List α}
    (h : ∀ x ∈ xs, ∀ size', size ≤ size' → Steps R size' (f x) fun _ _ => True) :
    Steps R size (xs.mapM f) fun _ _ => True :=
  (mapM hR (fun _ _ => trivial) h).imp fun _ _ _ => trivial

theorem map {m : Resolve α} (h : Steps R size m Q) (f : α → β) {S : β → Prop}
    (hS : ∀ size' a, Q size' a → S (f a)) :
    Steps R size (m >>= fun a => Pure.pure (f a)) fun _ => S :=
  bind hR h fun _ a _ hQ => pure hR fun _ _ => hS _ a hQ

theorem push {form : TypeForm} {location : Option Location} (h : Plain size form location) :
    Steps R size (push form location) Present := by
  intro r id r' hsize hknown hm
  cases hm
  have hplain : Plain r.graph.size form location :=
    ⟨fun part hp => Nat.lt_of_lt_of_le (h.parts part hp) hsize, h.declared, h.nameless⟩
  refine ⟨hR.push hplain, hknown.push form ?_ location, ?_⟩
  · rintro members rfl m hm
    exact hplain.parts m hm
  · exact Nat.lt_of_lt_of_eq (Nat.lt_succ_self _) (size_push r.graph form location).symm

/-- A node that is no record and that is made of nothing. -/
theorem make {form : TypeForm} (hparts : form.parts = []) (hform : ∀ record, form ≠ .record record)
    (location : Option Location) : Steps R size (Resolve.push form location) Present :=
  push hR (.of_no_record (by simp [hparts]) hform)

theorem unionOf {members : List NodeId} (h : ∀ m ∈ members, m < size)
    (location : Option Location) : Steps R size (unionOf members location) Present := by
  intro r id r' hsize hknown hm
  have hleaves : ∀ leaf ∈ r.graph.leaves members, leaf < r.graph.size :=
    lt_of_mem_leavesTo hknown.unions fun m hm => Nat.lt_of_lt_of_le (h m hm) hsize
  rw [unionOf_run] at hm
  generalize r.graph.leaves members = leaves at hleaves hm
  split at hm
  · cases hm
    exact ⟨hR.refl r, hknown, hleaves _ List.mem_cons_self⟩
  · have hpush : Steps R r.graph.size (Resolve.push (.union leaves) location) Present :=
      push hR (.of_no_record hleaves (by simp))
    exact hpush r id r' (Nat.le_refl _) hknown hm

theorem partialType {target : NodeId} (ht : target < size) (location : Option Location) :
    Steps R size (partialType target location) Present := by
  intro r id r' hsize hknown hm
  rw [partialType_run] at hm
  split at hm
  · next hl =>
      cases hm
      exact ⟨hR.refl r, hknown, lt_of_lookup hknown.partials hl⟩
  · cases hm
    have hpush : Steps R size (Resolve.push (.partialOf target) location) Present :=
      push hR (.of_no_record (by simpa [TypeForm.parts] using ht) (by simp))
    obtain ⟨hstep, hknown', hid⟩ := hpush r r.graph.size _ hsize hknown rfl
    refine ⟨hR.trans hstep (hR.tables rfl rfl ?_) hknown', ?_, hid⟩
    · exact ⟨List.suffix_refl _, List.suffix_refl _, List.suffix_cons _ _, List.suffix_refl _⟩
    refine ⟨hknown'.primitives, hknown'.unions, hknown'.instances, hknown'.framework, ?_,
      hknown'.classes⟩
    rw [List.forall_mem_cons]
    exact ⟨hid, hknown'.partials⟩

theorem frameworkNode (key : Instance) {make : Resolve NodeId} (h : Steps R size make Present) :
    Steps R size (frameworkNode key make) Present := by
  intro r id r' hsize hknown hm
  rw [frameworkNode_run] at hm
  split at hm
  · next hl =>
      cases hm
      exact ⟨hR.refl r, hknown, lt_of_lookup hknown.framework hl⟩
  · obtain ⟨⟨id', r₁⟩, hmake, hm⟩ := Option.bind_eq_some_iff.mp hm
    cases hm
    obtain ⟨hstep, hknown', hid⟩ := h r _ _ hsize hknown hmake
    refine ⟨hR.trans hstep (hR.tables rfl rfl ?_) hknown', ?_, hid⟩
    · exact ⟨List.suffix_refl _, List.suffix_cons _ _, List.suffix_refl _, List.suffix_refl _⟩
    refine ⟨hknown'.primitives, hknown'.unions, hknown'.instances, ?_, hknown'.partials,
      hknown'.classes⟩
    rw [List.forall_mem_cons]
    exact ⟨hid, hknown'.framework⟩

/-- The shared primitives are there from the beginning. -/
theorem shared {id : NodeId} (hid : id < TypeGraph.primitiveNames.length) :
    Steps R size (Pure.pure id) Present := by
  intro r id' r' hsize hknown hm
  cases hm
  exact ⟨hR.refl r, hknown, Nat.lt_of_lt_of_le hid hknown.primitives⟩

theorem primitive {name : String} {id : NodeId} (hid : TypeGraph.primitive? name = some id) :
    Steps R size (Pure.pure id) Present := by
  obtain ⟨hlt, -⟩ := List.findIdx?_eq_some_iff_getElem.mp hid
  exact shared hR hlt

/-- A record of the framework has a name but no place. -/
theorem frameworkRecord (symbol : String) (arguments bases : List NodeId) :
    Steps R size (frameworkRecord symbol arguments bases) Present := by
  refine push hR ⟨nofun, ?_, fun _ => .inr rfl⟩
  rintro record ⟨⟩ p hp
  cases hp

/-- A handler of an event returns nothing. -/
theorem frameworkHandler (symbol : String) {event : NodeId} (he : event < size) :
    Steps R size (Resolve.push (.function ⟨[⟨"event", event, false⟩], TypeGraph.voidId,
      some symbol⟩) none) Present := by
  intro r id r' hsize hknown hm
  have hvoid : TypeGraph.voidId < r.graph.size :=
    Nat.lt_of_lt_of_le (by decide) hknown.primitives
  have hpush : Steps R r.graph.size (Resolve.push (.function ⟨[⟨"event", event, false⟩],
      TypeGraph.voidId, some symbol⟩) none) Present := by
    refine push hR (.of_no_record ?_ (by simp))
    simp [TypeForm.parts, hvoid, Nat.lt_of_lt_of_le he hsize]
  exact hpush r id r' (Nat.le_refl _) hknown hm

theorem frameworkType (symbol : String) {arguments : List NodeId}
    (ha : ∀ id ∈ arguments, id < size) : Steps R size (frameworkType symbol arguments) Present := by
  have hplain : ∀ name arguments, Steps R size
      (TypeScript.frameworkNode (qualified name, arguments)
        (TypeScript.frameworkRecord (qualified name) arguments [])) Present :=
    fun name arguments => frameworkNode hR _ (frameworkRecord hR _ _ _)
  refine frameworkNode hR _ ?_
  dsimp only
  split
  · split
    · split
      · exact frameworkHandler hR symbol (ha _ List.mem_cons_self)
      · exact bind hR (hplain _ _) fun _ _ _ he => frameworkHandler hR symbol he
    · exact bind hR (hplain _ _) fun _ _ _ he => frameworkHandler hR symbol he
  · split
    · exact bind hR (hplain _ _) fun _ _ _ _ => frameworkRecord hR _ _ _
    · exact frameworkRecord hR _ _ _

theorem builtinType? (name : String) {arguments : List NodeId} (location : Option Location)
    (ha : ∀ id ∈ arguments, id < size) {m : Resolve NodeId} (hm : Steps R size m Present) :
    Steps R size ((TypeScript.builtinType? name arguments location).getD m) Present := by
  unfold TypeScript.builtinType?
  split
  · intro r id r' hsize hknown hrun
    have hany : TypeGraph.anyId < r.graph.size :=
      Nat.lt_of_lt_of_le (by decide) hknown.primitives
    have helement : arguments.headD TypeGraph.anyId < r.graph.size := by
      cases arguments with
      | nil => exact hany
      | cons first rest => exact Nat.lt_of_lt_of_le (ha first List.mem_cons_self) hsize
    have hpush : Steps R r.graph.size (Resolve.push (.array (arguments.headD TypeGraph.anyId))
        location) Present :=
      push hR (.of_no_record (by simpa [TypeForm.parts] using helement) (by simp))
    exact hpush r id r' (Nat.le_refl _) hknown hrun
  · split
    · exact partialType hR (ha _ List.mem_cons_self) location
    · exact present hR (ha _ List.mem_cons_self)
    · exact hm

theorem qualifiedType (text : String) {arguments : List NodeId} (ha : ∀ id ∈ arguments, id < size)
    (place : Place) : Steps R size (sc.qualifiedType text arguments place) Present := by
  unfold Scope.qualifiedType
  dsimp only
  split
  · exact frameworkType hR _ ha
  · exact make hR rfl (by simp) _

/-- A type that is no record becomes known. -/
theorem remember {key : Instance} {id : NodeId} {named : Named} (hid : id < size) (hkey : P key.1)
    (hf : sc.find? key.1 = some named) (hrecord : ¬ named.isRecord) :
    Steps R size (remember key id) fun _ _ => True := by
  intro r u r' hsize hknown hm
  cases hm
  have hid := Nat.lt_of_lt_of_le hid hsize
  refine ⟨hR.remember hkey hf hrecord hid, ⟨hknown.primitives, hknown.unions, ?_,
    hknown.framework, hknown.partials, hknown.classes⟩, trivial⟩
  rw [List.forall_mem_cons]
  exact ⟨hid, hknown.instances⟩

theorem enumMembers (next : Option Numeral) (ms : List EnumMember) :
    Steps R size (sc.enumMembers next ms) fun size' ids => ∀ id ∈ ids, id < size' := by
  induction ms generalizing size next with
  | nil => exact pure hR fun _ _ => nofun
  | cons m ms ih =>
      have hrest : ∀ {size' id}, id < size' → Steps R size'
          (sc.enumMembers (Scope.numberAfter (Scope.enumValue next m.initializer)) ms >>=
            fun ids => Pure.pure (id :: ids)) fun size' ids => ∀ id ∈ ids, id < size' := by
        intro size' id hid
        refine bind hR (ih _) fun size₁ ids hle hids => pure hR fun size₂ hle' => ?_
        rw [List.forall_mem_cons]
        exact ⟨Nat.lt_of_lt_of_le hid (Nat.le_trans hle hle'),
          fun id hid => Nat.lt_of_lt_of_le (hids id hid) hle'⟩
      cases hvalue : Scope.enumValue next m.initializer with
      | some value =>
          rw [hvalue] at hrest
          simp only [Scope.enumMembers, hvalue]
          exact bind hR (make hR rfl (by simp) _) fun _ _ _ hid => hrest hid
      | none =>
          rw [hvalue] at hrest
          simp only [Scope.enumMembers, hvalue]
          exact bind hR (make hR rfl (by simp) _) fun _ _ _ hid => hrest hid

theorem enumType (first : EnumDecl) (more : List EnumDecl) :
    Steps R size (sc.enumType first more) Present :=
  bind hR (enumMembers hR _ _) fun _ _ _ hids => unionOf hR hids _

end Closure

end Steps

end PropSchema.TypeScript
