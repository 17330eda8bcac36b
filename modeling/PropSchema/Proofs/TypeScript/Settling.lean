import PropSchema.Proofs.TypeScript.Records
/-!
Resolution that settles. With so much room among the declared types that are not known yet, a step
comes to a result from a depth on, and to the same one at every greater depth. What is known stays
known, and what is being resolved around the step stays the same, so a sequence of steps has the
room of the first.
-/
namespace PropSchema.TypeScript

open Resolve

theorem total_le_total {α : Type} {f g : α → Nat} {xs : List α} (h : ∀ x ∈ xs, f x ≤ g x) :
    total f xs ≤ total g xs := by
  induction xs with
  | nil => exact Nat.le_refl 0
  | cons x xs ih =>
      rw [List.forall_mem_cons] at h
      exact Nat.add_le_add h.1 (ih h.2)

/-- A sum is as much smaller as one of its terms, if no other is larger. -/
theorem total_add_le {α : Type} {f g : α → Nat} {xs : List α} (h : ∀ x ∈ xs, f x ≤ g x) {x : α}
    (hx : x ∈ xs) {n : Nat} (hn : f x + n ≤ g x) : total f xs + n ≤ total g xs := by
  induction xs with
  | nil => nomatch hx
  | cons y xs ih =>
      rw [List.forall_mem_cons] at h
      rw [total, total]
      obtain rfl | hx := List.mem_cons.mp hx
      · have := total_le_total h.2
        omega
      · have := ih h.2 hx
        omega

theorem le_total {α : Type} (f : α → Nat) {xs : List α} {x : α} (hx : x ∈ xs) :
    f x ≤ total f xs := by
  have hbelow : ∀ y ∈ xs, 0 ≤ f y := fun _ _ => Nat.zero_le _
  have h := total_add_le hbelow hx (Nat.le_of_eq (Nat.zero_add (f x)))
  omega

/-- The declarations of a name. -/
def Named.declarations : Named → List Declaration
  | .interfaces first more => (first :: more).map .interfaceDecl
  | .aliases first more => (first :: more).map .aliasDecl
  | .classes first more => (first :: more).map fun site => .classDecl site.decl
  | .enums first more => (first :: more).map .enumDecl

def Named.size (named : Named) : Nat := total Declaration.size named.declarations

/-- What resolution keeps while it goes on. -/
structure Resolution.Keeps (r r' : Resolution) : Prop where
  instances : r.instances ⊆ r'.instances
  pending : r'.pending = r.pending

namespace Resolution.Keeps
variable {r r' r'' : Resolution}

theorem refl (r : Resolution) : r.Keeps r := ⟨List.Subset.refl _, rfl⟩

theorem trans (h : r.Keeps r') (h' : r'.Keeps r'') : r.Keeps r'' :=
  ⟨List.Subset.trans h.instances h'.instances, h'.pending.trans h.pending⟩

end Resolution.Keeps

namespace Scope

/-- Whether a declared type without arguments may still be gone into: it is not known, nor is it an
alias that is being resolved. -/
def isOpen (r : Resolution) (entry : String × Named) : Bool :=
  (r.instances.lookup (entry.1, [])).isNone &&
    (entry.2.isRecord || !r.pending.contains (entry.1, []))

/-- The size of all declared types that may still be gone into. -/
def openSize (sc : Scope) (r : Resolution) : Nat :=
  total (fun entry => if isOpen r entry then entry.2.size else 0) sc.declared

variable {sc : Scope} {r r' : Resolution}

theorem isOpen_iff {entry : String × Named} : isOpen r entry ↔
    r.instances.lookup (entry.1, []) = none ∧
      (entry.2.isRecord ∨ (entry.1, []) ∉ r.pending) := by
  simp [isOpen]

theorem openSize_le (h : ∀ entry ∈ sc.declared, isOpen r' entry → isOpen r entry) :
    sc.openSize r' ≤ sc.openSize r := by
  refine total_le_total fun entry he => ?_
  split
  · next ho => exact Nat.le_of_eq (if_pos (h entry he ho)).symm
  · exact Nat.zero_le _

/-- Where a declared type is closed, its size is no longer counted. -/
theorem size_add_openSize_le (h : ∀ entry ∈ sc.declared, isOpen r' entry → isOpen r entry)
    {entry : String × Named} (he : entry ∈ sc.declared) (ho : isOpen r entry)
    (hc : ¬ isOpen r' entry) : entry.2.size + sc.openSize r' ≤ sc.openSize r := by
  rw [Nat.add_comm]
  refine total_add_le (fun other hother => ?_) he ?_
  · split
    · next hopen => exact Nat.le_of_eq (if_pos (h other hother hopen)).symm
    · exact Nat.zero_le _
  · rw [if_neg hc, if_pos ho]
    exact Nat.le_of_eq (Nat.zero_add _)

theorem lookup_of_subset {instances instances' : List (Instance × NodeId)}
    (h : instances ⊆ instances') {key : Instance} (hnone : instances'.lookup key = none) :
    instances.lookup key = none := by
  rw [List.lookup_eq_none_iff] at hnone ⊢
  exact fun e he => hnone e (h he)

/-- What is known stays known, and nothing that is being resolved is left. -/
theorem isOpen_of_subset (hinstances : r.instances ⊆ r'.instances)
    (hpending : r.pending ⊆ r'.pending) {entry : String × Named} (h : isOpen r' entry) :
    isOpen r entry := by
  rw [isOpen_iff] at h ⊢
  exact ⟨lookup_of_subset hinstances h.1, h.2.imp_right fun hn hm => hn (hpending hm)⟩

theorem openSize_of_keeps (h : r.Keeps r') : sc.openSize r' ≤ sc.openSize r :=
  openSize_le fun _ _ => isOpen_of_subset h.instances (h.pending ▸ List.Subset.refl _)

theorem openSize_le_total (sc : Scope) (r : Resolution) :
    sc.openSize r ≤ total (fun entry => entry.2.size) sc.declared := by
  refine total_le_total fun entry _ => ?_
  split
  · exact Nat.le_refl _
  · exact Nat.zero_le _

end Scope

theorem Resolve.run_bind {α β : Type} {m : Resolve α} {r r' : Resolution} {a : α}
    (h : m r = some (a, r')) (f : α → Resolve β) : (m >>= f) r = f a r' := by
  change (m r).bind _ = _
  rw [h]
  rfl

/-- Steps to growing depths that all come to the same result from a depth on, from where the types
that may still be gone into have no more than a size together. -/
def Resolve.Settles (sc : Scope) (room depth : Nat) {α : Type} (m : Nat → Resolve α)
    (Q : α → Prop) : Prop :=
  ∀ r, sc.openSize r ≤ room → ∃ a r', r.Keeps r' ∧ Q a ∧
    ∀ deeper, depth ≤ deeper → m deeper r = some (a, r')

namespace Resolve.Settles
variable {sc : Scope} {room depth : Nat} {α β : Type} {Q : α → Prop} {S : β → Prop}

theorem imp {m : Nat → Resolve α} {Q' : α → Prop} (h : Settles sc room depth m Q)
    (himp : ∀ a, Q a → Q' a) : Settles sc room depth m Q' := by
  intro r hr
  obtain ⟨a, r', hkeeps, hQ, hrun⟩ := h r hr
  exact ⟨a, r', hkeeps, himp a hQ, hrun⟩

theorem pure {a : α} (h : Q a) : Settles sc room depth (fun _ => Pure.pure a) Q :=
  fun r _ => ⟨a, r, .refl r, h, fun _ _ => rfl⟩

theorem bind {m : Nat → Resolve α} {f : Nat → α → Resolve β} (hm : Settles sc room depth m Q)
    (hf : ∀ a, Q a → Settles sc room depth (fun d => f d a) S) :
    Settles sc room depth (fun d => m d >>= f d) S := by
  intro r hr
  obtain ⟨a, r₁, hkeeps, hQ, hrun⟩ := hm r hr
  obtain ⟨b, r₂, hkeeps', hS, hrun'⟩ :=
    hf a hQ r₁ (Nat.le_trans (Scope.openSize_of_keeps hkeeps) hr)
  refine ⟨b, r₂, hkeeps.trans hkeeps', hS, fun d hd => ?_⟩
  exact (run_bind (hrun d hd) (f d)).trans (hrun' d hd)

/-- A step that looks at the resolution first. -/
theorem of_get {f : Nat → Resolution → Resolve α}
    (h : ∀ r, Settles sc room depth (fun d => f d r) Q) :
    Settles sc room depth (fun d => get >>= f d) Q :=
  fun r hr => h r r hr

theorem map {m : Nat → Resolve α} (h : Settles sc room depth m Q) (f : α → β) :
    Settles sc room depth (fun d => m d >>= fun a => Pure.pure (f a)) fun _ => True :=
  h.bind fun _ _ => pure trivial

theorem mapM {f : Nat → α → Resolve β} {xs : List α}
    (h : ∀ x ∈ xs, Settles sc room depth (fun d => f d x) fun _ => True) :
    Settles sc room depth (fun d => xs.mapM (f d)) fun bs => bs.length = xs.length := by
  induction xs with
  | nil => exact pure rfl
  | cons x xs ih =>
      rw [List.forall_mem_cons] at h
      simp only [List.mapM_cons]
      exact h.1.bind fun b _ => (ih h.2).bind fun bs hbs => pure (congrArg (· + 1) hbs)

theorem forM {f : Nat → α → Resolve PUnit} {xs : List α}
    (h : ∀ x ∈ xs, Settles sc room depth (fun d => f d x) fun _ => True) :
    Settles sc room depth (fun d => ForM.forM xs (f d)) fun _ => True := by
  induction xs with
  | nil => exact pure trivial
  | cons x xs ih =>
      rw [List.forall_mem_cons] at h
      simp only [List.forM_cons]
      exact h.1.bind fun _ _ => ih h.2

/-- One step more than what settles. -/
theorem succ {m m' : Nat → Resolve α} (hsucc : ∀ d, m (d + 1) = m' d)
    (h : Settles sc room depth m' Q) : Settles sc room (depth + 1) m Q := by
  intro r hr
  obtain ⟨a, r', hkeeps, hQ, hrun⟩ := h r hr
  refine ⟨a, r', hkeeps, hQ, fun deeper hd => ?_⟩
  obtain ⟨d, rfl⟩ := Nat.exists_eq_add_of_le' (Nat.le_trans (Nat.le_add_left 1 depth) hd)
  rw [hsucc]
  exact hrun d (Nat.le_of_succ_le_succ hd)

/-- A step that comes to a result by itself. -/
theorem of_run {m : Resolve α} (a : Resolution → α) (next : Resolution → Resolution)
    (hrun : ∀ r, m r = some (a r, next r)) (hkeeps : ∀ r : Resolution, r.Keeps (next r)) :
    Settles sc room depth (fun _ => m) fun _ => True :=
  fun r _ => ⟨a r, next r, hkeeps r, trivial, fun _ _ => hrun r⟩

theorem push (form : TypeForm) (location : Option Location) :
    Settles sc room depth (fun _ => Resolve.push form location) fun _ => True :=
  of_run _ _ (fun _ => rfl) fun _ => ⟨List.Subset.refl _, rfl⟩

theorem unionOf (members : List NodeId) (location : Option Location) :
    Settles sc room depth (fun _ => Resolve.unionOf members location) fun _ => True :=
  of_run _ _ (fun _ => rfl) fun _ => ⟨List.Subset.refl _, rfl⟩

theorem modifyRecord (id : NodeId) (change : RecordType → RecordType) :
    Settles sc room depth (fun _ => Resolve.modifyRecord id change) fun _ => True :=
  of_run _ _ (fun _ => rfl) fun _ => ⟨List.Subset.refl _, rfl⟩

theorem setForm (id : NodeId) (form : TypeForm) :
    Settles sc room depth (fun _ => Resolve.setForm id form) fun _ => True :=
  of_run _ _ (fun _ => rfl) fun _ => ⟨List.Subset.refl _, rfl⟩

theorem remember (key : Instance) (id : NodeId) :
    Settles sc room depth (fun _ => Resolve.remember key id) fun _ => True :=
  of_run _ _ (fun _ => rfl) fun _ => ⟨List.subset_cons_self _ _, rfl⟩

/-- What comes after a change of what is neither a declared type nor being resolved. -/
theorem changing {change : Resolution → Resolution} {next : Nat → Resolve α}
    (h : ∀ r, (change r).instances = r.instances ∧ (change r).pending = r.pending)
    (hnext : Settles sc room depth next Q) :
    Settles sc room depth (fun d => do modify change; next d) Q := by
  have hchange : Settles sc room depth (fun _ => (modify change : Resolve PUnit)) fun _ => True :=
    of_run _ change (fun _ => rfl) fun r => ⟨(h r).1 ▸ List.Subset.refl _, (h r).2⟩
  exact hchange.bind fun _ _ => hnext

theorem partialType (target : NodeId) (location : Option Location) :
    Settles sc room depth (fun _ => TypeScript.partialType target location) fun _ => True := by
  refine of_get fun r => ?_
  cases r.partials.lookup target with
  | some id => exact pure trivial
  | none => exact (push _ _).bind fun id _ => changing (fun _ => ⟨rfl, rfl⟩) (pure trivial)

theorem frameworkNode (key : Instance) {make : Resolve NodeId}
    (h : Settles sc room depth (fun _ => make) fun _ => True) :
    Settles sc room depth (fun _ => TypeScript.frameworkNode key make) fun _ => True := by
  refine of_get fun r => ?_
  cases r.framework.lookup key with
  | some id => exact pure trivial
  | none => exact h.bind fun id _ => changing (fun _ => ⟨rfl, rfl⟩) (pure trivial)

theorem frameworkType (symbol : String) (arguments : List NodeId) :
    Settles sc room depth (fun _ => TypeScript.frameworkType symbol arguments) fun _ => True := by
  have hplain : ∀ name arguments, Settles sc room depth (fun _ =>
      TypeScript.frameworkNode (qualified name, arguments)
        (TypeScript.frameworkRecord (qualified name) arguments [])) fun _ => True :=
    fun name arguments => frameworkNode _ (push _ _)
  refine frameworkNode _ ?_
  dsimp only
  split
  · split
    · split
      · exact push _ _
      · exact (hplain _ _).bind fun _ _ => push _ _
    · exact (hplain _ _).bind fun _ _ => push _ _
  · split
    · exact (hplain _ _).bind fun _ _ => push _ _
    · exact push _ _

theorem qualifiedType (text : String) (arguments : List NodeId) (place : Place) :
    Settles sc room depth (fun _ => sc.qualifiedType text arguments place) fun _ => True := by
  unfold Scope.qualifiedType
  dsimp only
  split
  · exact frameworkType _ _
  · exact push _ _

theorem builtinType? (name : String) (arguments : List NodeId) (location : Option Location)
    {m : Resolve NodeId} (hm : Settles sc room depth (fun _ => m) fun _ => True) :
    Settles sc room depth (fun _ => (TypeScript.builtinType? name arguments location).getD m)
      fun _ => True := by
  unfold TypeScript.builtinType?
  split
  · exact push _ _
  · split
    · exact partialType _ _
    · exact pure trivial
    · exact hm

theorem enumMembers (next : Option Numeral) (ms : List EnumMember) :
    Settles sc room depth (fun _ => sc.enumMembers next ms) fun _ => True := by
  induction ms generalizing next with
  | nil => exact pure trivial
  | cons m ms ih =>
      simp only [Scope.enumMembers]
      cases Scope.enumValue next m.initializer with
      | some value => exact (push _ _).bind fun id _ => (ih _).map _
      | none => exact (push _ _).bind fun id _ => (ih _).map _

theorem enumType (first : EnumDecl) (more : List EnumDecl) :
    Settles sc room depth (fun _ => sc.enumType first more) fun _ => True :=
  (enumMembers _ _).bind fun _ _ => unionOf _ _

end Resolve.Settles

end PropSchema.TypeScript
