import Mathlib.Logic.Relation
import PropSchema.Proofs.TypeScript.Assembly
import PropSchema.Proofs.TypeScript.Steps
/-!
All that resolution changes. What holds of a resolution and through each change holds after every
run, however the steps of the run lie within one another.
-/
namespace PropSchema.TypeScript

open Resolve

/-- No default and no bound that is needed to make an instance leads back to its declaration. -/
def Scope.Apart (sc : Scope) (key : Instance) : Prop :=
  ∀ named, sc.find? key.1 = some named →
    ∀ m ∈ mentionsOfUnbound [] key.2.length named.typeParams, ¬ sc.LeadsTo m.1 key.1

/-- A change that is made on behalf of certain names. Nodes below a bound keep their forms. -/
inductive Change (sc : Scope) (P : String → Prop) (bound : Nat) : Resolution → Resolution → Prop
  | push {r : Resolution} {form : TypeForm} {location : Option Location}
      (plain : Plain r.graph.size form location) :
      Change sc P bound r { r with graph := (r.graph.push form location).2 }
  | tables {r r' : Resolution} (graph : r'.graph = r.graph) (instances : r'.instances = r.instances) :
      Change sc P bound r r'
  | remember {r : Resolution} {key : Instance} {id : NodeId} {named : Named} (mentioned : P key.1)
      (found : sc.find? key.1 = some named) (notRecord : ¬ named.isRecord)
      (known : id < r.graph.size) :
      Change sc P bound r { r with instances := (key, id) :: r.instances }
  | complete {r : Resolution} {id : NodeId} {form : TypeForm} (new : bound ≤ id)
      (known : id < r.graph.size) (completes : Completes (r.graph.form id) form) :
      Change sc P bound r { r with graph := r.graph.setForm id form }
  /-- The record of an instance. One whose parameters stay apart is made but once. -/
  | declare {r : Resolution} {key : Instance} {named : Named} (location : Location)
      (mentioned : P key.1) (found : sc.find? key.1 = some named) (isRecord : named.isRecord)
      (first : r.instances.lookup key = none ∨ ¬ sc.Apart key) :
      Change sc P bound r { r with
        graph := (r.graph.push (Scope.emptyRecord key.1 key.2) (some location)).2
        instances := (key, r.graph.size) :: r.instances }
  /-- A record gets bases and properties, which are declared or are those of another record. -/
  | extend {r : Resolution} {id : NodeId} {record : RecordType} {properties : List Property}
      {bases : List NodeId} (new : bound ≤ id) (form : r.graph.form id = .record record)
      (declared : ∀ p ∈ properties, p.declaration.isSome ∨
        ∃ other source, r.graph.form other = .record source ∧ p ∈ source.properties) :
      Change sc P bound r { r with
        graph := r.graph.setForm id (.record { record with properties, bases }) }

/-- Changes one after another that leave all old nodes as they are. -/
def Run (sc : Scope) (P : String → Prop) (r : Resolution) : Resolution → Prop :=
  Relation.ReflTransGen (Change sc P r.graph.size) r

/-- Only nodes that are there have parts or properties. -/
theorem lt_of_record {g : TypeGraph} {id : NodeId} {record : RecordType}
    (h : g.form id = .record record) : id < g.size := by
  by_contra hge
  rw [TypeGraph.form_of_size_le (Nat.le_of_not_lt hge)] at h
  cases h

namespace Change
variable {sc : Scope} {P : String → Prop} {bound : Nat} {r r' : Resolution}

theorem mono {P' : String → Prop} {bound' : Nat} (h : Change sc P bound r r')
    (hP : ∀ name, P name → P' name) (hle : bound' ≤ bound) : Change sc P' bound' r r' := by
  cases h with
  | push plain => exact .push plain
  | tables graph instances => exact .tables graph instances
  | remember mentioned found notRecord known =>
      exact .remember (hP _ mentioned) found notRecord known
  | complete new known completes => exact .complete (Nat.le_trans hle new) known completes
  | declare location mentioned found isRecord first =>
      exact .declare location (hP _ mentioned) found isRecord first
  | extend new form declared => exact .extend (Nat.le_trans hle new) form declared

theorem size (h : Change sc P bound r r') : r.graph.size ≤ r'.graph.size := by
  cases h with
  | push => exact Nat.le_of_lt (Nat.lt_of_lt_of_eq (Nat.lt_succ_self _) (size_push _ _ _).symm)
  | tables graph => exact graph ▸ Nat.le_refl _
  | remember => exact Nat.le_refl _
  | complete => exact Nat.le_of_eq (TypeGraph.size_setForm _ _ _).symm
  | declare => exact Nat.le_of_lt (Nat.lt_of_lt_of_eq (Nat.lt_succ_self _) (size_push _ _ _).symm)
  | extend => exact Nat.le_of_eq (TypeGraph.size_setForm _ _ _).symm

theorem kept (h : Change sc P bound r r') (hle : bound ≤ r.graph.size) :
    ∀ id < bound, r'.graph.form id = r.graph.form id := by
  intro id hid
  cases h with
  | push => exact form_push_of_lt (Nat.lt_of_lt_of_le hid hle) _ _
  | tables graph => rw [graph]
  | remember => rfl
  | complete new known =>
      exact (TypeGraph.form_setForm known _ _).trans
        (if_neg (Nat.ne_of_lt (Nat.lt_of_lt_of_le hid new)))
  | declare => exact form_push_of_lt (Nat.lt_of_lt_of_le hid hle) _ _
  | extend new form =>
      exact (TypeGraph.form_setForm (lt_of_record form) _ _).trans
        (if_neg (Nat.ne_of_lt (Nat.lt_of_lt_of_le hid new)))

/-- Instances of other names are not touched. -/
theorem lookup_eq (h : Change sc P bound r r') {key : Instance} (hkey : ¬ P key.1) :
    r'.instances.lookup key = r.instances.lookup key := by
  have hcons : ∀ {other : Instance} {id : NodeId}, P other.1 →
      ((other, id) :: r.instances).lookup key = r.instances.lookup key := by
    intro other id hother
    have hne : (key == other) = false := by
      rw [beq_eq_false_iff_ne]
      rintro rfl
      exact hkey hother
    rw [List.lookup_cons, hne]
  cases h with
  | push | complete | extend => rfl
  | tables _ instances => rw [instances]
  | remember mentioned => exact hcons mentioned
  | declare _ mentioned => exact hcons mentioned

/-- What is remembered stays. -/
theorem instances_subset (h : Change sc P bound r r') : r.instances ⊆ r'.instances := by
  cases h with
  | push | complete | extend => exact List.Subset.refl _
  | tables _ instances => exact instances ▸ List.Subset.refl _
  | remember => exact List.subset_cons_self _ _
  | declare => exact List.subset_cons_self _ _

end Change

namespace Run
variable {sc : Scope} {P : String → Prop} {r r' r'' : Resolution}

/-- What each change keeps is kept. -/
theorem invariant {I : Resolution → Prop} (h : Run sc P r r')
    (hstep : ∀ {r₁ r₂}, Change sc P r.graph.size r₁ r₂ → I r₁ → I r₂) (hr : I r) : I r' := by
  induction h with
  | refl => exact hr
  | tail _ hchange ih => exact hstep hchange ih

theorem size (h : Run sc P r r') : r.graph.size ≤ r'.graph.size :=
  h.invariant (I := fun r' => r.graph.size ≤ r'.graph.size)
    (fun hchange hle => Nat.le_trans hle hchange.size) (Nat.le_refl _)

theorem kept (h : Run sc P r r') : ∀ id < r.graph.size, r'.graph.form id = r.graph.form id := by
  refine (h.invariant (I := fun r' => r.graph.size ≤ r'.graph.size ∧
    ∀ id < r.graph.size, r'.graph.form id = r.graph.form id) ?_ ⟨Nat.le_refl _, fun _ _ => rfl⟩).2
  rintro r₁ r₂ hchange ⟨hle, hkept⟩
  exact ⟨Nat.le_trans hle hchange.size,
    fun id hid => (hchange.kept hle id hid).trans (hkept id hid)⟩

theorem lookup_eq (h : Run sc P r r') {key : Instance} (hkey : ¬ P key.1) :
    r'.instances.lookup key = r.instances.lookup key :=
  h.invariant (I := fun r' => r'.instances.lookup key = r.instances.lookup key)
    (fun hchange he => (hchange.lookup_eq hkey).trans he) rfl

theorem instances_subset (h : Run sc P r r') : r.instances ⊆ r'.instances :=
  h.invariant (I := fun r' => r.instances ⊆ r'.instances)
    (fun hchange hsub => List.Subset.trans hsub hchange.instances_subset) (List.Subset.refl _)

theorem mono {P' : String → Prop} (h : Run sc P r r') (hP : ∀ name, P name → P' name) :
    Run sc P' r r' :=
  Relation.ReflTransGen.mono (fun _ _ hchange => Change.mono hchange hP (Nat.le_refl _)) _ _ h

theorem change (h : Change sc P r.graph.size r r') : Run sc P r r' := .single h

theorem trans (h : Run sc P r r') (h' : Run sc P r' r'') : Run sc P r r'' :=
  Relation.ReflTransGen.trans h <| Relation.ReflTransGen.mono
    (fun _ _ hchange => Change.mono hchange (fun _ hP => hP) h.size) _ _ h'

/-- Runs go through all that steps are made of. -/
theorem relation (sc : Scope) (P : String → Prop) : StepRelation sc P (Run sc P) where
  refl _ := .refl
  trans h h' _ := h.trans h'
  size := size
  kept := kept
  push plain := change (.push plain)
  tables graph instances _ := change (.tables graph instances)
  remember mentioned found notRecord known := change (.remember mentioned found notRecord known)
  complete h new known completes := .tail h (.complete new known completes)

end Run

end PropSchema.TypeScript
