import PropSchema.Proofs.TypeScript.Changes
import PropSchema.Proofs.TypeScript.Written
/-!
Demands on what is written in a module, which its type graph meets as well. The literals of a graph
are those that are written and the numbers that members of enums are counted on to; the names of a
record's members are those that are written, or it gets each of them once.
-/
namespace PropSchema.TypeScript

open Resolve

/-- What is asked of literals and of the names of a record's members. -/
structure Demand where
  literal : LiteralValue → Prop
  names : List String → Prop
  string : ∀ s, literal (.str s)
  boolean : ∀ b, literal (.bool b)
  integer : ∀ n, literal (.int n)
  /-- Members of an enum may be counted on from any number. -/
  succ : ∀ {x}, literal (.float x) → literal (.float (x.add .one))
  empty : names []
  /-- A record may get any member that it lacks. -/
  more : ∀ {ns n}, names ns → n ∉ ns → names (ns ++ [n])
  fewer : ∀ {ns ms}, names (ns ++ ms) → names ns

namespace Demand
variable (D : Demand)

def AllowsForm : TypeForm → Prop
  | .literal value => D.literal value
  | .record record => D.names (record.properties.map Property.name)
  | _ => True

def AllowsGraph (g : TypeGraph) : Prop := ∀ id, D.AllowsForm (g.form id)

def AllowsNumber (text : String) : Prop :=
  ∀ x, Numeral.read? text = some (.float x) → D.literal (.float x)

def AllowsType : TypeExpr → Prop
  | .number text _ => D.AllowsNumber text
  | .object members _ => D.names (members.map Member.name)
  | _ => True

def AllowsDeclaration : Declaration → Prop
  | .classDecl d => D.names (d.openFields.map Field.name)
  | .enumDecl d => ∀ e ∈ d.members, ∀ text, e.initializer = some (.expression text) →
      D.AllowsNumber text
  | _ => True

structure AllowsModule (m : Module) : Prop where
  types : ∀ {type}, m.Writes type → D.AllowsType type
  declarations : ∀ d ∈ m.declarations, D.AllowsDeclaration d

/-- A step leaves the nodes below a bound as they are, and it makes none that is not allowed. -/
structure Respects (bound : Nat) (r r' : Resolution) : Prop where
  size : r.graph.size ≤ r'.graph.size
  kept : ∀ id < bound, r'.graph.form id = r.graph.form id
  allowed : D.AllowsGraph r.graph → D.AllowsGraph r'.graph

variable {D} {bound bound' : Nat} {r r' r'' : Resolution}

theorem allowsGraph_push {g : TypeGraph} (h : D.AllowsGraph g) {form : TypeForm}
    (hform : D.AllowsForm form) (location : Option Location) :
    D.AllowsGraph (g.push form location).2 := by
  intro id
  rw [form_push]
  split
  · exact hform
  · exact h id

theorem allowsGraph_setForm {g : TypeGraph} (h : D.AllowsGraph g) {id : NodeId} (hid : id < g.size)
    {form : TypeForm} (hform : D.AllowsForm form) : D.AllowsGraph (g.setForm id form) := by
  intro other
  rw [TypeGraph.form_setForm hid]
  split
  · exact hform
  · exact h other

theorem form_modifyRecord {g : TypeGraph} {id : NodeId} {record : RecordType}
    (h : g.form id = .record record) (change : RecordType → RecordType) :
    (g.modifyRecord id change).form id = .record (change record) := by
  rw [TypeGraph.modifyRecord, h]
  exact (TypeGraph.form_setForm (lt_of_record h) _ _).trans (if_pos rfl)

theorem allowsForm_of_numeral {n : Numeral} (h : ∀ x, n = .float x → D.literal (.float x)) :
    D.AllowsForm (.literal n.literal) := by
  cases n with
  | int value => exact D.integer value
  | float x => exact h x rfl

namespace Respects

theorem refl (bound : Nat) (r : Resolution) : D.Respects bound r r :=
  ⟨Nat.le_refl _, fun _ _ => rfl, id⟩

theorem trans (h : D.Respects bound r r') (h' : D.Respects bound r' r'') :
    D.Respects bound r r'' :=
  ⟨Nat.le_trans h.size h'.size, fun id hid => (h'.kept id hid).trans (h.kept id hid),
    h'.allowed ∘ h.allowed⟩

theorem mono (h : D.Respects bound r r') (hle : bound' ≤ bound) : D.Respects bound' r r' :=
  ⟨h.size, fun id hid => h.kept id (Nat.lt_of_lt_of_le hid hle), h.allowed⟩

/-- What is remembered does not matter. -/
theorem of_graph (h : r'.graph = r.graph) : D.Respects bound r r' :=
  ⟨Nat.le_of_eq (congrArg TypeGraph.size h).symm, fun id _ => congrArg (·.form id) h,
    fun hr => h ▸ hr⟩

theorem push (hbound : bound ≤ r.graph.size) {form : TypeForm} (hform : D.AllowsForm form)
    (location : Option Location) (hr : r'.graph = (r.graph.push form location).2) :
    D.Respects bound r r' := by
  refine ⟨?_, fun id hid => ?_, fun h => ?_⟩ <;> rw [hr]
  · exact Nat.le_of_lt (Nat.lt_of_lt_of_eq (Nat.lt_succ_self _) (size_push _ _ _).symm)
  · exact form_push_of_lt (Nat.lt_of_lt_of_le hid hbound) form location
  · exact allowsGraph_push h hform location

theorem setForm {id : NodeId} (hbound : bound ≤ id) (hid : id < r.graph.size) {form : TypeForm}
    (hform : D.AllowsGraph r.graph → D.AllowsForm form) (hr : r'.graph = r.graph.setForm id form) :
    D.Respects bound r r' := by
  refine ⟨?_, fun other hother => ?_, fun h => ?_⟩ <;> rw [hr]
  · exact Nat.le_of_eq (TypeGraph.size_setForm _ _ _).symm
  · rw [TypeGraph.form_setForm hid, if_neg (Nat.ne_of_lt (Nat.lt_of_lt_of_le hother hbound))]
  · exact allowsGraph_setForm h hid (hform h)

/-- A record changes while its names stay allowed. -/
theorem modifyRecord {id : NodeId} (hbound : bound ≤ id) (change : RecordType → RecordType)
    (hchange : ∀ record, r.graph.form id = .record record → D.AllowsForm (.record record) →
      D.AllowsForm (.record (change record)))
    (hr : r'.graph = r.graph.modifyRecord id change) : D.Respects bound r r' := by
  unfold TypeGraph.modifyRecord at hr
  split at hr
  · next record hform =>
      exact setForm hbound (lt_of_record hform) (fun h => hchange record hform (hform ▸ h id)) hr
  · exact of_graph hr

end Respects

/-- A step respects a demand, whatever it starts from. -/
def Obeys (D : Demand) (bound : Nat) {α : Type} (step : Resolve α) : Prop :=
  ∀ r a r', bound ≤ r.graph.size → step r = some (a, r') → D.Respects bound r r'

namespace Obeys
variable {α β : Type}

theorem pure (a : α) : D.Obeys bound (pure a : Resolve α) := by
  intro r a' r' _ hrun
  cases hrun
  exact .refl bound r

theorem bind {step : Resolve α} {next : α → Resolve β} (h : D.Obeys bound step)
    (hnext : ∀ a, D.Obeys bound (next a)) : D.Obeys bound (step >>= next) := by
  intro r b r' hbound hrun
  obtain ⟨⟨a, r₁⟩, hstep, hrun⟩ := Option.bind_eq_some_iff.mp hrun
  have hfirst := h r a r₁ hbound hstep
  exact hfirst.trans (hnext a r₁ b r' (Nat.le_trans hbound hfirst.size) hrun)

theorem map {step : Resolve α} (h : D.Obeys bound step) (f : α → β) :
    D.Obeys bound (step >>= fun a => Pure.pure (f a)) :=
  h.bind fun _ => pure _

theorem mapM {f : α → Resolve β} {xs : List α} (h : ∀ x ∈ xs, D.Obeys bound (f x)) :
    D.Obeys bound (xs.mapM f) := by
  induction xs with
  | nil => exact pure []
  | cons x xs ih =>
      rw [List.forall_mem_cons] at h
      rw [List.mapM_cons]
      exact h.1.bind fun _ => (ih h.2).bind fun _ => pure _

theorem forM {f : α → Resolve PUnit} {xs : List α} (h : ∀ x ∈ xs, D.Obeys bound (f x)) :
    D.Obeys bound (forM xs f) := by
  induction xs with
  | nil => exact pure _
  | cons x xs ih =>
      rw [List.forall_mem_cons] at h
      rw [List.forM_cons]
      exact h.1.bind fun _ => ih h.2

/-- A step that looks at the resolution first. -/
theorem get {next : Resolution → Resolve α} (h : ∀ r, D.Obeys bound (next r)) :
    D.Obeys bound (get >>= next) :=
  fun r a r' hbound hrun => h r r a r' hbound hrun

theorem push {form : TypeForm} (h : D.AllowsForm form) (location : Option Location) :
    D.Obeys bound (Resolve.push form location) := by
  intro r id r' hbound hrun
  cases hrun
  exact .push hbound h location rfl

theorem modifyRecord {id : NodeId} (hbound : bound ≤ id) {change : RecordType → RecordType}
    (hchange : ∀ record, D.AllowsForm (.record record) → D.AllowsForm (.record (change record))) :
    D.Obeys bound (Resolve.modifyRecord id change) := by
  intro r _ r' _ hrun
  cases hrun
  exact .modifyRecord hbound change (fun record _ => hchange record) rfl

theorem tables {change : Resolution → Resolution} (h : ∀ r, (change r).graph = r.graph) :
    D.Obeys bound (modify change : Resolve PUnit) := by
  intro r _ r' _ hrun
  cases hrun
  exact .of_graph (h r)

/-- A step goes the same way whatever is being resolved around it. -/
theorem around {step : Resolve α} {a : α} {pending : List Instance} {recursive : List String}
    (h : D.Obeys bound step) (hbound : bound ≤ r.graph.size)
    (hrun : step { r with pending, recursive } = some (a, r')) : D.Respects bound r r' := by
  have hcourse : D.Respects bound r { r with pending, recursive } := .of_graph rfl
  exact hcourse.trans (h _ a r' hbound hrun)

theorem unionOf (members : List NodeId) (location : Option Location) :
    D.Obeys bound (Resolve.unionOf members location) := by
  intro r id r' hbound hrun
  rw [unionOf_run] at hrun
  split at hrun
  · cases hrun
    exact .refl bound r
  · cases hrun
    have hform : D.AllowsForm (.union (r.graph.leaves members)) := trivial
    exact .push hbound hform location rfl

theorem partialType (target : NodeId) (location : Option Location) :
    D.Obeys bound (partialType target location) := by
  refine get fun r => ?_
  cases r.partials.lookup target with
  | some id => exact pure id
  | none =>
      exact (push (by trivial) location).bind fun _ => bind (tables fun _ => rfl) fun _ => pure _

theorem frameworkNode (key : Instance) {make : Resolve NodeId} (h : D.Obeys bound make) :
    D.Obeys bound (frameworkNode key make) := by
  refine get fun r => ?_
  cases r.framework.lookup key with
  | some id => exact pure id
  | none => exact h.bind fun _ => bind (tables fun _ => rfl) fun _ => pure _

theorem frameworkRecord (symbol : String) (arguments bases : List NodeId) :
    D.Obeys bound (frameworkRecord symbol arguments bases) :=
  push (by exact D.empty) _

theorem frameworkType (symbol : String) (arguments : List NodeId) :
    D.Obeys bound (frameworkType symbol arguments) := by
  have hplain : ∀ name arguments, D.Obeys bound
      (TypeScript.frameworkNode (qualified name, arguments)
        (TypeScript.frameworkRecord (qualified name) arguments [])) :=
    fun name arguments => frameworkNode _ (frameworkRecord _ _ _)
  refine frameworkNode _ ?_
  dsimp only
  split
  · split
    · split
      · exact push (by trivial) none
      · exact (hplain _ _).bind fun _ => push (by trivial) none
    · exact (hplain _ _).bind fun _ => push (by trivial) none
  · split
    · exact (hplain _ _).bind fun _ => frameworkRecord _ _ _
    · exact frameworkRecord _ _ _

theorem builtinType? (name : String) (arguments : List NodeId) (location : Option Location)
    {otherwise : Resolve NodeId} (h : D.Obeys bound otherwise) :
    D.Obeys bound ((builtinType? name arguments location).getD otherwise) := by
  unfold TypeScript.builtinType?
  split
  · exact push (by trivial) location
  · split
    · exact partialType _ location
    · exact pure _
    · exact h

theorem qualifiedType (sc : Scope) (text : String) (arguments : List NodeId) (place : Place) :
    D.Obeys bound (sc.qualifiedType text arguments place) := by
  unfold Scope.qualifiedType
  dsimp only
  split
  · exact frameworkType _ _
  · exact push (by trivial) _

end Obeys

section Enums
variable {next : Option Numeral} (hnext : ∀ x, next = some (.float x) → D.literal (.float x))
include hnext

/-- The value of a member of an enum is written, or it is counted on to. -/
theorem literal_of_enumValue {initializer : Option Initializer}
    (h : ∀ text, initializer = some (.expression text) → D.AllowsNumber text) {value : LiteralValue}
    (hv : Scope.enumValue next initializer = some value) : D.literal value := by
  unfold Scope.enumValue at hv
  split at hv
  · obtain ⟨n, rfl, rfl⟩ := Option.map_eq_some_iff.mp hv
    exact allowsForm_of_numeral fun x hx => hnext x (congrArg some hx)
  · cases hv
    exact D.string _
  · next text =>
      obtain ⟨n, hn, rfl⟩ := Option.map_eq_some_iff.mp hv
      exact allowsForm_of_numeral fun x hx => h text rfl x (hx ▸ hn)

omit hnext in
theorem literal_of_numberAfter {value : Option LiteralValue} (h : ∀ v ∈ value, D.literal v)
    {x : Binary64} (hx : Scope.numberAfter value = some (.float x)) : D.literal (.float x) := by
  unfold Scope.numberAfter at hx
  split at hx
  · cases hx
  · next y =>
      cases hx
      exact D.succ (h _ rfl)
  · cases hx

/-- Numbers in an enum are those that are written, and those that are counted on from them. -/
theorem Obeys.enumMembers (sc : Scope) {ms : List EnumMember}
    (h : ∀ e ∈ ms, ∀ text, e.initializer = some (.expression text) → D.AllowsNumber text) :
    D.Obeys bound (sc.enumMembers next ms) := by
  induction ms generalizing next with
  | nil => exact pure []
  | cons m ms ih =>
      rw [List.forall_mem_cons] at h
      have hvalue : ∀ value ∈ Scope.enumValue next m.initializer, D.literal value :=
        fun value hv => literal_of_enumValue hnext h.1 hv
      have hrest : ∀ id : NodeId, D.Obeys bound
          (sc.enumMembers (Scope.numberAfter (Scope.enumValue next m.initializer)) ms >>=
            fun ids => Pure.pure (id :: ids)) :=
        fun id => (ih (fun x hx => literal_of_numberAfter hvalue hx) h.2).map _
      cases hv : Scope.enumValue next m.initializer with
      | some value =>
          rw [hv] at hrest
          have hform : D.AllowsForm (.literal value) := hvalue value hv
          simp only [Scope.enumMembers, hv]
          exact (push hform _).bind hrest
      | none =>
          rw [hv] at hrest
          simp only [Scope.enumMembers, hv]
          exact (push (by trivial) _).bind hrest

end Enums

end Demand

end PropSchema.TypeScript
