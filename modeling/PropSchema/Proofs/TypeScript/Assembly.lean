import Mathlib.Logic.Relation
import PropSchema.Proofs.TypeScript.Nodes
import PropSchema.Proofs.TypeScript.Steps
/-!
The properties of interfaces. An interface has its own members of all its declarations, then for
each type that it extends what that type has, the first of each name. Members and bases are those
that were resolved, one after the other, when the interface was made. What it extends may itself be
under construction when it is copied from. That happens only if the declaration of that base leads
back to the interface.
-/
namespace PropSchema

namespace TypeGraph
variable {g : TypeGraph} {id : NodeId}

/-- The properties that are kept at a node. -/
def fields (g : TypeGraph) (id : NodeId) : List Property :=
  match g.form id with
  | .record record => record.properties
  | _ => []

/-- Whether a type has no properties but those of the types that it is made of. -/
def isComposite (g : TypeGraph) (id : NodeId) : Bool :=
  match g.form id with
  | .partialOf _ => true
  | .intersection _ => true
  | _ => false

theorem fields_of_form {g' : TypeGraph} (h : g'.form id = g.form id) :
    g'.fields id = g.fields id := by
  rw [fields, fields, h]

theorem declaredName_of_form {g' : TypeGraph} (h : g'.form id = g.form id) :
    g'.declaredName id = g.declaredName id := by
  rw [declaredName, declaredName, h]

theorem fields_of_record {record : RecordType} (h : g.form id = .record record) :
    g.fields id = record.properties := by
  rw [fields, h]

theorem declaredName_of_record {record : RecordType} (h : g.form id = .record record) :
    g.declaredName id = record.name := by
  rw [declaredName, h]

/-- What is not composite has the properties that are kept at its node. -/
theorem fields_eq_properties (h : g.isComposite id = false) : g.fields id = g.properties id := by
  unfold isComposite at h
  unfold fields properties depth propertiesTo
  generalize g.form id = form at h ⊢
  cases form <;> first | rfl | cases h

/-- At the node of a composite type there is nothing to copy. -/
theorem fields_of_composite (h : g.isComposite id) : g.fields id = [] := by
  unfold isComposite at h
  unfold fields
  generalize g.form id = form at h ⊢
  cases form <;> first | rfl | cases h

end TypeGraph

namespace TypeScript

namespace Scope
variable {sc : Scope}

/-- The declarations of a name mention another one. -/
def Mentions (sc : Scope) (name other : String) : Prop :=
  ∃ named arity m, sc.find? name = some named ∧ m ∈ named.needed arity ++ named.mentions ∧
    m.1 = other

/-- A name mentions another one, directly or through declarations in between, or is the other. -/
def LeadsTo (sc : Scope) : String → String → Prop := Relation.ReflTransGen sc.Mentions

/-- The declaration that a type comes from leads to a name. -/
def LeadsBack (sc : Scope) (g : TypeGraph) (base : NodeId) (name : String) : Prop :=
  ∃ origin, g.declaredName base = some origin ∧ sc.LeadsTo origin name

/-- A set of names that no mention leads out of. -/
def Closed (sc : Scope) (P : String → Prop) : Prop := ∀ n m, P n → sc.Mentions n m → P m

theorem Closed.of_needed {P : String → Prop} (h : sc.Closed P) {name : String} {named : Named}
    (hn : P name) (hf : sc.find? name = some named) (arity : Nat) :
    ∀ m ∈ named.needed arity, P m.1 :=
  fun m hm => h _ _ hn ⟨named, arity, m, hf, List.mem_append_left _ hm, rfl⟩

theorem Closed.of_mentions {P : String → Prop} (h : sc.Closed P) {name : String} {named : Named}
    (hn : P name) (hf : sc.find? name = some named) : ∀ m ∈ named.mentions, P m.1 :=
  fun m hm => h _ _ hn ⟨named, 0, m, hf, List.mem_append_right _ hm, rfl⟩

/-- The names of a closed set that a name leads to are closed again. -/
theorem Closed.inside {P : String → Prop} (h : sc.Closed P) (name : String) :
    sc.Closed fun m => P m ∧ sc.LeadsTo name m :=
  fun _ _ hn hm => ⟨h _ _ hn.1 hm, hn.2.tail hm⟩

@[simp] theorem withNew_nil {α : Type} (record : RecordType α) : withNew record [] = record := rfl

theorem withNew_append {α : Type} (record : RecordType α) (ps qs : List (Property α)) :
    withNew (withNew record ps) qs = withNew record (ps ++ qs) := by
  simp only [withNew, List.foldl_append]

/-- What is there stays, and stays first. -/
theorem properties_kept {α : Type} (record : RecordType α) (ps : List (Property α)) :
    record.properties <+: (withNew record ps).properties := by
  induction ps generalizing record with
  | nil => exact List.prefix_refl _
  | cons p ps ih =>
      rw [← List.singleton_append, ← withNew_append]
      refine List.IsPrefix.trans ?_ (ih _)
      simp only [withNew, List.foldl_cons, List.foldl_nil]
      split
      · exact List.prefix_refl _
      · exact List.prefix_append _ _

end Scope

open Resolve Scope

/--
A graph comes later than another one: its records may have more properties at their ends, but only
those that lead back to a name.
-/
structure Later (sc : Scope) (name : String) (g g' : TypeGraph) : Prop where
  size : g.size ≤ g'.size
  fields : ∀ b < g.size, g.fields b <+: g'.fields b
  named : ∀ b < g.size, g'.declaredName b = g.declaredName b
  settled : ∀ b < g.size, g'.fields b = g.fields b ∨ sc.LeadsBack g b name

namespace Later
variable {sc : Scope} {name : String} {g g' g'' : TypeGraph}

/-- Old nodes are as they were. -/
theorem of_kept (hsize : g.size ≤ g'.size) (h : ∀ b < g.size, g'.form b = g.form b) :
    Later sc name g g' := by
  refine ⟨hsize, ?_, ?_, ?_⟩
  · intro b hb
    exact (TypeGraph.fields_of_form (h b hb)).symm ▸ List.prefix_refl _
  · intro b hb
    exact TypeGraph.declaredName_of_form (h b hb)
  · intro b hb
    exact .inl (TypeGraph.fields_of_form (h b hb))

theorem refl (sc : Scope) (name : String) (g : TypeGraph) : Later sc name g g :=
  of_kept (Nat.le_refl _) fun _ _ => rfl

theorem leadsBack_iff (h : Later sc name g g') {b : NodeId} (hb : b < g.size) {other : String} :
    sc.LeadsBack g' b other ↔ sc.LeadsBack g b other := by
  rw [LeadsBack, LeadsBack, h.named b hb]

theorem trans (h : Later sc name g g') (h' : Later sc name g' g'') : Later sc name g g'' := by
  have hlt : ∀ b < g.size, b < g'.size := fun b hb => Nat.lt_of_lt_of_le hb h.size
  refine ⟨Nat.le_trans h.size h'.size, ?_, ?_, ?_⟩
  · intro b hb
    exact (h.fields b hb).trans (h'.fields b (hlt b hb))
  · intro b hb
    exact (h'.named b (hlt b hb)).trans (h.named b hb)
  · intro b hb
    obtain he | hback := h.settled b hb
    · obtain he' | hback' := h'.settled b (hlt b hb)
      · exact .inl (he'.trans he)
      · exact .inr ((h.leadsBack_iff hb).mp hback')
    · exact .inr hback

end Later

/-- What an interface has copied from a base: all that the base has, unless it leads back. -/
structure Inherits (sc : Scope) (g : TypeGraph) (name : String) (base : NodeId)
    (part : List Property) : Prop where
  known : base < g.size
  copied : part <+: g.fields base
  whole : part = g.fields base ∨ sc.LeadsBack g base name

theorem Inherits.later {sc : Scope} {g g' : TypeGraph} {name : String} {base : NodeId}
    {part : List Property} (h : Inherits sc g name base part) (hl : Later sc name g g') :
    Inherits sc g' name base part := by
  refine ⟨Nat.lt_of_lt_of_le h.known hl.size, h.copied.trans (hl.fields base h.known), ?_⟩
  rw [hl.leadsBack_iff h.known]
  obtain he | hback := h.whole
  · obtain he' | hback := hl.settled base h.known
    · exact .inl (he.trans he'.symm)
    · exact .inr hback
  · exact .inr hback

/-- A record gets more properties and more bases, each at the end. -/
structure Grown (record record' : RecordType) : Prop where
  name : record'.name = record.name
  properties : record.properties <+: record'.properties
  symbol : record'.symbol = record.symbol
  arguments : record'.arguments = record.arguments
  bases : record.bases <+: record'.bases

theorem Grown.trans {x y z : RecordType} (h : Grown x y) (h' : Grown y z) : Grown x z :=
  ⟨h'.name.trans h.name, h.properties.trans h'.properties, h'.symbol.trans h.symbol,
    h'.arguments.trans h.arguments, h.bases.trans h'.bases⟩

/-- What may become of a node while others are made. -/
inductive Becomes : TypeForm → TypeForm → Prop
  | same (form : TypeForm) : Becomes form form
  | grown {record record' : RecordType} (h : Grown record record') :
      Becomes (.record record) (.record record')
  | completed {form form' : TypeForm} (h : Completes form form') : Becomes form form'

theorem Becomes.trans {x y z : TypeForm} (h : Becomes x y) (h' : Becomes y z) : Becomes x z := by
  cases h with
  | same => exact h'
  | grown h =>
      cases h' with
      | same => exact .grown h
      | grown h' => exact .grown (h.trans h')
      | completed h' => cases h'
  | completed h =>
      cases h' with
      | same => exact .completed h
      | grown h' => cases h
      | completed h' =>
          cases h <;> cases h'
          · exact .completed (.parameter _ _)
          · exact .completed (.classDeclaration _ _)

/-- Resolution goes on: every node is still there, at most with more to it, and what was remembered
still is. -/
structure Onward (r r' : Resolution) : Prop where
  size : r.graph.size ≤ r'.graph.size
  nodes : ∀ id < r.graph.size, Becomes (r.graph.form id) (r'.graph.form id)
  recalls : r.Recalls r'

namespace Onward
variable {r r' r'' : Resolution}

/-- Old nodes are as they were. -/
theorem of_kept (hsize : r.graph.size ≤ r'.graph.size)
    (hkept : ∀ id < r.graph.size, r'.graph.form id = r.graph.form id) (hrecalls : r.Recalls r') :
    Onward r r' := by
  refine ⟨hsize, fun id hid => ?_, hrecalls⟩
  rw [hkept id hid]
  exact .same _

theorem refl (r : Resolution) : Onward r r := of_kept (Nat.le_refl _) (fun _ _ => rfl) (.refl r)

theorem trans (h : Onward r r') (h' : Onward r' r'') : Onward r r'' := by
  refine ⟨Nat.le_trans h.size h'.size, fun id hid => ?_, h.recalls.trans h'.recalls⟩
  exact (h.nodes id hid).trans (h'.nodes id (Nat.lt_of_lt_of_le hid h.size))

/-- One node is changed. -/
theorem setForm {id : NodeId} {form : TypeForm} (hid : id < r.graph.size)
    (hbecomes : Becomes (r.graph.form id) form) :
    Onward r { r with graph := r.graph.setForm id form } := by
  refine ⟨Nat.le_of_eq (TypeGraph.size_setForm r.graph id form).symm, fun other _ => ?_,
    .of_eq _ _ _⟩
  change Becomes _ ((r.graph.setForm id form).form other)
  rw [TypeGraph.form_setForm hid]
  split
  · next heq => exact heq ▸ hbecomes
  · exact .same _

end Onward

section Parts
variable (sc : Scope) (resolve : Resolver) (bindings : Bindings)

/-- The own members of one declaration, which are added to the record of the interface. -/
def Scope.ownPart (id : NodeId) (d : InterfaceDecl) : Resolve (List Property) := do
  let properties ← d.members.mapM (sc.member resolve bindings)
  addNewProperties id properties
  pure properties

/-- A type that an interface extends, with the properties that it has by now, which are copied. -/
def basePart (id : NodeId) (parent : TypeExpr) : Resolve (NodeId × List Property) := do
  let base ← resolve bindings parent
  modifyRecord id (Scope.withBase · base)
  match (← get).graph.form base with
  | .record record => do
    addNewProperties id record.properties
    pure (base, record.properties)
  | _ => pure (base, [])

/-- An interface with all that its record is put together from: the own members of its declarations
and, for each type that it extends, the base with the properties that are copied. -/
def Scope.interfaceParts (key : Instance) (first : InterfaceDecl) (more : List InterfaceDecl) :
    Resolve (NodeId × List Property × List (NodeId × List Property)) := do
  let id ← sc.declaredRecord key first.place
  let own ← (first :: more).mapM (sc.ownPart resolve bindings id)
  let parts ← ((first :: more).flatMap InterfaceDecl.parents).mapM (basePart resolve bindings id)
  pure (id, own.flatten, parts)

end Parts

/-- The making of an interface: what it was found missing in, what its type parameters were bound
to, and the parts that were resolved from there on. -/
structure Making (sc : Scope) (key : Instance) (first : InterfaceDecl) (more : List InterfaceDecl)
    (id : NodeId) where
  depth : Nat
  before : Resolution
  bound : Resolution
  after : Resolution
  bindings : Bindings
  own : List Property
  parts : List (NodeId × List Property)
  known : before.Known
  missing : before.instances.lookup key = none
  binds : sc.bindTypeParams (sc.resolveTo depth) [] first.typeParams key.2 before =
    some (bindings, bound)
  resolves : sc.interfaceParts (sc.resolveTo depth) bindings key first more bound =
    some ((id, own, parts), after)

/-- The own members of all declarations, then the part from each base, in the order of the bases,
and of each name the first property. -/
def Making.record {sc : Scope} {key : Instance} {first : InterfaceDecl}
    {more : List InterfaceDecl} {id : NodeId} (m : Making sc key first more id) : RecordType :=
  ⟨some key.1, firstOfEachName (m.own ++ m.parts.flatMap Prod.snd), some key.1, key.2,
    m.parts.map Prod.fst⟩

/-- An interface was made on the way to a resolution, and its node is the record of its parts. -/
def Composed (sc : Scope) (r : Resolution) (key : Instance) (id : NodeId) (first : InterfaceDecl)
    (more : List InterfaceDecl) (copied : NodeId → List Property → Prop) : Prop :=
  ∃ m : Making sc key first more id, Onward m.after r ∧ r.graph.form id = .record m.record ∧
    ∀ part ∈ m.parts, copied part.1 part.2

section Composed
variable {sc : Scope} {r r' : Resolution} {key : Instance} {id : NodeId} {first : InterfaceDecl}
  {more : List InterfaceDecl} {copied copied' : NodeId → List Property → Prop}

theorem Composed.imp (h : Composed sc r key id first more copied)
    (himp : ∀ base part, copied base part → copied' base part) :
    Composed sc r key id first more copied' := by
  obtain ⟨m, honward, hrecord, hparts⟩ := h
  exact ⟨m, honward, hrecord, fun part hpart => himp _ _ (hparts part hpart)⟩

/-- An interface that has copied what its bases have, unless they lead back. -/
def Assembled (sc : Scope) (r : Resolution) (key : Instance) (id : NodeId) (first : InterfaceDecl)
    (more : List InterfaceDecl) : Prop :=
  Composed sc r key id first more (Inherits sc r.graph key.1)

theorem Assembled.later (h : Assembled sc r key id first more) (honward : Onward r r')
    (hl : Later sc key.1 r.graph r'.graph) (hform : r'.graph.form id = r.graph.form id) :
    Assembled sc r' key id first more := by
  obtain ⟨m, hafter, hrecord, hparts⟩ := h
  exact ⟨m, hafter.trans honward, hform.trans hrecord, fun part hpart => (hparts part hpart).later hl⟩

end Composed

end TypeScript

end PropSchema
