import PropSchema.Scan
import PropSchema.Proofs.TypeScript.Changes.Declared
/-!
The nodes of instances. A declared record has one node for each list of type arguments, unless what
its type parameters need without arguments leads back to it. Then the instance is made while its
parameters are bound, and once more when they are.
-/
namespace PropSchema

/-- A name with arguments, if a form is that of a record with a name. -/
def TypeForm.instance? : TypeForm → Option (String × List NodeId)
  | .record type => type.name.map fun name => (name, type.arguments)
  | _ => none

namespace TypeGraph
variable {g : TypeGraph} {id : NodeId}

/-- The instance of a declared record that a node is. A record of the framework has no place. -/
def instance? (g : TypeGraph) (id : NodeId) : Option (String × List NodeId) :=
  (g.location id).bind fun _ => (g.form id).instance?

theorem lt_of_instance? {key : String × List NodeId} (h : g.instance? id = some key) :
    id < g.size := by
  by_contra hge
  rw [instance?, form_of_size_le (Nat.le_of_not_lt hge)] at h
  obtain ⟨_, -, h⟩ := Option.bind_eq_some_iff.mp h
  cases h

theorem location_push (g : TypeGraph) (form : TypeForm) (location : Option Location) (id : NodeId) :
    (g.push form location).2.location id = if id = g.size then location else g.location id := by
  unfold TypeGraph.location node push size
  simp only [Array.getD_eq_getD_getElem?, Array.getElem?_push]
  split <;> rfl

theorem location_setForm (g : TypeGraph) (id : NodeId) (form : TypeForm) (other : NodeId) :
    (g.setForm id form).location other = g.location other := by
  unfold TypeGraph.location node setForm
  simp only [Array.getD_eq_getD_getElem?, Array.getElem?_modify]
  split
  · cases g.nodes[other]? <;> rfl
  · rfl

end TypeGraph

namespace TypeScript

open Resolve TypeGraph

variable {sc : Scope} {P : String → Prop} {bound : Nat} {r r' : Resolution} {key : Instance}
  {id : NodeId}

section Graph
variable {g : TypeGraph}

theorem instance?_push (g : TypeGraph) (form : TypeForm) (location : Option Location) (id : NodeId) :
    (g.push form location).2.instance? id =
      if id = g.size then location.bind fun _ => form.instance? else g.instance? id := by
  rw [instance?, instance?, location_push, form_push]
  split <;> rfl

/-- A plain node is no instance of a declared record. -/
theorem Plain.instance?_eq {form : TypeForm} {location : Option Location}
    (h : Plain g.size form location) (id : NodeId) :
    (g.push form location).2.instance? id = g.instance? id := by
  rw [instance?_push]
  split
  · next he =>
      have hold : g.instance? id = none := by
        rw [Option.eq_none_iff_forall_ne_some]
        exact fun key hkey => Nat.ne_of_lt (lt_of_instance? hkey) he
      rw [hold]
      cases form with
      | record type =>
          obtain hname | hplace := h.nameless rfl
          · simp [TypeForm.instance?, hname]
          · simp [hplace]
      | _ => exact Option.bind_fun_none _
  · rfl

theorem instance?_setForm {form : TypeForm} (hid : id < g.size)
    (hform : form.instance? = (g.form id).instance?) (other : NodeId) :
    (g.setForm id form).instance? other = g.instance? other := by
  rw [instance?, instance?, location_setForm, form_setForm hid]
  split
  · next he => rw [he, hform]
  · rfl

theorem Completes.instance?_eq {form form' : TypeForm} (h : Completes form form') :
    form'.instance? = form.instance? := by
  cases h <;> rfl

end Graph

/-- Every instance that is made is remembered, and the node of one that stays apart is the one that
is found. -/
structure OneEach (sc : Scope) (r : Resolution) : Prop where
  declared : ∀ {id key}, r.graph.instance? id = some key →
    ∃ named, sc.find? key.1 = some named ∧ named.isRecord
  found : ∀ {id key}, r.graph.instance? id = some key → sc.Apart key →
    r.instances.lookup key = some id
  remembered : ∀ {key id named}, (key, id) ∈ r.instances → sc.find? key.1 = some named →
    named.isRecord → r.graph.instance? id = some key

namespace OneEach

theorem initial (sc : Scope) : OneEach sc .initial := by
  have hall : ∀ id < Resolution.initial.graph.size,
      Resolution.initial.graph.instance? id = none := by decide
  have hnone : ∀ {id key}, Resolution.initial.graph.instance? id ≠ some key := by
    intro id key hkey
    rw [hall id (lt_of_instance? hkey)] at hkey
    cases hkey
  exact ⟨fun h => absurd h hnone, fun h => absurd h hnone, nofun⟩

/-- The graph changes, but no instances. -/
theorem of_graph (h : OneEach sc r) (hinstances : r'.instances = r.instances)
    (hgraph : ∀ id, r'.graph.instance? id = r.graph.instance? id) : OneEach sc r' := by
  refine ⟨fun {id key} hkey => ?_, fun {id key} hkey hapart => ?_, fun {key id named} hm => ?_⟩
  · rw [hgraph] at hkey
    exact h.declared hkey
  · rw [hgraph] at hkey
    rw [hinstances]
    exact h.found hkey hapart
  · rw [hinstances] at hm
    rw [hgraph]
    exact h.remembered hm

theorem lookup_cons_ne {other : Instance} (hne : key ≠ other) :
    ((other, id) :: r.instances).lookup key = r.instances.lookup key := by
  rw [List.lookup_cons, beq_eq_false_iff_ne.mpr hne]

theorem remember (h : OneEach sc r) {named : Named} (hf : sc.find? key.1 = some named)
    (hrecord : ¬ named.isRecord) : OneEach sc { r with instances := (key, id) :: r.instances } := by
  refine ⟨h.declared, fun {id' other} hother hapart => ?_, fun {other id' named'} hm hf' hrecord' => ?_⟩
  · obtain ⟨named', hf', hrecord'⟩ := h.declared hother
    refine (lookup_cons_ne ?_).trans (h.found hother hapart)
    rintro rfl
    cases hf.symm.trans hf'
    exact hrecord hrecord'
  · obtain he | hm := List.mem_cons.mp hm
    · cases he
      cases hf.symm.trans hf'
      exact absurd hrecord' hrecord
    · exact h.remembered hm hf' hrecord'

theorem declare (h : OneEach sc r) {named : Named} (hf : sc.find? key.1 = some named)
    (hrecord : named.isRecord) (hfirst : r.instances.lookup key = none ∨ ¬ sc.Apart key)
    (location : Location) :
    OneEach sc { r with
      graph := (r.graph.push (Scope.emptyRecord key.1 key.2) (some location)).2
      instances := (key, r.graph.size) :: r.instances } := by
  have hpush : ∀ id, (r.graph.push (Scope.emptyRecord key.1 key.2) (some location)).2.instance? id =
      if id = r.graph.size then some key else r.graph.instance? id := instance?_push _ _ _
  have hcases : ∀ {id other}, (r.graph.push (Scope.emptyRecord key.1 key.2)
      (some location)).2.instance? id = some other →
      id = r.graph.size ∧ other = key ∨ r.graph.instance? id = some other := by
    intro id other hother
    rw [hpush] at hother
    split at hother
    · next he => exact .inl ⟨he, (Option.some.inj hother).symm⟩
    · exact .inr hother
  refine ⟨fun {id other} hother => ?_, fun {id other} hother hapart => ?_,
    fun {other id named'} hm hf' hrecord' => ?_⟩
  · obtain ⟨rfl, rfl⟩ | hold := hcases hother
    · exact ⟨named, hf, hrecord⟩
    · exact h.declared hold
  · obtain ⟨rfl, rfl⟩ | hold := hcases hother
    · exact List.lookup_cons_self
    · -- an old node of the instance would have been found before
      refine (lookup_cons_ne ?_).trans (h.found hold hapart)
      rintro rfl
      obtain hnone | hback := hfirst
      · rw [h.found hold hapart] at hnone
        cases hnone
      · exact hback hapart
  · obtain he | hm := List.mem_cons.mp hm
    · cases he
      exact (hpush _).trans (if_pos rfl)
    · have hold := h.remembered hm hf' hrecord'
      exact (hpush id).trans ((if_neg (Nat.ne_of_lt (lt_of_instance? hold))).trans hold)

theorem change (hchange : Change sc P bound r r') (h : OneEach sc r) : OneEach sc r' := by
  cases hchange with
  | push plain => exact h.of_graph rfl plain.instance?_eq
  | tables graph instances => exact h.of_graph instances fun id => by rw [graph]
  | remember _ found notRecord => exact h.remember found notRecord
  | complete _ known completes =>
      exact h.of_graph rfl (instance?_setForm known completes.instance?_eq)
  | declare location _ found isRecord first => exact h.declare found isRecord first location
  | extend _ form =>
      refine h.of_graph rfl (instance?_setForm (lt_of_record form) ?_)
      rw [form]
      rfl

theorem unique (h : OneEach sc r) (hapart : sc.Apart key) {a b : NodeId}
    (ha : r.graph.instance? a = some key) (hb : r.graph.instance? b = some key) : a = b :=
  Option.some.inj ((h.found ha hapart).symm.trans (h.found hb hapart))

end OneEach

/-- What a reference is resolved to is the node of its instance, and so is every other node. -/
theorem OneEach.of_reference (h : OneEach sc r) (hknown : r.Known) {named : Named}
    (hf : sc.find? key.1 = some named) (hrecord : named.isRecord) (hapart : sc.Apart key)
    {depth : Nat} (ha : ∀ a ∈ key.2, a < r.graph.size)
    (hrun : sc.declaredType (sc.resolveTo depth) key named r = some (id, r')) :
    r'.graph.instance? id = some key ∧
      ∀ a, r.graph.instance? a = some key ∨ r'.graph.instance? a = some key → a = id := by
  obtain ⟨hstep, -, hmade⟩ := Run.declaredRecord (P := fun _ => True) (resolveTo_runs sc depth)
    (fun _ _ _ _ => trivial) trivial hf ha hknown hrecord hrun
  have h' : OneEach sc r' := hstep.invariant OneEach.change h
  have hid := h'.remembered hmade hf hrecord
  refine ⟨hid, fun a hold => ?_⟩
  obtain hold | hnew := hold
  · -- a node that is there before is found
    rw [declaredType_of_known (h.found hold hapart)] at hrun
    cases hrun
    rfl
  · exact h'.unique hapart hnew hid

namespace Source

/-- Whether each instance of a declared record has one node. -/
def OneNodeEach (src : Source) : Prop :=
  ∀ {r key named}, src.Reached r → src.scope.find? key.1 = some named → named.isRecord →
    ∀ {a b}, r.graph.instance? a = some key → r.graph.instance? b = some key → a = b

/--
After any lookups, and wherever one has got to within another, an instance of a declared record has
one node at most if its type parameters stay apart from it. Every reference to the instance leads to
that node, and a table of records has one entry for it.
-/
theorem Reached.one_node_each {src : Source} {r r' : Resolution} (h : src.Reached r)
    (within : Run src.scope (fun _ => True) r r') {key : Instance} {named : Named}
    (declared : src.scope.find? key.1 = some named) (isRecord : named.isRecord)
    (apart : src.scope.Apart key) :
    (∀ a b, r'.graph.instance? a = some key → r'.graph.instance? b = some key → a = b) ∧
    (∀ depth id r'', r'.Known → (∀ a ∈ key.2, a < r'.graph.size) →
      src.scope.declaredType (src.scope.resolveTo depth) key named r' = some (id, r'') →
      r''.graph.instance? id = some key ∧
        ∀ a, r'.graph.instance? a = some key ∨ r''.graph.instance? a = some key → a = id) ∧
    ∀ (rules : ComponentRules) (classes : List NodeId) (a b : NodeId) (i j : Nat),
      r'.graph.instance? a = some key → r'.graph.instance? b = some key →
      ((Components.find rules r'.graph classes).run .fresh).2.lookup (.node a) = some i →
      ((Components.find rules r'.graph classes).run .fresh).2.lookup (.node b) = some j → i = j := by
  have heach : OneEach src.scope r' :=
    within.invariant OneEach.change (h.run.1.invariant OneEach.change (.initial _))
  refine ⟨fun a b ha hb => heach.unique apart ha hb, fun depth id r'' hknown ha hrun => ?_,
    fun rules classes a b i j ha hb hi hj => ?_⟩
  · exact heach.of_reference hknown declared isRecord apart ha hrun
  · rw [heach.unique apart ha hb] at hi
    exact Option.some.inj (hi.symm.trans hj)

end Source

namespace Boxes

def opts : InterfaceDecl := ⟨"Opts", [], [],
  [.property "owner" (some (.reference (.simple "Box") [] ⟨2, 25⟩)) false ⟨2, 18⟩], ⟨2, 1⟩⟩

def box : InterfaceDecl := ⟨"Box",
  [⟨"T", none, some (.reference (.simple "Opts") [] ⟨3, 19⟩), ⟨3, 15⟩⟩], [],
  [.property "value" (some (.reference (.simple "T") [] ⟨3, 34⟩)) false ⟨3, 27⟩], ⟨3, 1⟩⟩

/--
A record whose default argument leads back to it. After the import of `React`:

    interface Opts { owner: Box }
    interface Box<T = Opts> { value: T }
    export class A extends React.Component<Box> {}
-/
def boxes : Module := ⟨"Box.tsx", [.imports "react" [.whole "React"],
  .declaration (.interfaceDecl opts), .declaration (.interfaceDecl box),
  .exportDeclaration (.classDecl ⟨some "A", [], [⟨.dotted ⟨"React", ".Component"⟩,
    [.reference (.simple "Box") [] ⟨4, 40⟩], ⟨4, 24⟩⟩], [], ⟨4, 8⟩⟩)]⟩

/-- With an argument there is no default to lead back: both lookups give the node 11. -/
theorem box_of_string_made_once : ∃ r, (Source.ofModule boxes).Reached r ∧
    (Scope.ofModule boxes).find? "Box" = some (.interfaces box []) ∧
    r.graph.instance? 11 = some ("Box", [TypeGraph.stringId]) ∧
    ∀ a, r.graph.instance? a = some ("Box", [TypeGraph.stringId]) → a = 11 := by
  have hsketch : ((Source.ofModule boxes).typeNamed "Box" [TypeGraph.stringId] .initial).map
      (fun result => result.2.graph.instance? 11) = some (some ("Box", [TypeGraph.stringId])) := by
    decide +kernel
  obtain ⟨⟨id, r⟩, hrun, hr⟩ := Option.map_eq_some_iff.mp hsketch
  have hreached : (Source.ofModule boxes).Reached r := .typeNamed .initial (by decide) hrun
  have hdeclared : (Scope.ofModule boxes).find? (("Box", [TypeGraph.stringId]) : Instance).1 =
      some (.interfaces box []) := by rfl
  have hapart : (Scope.ofModule boxes).Apart ("Box", [TypeGraph.stringId]) := by
    intro named hf m hm
    cases hdeclared.symm.trans hf
    cases hm
  have hone := hreached.one_node_each .refl hdeclared rfl hapart
  exact ⟨r, hreached, hdeclared, hr, fun a ha => hone.1 a 11 ha hr⟩

/-- Without an argument the default makes the instance, which is then made again. -/
theorem box_made_twice : ¬ (Source.ofModule boxes).OneNodeEach ∧
    (Scan.ofSource ⟨⟨Registry.builtin, .lenient⟩, Components.defaultMarkers⟩
        (.ofModule boxes)).outcome.toOption.map (fun x => x.refs.map RecordSpec.name) =
      some [some "Box", some "Opts", some "Box"] := by
  refine ⟨fun hall => ?_, by decide +kernel⟩
  have hsketch : ((Source.ofModule boxes).typeNamed "Box" [] .initial).map
      (fun result => (result.2.graph.instance? 12, result.2.graph.instance? 13)) =
      some (some ("Box", []), some ("Box", [])) := by
    decide +kernel
  obtain ⟨⟨id, r⟩, hrun, hr⟩ := Option.map_eq_some_iff.mp hsketch
  obtain ⟨hfirst, hsecond⟩ := Prod.mk.inj hr
  have hreached : (Source.ofModule boxes).Reached r := .typeNamed .initial (List.forall_mem_nil _) hrun
  have hdeclared : (Scope.ofModule boxes).find? (("Box", []) : Instance).1 =
      some (.interfaces box []) := by rfl
  exact absurd (hall hreached hdeclared rfl hfirst hsecond) (by decide)

end Boxes

end TypeScript

end PropSchema
