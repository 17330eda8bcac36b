import PropSchema.Proofs.TypeScript.Steps.Exports
import PropSchema.Proofs.TypeScript.Whole
/-!
What interfaces inherit. After any lookups an interface has its own members, then for each type that
it extends all properties of that type, unless the type is made of others or its declaration leads
back to the interface. Such a base may be copied from while it is itself under construction, so an
interface may lack members of a base although nothing extends itself.
-/
namespace PropSchema.TypeScript

open Resolve

/--
What an interface may have from a base in the end: nothing from a type that is made of others, else
the first properties of the base, and all of them unless the base leads back to the interface.
-/
structure Copied (sc : Scope) (g : TypeGraph) (name : String) (base : NodeId)
    (part : List Property) : Prop where
  first : part <+: g.properties base
  nothing : g.isComposite base → part = []
  all : part = g.properties base ∨ g.isComposite base ∨ sc.LeadsBack g base name

theorem Inherits.toCopied {sc : Scope} {g : TypeGraph} {name : String} {base : NodeId}
    {part : List Property} (h : Inherits sc g name base part) : Copied sc g name base part := by
  cases hcomposite : g.isComposite base with
  | true =>
      have hnothing : part = [] :=
        List.prefix_nil.mp (TypeGraph.fields_of_composite hcomposite ▸ h.copied)
      refine ⟨?_, fun _ => hnothing, .inr (.inl hcomposite)⟩
      rw [hnothing]
      exact List.nil_prefix
  | false =>
      have hfields := TypeGraph.fields_eq_properties hcomposite
      exact ⟨hfields ▸ h.copied, fun he => by simp [hcomposite] at he,
        h.whole.imp (fun he => he.trans hfields) .inr⟩

/-- An interface that has copied all that its bases have lacks no name of their properties. -/
theorem Composed.has_inherited {sc : Scope} {r : Resolution} {key : Instance} {id : NodeId}
    {first : InterfaceDecl} {more : List InterfaceDecl}
    (h : Composed sc r key id first more fun base part => part = r.graph.properties base)
    {base : NodeId} (hbase : base ∈ r.graph.bases id) {p : Property}
    (hp : p ∈ r.graph.properties base) : ∃ q ∈ r.graph.properties id, q.name = p.name := by
  obtain ⟨m, -, hrecord, hparts⟩ := h
  have hproperties : r.graph.properties id =
      firstOfEachName (m.own ++ m.parts.flatMap Prod.snd) := by
    rw [← TypeGraph.fields_eq_properties (by rw [TypeGraph.isComposite, hrecord]),
      TypeGraph.fields_of_record hrecord]
    rfl
  rw [TypeGraph.bases, hrecord] at hbase
  obtain ⟨part, hpart, rfl⟩ := List.mem_map.mp hbase
  rw [← hparts part hpart] at hp
  have hsome : ((r.graph.properties id).find? (·.name == p.name)).isSome := by
    rw [hproperties, find?_firstOfEachName, List.find?_isSome]
    exact ⟨p, List.mem_append_right _ (List.mem_flatMap.mpr ⟨part, hpart, hp⟩), beq_self_eq_true _⟩
  obtain ⟨q, hq, hsame⟩ := List.find?_isSome.mp hsome
  exact ⟨q, hq, beq_iff_eq.mp hsame⟩

namespace Source

/-- The resolutions that lookups of types by name and of exported classes lead to. -/
inductive Reached (src : Source) : Resolution → Prop
  | initial : Reached src .initial
  | typeNamed {r r' : Resolution} {name : String} {arguments : List NodeId} {id : NodeId}
      (before : Reached src r) (known : ∀ a ∈ arguments, a < r.graph.size)
      (found : src.typeNamed name arguments r = some (id, r')) : Reached src r'
  | exportedClasses {r r' : Resolution} {classes : List NodeId} (before : Reached src r)
      (found : src.exportedClasses r = some (classes, r')) : Reached src r'

/-- Interfaces that are known after some lookups are whole. -/
theorem Reached.whole {src : Source} {r : Resolution} (h : src.Reached r) :
    r.Known ∧ ∀ {key id first more}, (key, id) ∈ r.instances →
      src.scope.find? key.1 = some (.interfaces first more) →
      Assembled src.scope r key id first more := by
  suffices hall : r.Known ∧ Progress src.scope (fun _ => True) .initial r by
    refine ⟨hall.1, fun hm hf => ?_⟩
    obtain hm | hnew := hall.2.made hm
    · cases hm
    · exact (hnew hf).2.2
  have hR := Progress.relation src.scope fun _ => True
  have hr : ResolverSteps src.scope (Progress src.scope) src.resolve :=
    resolveTo_progresses src.scope src.depth
  induction h with
  | initial => exact ⟨.initial, .refl⟩
  | typeNamed before known found ih =>
      obtain ⟨hp, hknown, -⟩ := Steps.typeNamed hR (fun _ => trivial) known
        (fun named hf => Progress.declaredType (fun _ _ _ _ => trivial) trivial hr hf known)
        _ _ _ (Nat.le_refl _) ih.1 found
      exact ⟨hknown, ih.2.trans hp ih.1⟩
  | exportedClasses before found ih =>
      obtain ⟨hp, hknown, -⟩ :=
        Steps.exportedClasses hR hr (fun _ => trivial) _ _ _ (Nat.le_refl _) ih.1 found
      exact ⟨hknown, ih.2.trans hp ih.1⟩

/--
After any lookups an interface has the own members that were resolved when it was made, in the order
of its declarations, then for each type that it extends what could be copied from it, and of each
name the first property.
-/
theorem Reached.inherits {src : Source} {r : Resolution} (h : src.Reached r) {key : Instance}
    {id : NodeId} {first : InterfaceDecl} {more : List InterfaceDecl}
    (known : (key, id) ∈ r.instances)
    (declared : src.scope.find? key.1 = some (.interfaces first more)) :
    Composed src.scope r key id first more (Copied src.scope r.graph key.1) :=
  (h.whole.2 known declared).imp fun _ _ hpart => hpart.toCopied

/-- Whether each interface that is known has its own members, then all properties of each base. -/
def InheritsAll (src : Source) : Prop :=
  ∀ {r key id first more}, src.Reached r → (key, id) ∈ r.instances →
    src.scope.find? key.1 = some (.interfaces first more) →
    Composed src.scope r key id first more fun base part => part = r.graph.properties base

end Source

/-- What a declaration extends or stands for. -/
def Named.extended (named : Named) : List Mention :=
  match named with
  | .interfaces first more => (first :: more).flatMap fun d => mentionsOfTypes named.bound d.parents
  | .aliases first _ => if named.isRecord then [] else first.value.mentions named.bound
  | .classes first _ => first.decl.heritage.flatMap (Heritage.mentions named.bound)
  | .enums _ _ => []

/-- No declaration extends itself, neither at once nor through others. -/
def Scope.ExtendsNoCycle (sc : Scope) : Prop :=
  ∃ rank : String → Nat, ∀ {name named}, sc.find? name = some named →
    ∀ m ∈ named.extended, rank m.1 < rank name

namespace Kids

def node : InterfaceDecl := ⟨"Node", [], [],
  [.property "kids" (some (.array (.reference (.simple "Leaf") [] ⟨2, 24⟩) ⟨2, 24⟩)) false ⟨2, 18⟩],
  ⟨2, 1⟩⟩

def leaf : InterfaceDecl := ⟨"Leaf", [], [.reference (.simple "Node") [] ⟨3, 24⟩],
  [.property "extra" (some (.keyword "string" ⟨3, 38⟩)) false ⟨3, 31⟩], ⟨3, 1⟩⟩

def tree : ClassDecl := ⟨some "Tree", [], [⟨.dotted ⟨"React", ".Component"⟩,
  [.reference (.simple "Node") [] ⟨4, 43⟩], ⟨4, 27⟩⟩], [], ⟨4, 8⟩⟩

/--
An interface that is met within the one that it extends. After the import of `React`:

    interface Node { kids: Leaf[] }
    interface Leaf extends Node { extra: string }
    export class Tree extends React.Component<Node> {}
-/
def kids : Module := ⟨"Tree.tsx", [.imports "react" [.whole "React"],
  .declaration (.interfaceDecl node), .declaration (.interfaceDecl leaf),
  .exportDeclaration (.classDecl tree)]⟩

theorem declared_eq : (Scope.ofModule kids).declared = [("Tree", .classes ⟨3, tree⟩ []),
    ("Leaf", .interfaces leaf []), ("Node", .interfaces node [])] := by rfl

theorem extendsNoCycle : (Scope.ofModule kids).ExtendsNoCycle := by
  refine ⟨fun name => if name = "Node" then 0 else if name = "Leaf" then 1 else 2, ?_⟩
  intro name named hf
  obtain ⟨before, after, he, -⟩ := List.lookup_eq_some_iff.mp hf
  have hmem : (name, named) ∈ (Scope.ofModule kids).declared := by simp [he]
  rw [declared_eq] at hmem
  simp only [List.mem_cons, Prod.mk.injEq, List.not_mem_nil, or_false] at hmem
  obtain ⟨rfl, rfl⟩ | ⟨rfl, rfl⟩ | ⟨rfl, rfl⟩ := hmem <;> decide

/-- When `Leaf` is looked up first, `Node` is done before it and is copied whole. -/
theorem leaf_inherits : ∃ r, (Source.ofModule kids).Reached r ∧ (("Leaf", []), 11) ∈ r.instances ∧
    (Scope.ofModule kids).find? "Leaf" = some (.interfaces leaf []) ∧
    (r.graph.properties 11).map Property.name = ["extra", "kids"] ∧
    Composed (Scope.ofModule kids) r ("Leaf", []) 11 leaf []
      (Copied (Scope.ofModule kids) r.graph "Leaf") := by
  have hsketch : ((Source.ofModule kids).typeNamed "Leaf" [] .initial).map (fun result =>
      (result.2.instances, (result.2.graph.properties 11).map Property.name)) =
      some ([(("Node", []), 12), (("Leaf", []), 11)], ["extra", "kids"]) := by
    decide +kernel
  obtain ⟨⟨id, r⟩, hrun, hr⟩ := Option.map_eq_some_iff.mp hsketch
  dsimp only at hr
  obtain ⟨hinstances, hnames⟩ := Prod.mk.inj hr
  have hreached : (Source.ofModule kids).Reached r := .typeNamed .initial (List.forall_mem_nil _) hrun
  have hknown : (("Leaf", []), 11) ∈ r.instances := by simp [hinstances]
  have hdeclared : (Scope.ofModule kids).find? "Leaf" = some (.interfaces leaf []) := by rfl
  exact ⟨r, hreached, hknown, hdeclared, hnames, hreached.inherits hknown hdeclared⟩

/-- When `Node` is looked up first, `Leaf` is done before it, and has copied nothing of it. -/
theorem not_inheritsAll :
    (Scope.ofModule kids).ExtendsNoCycle ∧ ¬ (Source.ofModule kids).InheritsAll := by
  refine ⟨extendsNoCycle, fun hall => ?_⟩
  have hsketch : ((Source.ofModule kids).typeNamed "Node" [] .initial).map (fun result =>
      (result.2.instances, (result.2.graph.properties 12).map Property.name,
        result.2.graph.bases 12, (result.2.graph.properties 11).map Property.name)) =
      some ([(("Leaf", []), 12), (("Node", []), 11)], ["extra"], [11], ["kids"]) := by
    decide +kernel
  obtain ⟨⟨id, r⟩, hrun, hr⟩ := Option.map_eq_some_iff.mp hsketch
  dsimp only at hr
  obtain ⟨hinstances, hr⟩ := Prod.mk.inj hr
  obtain ⟨hleaf, hr⟩ := Prod.mk.inj hr
  obtain ⟨hbases, hnode⟩ := Prod.mk.inj hr
  have hreached : (Source.ofModule kids).Reached r := .typeNamed .initial (List.forall_mem_nil _) hrun
  have hknown : (("Leaf", []), 12) ∈ r.instances := by simp [hinstances]
  have hdeclared : (Scope.ofModule kids).find? "Leaf" = some (.interfaces leaf []) := by rfl
  have hbase : 11 ∈ r.graph.bases 12 := hbases ▸ List.mem_singleton_self 11
  obtain ⟨p, hp, hname⟩ : ∃ p ∈ r.graph.properties 11, p.name = "kids" := by
    have hmem : "kids" ∈ (r.graph.properties 11).map Property.name :=
      hnode ▸ List.mem_singleton_self "kids"
    exact List.mem_map.mp hmem
  obtain ⟨q, hq, hsame⟩ := (hall hreached hknown hdeclared).has_inherited hbase hp
  have hkids : "kids" ∈ (r.graph.properties 12).map Property.name :=
    List.mem_map.mpr ⟨q, hq, hsame.trans hname⟩
  rw [hleaf] at hkids
  simp at hkids

end Kids

end PropSchema.TypeScript
