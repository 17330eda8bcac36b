import Mathlib.Data.List.Nodup
import PropSchema.Proofs.TypeScript.Resolved
import PropSchema.TypeScript.Exports
/-!
The class declarations that a module exports, in step with their labels. A class declaration is
labelled by its position among the statements; its bases have a text of their own.
-/
namespace PropSchema.TypeScript

open Resolve

/-- The class that a statement declares or exports, with the name of its declaration. -/
def Statement.site? (position : Nat) : Statement → Option (ClassSite × String)
  | .declaration (.classDecl d) => some (⟨position, d⟩, d.name.getD "")
  | .exportDeclaration (.classDecl d) => some (⟨position, d⟩, d.name.getD "")
  | .exportClass d => some (⟨position, d⟩, d.name.getD "default")
  | _ => none

/-- The classes among the declarations of a name. -/
def Named.sites : Named → List ClassSite
  | .classes first more => first :: more
  | _ => []

namespace Scope

def positionsNamed (sc : Scope) (name : String) : List Nat :=
  ((sc.find? name).elim [] Named.sites).map ClassSite.position

/-- The positions of the classes that a statement exports, given its own. -/
def positionsExportedBy (sc : Scope) (position : Nat) : Statement → List Nat
  | .exportDeclaration (.classDecl _) => [position]
  | .exportClass _ => [position]
  | .exportName name => sc.positionsNamed name
  | .exportNames names _ => names.flatMap sc.positionsNamed
  | _ => []

end Scope

namespace Module

/-- The class at a position, with the name of its declaration. -/
def site? (m : Module) (position : Nat) : Option (ClassSite × String) :=
  m.statements[position]?.bind (Statement.site? position)

def positionsNamedByExports (m : Module) : List Nat :=
  m.statements.zipIdx.flatMap fun (statement, position) =>
    (Scope.ofModule m).positionsExportedBy position statement

/-- The positions of the exported classes in the order of their first exports. -/
def exportedPositions (m : Module) : List Nat := addMissing [] m.positionsNamedByExports

/-- What the exported classes mention. -/
def exportedReferences (m : Module) : List Reference :=
  m.positionsNamedByExports.flatMap fun position =>
    (m.site? position).elim [] fun (site, _) => site.decl.references

/-- The names of a module, read from what its exported classes mention. -/
def rooted (m : Module) : RootedScope := { Scope.ofModule m with roots := m.exportedReferences }

end Module

theorem Named.mem_sites_join {earlier later : Named} {site : ClassSite}
    (h : site ∈ (earlier.join later).sites) : site ∈ earlier.sites ∨ site ∈ later.sites := by
  cases earlier <;> cases later <;> simp_all [Named.join, Named.sites, or_assoc]

section Sites
variable {P : ClassSite → Prop} {sc : Scope}

/-- All class declarations of a scope have a property. -/
def Scope.AllSites (sc : Scope) (P : ClassSite → Prop) : Prop :=
  ∀ entry ∈ sc.declared, ∀ site ∈ entry.2.sites, P site

theorem Scope.AllSites.of_find (h : sc.AllSites P) {name : String} {named : Named}
    (hf : sc.find? name = some named) : ∀ site ∈ named.sites, P site := by
  obtain ⟨before, after, he, -⟩ := List.lookup_eq_some_iff.mp hf
  exact h (name, named) (by simp [he])

theorem Scope.AllSites.declare (h : sc.AllSites P) {name : String} {named : Named}
    (hn : ∀ site ∈ named.sites, P site) : (sc.declare name named).AllSites P := by
  intro entry he site hs
  obtain rfl | he := List.mem_cons.mp he
  · dsimp only at hs
    split at hs
    · next earlier hf =>
        obtain hs | hs := Named.mem_sites_join hs
        · exact h.of_find hf site hs
        · exact hn site hs
    · exact hn site hs
  · exact h entry (List.mem_of_mem_filter he) site hs

theorem Scope.AllSites.add (h : sc.AllSites P) {position : Nat} {statement : Statement}
    (hs : ∀ decl, statement = .declaration (.classDecl decl) ∨
      statement = .exportDeclaration (.classDecl decl) → P ⟨position, decl⟩) :
    (sc.add position statement).AllSites P := by
  have hdeclare : ∀ d : Declaration,
      (∀ decl, d = .classDecl decl → P ⟨position, decl⟩) → (sc.declareAt position d).AllSites P := by
    intro d hd
    cases d with
    | classDecl decl =>
        simp only [Scope.declareAt]
        split
        · exact h.declare fun site hs => List.mem_singleton.mp hs ▸ hd decl rfl
        · exact h
    | _ => exact h.declare nofun
  have hbind : ∀ (bindings : List ImportBinding) (sc : Scope), sc.AllSites P →
      (bindings.foldl Scope.bind sc).AllSites P := by
    intro bindings
    induction bindings with
    | nil => exact fun _ h => h
    | cons b bs ih => exact fun sc h => ih _ (by cases b <;> exact h)
  cases statement with
  | imports source bindings =>
      simp only [Scope.add]
      split
      · exact hbind bindings sc h
      · exact h
  | declaration d => exact hdeclare d fun decl he => hs decl (.inl (congrArg _ he))
  | exportDeclaration d => exact hdeclare d fun decl he => hs decl (.inr (congrArg _ he))
  | _ => exact h

end Sites

namespace Module
variable {m : Module} {position : Nat}

/-- The classes of the scope stand where the module has them. -/
theorem site?_of_declared (m : Module) : (Scope.ofModule m).AllSites fun site =>
    m.site? site.position = some (site, site.decl.name.getD "") := by
  have hstep : ∀ (entries : List (Statement × Nat)) (sc : Scope),
      (∀ entry ∈ entries, m.statements[entry.2]? = some entry.1) →
      (sc.AllSites fun site => m.site? site.position = some (site, site.decl.name.getD "")) →
      (entries.foldl (fun sc (statement, position) => sc.add position statement) sc).AllSites
        fun site => m.site? site.position = some (site, site.decl.name.getD "") := by
    intro entries
    induction entries with
    | nil => exact fun _ _ h => h
    | cons entry entries ih =>
        intro sc hentries h
        rw [List.forall_mem_cons] at hentries
        refine ih _ hentries.2 (h.add fun decl he => ?_)
        rw [site?, hentries.1]
        obtain he | he := he <;>
        · rw [he]
          rfl
  refine hstep _ _ ?_ nofun
  intro entry he
  exact List.mem_zipIdx_iff_getElem?.mp he

/-- The exports of a module name classes that it has. -/
theorem site?_of_exported (h : position ∈ m.positionsNamedByExports) :
    (m.site? position).isSome := by
  obtain ⟨⟨s, index⟩, hs, hp⟩ := List.mem_flatMap.mp h
  have hnamed : ∀ name, position ∈ (Scope.ofModule m).positionsNamed name →
      (m.site? position).isSome := by
    intro name hp
    obtain ⟨site, hsite, rfl⟩ := List.mem_map.mp hp
    cases hf : (Scope.ofModule m).find? name with
    | none =>
        rw [hf] at hsite
        cases hsite
    | some named =>
        rw [hf] at hsite
        rw [(site?_of_declared m).of_find hf site hsite]
        rfl
  have hown : (s.site? index).isSome → position = index → (m.site? position).isSome := by
    rintro hsome rfl
    rw [site?, List.mem_zipIdx_iff_getElem?.mp hs]
    exact hsome
  cases s with
  | exportDeclaration d =>
      cases d with
      | classDecl decl => exact hown rfl (List.mem_singleton.mp hp)
      | _ => cases hp
  | exportClass d => exact hown rfl (List.mem_singleton.mp hp)
  | exportName name => exact hnamed name hp
  | exportNames names source =>
      obtain ⟨name, -, hp⟩ := List.mem_flatMap.mp hp
      exact hnamed name hp
  | _ => cases hp

end Module

/-- The labels of the shared primitives. -/
def sharedLabels : List Label := (List.range TypeGraph.primitiveNames.length).map .shared

variable {sc : RootedScope} {sites : Nat → Option (ClassSite × String)} {labels : List Label}
  {r r' : Resolution} {id : NodeId}

theorem at_sharedLabels {label : Label} (ha : At sharedLabels id label) :
    id < TypeGraph.primitiveNames.length ∧ label = .shared id := by
  have hlt : id < TypeGraph.primitiveNames.length := by
    simpa [sharedLabels] using ha.lt
  refine ⟨hlt, ?_⟩
  rw [At, sharedLabels, List.getElem?_map, List.getElem?_range hlt] at ha
  exact (Option.some.inj ha).symm

theorem form_initial {name : String} (hname : TypeGraph.primitiveNames[id]? = some name) :
    TypeGraph.initial.form id = .primitive name := by
  simp [TypeGraph.form, TypeGraph.node, TypeGraph.initial, hname]

/-- At first there is nothing but primitives. -/
theorem form_initial_cases (id : NodeId) :
    (∃ name, TypeGraph.initial.form id = .primitive name) ∨
      TypeGraph.initial.form id = .unresolved "" none := by
  cases hname : TypeGraph.primitiveNames[id]? with
  | some name => exact .inl ⟨name, form_initial hname⟩
  | none =>
      refine .inr (TypeGraph.form_of_size_le ?_)
      simpa [TypeGraph.initial, TypeGraph.size] using hname

theorem founded_initial : TypeGraph.initial.Founded := by
  refine ⟨?_, ?_, ?_⟩
  all_goals
    intro id _ hform
    obtain ⟨name, he⟩ | he := form_initial_cases id <;>
    · rw [he] at hform
      cases hform

theorem Nodes.initial : Nodes sc sites [] TypeGraph.initial sharedLabels where
  size := rfl
  nodup := List.Nodup.map (fun _ _ => Label.shared.inj) List.nodup_range
  shared := by
    intro id hid
    rw [At, sharedLabels, List.getElem?_map, List.getElem?_range hid]
    rfl
  forms := by
    intro id label ha
    obtain ⟨hlt, rfl⟩ := at_sharedLabels ha
    have hname := List.getElem?_eq_getElem hlt
    refine ⟨.primitive TypeGraph.primitiveNames[id], .inr ⟨List.not_mem_nil, ?_⟩, ?_⟩
    · simp only [RootedScope.formOf, hname]
      rfl
    · rw [form_initial hname]
      exact .primitive _
  founded := founded_initial
  flat := by
    intro owner index members hm
    simp [sharedLabels] at hm
  fillable := nofun
  present := nofun
  distinct := List.nodup_nil

/-- In the beginning there are the shared primitives, and nothing is remembered. -/
theorem Labelled.initial : Labelled sc sites .none .initial sharedLabels where
  nodes := Nodes.initial
  tables := by
    refine ⟨⟨nofun, ?_⟩, ⟨nofun, ?_⟩, ⟨nofun, ?_⟩⟩
    all_goals
      intro i id ha
      cases (at_sharedLabels ha).2
  known := by
    refine ⟨nofun, ?_⟩
    intro name arguments hm
    simp [sharedLabels] at hm
  course := by
    refine ⟨.nil, nofun, nofun, ?_, List.nodup_nil, nofun⟩
    intro label owner index hm hplace
    obtain ⟨id, -, rfl⟩ := List.mem_map.mp hm
    cases hplace

/-- The bases of a class declaration, where its type parameters are bound. -/
def Scope.declaredBases (sc : Scope) (resolve : Resolver) (d : ClassDecl) :
    Resolve (List NodeId) := do
  let bindings ← sc.bindTypeParams resolve [] d.typeParams []
  d.heritage.mapM (sc.baseType resolve bindings)

namespace Source
variable (src : Source) (site : ClassSite) (name : String)

/-- A class declaration has got its node, but no bases yet. -/
def withClass (r : Resolution) : Resolution :=
  { r with
    graph := (r.graph.push (.classDeclaration name [])
      (some (src.scope.location site.decl.place))).2
    classes := (site.position, r.graph.size) :: r.classes }

variable {src site name} {r r' : Resolution} {id : NodeId}

/-- A class declaration is known, or it gets a node and then its bases. -/
theorem classNode_cases (hrun : src.classNode site name r = some (id, r')) :
    (r.classes.lookup site.position = some id ∧ r' = r) ∨
      (r.classes.lookup site.position = none ∧ id = r.graph.size ∧ ∃ bases r₁,
        src.scope.declaredBases src.resolve site.decl (src.withClass site name r) =
          some (bases, r₁) ∧
        r' = { r₁ with graph := r₁.graph.setForm id (.classDeclaration name bases) }) := by
  rw [classNode, get_bind] at hrun
  cases hlookup : r.classes.lookup site.position with
  | some known =>
      rw [hlookup] at hrun
      cases hrun
      exact .inl ⟨rfl, rfl⟩
  | none =>
      rw [hlookup] at hrun
      obtain ⟨⟨bindings, r₁⟩, hbind, hrun⟩ := Option.bind_eq_some_iff.mp hrun
      obtain ⟨⟨bases, r₂⟩, hbases, hrun⟩ := Option.bind_eq_some_iff.mp hrun
      cases hrun
      exact .inr ⟨rfl, rfl, bases, r₂, Option.bind_eq_some_iff.mpr ⟨_, hbind, hbases⟩, rfl⟩

end Source

/-- The text of a class declaration is begun when the class is met for the first time. -/
theorem Labelled.enter_class (h : Labelled sc sites .none r labels) {position : Nat}
    (hfree : r.classes.lookup position = none) (name : String) (location : Option Location) :
    Labelled sc sites
      ((Opens.none.fill (.classOf position) (.classDeclaration name [])).within (.site position) 0)
      { r with
        graph := (r.graph.push (.classDeclaration name []) location).2
        classes := (position, r.graph.size) :: r.classes } (labels ++ [.classOf position]) := by
  have hpushed := h.push_class hfree name location
  have hnew : ∀ label ∈ labels, ∀ index, label.place? ≠ some (.site position, index) := by
    refine h.course.free List.not_mem_nil ?_
    rw [Settled, hfree]
    exact nofun
  refine ⟨hpushed.nodes, hpushed.tables, hpushed.known,
    hpushed.course.enter List.not_mem_nil ?_ (.inl ?_)⟩
  · intro label hm index
    obtain hm | hm := List.mem_append.mp hm
    · exact hnew label hm index
    · cases List.mem_singleton.mp hm
      exact nofun
  · simp [Settled]

/-- The bases of a class declaration, in a text of their own. -/
theorem Tracks.classBases {resolve : Resolver} (hr : ResolverTracks sc sites resolve)
    {o : Opens} {site : ClassSite} (hagrees : Agrees sc .start (.site site.position) o labels)
    (hv : sc.Visits .start site.decl.references) :
    Tracks sc sites (.site site.position) o labels (sc.declaredBases resolve site.decl)
      (sc.classBases site) (fun _ => o) fun labels' => List.Forall₂ (At labels') := by
  refine (bindTypeParams hr ⟨hagrees, .nil⟩ .nil hv.left).bind fun labels' bindings names _ hs => ?_
  refine mapM (fun hpre ha => ha.mono hpre) fun h hh labels'' hpre => ?_
  exact baseType hr (hs.mono hpre) (hv.right.of_flatMap hh)

section Meets
variable {κ α β γ δ ι : Type} {le : κ → κ → Prop} {holds : Resolution → κ → Prop}

/-- What is known of a resolution grows with a step, and its result is right by what is known then. -/
def Meets (le : κ → κ → Prop) (holds : Resolution → κ → Prop) (m : Resolve α) (b : β)
    (R : κ → α → β → Prop) : Prop :=
  ∀ k r a r', holds r k → m r = some (a, r') → ∃ k', le k k' ∧ holds r' k' ∧ R k' a b

namespace Meets

theorem map {m : Resolve α} {b : β} {R : κ → α → β → Prop} {f : α → γ} {d : δ}
    {T : κ → γ → δ → Prop} (h : Meets le holds m b R) (himp : ∀ k a, R k a b → T k (f a) d) :
    Meets le holds (m >>= fun a => Pure.pure (f a)) d T := by
  intro k r c r' hk hm
  obtain ⟨⟨a, r₁⟩, hm, he⟩ := Option.bind_eq_some_iff.mp hm
  cases he
  obtain ⟨k', hle, hk', hR⟩ := h k r a _ hk hm
  exact ⟨k', hle, hk', himp k' a hR⟩

variable (hrefl : ∀ k, le k k)
include hrefl

theorem pure {a : α} {b : β} {R : κ → α → β → Prop} (hR : ∀ k, R k a b) :
    Meets le holds (Pure.pure a) b R := by
  intro k r a' r' hk hm
  cases hm
  exact ⟨k, hrefl k, hk, hR k⟩

variable (htrans : ∀ {k k' k''}, le k k' → le k' k'' → le k k'')
include htrans

theorem mapM {R : κ → α → β → Prop} {f : ι → Resolve α} {g : ι → β}
    (hmono : ∀ {k k' a b}, le k k' → R k a b → R k' a b) {xs : List ι}
    (h : ∀ x ∈ xs, Meets le holds (f x) (g x) R) :
    Meets le holds (xs.mapM f) (xs.map g) fun k => List.Forall₂ (R k) := by
  induction xs with
  | nil => exact pure hrefl fun _ => .nil
  | cons x xs ih =>
      rw [List.forall_mem_cons] at h
      intro k r as r' hk hm
      rw [List.mapM_cons] at hm
      obtain ⟨⟨a, r₁⟩, hm₁, hm⟩ := Option.bind_eq_some_iff.mp hm
      obtain ⟨⟨as', r₂⟩, hm₂, he⟩ := Option.bind_eq_some_iff.mp hm
      cases he
      obtain ⟨k₁, hle₁, hk₁, hR⟩ := h.1 k r a r₁ hk hm₁
      obtain ⟨k₂, hle₂, hk₂, hRs⟩ := ih h.2 k₁ r₁ as' _ hk₁ hm₂
      exact ⟨k₂, htrans hle₁ hle₂, hk₂, .cons (hmono hle₂ hR) hRs⟩

variable {P : κ → NodeId → Nat → Prop}
  (hmono : ∀ {k k' id position}, le k k' → P k id position → P k' id position)
include hmono

theorem flatten {f : ι → Resolve (List NodeId)} {g : ι → List Nat} {xs : List ι}
    (h : ∀ x ∈ xs, Meets le holds (f x) (g x) fun k => List.Forall₂ (P k)) :
    Meets le holds (xs.mapM f >>= fun found => Pure.pure found.flatten) (xs.flatMap g)
      fun k => List.Forall₂ (P k) := by
  have hall := mapM hrefl htrans (R := fun k => List.Forall₂ (P k))
    (fun hle hall => hall.imp fun _ _ => hmono hle) h
  exact hall.map fun k found hfound => List.rel_flatten hfound

/-- The exports of a module lead to the classes at their positions, if each class declaration that
is exported is met at its position. -/
theorem exportedClasses {src : Source} (hscope : src.scope = Scope.ofModule src.mod)
    (hnode : ∀ {site name}, src.mod.site? site.position = some (site, name) →
      site.position ∈ src.mod.positionsNamedByExports →
      Meets le holds (src.classNode site name) site.position P) :
    Meets le holds src.exportedClasses src.mod.positionsNamedByExports
      fun k => List.Forall₂ (P k) := by
  have hnamed : ∀ name, (∀ position ∈ (Scope.ofModule src.mod).positionsNamed name,
      position ∈ src.mod.positionsNamedByExports) → Meets le holds (src.classesNamed name)
      ((Scope.ofModule src.mod).positionsNamed name) fun k => List.Forall₂ (P k) := by
    intro name hexported
    unfold Source.classesNamed
    unfold Scope.positionsNamed at hexported ⊢
    rw [hscope]
    cases hf : (Scope.ofModule src.mod).find? name with
    | none => exact pure hrefl fun _ => .nil
    | some named =>
        rw [hf] at hexported
        cases named with
        | classes first more =>
            refine mapM hrefl htrans (R := P) hmono fun site hs => hnode ?_ ?_
            · exact (Module.site?_of_declared src.mod).of_find hf site hs
            · exact hexported _ (List.mem_map_of_mem hs)
        | _ => exact pure hrefl fun _ => .nil
  refine flatten hrefl htrans (P := P) hmono fun entry hs => ?_
  obtain ⟨s, index⟩ := entry
  have hexported : ∀ position ∈ (Scope.ofModule src.mod).positionsExportedBy index s,
      position ∈ src.mod.positionsNamedByExports :=
    fun position hp => List.mem_flatMap.mpr ⟨(s, index), hs, hp⟩
  have hs : src.mod.statements[index]? = some s := List.mem_zipIdx_iff_getElem?.mp hs
  have hown : ∀ d name, s.site? index = some (⟨index, d⟩, name) →
      index ∈ src.mod.positionsNamedByExports → Meets le holds (do
        let id ← src.classNode ⟨index, d⟩ name
        Pure.pure [id]) [index] fun k => List.Forall₂ (P k) := by
    intro d name he hp
    have hsite : src.mod.site? index = some (⟨index, d⟩, name) := by
      rw [Module.site?, hs]
      exact he
    exact (hnode hsite hp).map fun k id ha => .cons ha .nil
  cases s with
  | exportDeclaration d =>
      cases d with
      | classDecl decl => exact hown _ _ rfl (hexported index List.mem_cons_self)
      | _ => exact pure hrefl fun _ => .nil
  | exportClass d => exact hown _ _ rfl (hexported index List.mem_cons_self)
  | exportName name => exact hnamed name hexported
  | exportNames names source =>
      refine flatten hrefl htrans (P := P) hmono fun name hname => hnamed name fun position hp => ?_
      exact hexported position (List.mem_flatMap.mpr ⟨name, hname, hp⟩)
  | _ => exact pure hrefl fun _ => .nil

end Meets

end Meets

/-- A step outside all texts, whose labels are told before. -/
def Finds (sc : RootedScope) (sites : Nat → Option (ClassSite × String)) {α β : Type} (m : Resolve α)
    (b : β) (R : List Label → α → β → Prop) : Prop :=
  Meets (· <+: ·) (Labelled sc sites .none) m b R

/-- The node of the class declaration at a position. -/
def AtClass (labels : List Label) (id : NodeId) (position : Nat) : Prop :=
  At labels id (.classOf position)

namespace Finds

/-- A class declaration is met again by its position. -/
theorem classNode {src : Source} (hscope : src.scope = sc.toScope) (hu : sc.Untangled)
    {site : ClassSite} {name : String} (hsite : sites site.position = some (site, name))
    (hroots : site.decl.references ⊆ sc.roots) :
    Finds sc sites (src.classNode site name) site.position AtClass := by
  intro labels r id r' h hm
  obtain ⟨hlookup, rfl⟩ | ⟨hlookup, rfl, bases, r₁, hbases, rfl⟩ := Source.classNode_cases hm
  · have hfound := h.tables.classes.found (fun hk hk' => hk.symm.trans hk') rfl hlookup
    exact ⟨labels, List.prefix_refl _, h, hfound⟩
  · have hpre : labels <+: labels ++ [.classOf site.position] := List.prefix_append _ _
    have hlast := At.last labels (.classOf site.position)
    rw [h.size] at hlast
    have hagrees : Agrees sc .start (.site site.position)
        (Opens.none.fill (.classOf site.position) (.classDeclaration name []))
        (labels ++ [.classOf site.position]) := by
      refine ⟨rfl, nofun, nofun, nofun, ?_⟩
      intro name arguments form hm
      cases List.mem_singleton.mp hm
    rw [Source.resolve, hscope] at hbases
    obtain ⟨lbases, count, labels', he, hpre', h', hall⟩ := Tracks.classBases
      (resolveTo_tracks hu src.depth) hagrees (fun u hu => .root (hroots hu)) 0 _ bases r₁
      (h.enter_class hlookup name _) hbases
    have hform : sc.formOf sites (.classOf site.position) =
        some (.classDeclaration name lbases) := by
      simp only [RootedScope.formOf, hsite, Option.bind_eq_bind, Option.bind_some, he]
    have hset := Labelled.setForm (o := Opens.none.within (.site site.position) count) h'
      (hlast.mono hpre') (.classDeclaration name hall) (.classOf ..)
    have hsettled := h'.tables.classes.complete (hlast.mono hpre')
    obtain ⟨position, rfl, hknown⟩ := hsettled
    refine ⟨labels', hpre.trans hpre', (hset.filled hform).leave ?_, hlast.mono hpre'⟩
    exact Option.isSome_of_eq_some hknown

/-- The exports of a module lead to the classes at their positions. -/
theorem exportedClasses {m : Module} (hscope : Scope.ofModule m = sc.toScope) (hu : sc.Untangled)
    (hsites : ∀ {position x}, m.site? position = some x → sites position = some x)
    (hroots : m.exportedReferences ⊆ sc.roots) :
    Finds sc sites (Source.ofModule m).exportedClasses m.positionsNamedByExports
      fun labels => List.Forall₂ (AtClass labels) := by
  have hreferences : ∀ {site name}, m.site? site.position = some (site, name) →
      site.position ∈ m.positionsNamedByExports → site.decl.references ⊆ m.exportedReferences := by
    intro site name hsite hp u hu
    refine List.mem_flatMap.mpr ⟨_, hp, ?_⟩
    rw [hsite]
    exact hu
  exact Meets.exportedClasses List.prefix_refl List.IsPrefix.trans (P := AtClass) At.mono rfl
    fun hsite hp => classNode hscope hu (hsites hsite) fun u hu => hroots (hreferences hsite hp hu)

end Finds

end PropSchema.TypeScript
