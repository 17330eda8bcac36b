import PropSchema.Proofs.TypeScript.Changes.Declared
import PropSchema.Proofs.TypeScript.ClassTable
import PropSchema.Proofs.TypeScript.Names
/-!
The classes that a module exports. Each class declaration is one node, however many exports name it,
and it is that of a class statement. A class is exported by its own statement or by its name; a name
leads to the classes that it is declared as, unless something else is declared by it later.
-/
namespace PropSchema.TypeScript

open Resolve

/-- The class declarations that are known are nodes of their own, which declare what stands at their
positions. -/
structure Resolution.TableOf (m : Module) (r : Resolution) : Prop where
  known : r.Known
  forms : ∀ e ∈ r.classes, ∃ site name bases, m.site? e.1 = some (site, name) ∧
    r.graph.form e.2 = .classDeclaration name bases
  nodup : (r.classes.map Prod.snd).Nodup

/-- The node that a position has in a table of class declarations. -/
def NodeOf (table : List (Nat × NodeId)) (id : NodeId) (position : Nat) : Prop :=
  table.lookup position = some id

/-- All positions that have a node keep it. -/
def Retains (table table' : List (Nat × NodeId)) : Prop :=
  ∀ position id, NodeOf table id position → NodeOf table' id position

namespace Resolution.TableOf
variable {m : Module} {r r' : Resolution}

theorem initial (m : Module) : Resolution.initial.TableOf m := ⟨.initial, nofun, List.nodup_nil⟩

/-- A position and a node of the table determine each other. -/
theorem injective (h : r.TableOf m) {id id' : NodeId} {p p' : Nat} (hp : NodeOf r.classes id p)
    (hp' : NodeOf r.classes id' p') : id = id' ↔ p = p' := by
  constructor
  · rintro rfl
    have heq := List.inj_on_of_nodup_map h.nodup (Entries.mem_of_lookup hp)
      (Entries.mem_of_lookup hp') rfl
    exact congrArg Prod.fst heq
  · rintro rfl
    exact Option.some.inj (hp.symm.trans hp')

theorem form_of_nodeOf (h : r.TableOf m) {id : NodeId} {p : Nat} (hp : NodeOf r.classes id p) :
    ∃ site name bases, m.site? p = some (site, name) ∧
      r.graph.form id = .classDeclaration name bases :=
  h.forms _ (Entries.mem_of_lookup hp)

/-- A class declaration gets a node when it is met first; its bases declare no other class. -/
theorem classNode {src : Source} (h : r.TableOf src.mod) {site : ClassSite} {name : String}
    (hsite : src.mod.site? site.position = some (site, name)) {id : NodeId}
    (hrun : src.classNode site name r = some (id, r')) :
    r'.TableOf src.mod ∧ Retains r.classes r'.classes ∧ NodeOf r'.classes id site.position := by
  obtain ⟨hlookup, rfl⟩ | ⟨hlookup, rfl, bases, r₁, hbases, rfl⟩ := Source.classNode_cases hrun
  · exact ⟨h, fun _ _ hp => hp, hlookup⟩
  have hR := Run.relation src.scope fun _ => True
  have hr : ResolverSteps src.scope (Run src.scope) src.resolve :=
    resolveTo_runs src.scope src.depth
  obtain ⟨-, hknown₀, hsize⟩ := Steps.withClass hR site name h.known
  obtain ⟨hruns, hknown₁, -⟩ := Steps.declaredBases hR hr (fun _ => trivial) site.decl
    (src.withClass site name r) bases r₁ (Nat.le_refl _) hknown₀ hbases
  have hclasses : r₁.classes = (site.position, r.graph.size) :: r.classes :=
    KeepsClasses.declaredBases (KeepsClasses.resolveTo src.scope src.depth) site.decl
      (src.withClass site name r) bases r₁ hbases
  have hlt : r.graph.size < r₁.graph.size := Nat.lt_of_lt_of_le hsize hruns.size
  refine ⟨⟨hknown₁.setForm hlt (by nofun), ?_, ?_⟩, ?_, ?_⟩
  · dsimp only
    rw [hclasses, List.forall_mem_cons]
    refine ⟨⟨site, name, bases, hsite, (TypeGraph.form_setForm hlt _ _).trans (if_pos rfl)⟩,
      fun e he => ?_⟩
    obtain ⟨site', name', bases', hsite', hform⟩ := h.forms e he
    have hold := h.known.classes e he
    refine ⟨site', name', bases', hsite', ?_⟩
    rw [TypeGraph.form_setForm hlt, if_neg (Nat.ne_of_lt hold),
      hruns.kept _ (Nat.lt_trans hold hsize)]
    exact (form_push_of_lt hold _ _).trans hform
  · dsimp only
    rw [hclasses, List.map_cons, List.nodup_cons]
    refine ⟨fun hmem => ?_, h.nodup⟩
    obtain ⟨e, he, heq⟩ := List.mem_map.mp hmem
    exact absurd (h.known.classes e he) (heq ▸ Nat.lt_irrefl _)
  · intro p id hp
    unfold NodeOf at hp ⊢
    dsimp only
    have hne : p ≠ site.position := fun heq => by rw [heq, hlookup] at hp; cases hp
    rw [hclasses, List.lookup_cons, beq_false_of_ne hne]
    exact hp
  · unfold NodeOf
    dsimp only
    rw [hclasses, List.lookup_cons_self]

/-- What exports lead to are the nodes of the positions that they name. -/
theorem exportedClasses {src : Source} (hscope : src.scope = Scope.ofModule src.mod)
    {ids : List NodeId} (hrun : src.exportedClasses .initial = some (ids, r)) :
    r.TableOf src.mod ∧
      List.Forall₂ (NodeOf r.classes) ids src.mod.positionsNamedByExports := by
  have hmeets : Meets Retains (fun r table => table = r.classes ∧ r.TableOf src.mod)
      src.exportedClasses src.mod.positionsNamedByExports
      fun table => List.Forall₂ (NodeOf table) := by
    refine Meets.exportedClasses (fun _ _ _ hp => hp) (fun h h' p id hp => h' p id (h p id hp))
      (P := NodeOf) (fun h hp => h _ _ hp) hscope ?_
    rintro site name hsite - table r id r' ⟨rfl, hr⟩ hrun
    obtain ⟨hr', hretains, hid⟩ := hr.classNode hsite hrun
    exact ⟨_, hretains, ⟨rfl, hr'⟩, hid⟩
  obtain ⟨table, -, ⟨rfl, hr⟩, hall⟩ := hmeets [] .initial ids r ⟨rfl, initial _⟩ hrun
  exact ⟨hr, hall⟩

end Resolution.TableOf

/-- The name that a statement declares a class by. -/
def Statement.className? : Statement → Option String
  | .declaration (.classDecl d) => d.name
  | .exportDeclaration (.classDecl d) => d.name
  | _ => none

/-- The positions of the classes among the declarations of a name, if there are any. -/
def positionsOf (found : Option Named) : List Nat :=
  (found.elim [] Named.sites).map ClassSite.position

theorem positionsOf_joinTo_class (earlier : Option Named) (site : ClassSite) :
    positionsOf (Named.joinTo earlier (.classes site [])) =
      positionsOf earlier ++ [site.position] := by
  cases earlier with
  | none => rfl
  | some named => cases named <;> simp [positionsOf, Named.joinTo, Named.join, Named.sites]

/-- A declaration of another kind takes the place of classes. -/
theorem positionsOf_joinTo_other (earlier : Option Named) {named : Named} (h : named.sites = []) :
    positionsOf (Named.joinTo earlier named) = [] := by
  cases named with
  | classes first more => cases h
  | _ =>
      cases earlier with
      | none => rfl
      | some named => cases named <;> rfl

/-- A statement declares a class by a name, or nothing that is one. -/
theorem Statement.declared?_cases {s : Statement} {position : Nat} {name : String} {named : Named}
    (h : s.declared? position = some (name, named)) :
    (∃ d, named = .classes ⟨position, d⟩ [] ∧ s.className? = some name) ∨
      named.sites = [] ∧ s.className? = none := by
  cases s with
  | declaration d | exportDeclaration d =>
      cases d with
      | classDecl d =>
          obtain ⟨_, hname, he⟩ := Option.map_eq_some_iff.mp h
          cases he
          exact .inl ⟨d, rfl, hname⟩
      | _ =>
          cases h
          exact .inr ⟨rfl, rfl⟩
  | _ => cases h

theorem Statement.declares_of_className? {s : Statement} {name : String}
    (h : s.className? = some name) : s.declares name = true := by
  cases s with
  | declaration d | exportDeclaration d =>
      cases d with
      | classDecl d =>
          have hname : d.name = some name := h
          simp [declares, declared?, Declaration.declared?, hname]
      | _ => cases h
  | _ => cases h

theorem Statement.exists_declared? {s : Statement} {name : String} (h : s.declares name = true)
    (position : Nat) : ∃ named, s.declared? position = some (name, named) := by
  obtain ⟨⟨_, named⟩, he, rfl⟩ := Option.map_eq_some_iff.mp (beq_iff_eq.mp h)
  cases s with
  | declaration d | exportDeclaration d =>
      cases d with
      | classDecl d =>
          obtain ⟨_, hname, he⟩ := Option.map_eq_some_iff.mp he
          cases he
          exact ⟨_, Option.map_eq_some_iff.mpr ⟨_, hname, rfl⟩⟩
      | _ =>
          cases he
          exact ⟨_, rfl⟩
  | _ => cases he

section Declared
variable {s : Statement × Nat} {statements : List (Statement × Nat)} {name : String}

theorem declaredAs_cons_of_declared {named : Named} (h : s.1.declared? s.2 = some (name, named)) :
    declaredAs (s :: statements) name = named :: declaredAs statements name := by
  simp [declaredAs, h]

theorem declaredAs_cons_of_not (h : ¬ s.1.declares name) :
    declaredAs (s :: statements) name = declaredAs statements name := by
  cases he : s.1.declared? s.2 with
  | none => simp [declaredAs, he]
  | some e =>
      have hne : e.1 ≠ name := fun hname => h (hname ▸ Statement.declares_of_declared? he)
      simp [declaredAs, he, hne]

end Declared

/-- Whatever declares a name among some statements declares a class. -/
def OnlyClasses (name : String) (statements : List (Statement × Nat)) : Prop :=
  ∀ s ∈ statements, s.1.declares name → s.1.className? = some name

/-- A class of a name stands at a position, and after it nothing else is declared by that name. -/
def LastClass (name : String) (statements : List (Statement × Nat)) (p : Nat) : Prop :=
  ∃ s, (s, p) ∈ statements ∧ s.className? = some name ∧
    OnlyClasses name (statements.filter fun t => p < t.2)

theorem lastClass_cons {name : String} {s : Statement × Nat} {statements : List (Statement × Nat)}
    (hlater : ∀ t ∈ statements, s.2 < t.2) {p : Nat} : LastClass name (s :: statements) p ↔
      (p = s.2 ∧ s.1.className? = some name ∧ OnlyClasses name statements) ∨
        LastClass name statements p := by
  have hdrop : s.2 ≤ p → ((s :: statements).filter fun t => p < t.2) =
      statements.filter fun t => p < t.2 :=
    fun hle => List.filter_cons_of_neg (by simpa using hle)
  constructor
  · rintro ⟨t, ht, hclass, honly⟩
    obtain rfl | ht := List.mem_cons.mp ht
    · have hall : (statements.filter fun t => p < t.2) = statements :=
        List.filter_eq_self.mpr fun t ht => by simpa using hlater t ht
      rw [hdrop (Nat.le_refl p), hall] at honly
      exact .inl ⟨rfl, hclass, honly⟩
    · rw [hdrop (Nat.le_of_lt (hlater _ ht))] at honly
      exact .inr ⟨t, ht, hclass, honly⟩
  · rintro (⟨rfl, hclass, honly⟩ | ⟨t, ht, hclass, honly⟩)
    · refine ⟨s.1, List.mem_cons_self, hclass, ?_⟩
      rw [hdrop (Nat.le_refl _)]
      exact fun t ht => honly t (List.mem_of_mem_filter ht)
    · refine ⟨t, List.mem_cons_of_mem _ ht, hclass, ?_⟩
      rw [hdrop (Nat.le_of_lt (hlater _ ht))]
      exact honly

/-- A name leads to the classes that it is declared as with nothing else after them. -/
theorem mem_positionsOf_foldl {name : String} {p : Nat} {statements : List (Statement × Nat)}
    (hsorted : statements.Pairwise fun s t => s.2 < t.2) (earlier : Option Named) :
    p ∈ positionsOf ((declaredAs statements name).foldl Named.joinTo earlier) ↔
      (p ∈ positionsOf earlier ∧ OnlyClasses name statements) ∨ LastClass name statements p := by
  induction statements generalizing earlier with
  | nil => simp [declaredAs, OnlyClasses, LastClass]
  | cons s statements ih =>
      obtain ⟨hlater, hsorted⟩ := List.pairwise_cons.mp hsorted
      have honly : OnlyClasses name (s :: statements) ↔
          (s.1.declares name → s.1.className? = some name) ∧ OnlyClasses name statements :=
        List.forall_mem_cons
      rw [lastClass_cons hlater, honly]
      by_cases hd : s.1.declares name
      · obtain ⟨named, he⟩ := Statement.exists_declared? hd s.2
        rw [declaredAs_cons_of_declared he, List.foldl_cons, ih hsorted]
        obtain ⟨d, rfl, hclass⟩ | ⟨hother, hclass⟩ := Statement.declared?_cases he
        · rw [positionsOf_joinTo_class, List.mem_append, List.mem_singleton]
          simp only [hclass]
          tauto
        · rw [positionsOf_joinTo_other earlier hother]
          simp [hclass, hd]
      · rw [declaredAs_cons_of_not hd, ih hsorted]
        have hclass : s.1.className? ≠ some name := fun hc => hd (Statement.declares_of_className? hc)
        simp [hclass, hd]

namespace Module
variable {m : Module} {p : Nat}

theorem mem_positionsNamed {name : String} :
    p ∈ (Scope.ofModule m).positionsNamed name ↔ LastClass name m.statements.zipIdx p := by
  have hsorted : m.statements.zipIdx.Pairwise fun s t => s.2 < t.2 := by
    refine List.pairwise_map.mp (?_ : (m.statements.zipIdx.map Prod.snd).Pairwise (· < ·))
    rw [List.zipIdx_map_snd]
    exact List.pairwise_lt_range'
  have hpositions : (Scope.ofModule m).positionsNamed name =
      positionsOf ((Scope.ofModule m).find? name) := rfl
  rw [hpositions, find?_scope, mem_positionsOf_foldl hsorted none]
  simp [positionsOf]

/-- A statement exports what a module declares by a name. -/
def ExportsName (m : Module) (name : String) : Prop :=
  ∃ s ∈ m.statements, s = .exportName name ∨ ∃ names, s = .exportNames names none ∧ name ∈ names

/-- The class at a position is exported, where it is declared or by its name. -/
inductive Exports (m : Module) (p : Nat) : Prop
  | declaration {d : ClassDecl} (h : m.statements[p]? = some (.exportDeclaration (.classDecl d)))
  | expression {d : ClassDecl} (h : m.statements[p]? = some (.exportClass d))
  | name {s : Statement} {name : String} (h : m.statements[p]? = some s)
      (hclass : s.className? = some name) (hname : m.ExportsName name)

/-- Names that are exported mean the classes that they name. -/
structure ExportsPlainly (m : Module) : Prop where
  /-- What is exported from another module is named as no class. -/
  apart : ∀ names source, .exportNames names (some source) ∈ m.statements →
    ∀ name ∈ names, ∀ s ∈ m.statements, s.className? ≠ some name
  /-- After a class that is exported by its name nothing else is declared by that name. -/
  last : ∀ {name : String}, m.ExportsName name → ∀ {p q : Nat} {s t : Statement}, p < q →
    m.statements[p]? = some s → s.className? = some name → m.statements[q]? = some t →
      t.declares name → t.className? = some name

/-- The exports of a module name the classes that it exports. -/
theorem mem_positionsNamedByExports (h : m.ExportsPlainly) :
    p ∈ m.positionsNamedByExports ↔ m.Exports p := by
  have hnamed : ∀ {name}, m.ExportsName name →
      (p ∈ (Scope.ofModule m).positionsNamed name ↔
        ∃ s, m.statements[p]? = some s ∧ s.className? = some name) := by
    intro name hname
    rw [mem_positionsNamed]
    constructor
    · rintro ⟨s, hs, hclass, -⟩
      exact ⟨s, List.mem_zipIdx_iff_getElem?.mp hs, hclass⟩
    · rintro ⟨s, hs, hclass⟩
      refine ⟨s, List.mem_zipIdx_iff_getElem?.mpr hs, hclass, fun t ht hd => ?_⟩
      obtain ⟨ht, hlater⟩ := List.mem_filter.mp ht
      exact h.last hname (of_decide_eq_true hlater) hs hclass (List.mem_zipIdx_iff_getElem?.mp ht) hd
  constructor
  · intro hp
    obtain ⟨⟨s, i⟩, hs, hp⟩ := List.mem_flatMap.mp hp
    have hp : p ∈ (Scope.ofModule m).positionsExportedBy i s := hp
    have hmem : s ∈ m.statements := List.fst_mem_of_mem_zipIdx hs
    have hs : m.statements[i]? = some s := List.mem_zipIdx_iff_getElem?.mp hs
    cases s with
    | exportDeclaration d =>
        cases d with
        | classDecl d =>
            cases List.mem_singleton.mp hp
            exact .declaration hs
        | _ => cases hp
    | exportClass d =>
        cases List.mem_singleton.mp hp
        exact .expression hs
    | exportName name =>
        have hname : m.ExportsName name := ⟨_, hmem, .inl rfl⟩
        obtain ⟨t, ht, hclass⟩ := (hnamed hname).mp hp
        exact .name ht hclass hname
    | exportNames names source =>
        obtain ⟨name, hin, hlast⟩ := List.mem_flatMap.mp hp
        cases source with
        | none =>
            have hname : m.ExportsName name := ⟨_, hmem, .inr ⟨names, rfl, hin⟩⟩
            obtain ⟨t, ht, hclass⟩ := (hnamed hname).mp hlast
            exact .name ht hclass hname
        | some source =>
            obtain ⟨t, ht, hclass, -⟩ := mem_positionsNamed.mp hlast
            exact absurd hclass (h.apart names source hmem name hin t (List.fst_mem_of_mem_zipIdx ht))
    | _ => cases hp
  · have hexported : ∀ {s i}, m.statements[i]? = some s →
        p ∈ (Scope.ofModule m).positionsExportedBy i s → p ∈ m.positionsNamedByExports :=
      fun {s i} hs hp => List.mem_flatMap.mpr ⟨(s, i), List.mem_zipIdx_iff_getElem?.mpr hs, hp⟩
    rintro (hs | hs | ⟨hs, hclass, hname⟩)
    · exact hexported hs List.mem_cons_self
    · exact hexported hs List.mem_cons_self
    · have hp := (hnamed hname).mpr ⟨_, hs, hclass⟩
      obtain ⟨t, ht, hexport⟩ := hname
      obtain ⟨i, hi, hget⟩ := List.mem_iff_getElem.mp ht
      have ht := List.getElem?_eq_some_iff.mpr ⟨hi, hget⟩
      obtain rfl | ⟨names, rfl, hin⟩ := hexport
      · exact hexported ht hp
      · exact hexported ht (List.mem_flatMap.mpr ⟨_, hin, hp⟩)

end Module

end PropSchema.TypeScript
