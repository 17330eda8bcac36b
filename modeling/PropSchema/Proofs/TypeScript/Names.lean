import PropSchema.Proofs.Entries
import PropSchema.TypeScript.Scope
/-!
What the names at the top of a module stand for, read off its statements. A name stands for the
declarations of that name, in their order; it is imported as the last import says that binds it.
Statements of other names do not matter.
-/
namespace PropSchema.TypeScript

/-- The name that a declaration declares, and what as. -/
def Declaration.declared? (position : Nat) : Declaration → Option (String × Named)
  | .interfaceDecl d => some (d.name, .interfaces d [])
  | .aliasDecl d => some (d.name, .aliases d [])
  | .enumDecl d => some (d.name, .enums d [])
  | .classDecl d => d.name.map fun name => (name, .classes ⟨position, d⟩ [])

namespace Statement

def declared? (position : Nat) : Statement → Option (String × Named)
  | .declaration d => d.declared? position
  | .exportDeclaration d => d.declared? position
  | _ => none

/-- The names that a statement imports from the framework. -/
def frameworkBindings : Statement → List ImportBinding
  | .imports source bindings => if source == frameworkModule then bindings else []
  | _ => []

end Statement

/-- The local name of what is imported. -/
def ImportBinding.name : ImportBinding → String
  | .whole name => name
  | .named _ name => name

namespace Statement

def declares (s : Statement) (name : String) : Bool := (s.declared? 0).map (·.1) == some name

/-- The names that a statement declares or imports from the framework. -/
def bound (s : Statement) : List String :=
  ((s.declared? 0).map (·.1)).toList ++ s.frameworkBindings.map ImportBinding.name

end Statement

/-- The local name, and the name in the framework, of what is imported by name. -/
def ImportBinding.imported? : ImportBinding → Option (String × String)
  | .named imported name => some (name, qualified imported)
  | .whole _ => none

def ImportBinding.namespace? : ImportBinding → Option String
  | .whole name => some name
  | .named _ _ => none

/-- Earlier declarations of a name, if any, with a later one. -/
def Named.joinTo (earlier : Option Named) (later : Named) : Option Named :=
  some (earlier.elim later (·.join later))

section Statements
variable (statements : List (Statement × Nat))

/-- What statements declare a name as, in their order. -/
def declaredAs (name : String) : List Named :=
  (statements.filterMap fun s => s.1.declared? s.2).filterMap fun d =>
    if d.1 = name then some d.2 else none

def importedNames : List (String × String) :=
  statements.flatMap fun s => s.1.frameworkBindings.filterMap ImportBinding.imported?

def importedNamespaces : List String :=
  statements.flatMap fun s => s.1.frameworkBindings.filterMap ImportBinding.namespace?

end Statements

theorem Statement.declares_of_declared? {s : Statement} {position : Nat} {e : String × Named}
    (h : s.declared? position = some e) : s.declares e.1 = true := by
  unfold declares
  cases s with
  | declaration d | exportDeclaration d =>
      cases d with
      | classDecl d =>
          obtain ⟨name, hname, rfl⟩ := Option.map_eq_some_iff.mp h
          simp [declared?, Declaration.declared?, hname]
      | _ =>
          cases h
          exact beq_self_eq_true _
  | _ => cases h

theorem Statement.eq_of_declares {s : Statement} {a b : String} (ha : s.declares a = true)
    (hb : s.declares b = true) : a = b := by
  have hname : some a = some b := (beq_iff_eq.mp ha).symm.trans (beq_iff_eq.mp hb)
  exact Option.some.inj hname

theorem Statement.bound_of_declares {s : Statement} {name : String} (h : s.declares name = true) :
    s.bound.contains name = true := by
  rw [List.contains_iff_mem, bound, beq_iff_eq.mp h]
  exact List.mem_append_left _ List.mem_cons_self

/-- What a name is declared as is told by the statements that bind it. -/
theorem declaredAs_filter {statements : List (Statement × Nat)} {name : String}
    {p : Statement × Nat → Bool}
    (h : ∀ s ∈ statements, s.1.declares name → p s) :
    declaredAs (statements.filter p) name = declaredAs statements name := by
  unfold declaredAs
  rw [List.filterMap_filterMap, List.filterMap_filterMap, List.filterMap_filter]
  refine List.filterMap_congr fun s hs => ?_
  split
  · rfl
  · next hp =>
      cases hd : s.1.declared? s.2 with
      | none => rfl
      | some e =>
          refine (if_neg fun he => hp (h s hs ?_)).symm
          rw [← he]
          exact Statement.declares_of_declared? hd

theorem exists_bound_of_imported {statements : List (Statement × Nat)} {e : String × String}
    (h : e ∈ importedNames statements) : ∃ s ∈ statements, e.1 ∈ s.1.bound := by
  obtain ⟨s, hs, he⟩ := List.mem_flatMap.mp h
  obtain ⟨b, hb, himported⟩ := List.mem_filterMap.mp he
  refine ⟨s, hs, List.mem_append_right _ (List.mem_map.mpr ⟨b, hb, ?_⟩)⟩
  cases b <;> cases himported
  rfl

theorem exists_bound_of_namespace {statements : List (Statement × Nat)} {name : String}
    (h : name ∈ importedNamespaces statements) : ∃ s ∈ statements, name ∈ s.1.bound := by
  obtain ⟨s, hs, he⟩ := List.mem_flatMap.mp h
  obtain ⟨b, hb, hnamespace⟩ := List.mem_filterMap.mp he
  refine ⟨s, hs, List.mem_append_right _ (List.mem_map.mpr ⟨b, hb, ?_⟩)⟩
  cases b <;> cases hnamespace
  rfl

namespace Scope
variable {sc : Scope}

theorem find?_declare (sc : Scope) (name other : String) (named : Named) :
    (sc.declare name named).find? other =
      if name = other then Named.joinTo (sc.find? name) named else sc.find? other := by
  unfold declare find?
  rw [List.lookup_cons]
  by_cases h : name = other
  · subst h
    rw [if_pos rfl, beq_self_eq_true]
    cases sc.declared.lookup name <;> rfl
  · rw [if_neg h, beq_false_of_ne fun he => h he.symm]
    dsimp only
    rw [Entries.lookup_filter fun key => key != name, if_pos (by simpa using fun he => h he.symm)]

theorem declareAt_eq (sc : Scope) (position : Nat) (d : Declaration) :
    sc.declareAt position d = (d.declared? position).elim sc fun e => sc.declare e.1 e.2 := by
  cases d with
  | classDecl d =>
      rw [declareAt, Declaration.declared?]
      cases d.name <;> rfl
  | _ => rfl

theorem foldl_bind (bindings : List ImportBinding) (sc : Scope) : bindings.foldl bind sc =
    { sc with
      namespaces := (bindings.filterMap ImportBinding.namespace?).reverse ++ sc.namespaces
      imported := (bindings.filterMap ImportBinding.imported?).reverse ++ sc.imported } := by
  induction bindings generalizing sc with
  | nil => rfl
  | cons b bindings ih =>
      rw [List.foldl_cons, ih]
      cases b <;> simp [bind, List.filterMap_cons, ImportBinding.namespace?, ImportBinding.imported?]

/-- What a statement adds to a scope. -/
theorem add_eq (sc : Scope) (position : Nat) (s : Statement) : sc.add position s =
    { (s.declared? position).elim sc fun e => sc.declare e.1 e.2 with
      namespaces :=
        (s.frameworkBindings.filterMap ImportBinding.namespace?).reverse ++ sc.namespaces
      imported :=
        (s.frameworkBindings.filterMap ImportBinding.imported?).reverse ++ sc.imported } := by
  cases s with
  | imports source bindings =>
      unfold add Statement.frameworkBindings
      dsimp only
      split
      · rw [foldl_bind]
        rfl
      · rfl
  | declaration d =>
      rw [add, declareAt_eq]
      change _ = { (d.declared? position).elim sc fun e => sc.declare e.1 e.2 with
        namespaces := sc.namespaces, imported := sc.imported }
      cases d.declared? position <;> rfl
  | exportDeclaration d =>
      rw [add, declareAt_eq]
      change _ = { (d.declared? position).elim sc fun e => sc.declare e.1 e.2 with
        namespaces := sc.namespaces, imported := sc.imported }
      cases d.declared? position <;> rfl
  | _ => rfl

theorem foldl_add (statements : List (Statement × Nat)) (sc : Scope) (name : String) :
    (statements.foldl (fun sc s => sc.add s.2 s.1) sc).find? name =
        (declaredAs statements name).foldl Named.joinTo (sc.find? name) ∧
      (statements.foldl (fun sc s => sc.add s.2 s.1) sc).namespaces =
        (importedNamespaces statements).reverse ++ sc.namespaces ∧
      (statements.foldl (fun sc s => sc.add s.2 s.1) sc).imported =
        (importedNames statements).reverse ++ sc.imported := by
  induction statements generalizing sc with
  | nil => exact ⟨rfl, rfl, rfl⟩
  | cons s statements ih =>
      rw [List.foldl_cons]
      obtain ⟨hfind, hnamespaces, himported⟩ := ih (sc.add s.2 s.1)
      refine ⟨?_, ?_, ?_⟩
      · rw [hfind, add_eq]
        unfold declaredAs
        rw [List.filterMap_cons]
        cases hs : s.1.declared? s.2 with
        | none => rfl
        | some e =>
            change List.foldl _ ((sc.declare e.1 e.2).find? name) _ = _
            rw [find?_declare, List.filterMap_cons]
            by_cases he : e.1 = name
            · subst he
              simp
            · simp [he]
      · rw [hnamespaces, add_eq]
        simp [importedNamespaces]
      · rw [himported, add_eq]
        simp [importedNames]

end Scope

namespace Module
variable (m : Module)

theorem find?_scope (name : String) : (Scope.ofModule m).find? name =
    (declaredAs m.statements.zipIdx name).foldl Named.joinTo none :=
  (Scope.foldl_add m.statements.zipIdx (.ofPath m.path) name).1

/-- A name that is not declared stands for nothing. -/
theorem find?_eq_none {name : String} (h : ∀ s ∈ m.statements, s.declares name = false) :
    (Scope.ofModule m).find? name = none := by
  have hnone : (m.statements.zipIdx.filter fun s => s.1.declares name) = [] := by
    refine List.filter_eq_nil_iff.mpr fun s hs => ?_
    rw [h s.1 (List.fst_mem_of_mem_zipIdx hs)]
    exact Bool.false_ne_true
  rw [find?_scope, ← declaredAs_filter (p := fun s => s.1.declares name) fun _ _ hs => hs, hnone]
  rfl

theorem namespaces_scope :
    (Scope.ofModule m).namespaces = (importedNamespaces m.statements.zipIdx).reverse := by
  rw [← List.append_nil (List.reverse _)]
  exact (Scope.foldl_add m.statements.zipIdx (.ofPath m.path) "").2.1

theorem imported_scope :
    (Scope.ofModule m).imported = (importedNames m.statements.zipIdx).reverse := by
  rw [← List.append_nil (List.reverse _)]
  exact (Scope.foldl_add m.statements.zipIdx (.ofPath m.path) "").2.2

end Module

end PropSchema.TypeScript
