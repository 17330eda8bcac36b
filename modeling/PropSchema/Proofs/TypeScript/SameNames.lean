import PropSchema.Proofs.Classify.Abreast
import PropSchema.Proofs.TypeScript.RewrittenModules
/-!
Modules whose names mean the same. Where statements stand does not count, as long as those that
declare or import one name, and those that export classes, come in the same order; nor do names
that are not used. Such modules are alike if the statements that count are.
-/
namespace PropSchema.TypeScript

/-- Every name stands for itself, except for some that do not count. -/
def Variation.sameNames (rules : ComponentRules) (except : List String) (position : Nat → Nat → Prop)
    (left : Prop) : Variation where
  name a b := a = b ∧ a ∉ except
  dotted n n' := n = n' ∧ (qualifiedParts n.text).1 ∉ except
  symbol := rules.Same
  position := position
  left := left
  right := False

/-- Statements that tell all about the names of a module, except for some that do not count. -/
structure Module.ToldBy (m : Module) (except : List String) (statements : List (Statement × Nat)) :
    Prop where
  declared : ∀ name ∉ except, declaredAs m.statements.zipIdx name = declaredAs statements name
  imported : ∀ name ∉ except, (importedNames m.statements.zipIdx).reverse.lookup name =
    (importedNames statements).reverse.lookup name
  namespaces : ∀ name ∉ except, name ∈ importedNamespaces m.statements.zipIdx ↔
    name ∈ importedNamespaces statements
  exports : m.exporting = statements.filter fun s => s.1.exports

theorem Module.toldBy_self (m : Module) (except : List String) :
    m.ToldBy except m.statements.zipIdx :=
  ⟨fun _ _ => rfl, fun _ _ => rfl, fun _ _ => Iff.rfl, rfl⟩

/-- Modules are alike if each is told by statements that are alike one by one. -/
theorem Module.alike_of_placed {rules : ComponentRules} {except : List String}
    {position : Nat → Nat → Prop} {left : Prop} {ρ : Rewriting} {m m' : Module}
    {statements statements' : List (Statement × Nat)} (hρ : ∀ name, ρ.name name = name)
    (hbare : ρ.bare = true → left)
    (hposition : ∀ {p q p' q'}, position p q → position p' q' → (p = p' ↔ q = q'))
    (hm : m.ToldBy except statements) (hm' : m'.ToldBy except statements')
    (h : List.Forall₂ (Statement.Placed ρ (.sameNames rules except position left)) statements
      statements')
    (hexports : ∀ s ∈ statements, ∀ name ∈ s.1.exportedNames, name ∉ except) :
    m.Alike (.sameNames rules except position left) m' := by
  have hdeclared : ∀ name ∉ except,
      Scope.DeclaredAlike (.sameNames rules except position left) name name
        ((Scope.ofModule m).find? name) ((Scope.ofModule m').find? name) := by
    intro name hname
    rw [m.find?_scope, m'.find?_scope, hm.declared name hname, hm'.declared name hname]
    exact declaredAlike_of_placed hbare h name
  have hname : ρ.name = id := funext hρ
  have hnames : importedNames statements' = importedNames statements := by
    rw [importedNames_of_placed h, hname]
    exact List.map_id _
  have hnamespaces : importedNamespaces statements' = importedNamespaces statements := by
    rw [importedNamespaces_of_placed h, hname, List.map_id]
  refine ⟨⟨?_, hposition, .refl rules, ?_, ?_, ?_, ?_⟩, ?_⟩
  · rintro a _ b _ ⟨rfl, -⟩ ⟨rfl, -⟩
    exact Iff.rfl
  · rintro a _ ⟨rfl, ha⟩
    exact hdeclared a ha
  · rintro a _ ⟨rfl, ha⟩ -
    rw [m.imported_scope, m'.imported_scope, hm.imported a ha, hm'.imported a ha, hnames]
  · rintro a _ ⟨rfl, -⟩ - -
    exact .inl rfl
  · rintro n _ ⟨rfl, hq⟩
    have hframework := (hdeclared _ hq).isFramework_eq (by
      rw [m.namespaces_scope, m'.namespaces_scope, List.mem_reverse, List.mem_reverse,
        hm.namespaces _ hq, hm'.namespaces _ hq, hnamespaces])
    cases hq' : (Scope.ofModule m).isFramework (qualifiedParts n.text).1 with
    | true => exact .framework hq' (hframework.trans hq') rfl
    | false => exact .unresolved hq' (hframework.trans hq') (.refl rules _)
  · rw [hm.exports, hm'.exports]
    refine exports_alike hbare h fun s hs name hname => ?_
    have hd := hdeclared name (hexports s hs name hname)
    rw [hρ]
    exact ⟨hd, hd⟩

end PropSchema.TypeScript
