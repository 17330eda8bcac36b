import PropSchema.Proofs.Scan.Alike
import PropSchema.Proofs.TypeScript.SameNames
/-!
Redundant parentheses. What a module gives does not depend on the parentheses in its types, however
they group the members of unions and intersections, nor on where its phrases stand. Only one pair
counts: an object type is the record of an alias if it is the value without parentheses.
-/
namespace PropSchema

namespace TypeScript

/-- All parentheses are left out that may be, with all places and the texts of unknown types. -/
def Rewriting.withoutParens : Rewriting := ⟨id, fun _ => ⟨0, 0⟩, fun _ => "", true⟩

def Module.withoutParens (m : Module) : List Statement :=
  m.statements.map (Statement.rewrite .withoutParens)

/-- A module is alike to any that is left of it without parentheses. -/
theorem Module.alike_withoutParens (rules : ComponentRules) {m m' : Module}
    (h : m'.statements = m.withoutParens) :
    m.Alike (.sameNames rules [] (· = ·) True) m' := by
  refine Module.alike_of_placed (ρ := .withoutParens) (fun _ => rfl) (fun _ => trivial) ?_
    (m.toldBy_self []) (m'.toldBy_self []) ?_ fun _ _ _ _ => List.not_mem_nil
  · rintro p _ p' _ rfl rfl
    exact Iff.rfl
  · rw [h, withoutParens, List.zipIdx_map]
    refine List.forall₂_map_right_iff.mpr (List.forall₂_same.mpr fun s _ => ?_)
    refine ⟨rfl, rfl, fun use _ => ?_⟩
    cases use with
    | simple name => exact ⟨rfl, List.not_mem_nil⟩
    | dotted name => exact ⟨rfl, List.not_mem_nil⟩

end TypeScript

namespace Scan

open TypeScript
variable {rules : ComponentRules} {m m' : Module}

/-- Modules with the same types but for parentheses give the same, if they are resolved and
classified as deep as it takes; so where one gives something, the other does or is refused for
depth. -/
theorem parentheses_redundant (lenient : rules.policy = .lenient) (plain : rules.registry.Plain)
    (h : m.withoutParens = m'.withoutParens) :
    (∀ x, Yields rules m x ↔ Yields rules m' x) ∧
      ∀ x, (ofSource rules (.ofModule m)).outcome = .ok x →
        (ofSource rules (.ofModule m')).outcome = .ok x ∨
          (ofSource rules (.ofModule m')).outcome = .error .tooDeep := by
  have hleft : m.Alike _ ⟨"", m'.withoutParens⟩ := m.alike_withoutParens rules h.symm
  have hright : m'.Alike _ ⟨"", m'.withoutParens⟩ := m'.alike_withoutParens rules rfl
  have hto : ∀ outcome, Ends rules m outcome → Ends rules m' outcome := fun _ hx =>
    (hx.of_alike lenient hleft rfl).of_alike lenient hright.flip (same_swap rfl)
  have hfrom : ∀ outcome, Ends rules m' outcome → Ends rules m outcome := fun _ hx =>
    (hx.of_alike lenient hright rfl).of_alike lenient hleft.flip (same_swap rfl)
  refine ⟨fun x => ?_, fun x hx => ?_⟩
  · rw [yields_iff_ends, yields_iff_ends]
    exact ⟨hto _, hfrom _⟩
  · refine (decided_or_tooDeep lenient plain (.ofModule m')).imp_left fun hdecided => ?_
    have hends : Ends rules m' (.ok x) := hto _ (ends_of_outcome (decided_ok x) hx)
    exact (hends.unique lenient hright rfl not_false (ends_of_outcome hdecided rfl)).symm

namespace Groups

/--
A record that leads to itself, with the types of its members left open. After the import of `React`:

    interface Tree { next: …; rest: … }
    export class Forest extends React.Component<Tree> {}
-/
def forest (next rest : TypeExpr) : Module := ⟨"Forest.tsx", [.imports "react" [.whole "React"],
  .declaration (.interfaceDecl ⟨"Tree", [], [], [.property "next" (some next) false ⟨2, 18⟩,
    .property "rest" (some rest) false ⟨2, 40⟩], ⟨2, 1⟩⟩),
  .exportDeclaration (.classDecl ⟨some "Forest", [], [⟨.dotted ⟨"React", ".Component"⟩,
    [.reference (.simple "Tree") [] ⟨3, 45⟩], ⟨3, 29⟩⟩], [], ⟨3, 8⟩⟩)]⟩

def tree : TypeExpr := .reference (.simple "Tree") [] ⟨2, 24⟩

/-- With the members `next: Tree | null | undefined; rest: Tree[]`. -/
def plain : Module := forest (.union [tree, .null, .undefined] ⟨2, 24⟩) (.array tree ⟨2, 50⟩)

/-- With the members `next: ((Tree | null) | undefined); rest: (Tree)[]`. -/
def grouped : Module :=
  forest (.parenthesized (.union [.parenthesized (.union [tree, .null] ⟨2, 26⟩), .undefined]
    ⟨2, 25⟩)) (.array (.parenthesized tree) ⟨2, 50⟩)

end Groups

/-- Grouped or not, the next tree is nullable and the rest is not. -/
theorem groups_redundant :
    sketch (ofSource Components.lenientRules (.ofModule Groups.plain)).outcome =
        some ([⟨"Forest", 0⟩], [[true, false]]) ∧
      (∀ x, Yields Components.lenientRules Groups.plain x ↔
        Yields Components.lenientRules Groups.grouped x) ∧
      ∀ x, (ofSource Components.lenientRules (.ofModule Groups.plain)).outcome = .ok x →
        (ofSource Components.lenientRules (.ofModule Groups.grouped)).outcome = .ok x ∨
          (ofSource Components.lenientRules (.ofModule Groups.grouped)).outcome = .error .tooDeep :=
  ⟨by decide +kernel, parentheses_redundant rfl Registry.plain_builtin rfl⟩

/--
Props by an alias, with the value of the alias left open. After the import of `React`:

    type P = …
    export class A extends React.Component<P> {}
-/
def aliased (value : TypeExpr) : Module := ⟨"A.tsx", [.imports "react" [.whole "React"],
  .declaration (.aliasDecl ⟨"P", [], value, ⟨2, 1⟩⟩),
  .exportDeclaration (.classDecl ⟨some "A", [], [⟨.dotted ⟨"React", ".Component"⟩,
    [.reference (.simple "P") [] ⟨3, 40⟩], ⟨3, 24⟩⟩], [], ⟨3, 8⟩⟩)]⟩

/-- The type `{ a: string }`. -/
def single : TypeExpr :=
  .object [.property "a" (some (.keyword "string" ⟨2, 15⟩)) false ⟨2, 12⟩] ⟨2, 10⟩

/-- Around the value of an alias parentheses are not redundant: the record loses its name. -/
theorem not_redundant_around_alias_value : ¬ ∀ value : TypeExpr,
    (ofSource Components.lenientRules (.ofModule (aliased (.parenthesized value)))).outcome =
      (ofSource Components.lenientRules (.ofModule (aliased value))).outcome := by
  intro h
  have hnames := congrArg (fun outcome => outcome.toOption.map fun x => x.refs.map (·.name))
    (h single)
  have hnamed : ((ofSource Components.lenientRules
      (.ofModule (aliased single))).outcome.toOption.map fun x => x.refs.map (·.name)) =
        some [some "P"] := by decide +kernel
  have hnameless : ((ofSource Components.lenientRules
      (.ofModule (aliased (.parenthesized single)))).outcome.toOption.map
        fun x => x.refs.map (·.name)) = some [none] := by decide +kernel
  rw [hnamed, hnameless] at hnames
  cases hnames

end Scan

end PropSchema
