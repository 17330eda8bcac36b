import PropSchema.Proofs.Scan
import PropSchema.Proofs.Scan.Alike
import PropSchema.Proofs.TypeScript.Hygiene
/-!
Names that a module chooses for itself. What a module gives does not depend on the name that it
imports the framework by, or a type of the framework, where that name is a whole type name or the
qualifier of a member. Longer names are told by their text, so that an element that is named in full
is known only under the framework's own name.

Nor does it depend on what its type parameters are called, where resolution takes them to be meant
as the language does. It takes one to be meant by the name that its class extends, and does not take
a later one of a list to be meant in the bound of an earlier.
-/
namespace PropSchema

namespace TypeScript

/-- The second module is the first with the chosen type parameters of one name under another, which
does not occur in it; they are so in all of several declarations of an interface or in none. -/
structure Module.Respelled (old new : String) (chosen : Place → Bool) (m m' : Module) : Prop where
  same : m'.statements.map (Statement.rewrite (.naming id)) =
    ((m.respell ⟨old, chosen, .lexical⟩ new).rewrite (.naming id)).statements
  fresh : .simple new ∉ m.uses
  merged : (Scope.ofModule m).declared.all fun e =>
    Respelling.agrees ⟨old, chosen, .lexical⟩ e.2

namespace Module.Respelled
variable {old new : String} {chosen : Place → Bool} {m m' : Module}
  (h : m.Respelled old new chosen m')
include h

theorem apart {d : Declaration} (hd : d ∈ m.declarations) {name : String}
    (hname : .simple name ∈ d.uses) {reach : Reach} :
    Respelling.Clear ⟨old, chosen, reach⟩ old name ∧
      Respelling.Clear ⟨old, chosen, reach⟩ new name :=
  ⟨.inl rfl, .inr fun he => h.fresh (he ▸ m.uses_of_mem_declarations hd hname)⟩

/-- The old spelling may be exchanged for the new one, and the other way round. -/
theorem respellable : m.Respellable ⟨old, chosen, .resolved⟩ old new ∧
    m.Respellable ⟨old, chosen, .resolved⟩ new old :=
  ⟨⟨rfl, fun _ hd _ hname => h.apart hd hname, h.merged⟩,
    ⟨rfl, fun _ hd _ hname => (h.apart hd hname).symm, h.merged⟩⟩

theorem size_eq : m'.size = m.size :=
  (Module.size_of_same h.same).trans ((Module.size_rewrite rfl _).trans m.size_respell)

end Module.Respelled

end TypeScript

namespace Scan

open TypeScript
variable {rules : ComponentRules} {old new : String} {m m' : Module}

/-- Where an imported name is replaced by one that does not occur, the outcome is the same if every
type name that begins with it means the same. -/
theorem outcome_of_renamed (lenient : rules.policy = .lenient) (plain : rules.registry.Plain)
    (h : m.Renamed rules old new m') :
    (ofSource rules (.ofModule m')).outcome = (ofSource rules (.ofModule m)).outcome := by
  have hdepth : Source.ofModule m' = atDepth m' (2 * m.size + 4096) := by
    rw [← h.size_eq]
    rfl
  have hright := outcome_eq_of_alike lenient plain h.alike_right rfl not_false not_false
  have hleft := outcome_eq_of_alike lenient plain h.alike_rename rfl not_false not_false
  rw [hdepth, ← hright, hleft]
  rfl

/--
Props with a type of the framework, by the name that the framework is imported by and what stands
after that. After the import of the framework as `N`:

    interface P { icon: N… }
    export class A extends N.Component<P> {}
-/
def iconed (name rest : String) : Module := ⟨"A.tsx", [.imports "react" [.whole name],
  .declaration (.interfaceDecl ⟨"P", [], [],
    [.property "icon" (some (.reference (.dotted ⟨name, rest⟩) [] ⟨2, 21⟩)) false ⟨2, 15⟩],
    ⟨2, 1⟩⟩),
  .exportDeclaration (.classDecl ⟨some "A", [], [⟨.dotted ⟨name, ".Component"⟩,
    [.reference (.simple "P") [] ⟨3, 36⟩], ⟨3, 24⟩⟩], [], ⟨3, 8⟩⟩)]⟩

/-- Of each member of each record, whether it may be anything. -/
def untyped (outcome : Except PassFault Extraction) : Option (List (List Bool)) :=
  outcome.toOption.map fun x => x.refs.map fun e => e.members.map fun m =>
    match m.spec.propType with
    | .any => true
    | _ => false

theorem iconed_renamed : (iconed "R" ".ReactNode").Renamed Components.lenientRules "R" "React"
    (iconed "React" ".ReactNode") where
  same := rfl
  identifiers := by decide
  undeclared := by decide
  fresh := by decide
  kept := by
    have hnamespace : "R" ∈ importedNamespaces (iconed "R" ".ReactNode").statements.zipIdx := by
      decide
    intro use huse hparts
    have huses : (iconed "R" ".ReactNode").uses =
        [.dotted ⟨"R", ".ReactNode"⟩, .dotted ⟨"R", ".Component"⟩, .simple "P"] := rfl
    rw [huses] at huse
    simp only [List.mem_cons, List.not_mem_nil, or_false] at huse
    obtain rfl | rfl | rfl := huse
    · exact .member rfl ⟨"ReactNode".toList, by decide, by decide⟩ hnamespace
    · exact .member rfl ⟨"Component".toList, by decide, by decide⟩ hnamespace
    · exact absurd hparts (by decide)

/-- A node is known by either name. -/
theorem iconed_outcome : untyped (ofSource Components.lenientRules
      (.ofModule (iconed "R" ".ReactNode"))).outcome = some [[false]] ∧
    (ofSource Components.lenientRules (.ofModule (iconed "React" ".ReactNode"))).outcome =
      (ofSource Components.lenientRules (.ofModule (iconed "R" ".ReactNode"))).outcome :=
  ⟨by decide +kernel, outcome_of_renamed rfl Registry.plain_builtin iconed_renamed⟩

/-- Not every type of the framework is known by any name. -/
theorem not_known_by_any_name : ¬ ∀ old new rest : String,
    (ofSource Components.lenientRules (.ofModule (iconed new rest))).outcome =
      (ofSource Components.lenientRules (.ofModule (iconed old rest))).outcome := by
  intro h
  have hknown : untyped (ofSource Components.lenientRules
      (.ofModule (iconed "React" ".JSX.Element"))).outcome = some [[false]] := by decide +kernel
  have hunknown : untyped (ofSource Components.lenientRules
      (.ofModule (iconed "R" ".JSX.Element"))).outcome = some [[true]] := by decide +kernel
  have hsame := congrArg untyped (h "R" "React" ".JSX.Element")
  rw [hknown, hunknown] at hsame
  cases hsame

/-- Modules of which the same is left without places and texts have the same outcome. -/
theorem outcome_of_same (lenient : rules.policy = .lenient) (plain : rules.registry.Plain)
    (h : m'.statements.map (Statement.rewrite (.naming id)) =
      m.statements.map (Statement.rewrite (.naming id))) (depth : Nat) :
    (ofSource rules (atDepth m' depth)).outcome = (ofSource rules (atDepth m depth)).outcome := by
  have hleft : m.Alike (.sameNames rules [] (· = ·) False) (m.rewrite (.naming id)) :=
    Module.alike_of_same rules rfl
  have hright : m'.Alike (.sameNames rules [] (· = ·) False) (m.rewrite (.naming id)) :=
    Module.alike_of_same rules h
  rw [← outcome_eq_of_alike lenient plain hleft rfl not_false not_false,
    ← outcome_eq_of_alike lenient plain hright rfl not_false not_false]

/-- Two spellings of the type parameters of a module have the same outcome, where the parameters
reach as far as resolution takes them to. -/
theorem outcome_of_spellings (lenient : rules.policy = .lenient) (plain : rules.registry.Plain)
    {ρ : Respelling} (h : m.Respellable ρ old new) (h' : m.Respellable ρ new old) (depth : Nat) :
    (ofSource rules (atDepth (m.respell ρ new) depth)).outcome =
      (ofSource rules (atDepth (m.respell ρ old) depth)).outcome := by
  have hstays : (Variation.sameNames rules [] (· = ·) False).Stays := ⟨.refl rules, Iff.rfl⟩
  exact outcome_eq_of_follows lenient plain (Source.exportedClasses_follow h hstays)
    (Source.exportedClasses_follow h' hstays) ⟨rfl, rfl⟩ ⟨not_false, not_false⟩
    ⟨not_false, not_false⟩ depth

/-- Where type parameters get a name that does not occur, the outcome is the same if resolution
takes them to be meant where the language does. -/
theorem outcome_of_respelled {chosen : TypeScript.Place → Bool} (lenient : rules.policy = .lenient)
    (plain : rules.registry.Plain) (h : m.Respelled old new chosen m')
    (hreach : m.respell ⟨old, chosen, .lexical⟩ new = m.respell ⟨old, chosen, .resolved⟩ new) :
    (ofSource rules (.ofModule m')).outcome = (ofSource rules (.ofModule m)).outcome := by
  have hdepth : Source.ofModule m' = atDepth m' (2 * m.size + 4096) := by
    rw [← h.size_eq]
    rfl
  have hold : (m.respell ⟨old, chosen, .resolved⟩ old).rewrite (.naming id) =
      m.rewrite (.naming id) := m.rewrite_respell rfl
  have hsame := h.same
  rw [hreach] at hsame
  obtain ⟨hto, hfrom⟩ := h.respellable
  calc (ofSource rules (.ofModule m')).outcome
      = (ofSource rules (atDepth m' (2 * m.size + 4096))).outcome := by rw [hdepth]
    _ = (ofSource rules (atDepth (m.respell ⟨old, chosen, .resolved⟩ new) _)).outcome :=
        outcome_of_same lenient plain hsame _
    _ = (ofSource rules (atDepth (m.respell ⟨old, chosen, .resolved⟩ old) _)).outcome :=
        outcome_of_spellings lenient plain hto hfrom _
    _ = (ofSource rules (.ofModule m)).outcome :=
        outcome_of_same lenient plain (congrArg Module.statements hold) _

namespace Parameters

def type (name : String) (arguments : List TypeExpr) (line column : Nat) : TypeExpr :=
  .reference (.simple name) arguments ⟨line, column⟩

def member (name : String) (t : TypeExpr) (line column : Nat) : Member TypeExpr :=
  .property name (some t) false ⟨line, column⟩

/--
Props with type parameters of two names that are left open, here `T` and `S`. After the import of
`React`:

    interface Box<T> { value: T }
    interface Box<T> { label: T }
    interface Row<T = string, U = T[]>
      { first: Box<T>; cells: U; each: <S extends Box<S>>(x: S) => U }
    export class A extends React.Component<Row> {}
-/
def rows (outer inner : String) : Module := ⟨"A.tsx", [.imports "react" [.whole "React"],
  .declaration (.interfaceDecl ⟨"Box", [⟨outer, none, none, ⟨2, 15⟩⟩], [],
    [member "value" (type outer [] 2 27) 2 20], ⟨2, 1⟩⟩),
  .declaration (.interfaceDecl ⟨"Box", [⟨outer, none, none, ⟨3, 15⟩⟩], [],
    [member "label" (type outer [] 3 27) 3 20], ⟨3, 1⟩⟩),
  .declaration (.interfaceDecl ⟨"Row", [⟨outer, none, some (.keyword "string" ⟨4, 19⟩), ⟨4, 15⟩⟩,
      ⟨"U", none, some (.array (type outer [] 4 31) ⟨4, 31⟩), ⟨4, 27⟩⟩], [],
    [member "first" (type "Box" [type outer [] 5 16] 5 12) 5 5,
      member "cells" (type "U" [] 5 27) 5 20,
      member "each" (.function
        ⟨[⟨inner, some (type "Box" [type inner [] 5 51] 5 47), none, ⟨5, 37⟩⟩],
          [⟨"x", some (type inner [] 5 58), false⟩], some (type "U" [] 5 64)⟩ ⟨5, 36⟩) 5 30],
    ⟨4, 1⟩⟩),
  .exportDeclaration (.classDecl ⟨some "A", [], [⟨.dotted ⟨"React", ".Component"⟩,
    [type "Row" [] 6 40], ⟨6, 24⟩⟩], [], ⟨6, 8⟩⟩)]⟩

/--
A class that extends a component, with its type parameter left open. After the import of
`Component`:

    export class A<…> extends Component<{ a: string }> {}
-/
def extending (param : String) : Module := ⟨"A.tsx",
  [.imports "react" [.named "Component" "Component"],
  .exportDeclaration (.classDecl ⟨some "A", [⟨param, none, none, ⟨2, 16⟩⟩],
    [⟨.simple "Component", [.object [member "a" (.keyword "string" ⟨2, 50⟩) 2 47] ⟨2, 45⟩],
      ⟨2, 35⟩⟩], [], ⟨2, 8⟩⟩)]⟩

/--
Props with a type parameter that is bound by a later one, which is left open. After the import of
`React`:

    interface T { a: string }
    interface P { f<K extends …, …>(x: K): void }
    export class A extends React.Component<P> {}
-/
def constrained (param : String) : Module := ⟨"A.tsx", [.imports "react" [.whole "React"],
  .declaration (.interfaceDecl ⟨"T", [], [], [member "a" (.keyword "string" ⟨2, 18⟩) 2 15],
    ⟨2, 1⟩⟩),
  .declaration (.interfaceDecl ⟨"P", [], [], [.method "f"
    ⟨[⟨"K", some (type param [] 3 27), none, ⟨3, 17⟩⟩, ⟨param, none, none, ⟨3, 30⟩⟩],
      [⟨"x", some (type "K" [] 3 36), false⟩], some (.keyword "void" ⟨3, 40⟩)⟩ false ⟨3, 15⟩],
    ⟨3, 1⟩⟩),
  .exportDeclaration (.classDecl ⟨some "A", [], [⟨.dotted ⟨"React", ".Component"⟩,
    [type "P" [] 4 40], ⟨4, 24⟩⟩], [], ⟨4, 8⟩⟩)]⟩

end Parameters

/-- The outer parameters may be called otherwise, in both boxes and for the rows, and so may the one
within. -/
theorem rows_respelled :
    untyped (ofSource Components.lenientRules (.ofModule (Parameters.rows "T" "T"))).outcome =
        some [[false, false, false], [false, false], [true, true]] ∧
      (ofSource Components.lenientRules (.ofModule (Parameters.rows "V" "T"))).outcome =
        (ofSource Components.lenientRules (.ofModule (Parameters.rows "T" "T"))).outcome ∧
      (ofSource Components.lenientRules (.ofModule (Parameters.rows "T" "V"))).outcome =
        (ofSource Components.lenientRules (.ofModule (Parameters.rows "T" "T"))).outcome := by
  have houter : (Parameters.rows "T" "T").Respelled "T" "V" (fun place => place != ⟨5, 37⟩)
      (Parameters.rows "V" "T") := ⟨rfl, by decide, by decide⟩
  have hinner : (Parameters.rows "T" "T").Respelled "T" "V" (fun place => place == ⟨5, 37⟩)
      (Parameters.rows "T" "V") := ⟨rfl, by decide, by decide⟩
  exact ⟨by decide +kernel, outcome_of_respelled rfl Registry.plain_builtin houter rfl,
    outcome_of_respelled rfl Registry.plain_builtin hinner rfl⟩

/-- The name that a class extends is taken for its type parameter, so that no component is found. -/
theorem taken_for_parameter :
    (Parameters.extending "Component").Respelled "Component" "U" (fun _ => true)
        (Parameters.extending "U") ∧
      (ofSource Components.lenientRules (.ofModule (Parameters.extending "U"))).outcome ≠ (ofSource
        Components.lenientRules (.ofModule (Parameters.extending "Component"))).outcome := by
  refine ⟨⟨rfl, by decide, by decide⟩, fun h => ?_⟩
  have hsame := congrArg untyped h
  have hfound : untyped (ofSource Components.lenientRules
      (.ofModule (Parameters.extending "U"))).outcome = some [[false]] := by decide +kernel
  have hmissed : untyped (ofSource Components.lenientRules
      (.ofModule (Parameters.extending "Component"))).outcome = some [] := by decide +kernel
  rw [hfound, hmissed] at hsame
  cases hsame

/-- A later parameter of a list is taken for what is declared under its name. -/
theorem taken_for_declared :
    (Parameters.constrained "T").Respelled "T" "U" (fun _ => true) (Parameters.constrained "U") ∧
      (ofSource Components.lenientRules (.ofModule (Parameters.constrained "U"))).outcome ≠
        (ofSource Components.lenientRules (.ofModule (Parameters.constrained "T"))).outcome := by
  refine ⟨⟨rfl, by decide, by decide⟩, fun h => ?_⟩
  have hsame := congrArg untyped h
  have hfree : untyped (ofSource Components.lenientRules
      (.ofModule (Parameters.constrained "U"))).outcome = some [[false]] := by decide +kernel
  have hdeclared : untyped (ofSource Components.lenientRules
      (.ofModule (Parameters.constrained "T"))).outcome = some [[false], [false]] := by
    decide +kernel
  rw [hfree, hdeclared] at hsame
  cases hsame

end Scan

end PropSchema
