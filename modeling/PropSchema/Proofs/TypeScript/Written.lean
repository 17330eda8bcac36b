import PropSchema.Proofs.TypeScript.Finishing
/-!
The types that are written in a module, at any depth: those that its declarations are made of, and
those that stand within them.
-/
namespace PropSchema.TypeScript

def TypeParam.types (p : TypeParam TypeExpr) : List TypeExpr := p.fallback.toList ++ p.bound.toList

def Callable.types (c : Callable TypeExpr) : List TypeExpr :=
  c.typeParams.flatMap TypeParam.types ++ (c.params.filterMap Param.typeExpr ++ c.result.toList)

def Member.name {α : Type} : Member α → String
  | .property name _ _ _ => name
  | .method name _ _ _ => name

def Member.types : Member TypeExpr → List TypeExpr
  | .property _ typeExpr _ _ => typeExpr.toList
  | .method _ callable _ _ => callable.types

/-- The types that a type is made of. -/
def TypeExpr.parts : TypeExpr → List TypeExpr
  | .reference _ arguments _ => arguments
  | .object members _ => members.flatMap Member.types
  | .array element _ => [element]
  | .tuple elements _ => elements
  | .union members _ => members
  | .intersection members _ => members
  | .function callable _ => callable.types
  | .parenthesized inner => [inner]
  | .readonly inner => [inner]
  | _ => []

/-- A base by the type that it refers to, if it is named, and else its type arguments. -/
def Heritage.types (h : Heritage) : List TypeExpr :=
  match h.name with
  | .simple name => [.reference (.simple name) h.arguments h.place]
  | .dotted name => [.reference (.dotted name) h.arguments h.place]
  | .other _ => h.arguments

/-- Whether a field belongs to the instances of its class and is open to all. -/
def Field.isOpen (f : Field) : Bool := !f.isStatic && !f.hidden

def ClassDecl.openFields (d : ClassDecl) : List Field := d.fields.filter Field.isOpen

def ClassDecl.types (d : ClassDecl) : List TypeExpr :=
  d.typeParams.flatMap TypeParam.types ++
    (d.heritage.flatMap Heritage.types ++ d.fields.filterMap Field.typeExpr)

def Declaration.types : Declaration → List TypeExpr
  | .interfaceDecl d =>
    d.typeParams.flatMap TypeParam.types ++ (d.parents ++ d.members.flatMap Member.types)
  | .aliasDecl d => d.typeParams.flatMap TypeParam.types ++ [d.value]
  | .classDecl d => d.types
  | .enumDecl _ => []

/-- A type is written in a module. -/
inductive Module.Writes (m : Module) : TypeExpr → Prop
  | declared {d : Declaration} {type : TypeExpr} (declaration : d ∈ m.declarations)
      (mem : type ∈ d.types) : m.Writes type
  | within {type part : TypeExpr} (whole : m.Writes type) (mem : part ∈ type.parts) : m.Writes part

/-- Whether all of a type is as it should be, which is looked into down to a depth. -/
def TypeExpr.allTo (check : TypeExpr → Bool) : Nat → TypeExpr → Bool
  | 0, _ => false
  | depth + 1, type => check type && type.parts.all (allTo check depth)

/-- What is found of all types down to some depth holds of all that are written. -/
theorem Module.Writes.of_allTo {m : Module} (check : TypeExpr → Bool) (depth : Nat)
    (h : m.declarations.all fun d => d.types.all (TypeExpr.allTo check depth)) {type : TypeExpr}
    (hw : m.Writes type) : check type = true := by
  suffices hdeep : ∃ depth, TypeExpr.allTo check depth type = true by
    obtain ⟨_ | depth, hdeep⟩ := hdeep
    · cases hdeep
    · rw [TypeExpr.allTo, Bool.and_eq_true] at hdeep
      exact hdeep.1
  induction hw with
  | declared hd ht => exact ⟨depth, List.all_eq_true.mp (List.all_eq_true.mp h _ hd) _ ht⟩
  | within _ hs ih =>
      obtain ⟨_ | depth, hdeep⟩ := ih
      · cases hdeep
      · rw [TypeExpr.allTo, Bool.and_eq_true] at hdeep
        exact ⟨depth, List.all_eq_true.mp hdeep.2 _ hs⟩

end PropSchema.TypeScript
