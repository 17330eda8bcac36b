import PropSchema.TypeScript.Syntax
/-!
The size of a module: how many type expressions it holds, those within others included. Resolution
takes it as a bound of how deeply the types of a module can lead into one another.
-/
namespace PropSchema.TypeScript

mutual

def TypeExpr.size : TypeExpr → Nat
  | .reference _ arguments _ => sizeOfTypes arguments + 1
  | .keyword _ _ => 1
  | .null => 1
  | .undefined => 1
  | .string _ _ => 1
  | .boolean _ _ => 1
  | .number _ _ => 1
  | .object members _ => sizeOfMembers members + 1
  | .array element _ => element.size + 1
  | .tuple elements _ => sizeOfTypes elements + 1
  | .union members _ => sizeOfTypes members + 1
  | .intersection members _ => sizeOfTypes members + 1
  | .function callable _ => sizeOfCallable callable + 1
  | .predicate => 1
  | .assertion => 1
  | .parenthesized inner => inner.size + 1
  | .readonly inner => inner.size + 1
  | .other _ _ => 1

def sizeOfTypes : List TypeExpr → Nat
  | [] => 0
  | t :: ts => t.size + sizeOfTypes ts

def sizeOfOptional : Option TypeExpr → Nat
  | none => 0
  | some t => t.size

def sizeOfMember : Member TypeExpr → Nat
  | .property _ typeExpr _ _ => sizeOfOptional typeExpr
  | .method _ callable _ _ => sizeOfCallable callable

def sizeOfMembers : List (Member TypeExpr) → Nat
  | [] => 0
  | m :: ms => sizeOfMember m + sizeOfMembers ms

def sizeOfTypeParam : TypeParam TypeExpr → Nat
  | ⟨_, bound, fallback, _⟩ => sizeOfOptional bound + sizeOfOptional fallback

def sizeOfTypeParams : List (TypeParam TypeExpr) → Nat
  | [] => 0
  | p :: ps => sizeOfTypeParam p + sizeOfTypeParams ps

def sizeOfParam : Param TypeExpr → Nat
  | ⟨_, typeExpr, _⟩ => sizeOfOptional typeExpr

def sizeOfParams : List (Param TypeExpr) → Nat
  | [] => 0
  | p :: ps => sizeOfParam p + sizeOfParams ps

def sizeOfCallable : Callable TypeExpr → Nat
  | ⟨typeParams, params, result⟩ =>
    sizeOfTypeParams typeParams + sizeOfParams params + sizeOfOptional result

end

/-- The sum of the sizes of several phrases. -/
def total {α : Type} (size : α → Nat) : List α → Nat
  | [] => 0
  | phrase :: phrases => size phrase + total size phrases

def ClassDecl.size (d : ClassDecl) : Nat :=
  sizeOfTypeParams d.typeParams + total (fun h => sizeOfTypes h.arguments + 1) d.heritage +
    total (fun f => sizeOfOptional f.typeExpr) d.fields + 1

def Declaration.size : Declaration → Nat
  | .interfaceDecl d =>
    sizeOfTypeParams d.typeParams + sizeOfTypes d.parents + sizeOfMembers d.members + 1
  | .aliasDecl d => sizeOfTypeParams d.typeParams + d.value.size + 1
  | .classDecl d => d.size
  | .enumDecl _ => 1

def Statement.size : Statement → Nat
  | .declaration d => d.size
  | .exportDeclaration d => d.size
  | .exportClass d => d.size
  | _ => 0

def Module.size (m : Module) : Nat := total Statement.size m.statements

end PropSchema.TypeScript
