/-!
The tree of a TypeScript module, as far as props depend on it: imports, exports, and the
declarations of interfaces, type aliases, classes and enums at the top of the file. Function bodies
and values are left out. String literals are kept without their quotes and are not unescaped.
-/
namespace PropSchema.TypeScript

/-- Where a piece of source begins; line and column count from one, the column in bytes. -/
structure Place where
  line : Nat
  column : Nat
  deriving DecidableEq, Inhabited

/-- A dotted name as written: its first identifier, and the source text after that. -/
structure DottedName where
  head : String
  rest : String
  deriving DecidableEq, Inhabited

def DottedName.text (n : DottedName) : String := n.head ++ n.rest

inductive TypeName where
  | simple (name : String)
  | dotted (name : DottedName)
  deriving DecidableEq, Inhabited

structure TypeParam (α : Type) where
  name : String
  bound : Option α
  fallback : Option α
  place : Place

structure Param (α : Type) where
  /-- The binding as written; `this` binds nothing. -/
  name : String
  typeExpr : Option α
  optional : Bool

/-- Type parameters, parameters and result of a function type or method. -/
structure Callable (α : Type) where
  typeParams : List (TypeParam α)
  params : List (Param α)
  result : Option α

/-- The members of an object type that are properties; the others are left out. -/
inductive Member (α : Type) where
  | property (name : String) (typeExpr : Option α) (optional : Bool) (place : Place)
  | method (name : String) (callable : Callable α) (optional : Bool) (place : Place)

/-- A type as written. -/
inductive TypeExpr where
  | reference (name : TypeName) (arguments : List TypeExpr) (place : Place)
  /-- A predefined type by its keyword. -/
  | keyword (word : String) (place : Place)
  | null
  | undefined
  | string (value : String) (place : Place)
  | boolean (value : Bool) (place : Place)
  | number (text : String) (place : Place)
  | object (members : List (Member TypeExpr)) (place : Place)
  | array (element : TypeExpr) (place : Place)
  /-- A tuple by the types of its members; labels and marks are left out. -/
  | tuple (elements : List TypeExpr) (place : Place)
  | union (members : List TypeExpr) (place : Place)
  | intersection (members : List TypeExpr) (place : Place)
  | function (callable : Callable TypeExpr) (place : Place)
  /-- A result that tells something of an argument. -/
  | predicate
  /-- A result that asserts something of an argument. -/
  | assertion
  | parenthesized (inner : TypeExpr)
  | readonly (inner : TypeExpr)
  /-- Any other type, by its text. -/
  | other (text : String) (place : Place)
  deriving Inhabited

/-- What a class extends. -/
inductive BaseName where
  | simple (name : String)
  | dotted (name : DottedName)
  | other (text : String)
  deriving DecidableEq, Inhabited

structure Heritage where
  name : BaseName
  arguments : List TypeExpr
  place : Place
  deriving Inhabited

structure Field where
  name : String
  typeExpr : Option TypeExpr
  optional : Bool
  isStatic : Bool
  /-- Declared private or protected, or named with a hash. -/
  hidden : Bool
  place : Place
  deriving Inhabited

structure ClassDecl where
  name : Option String
  typeParams : List (TypeParam TypeExpr)
  heritage : List Heritage
  fields : List Field
  place : Place
  deriving Inhabited

structure InterfaceDecl where
  name : String
  typeParams : List (TypeParam TypeExpr)
  parents : List TypeExpr
  members : List (Member TypeExpr)
  place : Place
  deriving Inhabited

structure AliasDecl where
  name : String
  typeParams : List (TypeParam TypeExpr)
  value : TypeExpr
  place : Place
  deriving Inhabited

/-- What an enum member is set to. -/
inductive Initializer where
  | string (value : String)
  | expression (text : String)
  deriving DecidableEq, Inhabited

structure EnumMember where
  /-- The member as written, with its initializer. -/
  text : String
  initializer : Option Initializer
  place : Place
  deriving DecidableEq, Inhabited

structure EnumDecl where
  name : String
  members : List EnumMember
  place : Place
  deriving Inhabited

inductive Declaration where
  | interfaceDecl (decl : InterfaceDecl)
  | aliasDecl (decl : AliasDecl)
  | classDecl (decl : ClassDecl)
  | enumDecl (decl : EnumDecl)
  deriving Inhabited

inductive ImportBinding where
  /-- The module as a whole, or its default. -/
  | whole (name : String)
  | named (imported : String) (name : String)
  deriving DecidableEq, Inhabited

inductive Statement where
  | imports (source : String) (bindings : List ImportBinding)
  | declaration (decl : Declaration)
  | exportDeclaration (decl : Declaration)
  /-- A class expression exported as default. -/
  | exportClass (decl : ClassDecl)
  /-- A name exported as default. -/
  | exportName (name : String)
  /-- An export clause by the names that it exports, which are those of another module if it has a
  source, and local ones otherwise. -/
  | exportNames (names : List String) (source : Option String)
  | other
  deriving Inhabited

/-- A module: its path and the statements at its top. -/
structure Module where
  path : String
  statements : List Statement
  deriving Inhabited

end PropSchema.TypeScript
