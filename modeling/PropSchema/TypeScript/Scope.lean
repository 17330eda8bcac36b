import PropSchema.TypeScript.Syntax
import PropSchema.Text
/-!
What the names at the top of a module stand for: its own declarations, and the names that it
imports from the component framework. A name may be declared several times; declarations of one
kind are merged, and one of another kind takes the place of those before it.
-/
namespace PropSchema.TypeScript

/-- A class statement, known by its position among the statements. -/
structure ClassSite where
  position : Nat
  decl : ClassDecl
  deriving Inhabited

/-- The declarations of one name, all of one kind; the first is told apart. -/
inductive Named where
  | interfaces (first : InterfaceDecl) (more : List InterfaceDecl)
  | aliases (first : AliasDecl) (more : List AliasDecl)
  | classes (first : ClassSite) (more : List ClassSite)
  | enums (first : EnumDecl) (more : List EnumDecl)
  deriving Inhabited

/-- Earlier declarations of a name with a later one. -/
def Named.join : Named → Named → Named
  | .interfaces first more, .interfaces d ds => .interfaces first (more ++ d :: ds)
  | .aliases first more, .aliases d ds => .aliases first (more ++ d :: ds)
  | .classes first more, .classes d ds => .classes first (more ++ d :: ds)
  | .enums first more, .enums d ds => .enums first (more ++ d :: ds)
  | _, later => later

/-- The names at the top of a module. -/
structure Scope where
  path : String
  declared : List (String × Named)
  /-- Names of the framework as a whole. -/
  namespaces : List String
  /-- Imported names with their names in the framework; the latest entry of a name counts. -/
  imported : List (String × String)
  deriving Inhabited

/-- The module that the framework is imported from. -/
def frameworkModule : String := "react"

/-- The name of the framework in qualified names. -/
def frameworkName : String := "React"

/-- A name within the framework. -/
def qualified (name : String) : String := frameworkName ++ "." ++ name

namespace Scope

def ofPath (path : String) : Scope := ⟨path, [], [], []⟩

def find? (sc : Scope) (name : String) : Option Named := sc.declared.lookup name

/-- The scope with one more declaration of a name. -/
def declare (sc : Scope) (name : String) (named : Named) : Scope :=
  let joined := match sc.find? name with
    | some earlier => earlier.join named
    | none => named
  { sc with declared := (name, joined) :: sc.declared.filter fun entry => entry.1 != name }

def declareAt (sc : Scope) (position : Nat) : Declaration → Scope
  | .interfaceDecl d => sc.declare d.name (.interfaces d [])
  | .aliasDecl d => sc.declare d.name (.aliases d [])
  | .enumDecl d => sc.declare d.name (.enums d [])
  | .classDecl d =>
    match d.name with
    | some name => sc.declare name (.classes ⟨position, d⟩ [])
    | none => sc

def bind (sc : Scope) : ImportBinding → Scope
  | .whole name => { sc with namespaces := name :: sc.namespaces }
  | .named imported name => { sc with imported := (name, qualified imported) :: sc.imported }

/-- The scope after a statement, given the position of the statement. -/
def add (sc : Scope) (position : Nat) : Statement → Scope
  | .imports source bindings => if source == frameworkModule then bindings.foldl bind sc else sc
  | .declaration d => sc.declareAt position d
  | .exportDeclaration d => sc.declareAt position d
  | _ => sc

def ofModule (m : Module) : Scope :=
  m.statements.zipIdx.foldl (fun sc (statement, position) => sc.add position statement)
    (ofPath m.path)

/-- Whether a qualifier means the framework; its own name does, unless it is declared otherwise. -/
def isFramework (sc : Scope) (qualifier : String) : Bool :=
  sc.namespaces.contains qualifier ||
    (qualifier == frameworkName && (sc.find? qualifier).isNone)

end Scope

end PropSchema.TypeScript
