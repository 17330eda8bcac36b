import PropSchema.TypeScript.Read
import PropSchema.TypeScript.Resolution
/-!
What a module offers: the class declarations that its exports name, and its types by name.
-/
namespace PropSchema.TypeScript

/-- A module with its names and the bound of its resolution. -/
structure Source where
  mod : Module
  scope : Scope
  depth : Nat
  deriving Inhabited

/--
Types that contain no ever larger instances lead into each other no deeper than twice the size of
the module, if all are plain, and hardly deeper if they are generic. A class comes twice at the
most: its declaration leads to the type of its instances where it is met again.
-/
def Source.ofModule (m : Module) : Source := ⟨m, .ofModule m, 2 * m.size + 4096⟩

def Source.ofText (path text : String) : Source := .ofModule (.ofText path text)

namespace Source

def resolve (src : Source) : Resolver := src.scope.resolveTo src.depth

/-- The declaration of a class, which is a node apart from the type of its instances. -/
def classNode (src : Source) (site : ClassSite) (name : String) : Resolve NodeId := do
  match (← get).classes.lookup site.position with
  | some id => pure id
  | none =>
    let id ← Resolve.push (.classDeclaration name []) (some (src.scope.location site.decl.place))
    modify fun r => { r with classes := (site.position, id) :: r.classes }
    let bindings ← src.scope.bindTypeParams src.resolve [] site.decl.typeParams []
    let bases ← site.decl.heritage.mapM (src.scope.baseType src.resolve bindings)
    Resolve.setForm id (.classDeclaration name bases)
    pure id

/-- The classes that a name is declared as. -/
def classesNamed (src : Source) (name : String) : Resolve (List NodeId) :=
  match src.scope.find? name with
  | some (.classes first more) =>
    (first :: more).mapM fun site => src.classNode site (site.decl.name.getD "")
  | _ => pure []

/-- The classes that a statement exports, given the position of the statement. -/
def exportedBy (src : Source) (position : Nat) : Statement → Resolve (List NodeId)
  | .exportDeclaration (.classDecl d) => do
    pure [← src.classNode ⟨position, d⟩ (d.name.getD "")]
  | .exportClass d => do pure [← src.classNode ⟨position, d⟩ (d.name.getD "default")]
  | .exportName name => src.classesNamed name
  | .exportNames names _ => do pure (← names.mapM src.classesNamed).flatten
  | _ => pure []

/-- The class declarations that the exports of a module name, in their order. -/
def exportedClasses (src : Source) : Resolve (List NodeId) := do
  let found ← src.mod.statements.zipIdx.mapM fun (statement, position) =>
    src.exportedBy position statement
  pure found.flatten

/-- The type of a name, as if it were written at the top of the module. -/
def typeNamed (src : Source) (name : String) (arguments : List NodeId) : Resolve NodeId :=
  src.scope.nameType src.resolve [] name arguments none

end Source

end PropSchema.TypeScript
