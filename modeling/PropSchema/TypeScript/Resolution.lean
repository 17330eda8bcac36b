import PropSchema.TypeScript.Scope
import PropSchema.TypeScript.Size
import PropSchema.TypeGraph.Union
import PropSchema.Numeral
/-!
Resolution of the types of a module into a type graph. A declared type is one node for each list of
type arguments, which is known before its members are resolved, so types may refer to themselves.
What leads too deep into itself, as a generic type that contains ever larger instances, is refused.
-/
namespace PropSchema.TypeScript

/-- A name with type arguments. -/
abbrev Instance := String × List NodeId

/-- A graph under construction, with the nodes that names already have. -/
structure Resolution where
  graph : TypeGraph
  /-- The nodes of declared types; the latest entry counts. -/
  instances : List (Instance × NodeId)
  /-- The nodes of types of the framework. -/
  framework : List (Instance × NodeId)
  /-- The partial types by their targets. -/
  partials : List (NodeId × NodeId)
  /-- The class declarations by the positions of their statements. -/
  classes : List (Nat × NodeId)
  /-- The aliases being resolved. -/
  pending : List Instance
  /-- The aliases that were met while being resolved, the latest first. -/
  recursive : List String
  deriving Inhabited

def Resolution.initial : Resolution := ⟨.initial, [], [], [], [], [], []⟩

/-- A step of resolution, which is refused if it leads too deep. -/
abbrev Resolve := StateT Resolution Option

/-- The types that type parameters stand for; the latest entry of a name counts. -/
abbrev Bindings := List (String × NodeId)

/-- The way to resolve a type within others. -/
abbrev Resolver := Bindings → TypeExpr → Resolve NodeId

def Scope.location (sc : Scope) (place : Place) : Location := ⟨sc.path, place.line, place.column⟩

namespace Resolve

/-- A new node. -/
def push (form : TypeForm) (location : Option Location) : Resolve NodeId :=
  modifyGet fun r =>
    let (id, graph) := r.graph.push form location
    (id, { r with graph })

def modifyRecord (id : NodeId) (change : RecordType → RecordType) : Resolve Unit :=
  modify fun r => { r with graph := r.graph.modifyRecord id change }

def setForm (id : NodeId) (form : TypeForm) : Resolve Unit :=
  modify fun r => { r with graph := r.graph.setForm id form }

def unionOf (members : List NodeId) (location : Option Location) : Resolve NodeId :=
  modifyGet fun r =>
    let (id, graph) := r.graph.unionOf members location
    (id, { r with graph })

/-- Keeps the node of an instance of a declared type. -/
def remember (key : Instance) (id : NodeId) : Resolve Unit :=
  modify fun r => { r with instances := (key, id) :: r.instances }

def addProperties (id : NodeId) (properties : List Property) : Resolve Unit :=
  modifyRecord id fun record => { record with properties := record.properties ++ properties }

/-- Adds the properties whose names a record lacks. -/
def addNewProperties (id : NodeId) (properties : List Property) : Resolve Unit :=
  modifyRecord id fun record =>
    { record with
      properties := properties.foldl (fun kept p =>
        if kept.any fun k => k.name == p.name then kept else kept ++ [p]) record.properties }

end Resolve

open Resolve

/-- The partial type of a target; each target has one. -/
def partialType (target : NodeId) (location : Option Location) : Resolve NodeId := do
  match (← get).partials.lookup target with
  | some id => pure id
  | none =>
    let id ← push (.partialOf target) location
    modify fun r => { r with partials := (target, id) :: r.partials }
    pure id

/-- The node of a framework type that is made if there is none. -/
def frameworkNode (key : Instance) (make : Resolve NodeId) : Resolve NodeId := do
  match (← get).framework.lookup key with
  | some id => pure id
  | none =>
    let id ← make
    modify fun r => { r with framework := (key, id) :: r.framework }
    pure id

/-- An opaque record of the framework. -/
def frameworkRecord (symbol : String) (arguments bases : List NodeId) : Resolve NodeId :=
  push (.record ⟨some (Text.afterLast '.' symbol), [], some symbol, arguments, bases⟩) none

/-- A type of the framework: a handler of an event, or an opaque record. -/
def frameworkType (symbol : String) (arguments : List NodeId) : Resolve NodeId :=
  let plain (name : String) (arguments : List NodeId) : Resolve NodeId :=
    frameworkNode (qualified name, arguments) (frameworkRecord (qualified name) arguments [])
  frameworkNode (symbol, arguments) do
    let name := Text.afterLast '.' symbol
    if name.endsWith "EventHandler" then
      let event ←
        if name == "EventHandler" then
          match arguments with
          | first :: _ => pure first
          | [] => plain "SyntheticEvent" []
        else plain (name.dropEnd "Handler".length).toString arguments
      push (.function ⟨[⟨"event", event, false⟩], TypeGraph.voidId, some symbol⟩) none
    else if name == "PureComponent" then
      let base ← plain "Component" arguments
      frameworkRecord symbol arguments [base]
    else frameworkRecord symbol arguments []

/-- The built-in generic types: arrays, and what changes all members of a record. -/
def builtinType? (name : String) (arguments : List NodeId) (location : Option Location) :
    Option (Resolve NodeId) :=
  if name == "Array" || name == "ReadonlyArray" then
    some (push (.array (arguments.headD TypeGraph.anyId)) location)
  else match name, arguments with
  | "Partial", target :: _ => some (partialType target location)
  | "Readonly", target :: _ => some (pure target)
  | _, _ => none

namespace Scope

/-- The type of a dotted name: of the framework, or unknown. -/
def qualifiedType (sc : Scope) (text : String) (arguments : List NodeId) (place : Place) :
    Resolve NodeId :=
  let (before, last) := Text.splitLast '.' (Text.erase ' ' text.toList)
  let qualifier := String.ofList before
  let name := String.ofList last
  if sc.isFramework qualifier then frameworkType (qualified name) arguments
  else push (.unresolved text (some (qualifier ++ "." ++ name))) (some (sc.location place))

/-- One type parameter: its argument, its default, or a node of its own with its bound. -/
def bindTypeParam (sc : Scope) (resolve : Resolver) (bindings : Bindings)
    (param : TypeParam TypeExpr) (argument : Option NodeId) : Resolve Bindings :=
  match argument, param.fallback with
  | some id, _ => pure ((param.name, id) :: bindings)
  | none, some fallback => do
    let id ← resolve bindings fallback
    pure ((param.name, id) :: bindings)
  | none, none => do
    let id ← push (.parameter param.name none) (some (sc.location param.place))
    let bindings := (param.name, id) :: bindings
    match param.bound with
    | none => pure bindings
    | some bound =>
      let constraint ← resolve bindings bound
      setForm id (.parameter param.name (some constraint))
      pure bindings

/-- The bindings with type parameters bound to arguments, as far as there are any. -/
def bindTypeParams (sc : Scope) (resolve : Resolver) (bindings : Bindings) :
    List (TypeParam TypeExpr) → List NodeId → Resolve Bindings
  | [], _ => pure bindings
  | param :: params, arguments => do
    let bindings ← sc.bindTypeParam resolve bindings param arguments.head?
    bindTypeParams sc resolve bindings params arguments.tail

/-- The type that is stated, if any; without one it may be anything. -/
def annotated (resolve : Resolver) (bindings : Bindings) : Option TypeExpr → Resolve NodeId
  | none => pure TypeGraph.anyId
  | some type => resolve bindings type

/-- The parameters of a function, but for the one that stands for its object. -/
def parameters (resolve : Resolver) (bindings : Bindings) (params : List (Param TypeExpr)) :
    Resolve (List Parameter) :=
  (params.filter fun p => p.name != "this").mapM fun p => do
    pure ⟨p.name, ← annotated resolve bindings p.typeExpr, p.optional⟩

def functionType (sc : Scope) (resolve : Resolver) (bindings : Bindings)
    (callable : Callable TypeExpr) (place : Place) : Resolve NodeId := do
  let bindings ← sc.bindTypeParams resolve bindings callable.typeParams []
  let parameters ← parameters resolve bindings callable.params
  let result ← annotated resolve bindings callable.result
  push (.function ⟨parameters, result, none⟩) (some (sc.location place))

def property (sc : Scope) (resolve : Resolver) (bindings : Bindings) (name : String)
    (typeExpr : Option TypeExpr) (optional : Bool) (place : Place) : Resolve Property := do
  let type? ← typeExpr.mapM (resolve bindings)
  pure ⟨name, type?, optional, some (sc.location place)⟩

def member (sc : Scope) (resolve : Resolver) (bindings : Bindings) :
    Member TypeExpr → Resolve Property
  | .property name typeExpr optional place =>
    sc.property resolve bindings name typeExpr optional place
  | .method name callable optional place => do
    let id ← sc.functionType resolve bindings callable place
    pure ⟨name, some id, optional, some (sc.location place)⟩

/-- What the record of a declared type is before its members are known. -/
def emptyRecord (name : String) (arguments : List NodeId) : TypeForm :=
  .record ⟨some name, [], some name, arguments, []⟩

/-- A new record for an instance of a declared type, which is known at once. -/
def declaredRecord (sc : Scope) (key : Instance) (place : Place) : Resolve NodeId := do
  let id ← push (emptyRecord key.1 key.2) (some (sc.location place))
  remember key id
  pure id

/-- The own members of all declarations come first, then those of the parents. -/
def interfaceType (sc : Scope) (resolve : Resolver) (bindings : Bindings) (key : Instance)
    (first : InterfaceDecl) (more : List InterfaceDecl) : Resolve NodeId := do
  let id ← sc.declaredRecord key first.place
  for d in first :: more do
    addNewProperties id (← d.members.mapM (sc.member resolve bindings))
  for d in first :: more do
    for parent in d.parents do
      let base ← resolve bindings parent
      modifyRecord id fun record => { record with bases := record.bases ++ [base] }
      match (← get).graph.form base with
      | .record record => addNewProperties id record.properties
      | _ => pure ()
  pure id

/-- The value of an enum member, given what an initializer would be left out for. -/
def enumValue (next : Option Numeral) : Option Initializer → Option LiteralValue
  | none => next.map Numeral.literal
  | some (.string value) => some (.str value)
  | some (.expression text) => (Numeral.read? text).map Numeral.literal

/-- The number that a member without initializer gets after a value. -/
def numberAfter : Option LiteralValue → Option Numeral
  | some (.int n) => some (Numeral.int n).next
  | some (.float x) => some (Numeral.float x).next
  | _ => none

/-- The nodes of enum members; each counts on from the one before. -/
def enumMembers (sc : Scope) : Option Numeral → List EnumMember → Resolve (List NodeId)
  | _, [] => pure []
  | next, m :: ms => do
    let value := enumValue next m.initializer
    let id ← match value with
      | some value => push (.literal value) (some (sc.location m.place))
      | none => push (.unresolved m.text none) none
    pure (id :: (← enumMembers sc (numberAfter value) ms))

def enumType (sc : Scope) (first : EnumDecl) (more : List EnumDecl) : Resolve NodeId := do
  let members ← sc.enumMembers (some (.int 0)) ((first :: more).flatMap EnumDecl.members)
  unionOf members (some (sc.location first.place))

/-- An alias of an object type is a record of its own; any other stands for its value. -/
def aliasType (sc : Scope) (resolve : Resolver) (bindings : Bindings) (key : Instance)
    (decl : AliasDecl) : Resolve NodeId :=
  match decl.value with
  | .object members _ => do
    let id ← sc.declaredRecord key decl.place
    addProperties id (← members.mapM (sc.member resolve bindings))
    pure id
  | value => do
    if (← get).pending.contains key then
      modify fun r => { r with recursive := key.1 :: r.recursive }
      push (.unresolved key.1 (some key.1)) none
    else
      modify fun r => { r with pending := key :: r.pending }
      let id ← resolve bindings value
      modify fun r => { r with pending := r.pending.erase key }
      remember key id
      pure id

/-- A base of a class. -/
def baseType (sc : Scope) (resolve : Resolver) (bindings : Bindings) (h : Heritage) :
    Resolve NodeId :=
  match h.name with
  | .simple name => resolve bindings (.reference (.simple name) h.arguments h.place)
  | .dotted name => resolve bindings (.reference (.dotted name) h.arguments h.place)
  | .other text => do
    discard (h.arguments.mapM (resolve bindings))
    push (.unresolved text none) (some (sc.location h.place))

/-- The instances of a class, with the fields that are open to all. -/
def classType (sc : Scope) (resolve : Resolver) (bindings : Bindings) (key : Instance)
    (decl : ClassDecl) : Resolve NodeId := do
  let id ← sc.declaredRecord key decl.place
  let bases ← decl.heritage.mapM (sc.baseType resolve bindings)
  modifyRecord id fun record => { record with bases }
  for f in decl.fields do
    if !f.isStatic && !f.hidden then
      addProperties id [← sc.property resolve bindings f.name f.typeExpr f.optional f.place]
  pure id

/-- A declared type with type arguments; declarations after the first share its parameters. -/
def declaredType (sc : Scope) (resolve : Resolver) (key : Instance) (named : Named) :
    Resolve NodeId := do
  match (← get).instances.lookup key with
  | some id => pure id
  | none =>
    let bind (params : List (TypeParam TypeExpr)) := sc.bindTypeParams resolve [] params key.2
    match named with
    | .interfaces first more => do
      sc.interfaceType resolve (← bind first.typeParams) key first more
    | .aliases first _ => do sc.aliasType resolve (← bind first.typeParams) key first
    | .classes first _ => do sc.classType resolve (← bind first.decl.typeParams) key first.decl
    | .enums first more => do
      let id ← sc.enumType first more
      remember key id
      pure id

/-- The type that a name has, with type arguments where it takes them. -/
def nameType (sc : Scope) (resolve : Resolver) (bindings : Bindings) (name : String)
    (arguments : List NodeId) (place : Option Place) : Resolve NodeId :=
  match bindings.lookup name with
  | some id => pure id
  | none => match sc.find? name with
  | some named => sc.declaredType resolve (name, arguments) named
  | none => match sc.imported.lookup name with
  | some symbol => frameworkType symbol arguments
  | none => match TypeGraph.primitive? name with
  | some id => pure id
  | none =>
    let location := place.map sc.location
    (builtinType? name arguments location).getD (push (.unresolved name (some name)) location)

/-- The node of a type, given the way to resolve the types within it. -/
def typeOf (sc : Scope) (resolve : Resolver) (bindings : Bindings) : TypeExpr → Resolve NodeId
  | .reference name arguments place => do
    let arguments ← arguments.mapM (resolve bindings)
    match name with
    | .simple name => sc.nameType resolve bindings name arguments (some place)
    | .dotted name => sc.qualifiedType name.text arguments place
  | .keyword word place =>
    if word == "object" then push (.record ⟨none, [], none, [], []⟩) (some (sc.location place))
    else match TypeGraph.primitive? word with
    | some id => pure id
    | none => push (.unresolved word none) (some (sc.location place))
  | .null => pure TypeGraph.nullId
  | .undefined => pure TypeGraph.undefinedId
  | .string value place => push (.literal (.str value)) (some (sc.location place))
  | .boolean value place => push (.literal (.bool value)) (some (sc.location place))
  | .number text place =>
    match Numeral.read? text with
    | some value => push (.literal value.literal) (some (sc.location place))
    | none => push (.unresolved text none) (some (sc.location place))
  | .object members place => do
    let properties ← members.mapM (sc.member resolve bindings)
    push (.record ⟨none, properties, none, [], []⟩) (some (sc.location place))
  | .array element place => do
    push (.array (← resolve bindings element)) (some (sc.location place))
  | .tuple elements place => do
    push (.tuple (← elements.mapM (resolve bindings))) (some (sc.location place))
  | .union members place => do
    unionOf (← members.mapM (resolve bindings)) (some (sc.location place))
  | .intersection members place => do
    push (.intersection (← members.mapM (resolve bindings))) (some (sc.location place))
  | .function callable place => sc.functionType resolve bindings callable place
  | .predicate => pure TypeGraph.booleanId
  | .assertion => pure TypeGraph.voidId
  | .parenthesized inner => resolve bindings inner
  | .readonly inner => resolve bindings inner
  | .other text place => push (.unresolved text none) (some (sc.location place))

/-- Resolution to a depth. -/
def resolveTo (sc : Scope) : Nat → Resolver
  | 0, _, _ => fun _ => none
  | depth + 1, bindings, type => sc.typeOf (fun b t => resolveTo sc depth b t) bindings type

end Scope

end PropSchema.TypeScript
