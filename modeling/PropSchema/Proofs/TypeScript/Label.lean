import Mathlib.Data.List.Forall2
import PropSchema.Proofs.LeastSolution
import PropSchema.Proofs.TypeScript.Scenes
import PropSchema.TypeScript.Resolution
/-!
Labels say what the nodes of a resolution stand for, whenever they are made. A declared type is
labelled by its name and arguments. Any other node is labelled by the text that it comes from, by
its place in the course of that text, and by its form. An alias that is always met within its own
value where it is met has a node there that is left without structure. The label of a type can be
read off the module alone: nothing is remembered, so it depends on no order.
-/
namespace PropSchema.TypeScript

mutual

inductive Label where
  | shared (id : NodeId)
  /-- The node that is made at a place in the course of a text. -/
  | made (owner : Owner) (index : Nat) (form : TypeForm Label)
  /-- A type parameter that nothing is bound to, with what is bound before it. -/
  | parameter (owner : Owner) (index : Nat) (param : TypeParam TypeExpr)
      (names : List (String × Label))
  /-- The record of a declared type. -/
  | declared (name : String) (arguments : List Label)
  | framework (symbol : String) (arguments : List Label)
  | partialOf (target : Label)
  | classOf (position : Nat)

/-- The texts that nodes come from: declared types with their arguments, and class declarations. -/
inductive Owner where
  | type (name : String) (arguments : List Label)
  | site (position : Nat)

end

/-- A declared type with the labels of its arguments. -/
abbrev LabelledInstance := String × List Label

namespace Owner

/-- The arguments that the type parameters of a text stand for. -/
def arguments : Owner → List Label
  | .type _ arguments => arguments
  | .site _ => []

/-- The name of a text with the number of its arguments. -/
def mention? : Owner → Option Mention
  | .type name arguments => some (name, arguments.length)
  | .site _ => none

/-- A reference in a text stands for a declared type whose arguments are among those of the text. -/
structure Means (owner : Owner) (u : Reference) (i : LabelledInstance) : Prop where
  name : u.name = i.1
  arguments : List.Forall₂ (fun position label =>
    ∃ index, position = some index ∧ owner.arguments[index]? = some label) u.arguments i.2

end Owner

/-- An alias is always met within its own value where it is met in a text. -/
def RootedScope.Closes (sc : RootedScope) (owner : Owner) (i : LabelledInstance) : Prop :=
  ∃ reader u, owner.mention? = some reader ∧ sc.Shut reader u ∧ owner.Means u i

/-- The labels that type parameters stand for; the latest entry of a name counts. -/
abbrev Names := List (String × Label)

/-- A step through the text of an owner, given how many nodes came before. -/
abbrev Numbering := StateT Nat Option

def numbered (label : Nat → Label) : Numbering Label := fun k => some (label k, k + 1)

/-- A node of a form of its own. -/
def make (owner : Owner) (form : TypeForm Label) : Numbering Label :=
  numbered fun k => .made owner k form

namespace Label

/-- The labels of a union, or the label itself. -/
def parts : Label → List Label
  | .made _ _ (.union members) => members
  | label => [label]

noncomputable section
open Classical

/-- The labels of both lists, those of the second only where the first lacks them. -/
def addMissing (xs ys : List Label) : List Label :=
  ys.foldl (fun acc y => if y ∈ acc then acc else acc ++ [y]) xs

/-- The leaves of a union of labels. -/
def leaves (members : List Label) : List Label :=
  members.foldl (fun leaves m => addMissing leaves (addMissing [] m.parts)) []

/-- The union of labels, which is a node of its own unless it has one leaf. -/
def union (owner : Owner) (members : List Label) : Numbering Label :=
  match leaves members with
  | [leaf] => pure leaf
  | leaves => make owner (.union leaves)

end

/-- What the framework types of a symbol are. -/
def frameworkForm (symbol : String) (arguments : List Label) : TypeForm Label :=
  let name := Text.afterLast '.' symbol
  if name.endsWith "EventHandler" then
    let event :=
      if name == "EventHandler" then
        match arguments with
        | first :: _ => first
        | [] => .framework (qualified "SyntheticEvent") []
      else .framework (qualified (name.dropEnd "Handler".length).toString) arguments
    .function ⟨[⟨"event", event, false⟩], .shared TypeGraph.voidId, some symbol⟩
  else if name == "PureComponent" then
    .record ⟨some name, [], some symbol, arguments, [.framework (qualified "Component") arguments]⟩
  else .record ⟨some name, [], some symbol, arguments, []⟩

/-- The built-in generic types. -/
def builtin? (owner : Owner) (name : String) (arguments : List Label) : Option (Numbering Label) :=
  if name == "Array" || name == "ReadonlyArray" then
    some (make owner (.array (arguments.headD (.shared TypeGraph.anyId))))
  else match name, arguments with
  | "Partial", target :: _ => some (pure (.partialOf target))
  | "Readonly", target :: _ => some (pure target)
  | _, _ => none

end Label

/-- How the types in a text are labelled, given what type parameters stand for. -/
abbrev Labelling := Owner → Names → TypeExpr → Numbering Label

namespace Labelling

def bindLabel (read : Labelling) (owner : Owner) (names : Names) (param : TypeParam TypeExpr)
    (argument : Option Label) : Numbering Names :=
  match argument, param.fallback with
  | some label, _ => pure ((param.name, label) :: names)
  | none, some fallback => do
    let label ← read owner names fallback
    pure ((param.name, label) :: names)
  | none, none => do
    let label ← numbered fun k => .parameter owner k param names
    let names := (param.name, label) :: names
    match param.bound with
    | none => pure names
    | some bound =>
      let _ ← read owner names bound
      pure names

/-- The names with type parameters bound to arguments, as far as there are any. -/
def bindLabels (read : Labelling) (owner : Owner) (names : Names)
    (params : List (TypeParam TypeExpr)) (arguments : List Label) : Numbering Names :=
  match params with
  | [] => pure names
  | param :: params => do
    let names ← read.bindLabel owner names param arguments.head?
    read.bindLabels owner names params arguments.tail

def annotatedLabel (read : Labelling) (owner : Owner) (names : Names) (type : Option TypeExpr) :
    Numbering Label :=
  match type with
  | none => pure (.shared TypeGraph.anyId)
  | some type => read owner names type

def functionLabel (read : Labelling) (owner : Owner) (names : Names)
    (callable : Callable TypeExpr) : Numbering Label := do
  let names ← read.bindLabels owner names callable.typeParams []
  let parameters ← (callable.params.filter fun p => p.name != "this").mapM fun p => do
    let label ← read.annotatedLabel owner names p.typeExpr
    pure (⟨p.name, label, p.optional⟩ : Parameter Label)
  let result ← read.annotatedLabel owner names callable.result
  make owner (.function ⟨parameters, result, none⟩)

/-- One labelling has the labels that another has. -/
def Within (read read' : Labelling) : Prop :=
  ∀ owner names type, Extends (read owner names type) (read' owner names type)

section
variable {read read' : Labelling} (h : read.Within read')
include h

theorem bindLabel_mono (owner : Owner) (names : Names) (param : TypeParam TypeExpr)
    (argument : Option Label) : Extends (read.bindLabel owner names param argument)
      (read'.bindLabel owner names param argument) := by
  unfold bindLabel
  cases argument with
  | some label => exact .refl _
  | none =>
      cases param.fallback with
      | some fallback => exact (h owner names fallback).bind fun _ => .refl _
      | none =>
          refine (Extends.refl _).bind fun label => ?_
          cases param.bound with
          | none => exact .refl _
          | some bound => exact (h owner _ bound).bind fun _ => .refl _

theorem bindLabels_mono (owner : Owner) (names : Names) (params : List (TypeParam TypeExpr))
    (arguments : List Label) : Extends (read.bindLabels owner names params arguments)
      (read'.bindLabels owner names params arguments) := by
  induction params generalizing names arguments with
  | nil => exact .refl _
  | cons param params ih =>
      exact (bindLabel_mono h owner names param _).bind fun names => ih names _

theorem annotatedLabel_mono (owner : Owner) (names : Names) (type : Option TypeExpr) :
    Extends (read.annotatedLabel owner names type) (read'.annotatedLabel owner names type) := by
  cases type with
  | none => exact .refl _
  | some type => exact h owner names type

theorem functionLabel_mono (owner : Owner) (names : Names) (callable : Callable TypeExpr) :
    Extends (read.functionLabel owner names callable)
      (read'.functionLabel owner names callable) := by
  refine (bindLabels_mono h owner names _ _).bind fun names => ?_
  refine (Extends.mapM (fun p => ?_) _).bind fun parameters => ?_
  · exact (annotatedLabel_mono h owner names p.typeExpr).bind fun _ => .refl _
  · exact (annotatedLabel_mono h owner names callable.result).bind fun _ => .refl _

end

end Labelling

namespace Scope

def qualifiedLabel (sc : Scope) (owner : Owner) (text : String) (arguments : List Label) :
    Numbering Label :=
  let (before, last) := Text.splitLast '.' (Text.erase ' ' text.toList)
  let qualifier := String.ofList before
  let name := String.ofList last
  if sc.isFramework qualifier then pure (.framework (qualified name) arguments)
  else make owner (.unresolved text (some (qualifier ++ "." ++ name)))

/-- The label of a type expression that holds no others. -/
def leafLabel (owner : Owner) : TypeExpr → Numbering Label
  | .keyword word _ =>
    if word == "object" then make owner (.record ⟨none, [], none, [], []⟩)
    else match TypeGraph.primitive? word with
    | some id => pure (.shared id)
    | none => make owner (.unresolved word none)
  | .null => pure (.shared TypeGraph.nullId)
  | .undefined => pure (.shared TypeGraph.undefinedId)
  | .string value _ => make owner (.literal (.str value))
  | .boolean value _ => make owner (.literal (.bool value))
  | .number text _ =>
    match Numeral.read? text with
    | some value => make owner (.literal value.literal)
    | none => make owner (.unresolved text none)
  | .predicate => pure (.shared TypeGraph.booleanId)
  | .assertion => pure (.shared TypeGraph.voidId)
  | .other text _ => make owner (.unresolved text none)
  | _ => fun _ => none

def enumLabels (owner : Owner) : Option Numeral → List EnumMember → Numbering (List Label)
  | _, [] => pure []
  | next, m :: ms => do
    let value := enumValue next m.initializer
    let label ← match value with
      | some value => make owner (.literal value)
      | none => make owner (.unresolved m.text none)
    pure (label :: (← enumLabels owner (numberAfter value) ms))

noncomputable def enumLabel (owner : Owner) (first : EnumDecl) (more : List EnumDecl) :
    Numbering Label := do
  Label.union owner (← enumLabels owner (some (.int 0)) ((first :: more).flatMap EnumDecl.members))

/-- What the record of a declared type is before its members are known. -/
def emptyLabels (name : String) (arguments : List Label) : RecordType Label :=
  ⟨some name, [], some name, arguments, []⟩

/-- A record with the properties whose names it lacks. -/
def withNew {α : Type} (record : RecordType α) (properties : List (Property α)) : RecordType α :=
  { record with
    properties := properties.foldl (fun kept p =>
      if kept.any fun k => k.name == p.name then kept else kept ++ [p]) record.properties }

def withBase {α : Type} (record : RecordType α) (base : α) : RecordType α :=
  { record with bases := record.bases ++ [base] }

def propertyLabel (sc : Scope) (read : Labelling) (owner : Owner) (names : Names)
    (member : Member TypeExpr) : Numbering (Property Label) :=
  match member with
  | .property name none optional place =>
    pure ⟨name, none, optional, some (sc.location place)⟩
  | .property name (some type) optional place => do
    let label ← read owner names type
    pure ⟨name, some label, optional, some (sc.location place)⟩
  | .method name callable optional place => do
    let label ← read.functionLabel owner names callable
    pure ⟨name, some label, optional, some (sc.location place)⟩

end Scope

namespace RootedScope

noncomputable section
open Scope

open Classical in
/-- The label of a name. The text of an alias is gone through by itself, from its beginning. -/
def labelOfName (sc : RootedScope) (read : Labelling) (owner : Owner) (names : Names)
    (name : String) (arguments : List Label) : Numbering Label :=
  match names.lookup name with
  | some label => pure label
  | none => match sc.find? name with
  | some (.interfaces _ _) => pure (.declared name arguments)
  | some (.classes _ _) => pure (.declared name arguments)
  | some (.aliases first _) =>
    match first.value with
    | .object _ _ => pure (.declared name arguments)
    | value =>
      if sc.Closes owner (name, arguments) then do
        let _ ← read.bindLabels owner [] first.typeParams arguments
        make owner (.unresolved name (some name))
      else do
        let k ← get
        set 0
        let names ← read.bindLabels (.type name arguments) [] first.typeParams arguments
        let label ← read (.type name arguments) names value
        set k
        pure label
  | some (.enums first more) => do
    let k ← get
    set 0
    let label ← enumLabel (.type name arguments) first more
    set k
    pure label
  | none => match sc.imported.lookup name with
  | some symbol => pure (.framework symbol arguments)
  | none => match TypeGraph.primitive? name with
  | some id => pure (.shared id)
  | none =>
    (Label.builtin? owner name arguments).getD (make owner (.unresolved name (some name)))

/-- The label of a type expression, given how the types that it leads to are labelled. -/
def labelBy (sc : RootedScope) (read : Labelling) (owner : Owner) (names : Names)
    (type : TypeExpr) : Numbering Label :=
  match type with
  | .reference name arguments _ => do
    let arguments ← arguments.mapM fun t => read owner names t
    match name with
    | .simple name => sc.labelOfName read owner names name arguments
    | .dotted name => sc.qualifiedLabel owner name.text arguments
  | .object members _ => do
    let properties ← members.mapM fun m => sc.propertyLabel read owner names m
    make owner (.record ⟨none, properties, none, [], []⟩)
  | .array element _ => do make owner (.array (← read owner names element))
  | .tuple elements _ => do
    make owner (.tuple (← elements.mapM fun t => read owner names t))
  | .union members _ => do
    Label.union owner (← members.mapM fun t => read owner names t)
  | .intersection members _ => do
    make owner (.intersection (← members.mapM fun t => read owner names t))
  | .function callable _ => read.functionLabel owner names callable
  | .parenthesized inner => read owner names inner
  | .readonly inner => read owner names inner
  | type => leafLabel owner type

section
variable {sc : RootedScope} {read read' : Labelling} (h : read.Within read')
include h

theorem propertyLabel_mono (owner : Owner) (names : Names) (member : Member TypeExpr) :
    Extends (sc.propertyLabel read owner names member)
      (sc.propertyLabel read' owner names member) := by
  cases member with
  | property name type optional place =>
      cases type with
      | none => exact .refl _
      | some type => exact (h owner names type).bind fun _ => .refl _
  | method name callable optional place =>
      exact (Labelling.functionLabel_mono h owner names callable).bind fun _ => .refl _

theorem labelOfName_mono (owner : Owner) (names : Names) (name : String)
    (arguments : List Label) : Extends (sc.labelOfName read owner names name arguments)
      (sc.labelOfName read' owner names name arguments) := by
  unfold labelOfName
  cases names.lookup name with
  | some label => exact .refl _
  | none =>
      rcases sc.find? name with _ | named
      · exact .refl _
      · cases named with
        | interfaces first more => exact .refl _
        | classes first more => exact .refl _
        | enums first more => exact .refl _
        | aliases first more =>
            dsimp only
            generalize first.value = value
            cases value with
            | object members place => exact .refl _
            | _ =>
                dsimp only
                split
                · exact (Labelling.bindLabels_mono h _ _ _ _).bind fun _ => .refl _
                refine (Extends.refl _).bind fun k => (Extends.refl _).bind fun _ => ?_
                refine (Labelling.bindLabels_mono h _ _ _ _).bind fun names => ?_
                exact (h _ names _).bind fun _ => .refl _

theorem labelBy_mono : Labelling.Within (sc.labelBy read) (sc.labelBy read') := by
  intro owner names type
  have hmapM : ∀ ts : List TypeExpr,
      Extends (ts.mapM fun t => read owner names t) (ts.mapM fun t => read' owner names t) :=
    Extends.mapM fun t => h owner names t
  cases type with
  | reference name arguments place =>
      refine (hmapM arguments).bind fun arguments => ?_
      cases name with
      | simple name => exact labelOfName_mono h owner names name arguments
      | dotted name => exact .refl _
  | object members place =>
      exact (Extends.mapM (fun m => propertyLabel_mono h owner names m) members).bind
        fun _ => .refl _
  | array element place => exact (h owner names element).bind fun _ => .refl _
  | tuple elements place => exact (hmapM elements).bind fun _ => .refl _
  | union members place => exact (hmapM members).bind fun _ => .refl _
  | intersection members place => exact (hmapM members).bind fun _ => .refl _
  | function callable place => exact Labelling.functionLabel_mono h owner names callable
  | parenthesized inner => exact h owner names inner
  | readonly inner => exact h owner names inner
  | _ => exact .refl _

end

/-- The equation that labels satisfy, with all that a label depends on as one argument. -/
def labelStep (sc : RootedScope) (f : Owner × Names × TypeExpr × Nat → Option (Label × Nat)) :
    Owner × Names × TypeExpr × Nat → Option (Label × Nat) := fun (owner, names, type, k) =>
  sc.labelBy (fun owner names type k => f (owner, names, type, k)) owner names type k

theorem labelStep_mono (sc : RootedScope)
    (f g : Owner × Names × TypeExpr × Nat → Option (Label × Nat)) (h : Extends f g) :
    Extends (sc.labelStep f) (sc.labelStep g) := fun (owner, names, type, k) =>
  labelBy_mono (fun owner names type k => h (owner, names, type, k)) owner names type k

/-- The label of a type expression. -/
def labelOf (sc : RootedScope) : Labelling := fun owner names type k =>
  least sc.labelStep (owner, names, type, k)

theorem labelOf_eq (sc : RootedScope) (owner : Owner) (names : Names) (type : TypeExpr) :
    sc.labelOf owner names type = sc.labelBy sc.labelOf owner names type := by
  funext k
  exact least_eq sc.labelStep_mono (owner, names, type, k)

/-- A base of a class. -/
def baseLabel (sc : RootedScope) (owner : Owner) (names : Names) (h : Heritage) : Numbering Label :=
  match h.name with
  | .simple name => sc.labelOf owner names (.reference (.simple name) h.arguments h.place)
  | .dotted name => sc.labelOf owner names (.reference (.dotted name) h.arguments h.place)
  | .other text => do
    let _ ← h.arguments.mapM fun t => sc.labelOf owner names t
    make owner (.unresolved text none)

/-- The bases of a class declaration. -/
def classBases (sc : RootedScope) (site : ClassSite) : Numbering (List Label) := do
  let owner := Owner.site site.position
  let names ← sc.labelOf.bindLabels owner [] site.decl.typeParams []
  site.decl.heritage.mapM fun h => baseLabel sc owner names h

/-- The members of all declarations of an interface. -/
def ownLabels (sc : RootedScope) (owner : Owner) (names : Names) (decls : List InterfaceDecl)
    (record : RecordType Label) : Numbering (RecordType Label) :=
  decls.foldlM (fun record d => do
    let properties ← d.members.mapM fun m => sc.propertyLabel sc.labelOf owner names m
    pure (withNew record properties)) record

/-- The members of an object type. -/
def objectLabels (sc : RootedScope) (owner : Owner) (names : Names)
    (members : List (Member TypeExpr)) (record : RecordType Label) :
    Numbering (RecordType Label) := do
  let properties ← members.mapM fun m => sc.propertyLabel sc.labelOf owner names m
  pure { record with properties := record.properties ++ properties }

/-- The fields of a class that are open to all. -/
def fieldLabels (sc : RootedScope) (owner : Owner) (names : Names) (fields : List Field)
    (record : RecordType Label) : Numbering (RecordType Label) :=
  fields.foldlM (fun record f =>
    if !f.isStatic && !f.hidden then do
      let property ←
        sc.propertyLabel sc.labelOf owner names (.property f.name f.typeExpr f.optional f.place)
      pure { record with properties := record.properties ++ [property] }
    else pure record) record

/--
The record of a declared type, given how others are built. An interface has its own members first
and then those of the records that it extends, where each of these is as it is in the end.
-/
def recordBy (sc : RootedScope) (build : String → List Label → Numbering (RecordType Label))
    (name : String) (arguments : List Label) : Numbering (RecordType Label) :=
  let owner := Owner.type name arguments
  match sc.find? name with
  | some (.interfaces first more) => do
    let names ← sc.labelOf.bindLabels owner [] first.typeParams arguments
    let record ← ownLabels sc owner names (first :: more) (emptyLabels name arguments)
    (first :: more).foldlM (fun record d =>
      d.parents.foldlM (fun record parent => do
        let base ← sc.labelOf owner names parent
        match base with
        | .declared name arguments => do
          let k ← get
          set 0
          let inherited ← build name arguments
          set k
          pure (withNew (withBase record base) inherited.properties)
        | .made _ _ (.record inherited) =>
          pure (withNew (withBase record base) inherited.properties)
        | _ => pure (withBase record base)) record) record
  | some (.aliases first _) => do
    let names ← sc.labelOf.bindLabels owner [] first.typeParams arguments
    match first.value with
    | .object members _ => objectLabels sc owner names members (emptyLabels name arguments)
    | _ => fun _ => none
  | some (.classes first _) => do
    let names ← sc.labelOf.bindLabels owner [] first.decl.typeParams arguments
    let bases ← first.decl.heritage.mapM fun h => baseLabel sc owner names h
    fieldLabels sc owner names first.decl.fields { emptyLabels name arguments with bases }
  | _ => fun _ => none

theorem recordBy_mono {sc : RootedScope}
    {build build' : String → List Label → Numbering (RecordType Label)}
    (h : ∀ name arguments, Extends (build name arguments) (build' name arguments)) (name : String)
    (arguments : List Label) :
    Extends (sc.recordBy build name arguments) (sc.recordBy build' name arguments) := by
  unfold recordBy
  rcases sc.find? name with _ | named
  · exact .refl _
  · cases named with
    | aliases first more => exact .refl _
    | classes first more => exact .refl _
    | enums first more => exact .refl _
    | interfaces first more =>
        refine (Extends.refl _).bind fun names => (Extends.refl _).bind fun record => ?_
        refine Extends.foldlM (fun record d => ?_) _ _
        refine Extends.foldlM (fun record parent => ?_) _ _
        refine (Extends.refl _).bind fun base => ?_
        cases base with
        | declared name arguments =>
            refine (Extends.refl _).bind fun k => (Extends.refl _).bind fun _ => ?_
            exact (h name arguments).bind fun _ => .refl _
        | made owner index form => cases form <;> exact .refl _
        | _ => exact .refl _

/-- The record of a declared type. -/
def recordLabels (sc : RootedScope) (name : String) (arguments : List Label) :
    Numbering (RecordType Label) := fun k =>
  least (fun f (x : String × List Label × Nat) =>
    sc.recordBy (fun name arguments k => f (name, arguments, k)) x.1 x.2.1 x.2.2)
    (name, arguments, k)

theorem recordLabels_eq (sc : RootedScope) (name : String) (arguments : List Label) :
    sc.recordLabels name arguments = sc.recordBy sc.recordLabels name arguments := by
  funext k
  refine least_eq (fun f g hf x => ?_) (name, arguments, k)
  exact recordBy_mono (fun name arguments k => hf (name, arguments, k)) x.1 x.2.1 x.2.2

/-- The form that a node has in the end, by its label, given the classes of the module. -/
def formOf (sc : RootedScope) (sites : Nat → Option (ClassSite × String)) :
    Label → Option (TypeForm Label)
  | .shared id => TypeGraph.primitiveNames[id]?.map .primitive
  | .made _ _ form => some form
  | .parameter owner index param names =>
    match param.bound with
    | none => some (.parameter param.name none)
    | some bound => do
      let names := (param.name, .parameter owner index param names) :: names
      let (constraint, _) ← sc.labelOf owner names bound (index + 1)
      some (.parameter param.name (some constraint))
  | .declared name arguments => do
    let (record, _) ← recordLabels sc name arguments 0
    some (.record record)
  | .framework symbol arguments => some (Label.frameworkForm symbol arguments)
  | .partialOf target => some (.partialOf target)
  | .classOf position => do
    let (site, name) ← sites position
    let (bases, _) ← classBases sc site 0
    some (.classDeclaration name bases)

end

end RootedScope

end PropSchema.TypeScript
