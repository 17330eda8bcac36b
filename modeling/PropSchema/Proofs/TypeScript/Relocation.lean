import PropSchema.Proofs.Classify.Relocation
import PropSchema.Scan
/-!
Resolution of a module that is said to stand in another file. The graph is the same but for the
file that its locations name.
-/
namespace PropSchema

/-- The same position in a file of another path. -/
def Location.inFile (path : String) (l : Location) : Location := { l with path }

namespace TypeScript

open Resolve

def Scope.inFile (path : String) (sc : Scope) : Scope := { sc with path }

@[simp] theorem Scope.find?_inFile (path : String) (sc : Scope) (name : String) :
    (sc.inFile path).find? name = sc.find? name := rfl

@[simp] theorem Scope.imported_inFile (path : String) (sc : Scope) :
    (sc.inFile path).imported = sc.imported := rfl

def Source.inFile (path : String) (src : Source) : Source :=
  ⟨{ src.mod with path }, src.scope.inFile path, src.depth⟩

@[simp] theorem Source.scope_inFile (path : String) (src : Source) :
    (src.inFile path).scope = src.scope.inFile path := rfl

def Resolution.inFile (path : String) (r : Resolution) : Resolution :=
  { r with graph := r.graph.relocate (Location.inFile path) }

/-- The shared primitives stand in no file. -/
theorem Resolution.initial_inFile (path : String) : Resolution.initial.inFile path = .initial := by
  have hprimitive : TypeNode.relocate (Location.inFile path) ∘ (fun name => ⟨.primitive name, none⟩) =
      fun name => (⟨.primitive name, none⟩ : TypeNode) := rfl
  simp only [Resolution.inFile, Resolution.initial, TypeGraph.relocate, TypeGraph.initial,
    List.map_toArray, List.map_map, hprimitive]

variable {α β : Type} {path : String} {sc : Scope} {resolve resolve' : Resolver}

/-- A step and the one that does the same in another file, with what becomes of its result. -/
def Moves (path : String) (out : α → α) (m m' : Resolve α) : Prop :=
  ∀ r, m' (r.inFile path) = (m r).map (Prod.map out (Resolution.inFile path))

namespace Moves

theorem pure {out : α → α} (a : α) : Moves path out (Pure.pure a) (Pure.pure (out a)) :=
  fun _ => rfl

theorem bind {out : α → α} {out' : β → β} {m m' : Resolve α} {k k' : α → Resolve β}
    (h : Moves path out m m') (hk : ∀ a, Moves path out' (k a) (k' (out a))) :
    Moves path out' (m >>= k) (m' >>= k') := by
  intro r
  change (m' (r.inFile path)).bind (fun x => k' x.1 x.2) =
    ((m r).bind fun x => k x.1 x.2).map _
  rw [h r]
  cases m r with
  | none => rfl
  | some x => exact hk x.1 x.2

theorem next {out : β → β} {m m' : Resolve α} {k k' : α → Resolve β} (h : Moves path id m m')
    (hk : ∀ a, Moves path out (k a) (k' a)) : Moves path out (m >>= k) (m' >>= k') :=
  h.bind hk

theorem map {m m' : Resolve α} (h : Moves path id m m') (f : α → β) :
    Moves path id (f <$> m) (f <$> m') := by
  rw [← bind_pure_comp, ← bind_pure_comp]
  exact h.next fun a => pure (f a)

theorem mapM {out : β → β} {k k' : α → Resolve β} (as : List α)
    (h : ∀ a, Moves path out (k a) (k' a)) :
    Moves path (List.map out) (as.mapM k) (as.mapM k') := by
  induction as with
  | nil => exact pure []
  | cons a as ih =>
      rw [List.mapM_cons, List.mapM_cons]
      exact (h a).bind fun b => ih.bind fun bs => pure (b :: bs)

theorem mapM_id {k k' : α → Resolve β} (as : List α) (h : ∀ a, Moves path id (k a) (k' a)) :
    Moves path id (as.mapM k) (as.mapM k') := by
  have hmap := mapM as h
  rwa [List.map_id_fun] at hmap

theorem forIn {k k' : α → PUnit → Resolve (ForInStep PUnit)} (as : List α)
    (h : ∀ a, Moves path id (k a ⟨⟩) (k' a ⟨⟩)) :
    Moves path id (ForIn.forIn as ⟨⟩ k) (ForIn.forIn as ⟨⟩ k') := by
  induction as with
  | nil => exact pure PUnit.unit
  | cons a as ih =>
      rw [List.forIn_cons, List.forIn_cons]
      refine (h a).bind fun step => ?_
      cases step with
      | done u => exact pure u
      | yield u => exact ih

theorem get : Moves path (Resolution.inFile path) MonadState.get MonadState.get := fun _ => rfl

theorem modify_of {change : Resolution → Resolution}
    (h : ∀ r, change (r.inFile path) = (change r).inFile path) :
    Moves path id (modify change) (modify change) := by
  intro r
  change some ((), change (r.inFile path)) = some ((), (change r).inFile path)
  rw [h]

theorem push (form : TypeForm) (location : Option Location) :
    Moves path id (Resolve.push form location)
      (Resolve.push (form.relocate (Location.inFile path))
        (location.map (Location.inFile path))) := by
  intro r
  have hpush := TypeGraph.push_relocate (Location.inFile path) r.graph form location
  exact congrArg (fun x => some (x.1, ({ r with graph := x.2 } : Resolution))) hpush

/-- A node that is no record, at a place. -/
theorem pushAt {form : TypeForm} (h : form.relocate (Location.inFile path) = form) (place : Place) :
    Moves path id (Resolve.push form (some (sc.location place)))
      (Resolve.push form (some ((sc.inFile path).location place))) := by
  have hpush : Moves path id _ _ := push form (some (sc.location place))
  rwa [h] at hpush

theorem unionOf (members : List NodeId) (location : Option Location) :
    Moves path id (Resolve.unionOf members location)
      (Resolve.unionOf members (location.map (Location.inFile path))) := by
  intro r
  have hunion := TypeGraph.unionOf_relocate (Location.inFile path) r.graph members location
  exact congrArg (fun x => some (x.1, ({ r with graph := x.2 } : Resolution))) hunion

theorem setForm (node : NodeId) (form : TypeForm) :
    Moves path id (Resolve.setForm node form)
      (Resolve.setForm node (form.relocate (Location.inFile path))) := by
  intro r
  have hset := TypeGraph.setForm_relocate (Location.inFile path) r.graph node form
  exact congrArg (fun g => some ((), ({ r with graph := g } : Resolution))) hset

theorem modifyRecord (node : NodeId) {change change' : RecordType → RecordType}
    (h : ∀ r, change' (r.relocate (Location.inFile path)) =
      (change r).relocate (Location.inFile path)) :
    Moves path id (Resolve.modifyRecord node change) (Resolve.modifyRecord node change') := by
  intro r
  have hmodify := TypeGraph.modifyRecord_relocate (Location.inFile path) r.graph node h
  exact congrArg (fun g => some ((), ({ r with graph := g } : Resolution))) hmodify

theorem remember (key : Instance) (node : NodeId) :
    Moves path id (Resolve.remember key node) (Resolve.remember key node) :=
  modify_of fun _ => rfl

theorem addProperties (node : NodeId) (ps : List Property) :
    Moves path id (Resolve.addProperties node ps)
      (Resolve.addProperties node (ps.map (Property.relocate (Location.inFile path)))) := by
  refine modifyRecord node fun r => ?_
  simp only [RecordType.relocate, List.map_append]

theorem addNewProperties (node : NodeId) (ps : List Property) :
    Moves path id (Resolve.addNewProperties node ps)
      (Resolve.addNewProperties node (ps.map (Property.relocate (Location.inFile path)))) := by
  refine modifyRecord node fun r => ?_
  simp only [RecordType.relocate, addNew_relocate]

theorem partialType (target : NodeId) (location : Option Location) :
    Moves path id (TypeScript.partialType target location)
      (TypeScript.partialType target (location.map (Location.inFile path))) := by
  refine get.bind fun r => ?_
  dsimp only [Resolution.inFile]
  cases r.partials.lookup target with
  | some node => exact pure node
  | none =>
      refine (push (.partialOf target) location).next fun node => next ?_ fun _ => pure node
      exact modify_of fun _ => rfl

theorem frameworkNode (key : Instance) {make make' : Resolve NodeId} (h : Moves path id make make') :
    Moves path id (TypeScript.frameworkNode key make) (TypeScript.frameworkNode key make') := by
  refine get.bind fun r => ?_
  dsimp only [Resolution.inFile]
  cases r.framework.lookup key with
  | some node => exact pure node
  | none =>
      refine h.next fun node => next ?_ fun _ => pure node
      exact modify_of fun _ => rfl

theorem frameworkRecord (symbol : String) (arguments bases : List NodeId) :
    Moves path id (TypeScript.frameworkRecord symbol arguments bases)
      (TypeScript.frameworkRecord symbol arguments bases) :=
  push (.record ⟨some (Text.afterLast '.' symbol), [], some symbol, arguments, bases⟩) none

theorem frameworkType (symbol : String) (arguments : List NodeId) :
    Moves path id (TypeScript.frameworkType symbol arguments)
      (TypeScript.frameworkType symbol arguments) := by
  have hplain : ∀ name arguments, Moves path id
      (TypeScript.frameworkNode (qualified name, arguments)
        (TypeScript.frameworkRecord (qualified name) arguments []))
      (TypeScript.frameworkNode (qualified name, arguments)
        (TypeScript.frameworkRecord (qualified name) arguments [])) :=
    fun name arguments => frameworkNode _ (frameworkRecord _ _ _)
  have hhandler : ∀ event : NodeId, Moves path id
      (Resolve.push (.function ⟨[⟨"event", event, false⟩], TypeGraph.voidId, some symbol⟩) none)
      (Resolve.push (.function ⟨[⟨"event", event, false⟩], TypeGraph.voidId, some symbol⟩) none) :=
    fun event => push (.function ⟨[⟨"event", event, false⟩], TypeGraph.voidId, some symbol⟩) none
  refine frameworkNode _ ?_
  dsimp only
  split
  · split
    · split
      · exact hhandler _
      · exact (hplain _ _).next hhandler
    · exact (hplain _ _).next hhandler
  · split
    · exact (hplain _ _).next fun base => frameworkRecord _ _ _
    · exact frameworkRecord _ _ _

theorem map_location (place : Option Place) : place.map (sc.inFile path).location =
    (place.map sc.location).map (Location.inFile path) := by
  rw [Option.map_map]
  rfl

theorem builtinType? (name : String) (arguments : List NodeId) (place : Option Place)
    {m m' : Resolve NodeId} (h : Moves path id m m') :
    Moves path id ((TypeScript.builtinType? name arguments (place.map sc.location)).getD m)
      ((TypeScript.builtinType? name arguments (place.map (sc.inFile path).location)).getD m') := by
  rw [map_location]
  unfold TypeScript.builtinType?
  split
  · exact push (.array (arguments.headD TypeGraph.anyId)) _
  · split
    · exact partialType _ _
    · exact pure _
    · exact h

theorem qualifiedType (text : String) (arguments : List NodeId) (place : Place) :
    Moves path id (sc.qualifiedType text arguments place)
      ((sc.inFile path).qualifiedType text arguments place) := by
  unfold Scope.qualifiedType
  dsimp only
  change Moves path id _ (if sc.isFramework _ then _ else _)
  split
  · exact frameworkType _ _
  · exact pushAt rfl place

end Moves

/-- Resolvers that do the same in the two files. -/
def ResolverMoves (path : String) (resolve resolve' : Resolver) : Prop :=
  ∀ bindings type, Moves path id (resolve bindings type) (resolve' bindings type)

namespace ResolverMoves
variable (h : ResolverMoves path resolve resolve') (bindings : Bindings)
include h

theorem types (types : List TypeExpr) :
    Moves path id (types.mapM (resolve bindings)) (types.mapM (resolve' bindings)) :=
  .mapM_id types (h bindings)

theorem bindTypeParam (param : TypeParam TypeExpr) (argument : Option NodeId) :
    Moves path id (sc.bindTypeParam resolve bindings param argument)
      ((sc.inFile path).bindTypeParam resolve' bindings param argument) := by
  unfold Scope.bindTypeParam
  split
  · exact .pure _
  · exact (h _ _).next fun node => .pure _
  · refine (Moves.pushAt rfl param.place).next fun node => ?_
    dsimp only
    split
    · exact .pure _
    · refine (h _ _).next fun bound => ?_
      exact (Moves.setForm node (.parameter param.name (some bound))).next fun _ => .pure _

theorem bindTypeParams (params : List (TypeParam TypeExpr)) (arguments : List NodeId) :
    Moves path id (sc.bindTypeParams resolve bindings params arguments)
      ((sc.inFile path).bindTypeParams resolve' bindings params arguments) := by
  induction params generalizing bindings arguments with
  | nil => exact .pure _
  | cons param params ih =>
      exact (h.bindTypeParam bindings param arguments.head?).next fun bindings => ih bindings _

theorem annotated (type : Option TypeExpr) :
    Moves path id (Scope.annotated resolve bindings type)
      (Scope.annotated resolve' bindings type) := by
  cases type with
  | none => exact .pure _
  | some type => exact h bindings type

theorem parameters (params : List (Param TypeExpr)) :
    Moves path id (Scope.parameters resolve bindings params)
      (Scope.parameters resolve' bindings params) :=
  .mapM_id _ fun p => (h.annotated bindings p.typeExpr).next fun _ => .pure _

theorem functionType (callable : Callable TypeExpr) (place : Place) :
    Moves path id (sc.functionType resolve bindings callable place)
      ((sc.inFile path).functionType resolve' bindings callable place) :=
  (h.bindTypeParams bindings callable.typeParams []).next fun bindings =>
    (h.parameters bindings callable.params).next fun _ =>
      (h.annotated bindings callable.result).next fun _ => .pushAt rfl place

theorem property (name : String) (type : Option TypeExpr) (optional : Bool) (place : Place) :
    Moves path (Property.relocate (Location.inFile path))
      (sc.property resolve bindings name type optional place)
      ((sc.inFile path).property resolve' bindings name type optional place) := by
  cases type with
  | none => exact .pure _
  | some type =>
      exact ((h bindings type).map some).next fun node =>
        .pure (⟨name, node, optional, some (sc.location place)⟩ : Property)

theorem member (m : Member TypeExpr) :
    Moves path (Property.relocate (Location.inFile path)) (sc.member resolve bindings m)
      ((sc.inFile path).member resolve' bindings m) := by
  cases m with
  | property name type optional place => exact h.property bindings name type optional place
  | method name callable optional place =>
      exact (h.functionType bindings callable place).next fun node => .pure _

theorem members (ms : List (Member TypeExpr)) :
    Moves path (List.map (Property.relocate (Location.inFile path)))
      (ms.mapM (sc.member resolve bindings)) (ms.mapM ((sc.inFile path).member resolve' bindings)) :=
  .mapM ms (h.member bindings)

omit h in
theorem declaredRecord (key : Instance) (place : Place) :
    Moves path id (sc.declaredRecord key place) ((sc.inFile path).declaredRecord key place) :=
  (Moves.pushAt rfl place).next fun node => (Moves.remember key node).next fun _ => .pure node

theorem interfaceType (key : Instance) (first : InterfaceDecl) (more : List InterfaceDecl) :
    Moves path id (sc.interfaceType resolve bindings key first more)
      ((sc.inFile path).interfaceType resolve' bindings key first more) := by
  refine (declaredRecord key first.place).next fun node => ?_
  refine Moves.next (Moves.forIn _ fun d => ?_) fun _ => ?_
  · exact (h.members bindings d.members).bind fun ps =>
      (Moves.addNewProperties node ps).next fun _ => .pure _
  refine Moves.next (Moves.forIn _ fun d => ?_) fun _ => .pure node
  refine Moves.next (Moves.forIn _ fun parent => ?_) fun _ => .pure _
  refine (h bindings parent).next fun base => ?_
  refine Moves.next (Moves.modifyRecord node fun _ => rfl) fun _ => ?_
  refine Moves.get.bind fun r => ?_
  -- what is inherited are the properties of the base, which are found at other locations
  dsimp only [Resolution.inFile]
  rw [TypeGraph.form_relocate]
  cases r.graph.form base with
  | record record => exact (Moves.addNewProperties node record.properties).next fun _ => .pure _
  | _ => exact .pure _

omit h in
theorem enumMembers (next : Option Numeral) (ms : List EnumMember) :
    Moves path id (sc.enumMembers next ms) ((sc.inFile path).enumMembers next ms) := by
  induction ms generalizing next with
  | nil => exact .pure _
  | cons m ms ih =>
      rw [Scope.enumMembers, Scope.enumMembers]
      dsimp only
      cases Scope.enumValue next m.initializer with
      | some value =>
          exact (Moves.pushAt rfl m.place).next fun node => (ih _).next fun nodes => .pure _
      | none =>
          exact (Moves.push (.unresolved m.text none) none).next fun node =>
            (ih _).next fun nodes => .pure _

omit h in
theorem enumType (first : EnumDecl) (more : List EnumDecl) :
    Moves path id (sc.enumType first more) ((sc.inFile path).enumType first more) :=
  (enumMembers _ _).next fun members => .unionOf members (some (sc.location first.place))

theorem aliasType (key : Instance) (decl : AliasDecl) :
    Moves path id (sc.aliasType resolve bindings key decl)
      ((sc.inFile path).aliasType resolve' bindings key decl) := by
  unfold Scope.aliasType
  split
  · exact (declaredRecord key decl.place).next fun node =>
      (h.members bindings _).bind fun ps =>
        (Moves.addProperties node ps).next fun _ => .pure node
  · refine Moves.get.bind fun r => ?_
    change Moves path id (if r.pending.contains key then _ else _)
      (if r.pending.contains key then _ else _)
    split
    · refine Moves.next (Moves.modify_of fun _ => rfl) fun _ => ?_
      exact .push (.unresolved key.1 (some key.1)) none
    · refine Moves.next (Moves.modify_of fun _ => rfl) fun _ => ?_
      refine (h bindings _).next fun node => ?_
      refine Moves.next (Moves.modify_of fun _ => rfl) fun _ => ?_
      exact (Moves.remember key node).next fun _ => .pure node

theorem baseType (heritage : Heritage) :
    Moves path id (sc.baseType resolve bindings heritage)
      ((sc.inFile path).baseType resolve' bindings heritage) := by
  unfold Scope.baseType
  cases heritage.name with
  | simple name => exact h bindings _
  | dotted name => exact h bindings _
  | other text =>
      refine Moves.next ?_ fun _ => .pushAt rfl heritage.place
      exact (h.types bindings heritage.arguments).next fun _ => .pure _

theorem classType (key : Instance) (decl : ClassDecl) :
    Moves path id (sc.classType resolve bindings key decl)
      ((sc.inFile path).classType resolve' bindings key decl) := by
  refine (declaredRecord key decl.place).next fun node => ?_
  refine (Moves.mapM_id decl.heritage (h.baseType bindings)).next fun bases => ?_
  refine Moves.next (Moves.modifyRecord node fun _ => rfl) fun _ => ?_
  refine Moves.next (Moves.forIn _ fun d => ?_) fun _ => .pure node
  split
  · exact (h.property bindings d.name d.typeExpr d.optional d.place).bind fun p =>
      (Moves.addProperties node [p]).next fun _ => .pure _
  · exact .pure _

theorem declaredType (key : Instance) (named : Named) :
    Moves path id (sc.declaredType resolve key named)
      ((sc.inFile path).declaredType resolve' key named) := by
  refine Moves.get.bind fun r => ?_
  dsimp only [Resolution.inFile]
  cases r.instances.lookup key with
  | some node => exact .pure node
  | none =>
      cases named with
      | interfaces first more =>
          exact (h.bindTypeParams _ _ _).next fun bindings => h.interfaceType bindings key first more
      | aliases first more =>
          exact (h.bindTypeParams _ _ _).next fun bindings => h.aliasType bindings key first
      | classes first more =>
          exact (h.bindTypeParams _ _ _).next fun bindings => h.classType bindings key first.decl
      | enums first more =>
          exact (enumType first more).next fun node =>
            (Moves.remember key node).next fun _ => .pure node

theorem nameType (name : String) (arguments : List NodeId) (place : Option Place) :
    Moves path id (sc.nameType resolve bindings name arguments place)
      ((sc.inFile path).nameType resolve' bindings name arguments place) := by
  unfold Scope.nameType
  cases bindings.lookup name with
  | some node => exact .pure node
  | none =>
      dsimp only
      rw [Scope.find?_inFile]
      cases sc.find? name with
      | some named => exact h.declaredType _ named
      | none =>
          dsimp only
          rw [Scope.imported_inFile]
          cases sc.imported.lookup name with
          | some symbol => exact .frameworkType _ _
          | none =>
              cases TypeGraph.primitive? name with
              | some node => exact .pure node
              | none =>
                  refine .builtinType? name arguments place ?_
                  rw [Moves.map_location]
                  exact .push (.unresolved name (some name)) _

theorem typeOf (type : TypeExpr) :
    Moves path id (sc.typeOf resolve bindings type)
      ((sc.inFile path).typeOf resolve' bindings type) := by
  cases type with
  | reference name arguments place =>
      refine (h.types bindings arguments).next fun arguments => ?_
      cases name with
      | simple name => exact h.nameType bindings name arguments (some place)
      | dotted name => exact .qualifiedType _ _ _
  | keyword word place =>
      unfold Scope.typeOf
      dsimp only
      split
      · exact .pushAt rfl place
      · cases TypeGraph.primitive? word with
        | some node => exact .pure node
        | none => exact .pushAt rfl place
  | null | undefined | predicate | assertion => exact .pure _
  | string value place | boolean value place | other text place => exact .pushAt rfl place
  | number text place =>
      unfold Scope.typeOf
      dsimp only
      cases Numeral.read? text with
      | some value => exact .pushAt rfl place
      | none => exact .pushAt rfl place
  | object ms place =>
      exact (h.members bindings ms).bind fun ps => .push (.record ⟨none, ps, none, [], []⟩) _
  | array element place => exact (h bindings element).next fun node => .pushAt rfl place
  | tuple elements place => exact (h.types bindings elements).next fun nodes => .pushAt rfl place
  | union members place =>
      exact (h.types bindings members).next fun nodes =>
        .unionOf nodes (some (sc.location place))
  | intersection members place =>
      exact (h.types bindings members).next fun nodes => .pushAt rfl place
  | function callable place => exact h.functionType bindings callable place
  | parenthesized inner | readonly inner => exact h bindings inner

end ResolverMoves

theorem Scope.resolveTo_moves (sc : Scope) (path : String) (depth : Nat) :
    ResolverMoves path (sc.resolveTo depth) ((sc.inFile path).resolveTo depth) := by
  induction depth with
  | zero => exact fun _ _ _ => rfl
  | succ depth ih => exact fun bindings type => ih.typeOf bindings type

namespace Source
variable (src : Source) (path : String)

theorem resolve_moves : ResolverMoves path src.resolve (src.inFile path).resolve :=
  src.scope.resolveTo_moves path src.depth

theorem classNode_moves (site : ClassSite) (name : String) :
    Moves path id (src.classNode site name) ((src.inFile path).classNode site name) := by
  have h := src.resolve_moves path
  refine Moves.get.bind fun r => ?_
  dsimp only [Resolution.inFile]
  cases r.classes.lookup site.position with
  | some node => exact .pure node
  | none =>
      refine (Moves.pushAt rfl site.decl.place).next fun node => ?_
      refine Moves.next (Moves.modify_of fun _ => rfl) fun _ => ?_
      refine (h.bindTypeParams [] site.decl.typeParams []).next fun bindings => ?_
      refine (Moves.mapM_id site.decl.heritage (h.baseType bindings)).next fun bases => ?_
      exact (Moves.setForm node (.classDeclaration name bases)).next fun _ => .pure node

theorem classesNamed_moves (name : String) :
    Moves path id (src.classesNamed name) ((src.inFile path).classesNamed name) := by
  unfold classesNamed
  rw [scope_inFile, Scope.find?_inFile]
  cases src.scope.find? name with
  | none => exact .pure _
  | some named =>
      cases named with
      | classes first more => exact .mapM_id _ fun site => src.classNode_moves path site _
      | _ => exact .pure _

theorem exportedBy_moves (position : Nat) (statement : Statement) :
    Moves path id (src.exportedBy position statement)
      ((src.inFile path).exportedBy position statement) := by
  unfold exportedBy
  split
  · exact (src.classNode_moves path _ _).next fun node => .pure _
  · exact (src.classNode_moves path _ _).next fun node => .pure _
  · exact src.classesNamed_moves path _
  · exact (Moves.mapM_id _ (src.classesNamed_moves path)).next fun nodes => .pure _
  · exact .pure _

/-- The classes that a module exports are the same in another file. -/
theorem exportedClasses_moves :
    Moves path id src.exportedClasses (src.inFile path).exportedClasses :=
  (Moves.mapM_id _ fun (statement, position) => src.exportedBy_moves path position statement).next
    fun _ => .pure _

end Source

theorem Scope.add_inFile (path : String) (sc : Scope) (position : Nat) (statement : Statement) :
    (sc.inFile path).add position statement = (sc.add position statement).inFile path := by
  have hbind : ∀ (sc : Scope) (bindings : List ImportBinding),
      bindings.foldl Scope.bind (sc.inFile path) = (bindings.foldl Scope.bind sc).inFile path := by
    intro sc bindings
    induction bindings generalizing sc with
    | nil => rfl
    | cons binding bindings ih =>
        rw [List.foldl_cons, List.foldl_cons, ← ih]
        cases binding <;> rfl
  have hdeclare : ∀ d, (sc.inFile path).declareAt position d = (sc.declareAt position d).inFile path := by
    intro d
    cases d with
    | classDecl d =>
        unfold Scope.declareAt
        dsimp only
        cases d.name <;> rfl
    | _ => rfl
  cases statement with
  | imports source bindings =>
      unfold Scope.add
      dsimp only
      split
      · exact hbind sc bindings
      · rfl
  | declaration d => exact hdeclare d
  | exportDeclaration d => exact hdeclare d
  | _ => rfl

/-- A text is read alike in files of one dialect. -/
theorem Source.ofText_inFile {path path' : String} (h : hasMarkup path = hasMarkup path')
    (text : String) : Source.ofText path' text = (Source.ofText path text).inFile path' := by
  have hscope : ∀ (entries : List (Statement × Nat)) (sc : Scope),
      entries.foldl (fun sc entry => sc.add entry.2 entry.1) (sc.inFile path') =
        (entries.foldl (fun sc entry => sc.add entry.2 entry.1) sc).inFile path' := by
    intro entries
    induction entries with
    | nil => exact fun sc => rfl
    | cons entry entries ih =>
        intro sc
        rw [List.foldl_cons, List.foldl_cons, Scope.add_inFile, ih]
  have hpath : (Scope.ofModule (Module.ofText path text)).inFile path' =
      Scope.ofModule { Module.ofText path text with path := path' } := (hscope _ _).symm
  unfold Source.ofText Source.ofModule Source.inFile
  rw [hpath]
  unfold Module.ofText
  dsimp only
  rw [← h]
  rfl

end TypeScript

/-- The path of a text counts only by its dialect, and rules only by what they say. -/
theorem Scan.ofText_relocate {r r' : ComponentRules} (h : r.Agree r') {path path' : String}
    (hmarkup : TypeScript.hasMarkup path = TypeScript.hasMarkup path') (text : String) :
    (Scan.ofText r' path' text).outcome = (Scan.ofText r path text).outcome.mapError
      (PassFault.relocate (Location.inFile path')) := by
  have hmoves := (TypeScript.Source.ofText path text).exportedClasses_moves path' .initial
  rw [TypeScript.Resolution.initial_inFile] at hmoves
  rw [Scan.ofText, Scan.ofText, TypeScript.Source.ofText_inFile hmarkup, Scan.ofSource,
    Scan.ofSource, StateT.run, StateT.run, hmoves]
  cases (TypeScript.Source.ofText path text).exportedClasses .initial with
  | none => rfl
  | some found =>
      obtain ⟨classes, resolution⟩ := found
      have hfind := Components.find_relocate (Location.inFile path') h resolution.graph classes
      change ((Components.find r' (resolution.graph.relocate _) classes).run .fresh).1 = _
      rw [hfind]
      rfl

end PropSchema
