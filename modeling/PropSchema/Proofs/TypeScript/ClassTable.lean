import PropSchema.Proofs.TypeScript.Exported
/-!
Types do not touch the table of class declarations: what a class declaration leads to is resolved
without any other class being declared.
-/
namespace PropSchema.TypeScript

open Resolve

/-- A step that leaves the table of class declarations as it is. -/
def KeepsClasses {α : Type} (m : Resolve α) : Prop :=
  ∀ r a r', m r = some (a, r') → r'.classes = r.classes

namespace KeepsClasses
variable {α β ι : Type} {m : Resolve α}

theorem fail : KeepsClasses (fun _ => none : Resolve α) := nofun

theorem pure (a : α) : KeepsClasses (Pure.pure a) := by
  rintro r _ _ ⟨⟩
  rfl

theorem bind {k : α → Resolve β} (h : KeepsClasses m) (hk : ∀ a, KeepsClasses (k a)) :
    KeepsClasses (m >>= k) := by
  intro r b r' hrun
  obtain ⟨⟨a, r₁⟩, hm, hrun⟩ := Option.bind_eq_some_iff.mp hrun
  rw [hk a r₁ b r' hrun, h r a r₁ hm]

theorem get : KeepsClasses (get : Resolve Resolution) := by
  rintro r _ _ ⟨⟩
  rfl

theorem modifies {change : Resolution → Resolution} (h : ∀ r, (change r).classes = r.classes) :
    KeepsClasses (modify change) := by
  rintro r _ _ ⟨⟩
  exact h r

theorem modify_bind {change : Resolution → Resolution} {k : PUnit → Resolve β}
    (h : ∀ r, (change r).classes = r.classes) (hk : ∀ u, KeepsClasses (k u)) :
    KeepsClasses (modify change >>= k) :=
  (modifies h).bind hk

theorem push (form : TypeForm) (location : Option Location) :
    KeepsClasses (Resolve.push form location) := by
  rintro r _ _ ⟨⟩
  rfl

theorem unionOf (members : List NodeId) (location : Option Location) :
    KeepsClasses (Resolve.unionOf members location) := by
  rintro r _ _ ⟨⟩
  rfl

theorem modifyRecord (id : NodeId) (change : RecordType → RecordType) :
    KeepsClasses (Resolve.modifyRecord id change) :=
  modifies fun _ => rfl

theorem setForm (id : NodeId) (form : TypeForm) : KeepsClasses (Resolve.setForm id form) :=
  modifies fun _ => rfl

theorem remember (key : Instance) (id : NodeId) : KeepsClasses (Resolve.remember key id) :=
  modifies fun _ => rfl

theorem mapM {k : ι → Resolve α} (h : ∀ i, KeepsClasses (k i)) (is : List ι) :
    KeepsClasses (is.mapM k) := by
  induction is with
  | nil => exact pure []
  | cons i is ih =>
      rw [List.mapM_cons]
      exact (h i).bind fun a => ih.bind fun as => pure (a :: as)

theorem forM {k : ι → Resolve PUnit} (h : ∀ i, KeepsClasses (k i)) (is : List ι) :
    KeepsClasses (forM is k) := by
  induction is with
  | nil => exact pure PUnit.unit
  | cons i is ih =>
      rw [List.forM_cons]
      exact (h i).bind fun _ => ih

theorem frameworkNode {make : Resolve NodeId} (h : KeepsClasses make) (key : Instance) :
    KeepsClasses (TypeScript.frameworkNode key make) := by
  refine get.bind fun r => ?_
  split
  · exact pure _
  · exact h.bind fun id => modify_bind (fun _ => rfl) fun _ => pure id

theorem frameworkType (symbol : String) (arguments : List NodeId) :
    KeepsClasses (TypeScript.frameworkType symbol arguments) := by
  have hrecord : ∀ symbol arguments bases,
      KeepsClasses (frameworkRecord symbol arguments bases) := fun _ _ _ => push _ _
  have hplain : ∀ key symbol arguments, KeepsClasses
      (TypeScript.frameworkNode key (frameworkRecord symbol arguments [])) :=
    fun key symbol arguments => frameworkNode (hrecord symbol arguments []) key
  refine frameworkNode ?_ _
  dsimp only
  split
  · split
    · split
      · exact (pure _).bind fun _ => push _ _
      · exact (hplain _ _ _).bind fun _ => push _ _
    · exact (hplain _ _ _).bind fun _ => push _ _
  · split
    · exact (hplain _ _ _).bind fun _ => hrecord _ _ _
    · exact hrecord _ _ _

theorem partialType (target : NodeId) (location : Option Location) :
    KeepsClasses (TypeScript.partialType target location) := by
  refine get.bind fun r => ?_
  split
  · exact pure _
  · exact (push _ _).bind fun id => modify_bind (fun _ => rfl) fun _ => pure id

theorem builtinType? {name : String} {arguments : List NodeId} {location : Option Location}
    {m : Resolve NodeId} (h : TypeScript.builtinType? name arguments location = some m) :
    KeepsClasses m := by
  unfold TypeScript.builtinType? at h
  split at h
  · cases h
    exact push _ _
  · split at h <;> cases h
    · exact partialType _ _
    · exact pure _

section Types
variable {sc : Scope} {resolve : Resolver} (h : ∀ bindings t, KeepsClasses (resolve bindings t))

theorem qualifiedType (text : String) (arguments : List NodeId) (place : Place) :
    KeepsClasses (sc.qualifiedType text arguments place) := by
  unfold Scope.qualifiedType
  dsimp only
  split
  · exact frameworkType _ _
  · exact push _ _

theorem enumMembers (next : Option Numeral) (members : List EnumMember) :
    KeepsClasses (sc.enumMembers next members) := by
  induction members generalizing next with
  | nil => exact pure []
  | cons m members ih =>
      unfold Scope.enumMembers
      dsimp only
      split <;> exact (push _ _).bind fun id => (ih _).bind fun _ => pure _

theorem declaredRecord (key : Instance) (place : Place) :
    KeepsClasses (sc.declaredRecord key place) :=
  (push _ _).bind fun id => (remember key id).bind fun _ => pure id

include h

theorem bindTypeParams (bindings : Bindings) (params : List (TypeParam TypeExpr))
    (arguments : List NodeId) : KeepsClasses (sc.bindTypeParams resolve bindings params arguments) := by
  induction params generalizing bindings arguments with
  | nil => exact pure bindings
  | cons param params ih =>
      refine bind ?_ fun bindings => ih bindings _
      unfold Scope.bindTypeParam
      split
      · exact pure _
      · exact (h _ _).bind fun _ => pure _
      · refine (push _ _).bind fun id => ?_
        dsimp only
        split
        · exact pure _
        · exact (h _ _).bind fun _ => (setForm _ _).bind fun _ => pure _

theorem annotated (bindings : Bindings) (t : Option TypeExpr) :
    KeepsClasses (Scope.annotated resolve bindings t) := by
  cases t with
  | none => exact pure _
  | some t => exact h bindings t

theorem parameters (bindings : Bindings) (params : List (Param TypeExpr)) :
    KeepsClasses (Scope.parameters resolve bindings params) :=
  mapM (fun _ => (annotated h bindings _).bind fun _ => pure _) _

theorem functionType (bindings : Bindings) (callable : Callable TypeExpr) (place : Place) :
    KeepsClasses (sc.functionType resolve bindings callable place) := by
  refine (bindTypeParams h bindings _ _).bind fun bindings => ?_
  refine (parameters h bindings _).bind fun _ => ?_
  exact (annotated h bindings _).bind fun _ => push _ _

theorem property (bindings : Bindings) (name : String) (t : Option TypeExpr) (optional : Bool)
    (place : Place) : KeepsClasses (sc.property resolve bindings name t optional place) := by
  refine bind ?_ fun _ => pure _
  cases t with
  | none => exact pure none
  | some t => exact (h bindings t).bind fun id => pure (some id)

theorem member (bindings : Bindings) (m : Member TypeExpr) :
    KeepsClasses (sc.member resolve bindings m) := by
  cases m with
  | property name t optional place => exact property h bindings name t optional place
  | method name callable optional place =>
      exact (functionType h bindings callable place).bind fun _ => pure _

theorem interfaceType (bindings : Bindings) (key : Instance) (first : InterfaceDecl)
    (more : List InterfaceDecl) : KeepsClasses (sc.interfaceType resolve bindings key first more) := by
  rw [Scope.interfaceType_eq]
  refine (declaredRecord key _).bind fun id => ?_
  refine (forM (fun d => (mapM (member h bindings) _).bind fun _ => modifyRecord _ _) _).bind
    fun _ => ?_
  refine (forM (fun d => forM (fun parent => ?_) _) _).bind fun _ => pure id
  refine (h bindings parent).bind fun base => (modifyRecord _ _).bind fun _ => get.bind fun r => ?_
  split
  · exact modifyRecord _ _
  · exact pure _

theorem aliasType (bindings : Bindings) (key : Instance) (d : AliasDecl) :
    KeepsClasses (sc.aliasType resolve bindings key d) := by
  unfold Scope.aliasType
  split
  · refine (declaredRecord key _).bind fun id => (mapM (member h bindings) _).bind fun _ => ?_
    exact (modifyRecord _ _).bind fun _ => pure id
  · refine get.bind fun r => ?_
    split
    · exact modify_bind (fun _ => rfl) fun _ => push _ _
    · refine modify_bind (fun _ => rfl) fun _ => (h _ _).bind fun id => ?_
      exact modify_bind (fun _ => rfl) fun _ => (remember _ _).bind fun _ => pure id

theorem baseType (bindings : Bindings) (base : Heritage) :
    KeepsClasses (sc.baseType resolve bindings base) := by
  unfold Scope.baseType
  split
  · exact h _ _
  · exact h _ _
  · exact (bind (mapM (h bindings) _) fun _ => pure _).bind fun _ => push _ _

theorem declaredBases (d : ClassDecl) : KeepsClasses (sc.declaredBases resolve d) :=
  (bindTypeParams h [] _ _).bind fun bindings => mapM (baseType h bindings) _

theorem classType (bindings : Bindings) (key : Instance) (d : ClassDecl) :
    KeepsClasses (sc.classType resolve bindings key d) := by
  rw [Scope.classType_eq]
  refine (declaredRecord key _).bind fun id => (mapM (baseType h bindings) _).bind fun _ => ?_
  refine (modifyRecord _ _).bind fun _ => (forM (fun f => ?_) _).bind fun _ => pure id
  unfold Scope.addField
  split
  · exact (property h bindings _ _ _ _).bind fun _ => modifyRecord _ _
  · exact pure _

theorem declaredType (key : Instance) (named : Named) :
    KeepsClasses (sc.declaredType resolve key named) := by
  refine get.bind fun r => ?_
  split
  · exact pure _
  · cases named with
    | interfaces first more =>
        exact (bindTypeParams h [] _ _).bind fun _ => interfaceType h _ key first more
    | aliases first more => exact (bindTypeParams h [] _ _).bind fun _ => aliasType h _ key first
    | classes first more =>
        exact (bindTypeParams h [] _ _).bind fun _ => classType h _ key first.decl
    | enums first more =>
        refine bind ((enumMembers _ _).bind fun _ => unionOf _ _) fun id => ?_
        exact (remember key id).bind fun _ => pure id

theorem nameType (bindings : Bindings) (name : String) (arguments : List NodeId)
    (place : Option Place) : KeepsClasses (sc.nameType resolve bindings name arguments place) := by
  unfold Scope.nameType
  split
  · exact pure _
  · split
    · exact declaredType h _ _
    · split
      · exact frameworkType _ _
      · split
        · exact pure _
        · dsimp only
          cases hbuiltin : TypeScript.builtinType? name arguments (place.map sc.location) with
          | none => exact push _ _
          | some m => exact builtinType? hbuiltin

theorem typeOf (bindings : Bindings) (t : TypeExpr) : KeepsClasses (sc.typeOf resolve bindings t) := by
  have hall : ∀ ts : List TypeExpr, KeepsClasses (ts.mapM (resolve bindings)) := mapM (h bindings)
  cases t with
  | reference name args place =>
      refine (hall args).bind fun ids => ?_
      cases name with
      | simple name => exact nameType h bindings name ids _
      | dotted name => exact qualifiedType _ ids place
  | keyword word place =>
      rw [Scope.typeOf]
      split
      · exact push _ _
      · split
        · exact pure _
        · exact push _ _
  | number text place =>
      rw [Scope.typeOf]
      split <;> exact push _ _
  | object ms place => exact (mapM (member h bindings) ms).bind fun _ => push _ _
  | array t place => exact (h bindings t).bind fun _ => push _ _
  | tuple ts place => exact (hall ts).bind fun _ => push _ _
  | union ts place => exact (hall ts).bind fun _ => unionOf _ _
  | intersection ts place => exact (hall ts).bind fun _ => push _ _
  | function c place => exact functionType h bindings c place
  | parenthesized t => exact h bindings t
  | readonly t => exact h bindings t
  | string _ _ | boolean _ _ | other _ _ => exact push _ _
  | null | undefined | predicate | assertion => exact pure _

end Types

theorem resolveTo (sc : Scope) (depth : Nat) (bindings : Bindings) (t : TypeExpr) :
    KeepsClasses (sc.resolveTo depth bindings t) := by
  induction depth generalizing bindings t with
  | zero => exact fail
  | succ depth ih => exact typeOf ih bindings t

end KeepsClasses

end PropSchema.TypeScript
