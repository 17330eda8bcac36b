import PropSchema.Proofs.TypeScript.Renamed
/-!
Type parameters under another name. Some of the parameters of a name are chosen by where they stand,
and spelled anew where they are bound and wherever they are meant. Nothing else changes, so that
what is left of a module without its names stays the same, and with it the size.
-/
namespace PropSchema.TypeScript

/-- How far a type parameter reaches. -/
inductive Reach where
  /-- Over the bounds and defaults of its whole list and what the list belongs to; what a class
  extends is the name of a value, which is not meant by it. -/
  | lexical
  /-- Over what is resolved once it is bound: its own bound, what comes after it in the list, and
  all that the list belongs to, the name that a class extends included. -/
  | resolved

/-- Some of the type parameters of one name. -/
structure Respelling where
  old : String
  chosen : Place → Bool
  reach : Reach

namespace Respelling
variable (ρ : Respelling)

/-- A name where the old one means a chosen parameter, or does not. -/
def spell (new : String) (inside : Bool) (name : String) : String :=
  if inside = true ∧ name = ρ.old then new else name

/-- Whether the old name means a chosen parameter after another parameter is bound. -/
def after (inside : Bool) (name : String) (place : Place) : Bool :=
  if name = ρ.old then ρ.chosen place else inside

def afterAll (inside : Bool) (params : List (TypeParam TypeExpr)) : Bool :=
  params.foldl (fun inside p => ρ.after inside p.name p.place) inside

/-- Whether a chosen parameter is meant, by the two ways to say how far it reaches. -/
def seen (lexical resolved : Bool) : Bool :=
  match ρ.reach with
  | .lexical => lexical
  | .resolved => resolved

def typeName (new : String) (inside : Bool) : TypeName → TypeName
  | .simple name => .simple (ρ.spell new inside name)
  | .dotted name => .dotted name

def baseName (new : String) (inside : Bool) : BaseName → BaseName
  | .simple name => .simple (ρ.spell new (ρ.seen false inside) name)
  | .dotted name => .dotted name
  | .other text => .other text

end Respelling

mutual

/-- A type where the old name means a chosen parameter, or does not. -/
def TypeExpr.respell (ρ : Respelling) (new : String) (inside : Bool) : TypeExpr → TypeExpr
  | .reference name arguments place =>
    .reference (ρ.typeName new inside name) (respellTypes ρ new inside arguments) place
  | .object members place => .object (respellMembers ρ new inside members) place
  | .array element place => .array (element.respell ρ new inside) place
  | .tuple elements place => .tuple (respellTypes ρ new inside elements) place
  | .union members place => .union (respellTypes ρ new inside members) place
  | .intersection members place => .intersection (respellTypes ρ new inside members) place
  | .function callable place => .function (respellCallable ρ new inside callable) place
  | .parenthesized inner => .parenthesized (inner.respell ρ new inside)
  | .readonly inner => .readonly (inner.respell ρ new inside)
  | t => t

def respellTypes (ρ : Respelling) (new : String) (inside : Bool) : List TypeExpr → List TypeExpr
  | [] => []
  | t :: ts => t.respell ρ new inside :: respellTypes ρ new inside ts

def respellOptional (ρ : Respelling) (new : String) (inside : Bool) :
    Option TypeExpr → Option TypeExpr
  | none => none
  | some t => some (t.respell ρ new inside)

def respellMember (ρ : Respelling) (new : String) (inside : Bool) :
    Member TypeExpr → Member TypeExpr
  | .property name typeExpr optional place =>
    .property name (respellOptional ρ new inside typeExpr) optional place
  | .method name callable optional place =>
    .method name (respellCallable ρ new inside callable) optional place

def respellMembers (ρ : Respelling) (new : String) (inside : Bool) :
    List (Member TypeExpr) → List (Member TypeExpr)
  | [] => []
  | m :: ms => respellMember ρ new inside m :: respellMembers ρ new inside ms

/-- A parameter in its list, given what is meant after the whole list. -/
def respellTypeParam (ρ : Respelling) (new : String) (all inside : Bool) :
    TypeParam TypeExpr → TypeParam TypeExpr
  | ⟨name, bound, fallback, place⟩ =>
    ⟨ρ.spell new (ρ.after inside name place) name,
      respellOptional ρ new (ρ.seen all (ρ.after inside name place)) bound,
      respellOptional ρ new (ρ.seen all inside) fallback, place⟩

def respellTypeParams (ρ : Respelling) (new : String) (all inside : Bool) :
    List (TypeParam TypeExpr) → List (TypeParam TypeExpr)
  | [] => []
  | p :: ps =>
    respellTypeParam ρ new all inside p ::
      respellTypeParams ρ new all (ρ.after inside p.name p.place) ps

def respellParam (ρ : Respelling) (new : String) (inside : Bool) : Param TypeExpr → Param TypeExpr
  | ⟨name, typeExpr, optional⟩ => ⟨name, respellOptional ρ new inside typeExpr, optional⟩

def respellParams (ρ : Respelling) (new : String) (inside : Bool) :
    List (Param TypeExpr) → List (Param TypeExpr)
  | [] => []
  | p :: ps => respellParam ρ new inside p :: respellParams ρ new inside ps

def respellCallable (ρ : Respelling) (new : String) (inside : Bool) :
    Callable TypeExpr → Callable TypeExpr
  | ⟨typeParams, params, result⟩ =>
    ⟨respellTypeParams ρ new (ρ.afterAll inside typeParams) inside typeParams,
      respellParams ρ new (ρ.afterAll inside typeParams) params,
      respellOptional ρ new (ρ.afterAll inside typeParams) result⟩

end

/-- What is no object type stays none. -/
theorem TypeExpr.respell_ne_object {ρ : Respelling} {new : String} {inside : Bool} {t : TypeExpr}
    (h : ∀ ms place, t ≠ .object ms place) (ms : List (Member TypeExpr)) (place : Place) :
    t.respell ρ new inside ≠ .object ms place := by
  intro he
  cases t with
  | object ms' place' => exact h ms' place' rfl
  | _ => cases he

section Declarations
variable (ρ : Respelling) (new : String)

def Heritage.respell (inside : Bool) (h : Heritage) : Heritage :=
  ⟨ρ.baseName new inside h.name, respellTypes ρ new inside h.arguments, h.place⟩

def Field.respell (inside : Bool) (f : Field) : Field :=
  { f with typeExpr := respellOptional ρ new inside f.typeExpr }

/-- The type parameters of a declaration, outside of which the old name means none. -/
def respellOwn (params : List (TypeParam TypeExpr)) : List (TypeParam TypeExpr) :=
  respellTypeParams ρ new (ρ.afterAll false params) false params

def ClassDecl.respell (d : ClassDecl) : ClassDecl :=
  ⟨d.name, respellOwn ρ new d.typeParams,
    d.heritage.map (Heritage.respell ρ new (ρ.afterAll false d.typeParams)),
    d.fields.map (Field.respell ρ new (ρ.afterAll false d.typeParams)), d.place⟩

def InterfaceDecl.respell (d : InterfaceDecl) : InterfaceDecl :=
  ⟨d.name, respellOwn ρ new d.typeParams,
    respellTypes ρ new (ρ.afterAll false d.typeParams) d.parents,
    respellMembers ρ new (ρ.afterAll false d.typeParams) d.members, d.place⟩

def AliasDecl.respell (d : AliasDecl) : AliasDecl :=
  ⟨d.name, respellOwn ρ new d.typeParams, d.value.respell ρ new (ρ.afterAll false d.typeParams),
    d.place⟩

def Declaration.respell : Declaration → Declaration
  | .interfaceDecl d => .interfaceDecl (d.respell ρ new)
  | .aliasDecl d => .aliasDecl (d.respell ρ new)
  | .classDecl d => .classDecl (d.respell ρ new)
  | .enumDecl d => .enumDecl d

def Statement.respell : Statement → Statement
  | .declaration d => .declaration (d.respell ρ new)
  | .exportDeclaration d => .exportDeclaration (d.respell ρ new)
  | .exportClass d => .exportClass (d.respell ρ new)
  | s => s

/-- A module with its chosen type parameters under another name. -/
def Module.respell (m : Module) : Module := ⟨m.path, m.statements.map (Statement.respell ρ new)⟩

end Declarations

section Rewriting
variable {σ : Rewriting} {ρ : Respelling} {new : String}

theorem Respelling.name_spell (h : σ.name new = σ.name ρ.old) (inside : Bool) (name : String) :
    σ.name (ρ.spell new inside name) = σ.name name := by
  unfold spell
  split
  · next hname => rw [hname.2, h]
  · rfl

theorem Respelling.typeName_typeName (h : σ.name new = σ.name ρ.old) (inside : Bool)
    (name : TypeName) : σ.typeName (ρ.typeName new inside name) = σ.typeName name := by
  cases name with
  | simple name => exact congrArg TypeName.simple (name_spell h inside name)
  | dotted name => rfl

mutual

/-- Where the new name is told as little as the old one, nothing is told of it. -/
theorem TypeExpr.rewrite_respell (h : σ.name new = σ.name ρ.old) (inside : Bool) :
    (t : TypeExpr) → (t.respell ρ new inside).rewrite σ = t.rewrite σ
  | .reference name args _ => by
    rw [TypeExpr.respell, TypeExpr.rewrite, TypeExpr.rewrite, Respelling.typeName_typeName h,
      rewriteTypes_respell h inside args]
  | .object ms _ => by
    rw [TypeExpr.respell, TypeExpr.rewrite, TypeExpr.rewrite, rewriteMembers_respell h inside ms]
  | .array t _ => by
    rw [TypeExpr.respell, TypeExpr.rewrite, TypeExpr.rewrite, t.rewrite_respell h inside]
  | .tuple ts _ => by
    rw [TypeExpr.respell, TypeExpr.rewrite, TypeExpr.rewrite, rewriteTypes_respell h inside ts]
  | .union ts _ => by
    rw [TypeExpr.respell, TypeExpr.rewrite, TypeExpr.rewrite, rewriteTypes_respell h inside ts]
  | .intersection ts _ => by
    rw [TypeExpr.respell, TypeExpr.rewrite, TypeExpr.rewrite, rewriteTypes_respell h inside ts]
  | .function c _ => by
    rw [TypeExpr.respell, TypeExpr.rewrite, TypeExpr.rewrite, rewriteCallable_respell h inside c]
  | .parenthesized t => by
    rw [TypeExpr.respell, TypeExpr.rewrite, TypeExpr.rewrite, t.rewrite_respell h inside]
  | .readonly t => by
    rw [TypeExpr.respell, TypeExpr.rewrite, TypeExpr.rewrite, t.rewrite_respell h inside]
  | .keyword _ _ | .null | .undefined | .string _ _ | .boolean _ _ | .number _ _ | .predicate
  | .assertion | .other _ _ => rfl

theorem rewriteTypes_respell (h : σ.name new = σ.name ρ.old) (inside : Bool) :
    (ts : List TypeExpr) → rewriteTypes σ (respellTypes ρ new inside ts) = rewriteTypes σ ts
  | [] => rfl
  | t :: ts => by
    rw [respellTypes, rewriteTypes, rewriteTypes, t.rewrite_respell h inside,
      rewriteTypes_respell h inside ts]

theorem rewriteOptional_respell (h : σ.name new = σ.name ρ.old) (inside : Bool) :
    (t : Option TypeExpr) →
      rewriteOptional σ (respellOptional ρ new inside t) = rewriteOptional σ t
  | none => rfl
  | some t => congrArg some (t.rewrite_respell h inside)

theorem rewriteMember_respell (h : σ.name new = σ.name ρ.old) (inside : Bool) :
    (m : Member TypeExpr) → rewriteMember σ (respellMember ρ new inside m) = rewriteMember σ m
  | .property _ t _ _ => by
    rw [respellMember, rewriteMember, rewriteMember, rewriteOptional_respell h inside t]
  | .method _ c _ _ => by
    rw [respellMember, rewriteMember, rewriteMember, rewriteCallable_respell h inside c]

theorem rewriteMembers_respell (h : σ.name new = σ.name ρ.old) (inside : Bool) :
    (ms : List (Member TypeExpr)) →
      rewriteMembers σ (respellMembers ρ new inside ms) = rewriteMembers σ ms
  | [] => rfl
  | m :: ms => by
    rw [respellMembers, rewriteMembers, rewriteMembers, rewriteMember_respell h inside m,
      rewriteMembers_respell h inside ms]

theorem rewriteTypeParam_respell (h : σ.name new = σ.name ρ.old) (all inside : Bool) :
    (p : TypeParam TypeExpr) →
      rewriteTypeParam σ (respellTypeParam ρ new all inside p) = rewriteTypeParam σ p
  | ⟨_, bound, fallback, _⟩ => by
    rw [respellTypeParam, rewriteTypeParam, rewriteTypeParam, Respelling.name_spell h,
      rewriteOptional_respell h _ bound, rewriteOptional_respell h _ fallback]

theorem rewriteTypeParams_respell (h : σ.name new = σ.name ρ.old) (all inside : Bool) :
    (ps : List (TypeParam TypeExpr)) →
      rewriteTypeParams σ (respellTypeParams ρ new all inside ps) = rewriteTypeParams σ ps
  | [] => rfl
  | p :: ps => by
    rw [respellTypeParams, rewriteTypeParams, rewriteTypeParams,
      rewriteTypeParam_respell h all inside p, rewriteTypeParams_respell h all _ ps]

theorem rewriteParam_respell (h : σ.name new = σ.name ρ.old) (inside : Bool) :
    (p : Param TypeExpr) → rewriteParam σ (respellParam ρ new inside p) = rewriteParam σ p
  | ⟨_, t, _⟩ => by
    rw [respellParam, rewriteParam, rewriteParam, rewriteOptional_respell h inside t]

theorem rewriteParams_respell (h : σ.name new = σ.name ρ.old) (inside : Bool) :
    (ps : List (Param TypeExpr)) →
      rewriteParams σ (respellParams ρ new inside ps) = rewriteParams σ ps
  | [] => rfl
  | p :: ps => by
    rw [respellParams, rewriteParams, rewriteParams, rewriteParam_respell h inside p,
      rewriteParams_respell h inside ps]

theorem rewriteCallable_respell (h : σ.name new = σ.name ρ.old) (inside : Bool) :
    (c : Callable TypeExpr) →
      rewriteCallable σ (respellCallable ρ new inside c) = rewriteCallable σ c
  | ⟨typeParams, params, result⟩ => by
    rw [respellCallable, rewriteCallable, rewriteCallable,
      rewriteTypeParams_respell h _ inside typeParams, rewriteParams_respell h _ params,
      rewriteOptional_respell h _ result]

end

section Modules
variable (h : σ.name new = σ.name ρ.old)
include h

theorem Heritage.rewrite_respell (inside : Bool) (x : Heritage) :
    (x.respell ρ new inside).rewrite σ = x.rewrite σ := by
  obtain ⟨name, args, place⟩ := x
  unfold respell rewrite
  dsimp only
  rw [rewriteTypes_respell h]
  cases name with
  | simple name => rw [Respelling.baseName, Rewriting.baseName, Respelling.name_spell h]; rfl
  | _ => rfl

theorem ClassDecl.rewrite_respell (d : ClassDecl) : (d.respell ρ new).rewrite σ = d.rewrite σ := by
  have hfield : ∀ (inside : Bool) (f : Field), (f.respell ρ new inside).rewrite σ = f.rewrite σ :=
    fun inside f => by rw [Field.respell, Field.rewrite, rewriteOptional_respell h]; rfl
  unfold respell rewrite respellOwn
  dsimp only
  rw [rewriteTypeParams_respell h, List.map_map, List.map_map]
  congr 1
  · exact List.map_congr_left fun x _ => Heritage.rewrite_respell h _ x
  · exact List.map_congr_left fun f _ => hfield _ f

theorem aliasValue_respell (inside : Bool) (t : TypeExpr) :
    σ.aliasValue (t.respell ρ new inside) = σ.aliasValue t := by
  have hvalue := congrArg TypeExpr.asValue (t.rewrite_respell h inside)
  cases t with
  | object ms place =>
      rw [TypeExpr.respell, Rewriting.aliasValue, Rewriting.aliasValue, rewriteMembers_respell h]
  | _ => exact hvalue

theorem Declaration.rewrite_respell (d : Declaration) :
    (d.respell ρ new).rewrite σ = d.rewrite σ := by
  cases d with
  | interfaceDecl d =>
      rw [respell, rewrite, rewrite, InterfaceDecl.respell, InterfaceDecl.rewrite, respellOwn,
        rewriteTypeParams_respell h, rewriteTypes_respell h, rewriteMembers_respell h]
      rfl
  | aliasDecl d =>
      rw [respell, rewrite, rewrite, AliasDecl.respell, AliasDecl.rewrite, respellOwn,
        rewriteTypeParams_respell h, aliasValue_respell h]
      rfl
  | classDecl d => exact congrArg Declaration.classDecl (d.rewrite_respell h)
  | enumDecl d => rfl

theorem Statement.rewrite_respell (s : Statement) : (s.respell ρ new).rewrite σ = s.rewrite σ := by
  cases s with
  | declaration d => exact congrArg Statement.declaration (d.rewrite_respell h)
  | exportDeclaration d => exact congrArg Statement.exportDeclaration (d.rewrite_respell h)
  | exportClass d => exact congrArg Statement.exportClass (d.rewrite_respell h)
  | _ => rfl

theorem Module.rewrite_respell (m : Module) : (m.respell ρ new).rewrite σ = m.rewrite σ := by
  unfold respell rewrite
  rw [List.map_map]
  congr 1
  exact List.map_congr_left fun s _ => s.rewrite_respell h

end Modules

theorem Module.size_respell (m : Module) : (m.respell ρ new).size = m.size := by
  have hnameless : (Rewriting.naming fun _ => "").name new =
    (Rewriting.naming fun _ => "").name ρ.old := rfl
  rw [← size_rewrite (ρ := .naming fun _ => "") rfl (m.respell ρ new), rewrite_respell hnameless,
    size_rewrite rfl]

end Rewriting

section Scopes
variable (ρ : Respelling) (new : String)

def ClassSite.respell (s : ClassSite) : ClassSite := ⟨s.position, s.decl.respell ρ new⟩

def Named.respell : Named → Named
  | .interfaces first more =>
    .interfaces (first.respell ρ new) (more.map (InterfaceDecl.respell ρ new))
  | .aliases first more => .aliases (first.respell ρ new) (more.map (AliasDecl.respell ρ new))
  | .classes first more => .classes (first.respell ρ new) (more.map (ClassSite.respell ρ new))
  | .enums first more => .enums first more

theorem Named.respell_join (n later : Named) :
    (n.join later).respell ρ new = (n.respell ρ new).join (later.respell ρ new) := by
  cases n <;> cases later <;> simp [join, respell]

theorem Declaration.declared?_respell (d : Declaration) (position : Nat) :
    (d.respell ρ new).declared? position =
      (d.declared? position).map fun e => (e.1, e.2.respell ρ new) := by
  cases d with
  | classDecl d =>
      rw [respell, declared?, declared?, Option.map_map]
      rfl
  | _ => rfl

theorem Statement.declared?_respell (s : Statement) (position : Nat) :
    (s.respell ρ new).declared? position =
      (s.declared? position).map fun e => (e.1, e.2.respell ρ new) := by
  cases s with
  | declaration d => exact d.declared?_respell ρ new position
  | exportDeclaration d => exact d.declared?_respell ρ new position
  | _ => rfl

theorem declaredAs_respell (statements : List (Statement × Nat)) (name : String) :
    declaredAs (statements.map (Prod.map (Statement.respell ρ new) id)) name =
      (declaredAs statements name).map (Named.respell ρ new) := by
  unfold declaredAs
  rw [List.filterMap_map, List.map_filterMap, List.filterMap_filterMap, List.filterMap_filterMap]
  refine List.filterMap_congr fun s _ => ?_
  change ((s.1.respell ρ new).declared? s.2).bind _ = _
  rw [Statement.declared?_respell]
  cases s.1.declared? s.2 with
  | none => rfl
  | some e =>
      simp only [Option.map_some, Option.bind_some]
      split <;> rfl

namespace Module
variable (m : Module)

theorem zipIdx_respell : (m.respell ρ new).statements.zipIdx =
    m.statements.zipIdx.map (Prod.map (Statement.respell ρ new) id) :=
  List.zipIdx_map

/-- The same names are declared, as what is left of them. -/
theorem find?_respell (name : String) : (Scope.ofModule (m.respell ρ new)).find? name =
    ((Scope.ofModule m).find? name).map (Named.respell ρ new) := by
  have hfold : ∀ (named : List Named) (earlier : Option Named),
      (named.map (Named.respell ρ new)).foldl Named.joinTo (earlier.map (Named.respell ρ new)) =
        (named.foldl Named.joinTo earlier).map (Named.respell ρ new) := by
    intro named
    induction named with
    | nil => exact fun _ => rfl
    | cons n named ih =>
        intro earlier
        rw [List.map_cons, List.foldl_cons, List.foldl_cons, ← ih]
        cases earlier with
        | none => rfl
        | some earlier =>
            exact congrArg (List.foldl Named.joinTo · _)
              (congrArg some (earlier.respell_join ρ new n).symm)
  rw [find?_scope, find?_scope, zipIdx_respell, declaredAs_respell]
  exact hfold _ none

theorem frameworkBindings_respell (s : Statement) :
    (s.respell ρ new).frameworkBindings = s.frameworkBindings := by
  cases s <;> rfl

theorem imported_respell :
    (Scope.ofModule (m.respell ρ new)).imported = (Scope.ofModule m).imported := by
  rw [imported_scope, imported_scope, zipIdx_respell]
  unfold importedNames
  rw [List.flatMap_map]
  simp only [Prod.map_fst, frameworkBindings_respell]

theorem isFramework_respell (qualifier : String) :
    (Scope.ofModule (m.respell ρ new)).isFramework qualifier =
      (Scope.ofModule m).isFramework qualifier := by
  have hnamespaces :
      (Scope.ofModule (m.respell ρ new)).namespaces = (Scope.ofModule m).namespaces := by
    rw [namespaces_scope, namespaces_scope, zipIdx_respell]
    unfold importedNamespaces
    rw [List.flatMap_map]
    simp only [Prod.map_fst, frameworkBindings_respell]
  unfold Scope.isFramework
  rw [hnamespaces, find?_respell, Option.isNone_map]

end Module

end Scopes

end PropSchema.TypeScript
