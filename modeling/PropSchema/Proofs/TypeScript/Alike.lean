import PropSchema.Proofs.Sequences
import PropSchema.TypeScript.Exports
/-!
Modules that are alike. A variation says which names of two modules stand for each other, and in
which of them there may be more parentheses. Places do not count, nor where declarations stand, and
intersections and unions may be grouped by parentheses. Types are compared down to a depth, so that
to be alike means to be alike to every depth.
-/
namespace PropSchema.TypeScript

/-- How the second of two modules may differ from the first. -/
structure Variation where
  name : String → String → Prop
  dotted : DottedName → DottedName → Prop
  /-- Symbols of what is unresolved. -/
  symbol : Option String → Option String → Prop
  /-- Positions of class statements. -/
  position : Nat → Nat → Prop
  /-- The first may have parentheses that the second lacks. -/
  left : Prop
  /-- The second may have parentheses that the first lacks. -/
  right : Prop

/-- The variation from the second module to the first. -/
def Variation.flip (v : Variation) : Variation where
  name := Function.swap v.name
  dotted := Function.swap v.dotted
  symbol := Function.swap v.symbol
  position := Function.swap v.position
  left := v.right
  right := v.left

/-- A type in a number of parentheses. -/
def TypeExpr.inParens : Nat → TypeExpr → TypeExpr
  | 0, t => t
  | n + 1, t => .parenthesized (inParens n t)

section Forms
variable {v : Variation} {R R' : TypeExpr → TypeExpr → Prop}

structure TypeParam.Alike (v : Variation) (R : TypeExpr → TypeExpr → Prop)
    (p p' : TypeParam TypeExpr) : Prop where
  name : v.name p.name p'.name
  bound : Option.Rel R p.bound p'.bound
  fallback : Option.Rel R p.fallback p'.fallback

structure Param.Alike (R : TypeExpr → TypeExpr → Prop) (p p' : Param TypeExpr) : Prop where
  name : p.name = p'.name
  typeExpr : Option.Rel R p.typeExpr p'.typeExpr
  optional : p.optional = p'.optional

structure Callable.Alike (v : Variation) (R : TypeExpr → TypeExpr → Prop)
    (c c' : Callable TypeExpr) : Prop where
  typeParams : List.Forall₂ (TypeParam.Alike v R) c.typeParams c'.typeParams
  params : List.Forall₂ (Param.Alike R) c.params c'.params
  result : Option.Rel R c.result c'.result

inductive Member.Alike (v : Variation) (R : TypeExpr → TypeExpr → Prop) :
    Member TypeExpr → Member TypeExpr → Prop
  | property (name : String) {typeExpr typeExpr' : Option TypeExpr} (optional : Bool)
      (place place' : Place) (h : Option.Rel R typeExpr typeExpr') :
      Member.Alike v R (.property name typeExpr optional place)
        (.property name typeExpr' optional place')
  | method (name : String) {callable callable' : Callable TypeExpr} (optional : Bool)
      (place place' : Place) (h : callable.Alike v R callable') :
      Member.Alike v R (.method name callable optional place)
        (.method name callable' optional place')

/-- Members of unions or intersections that are alike one by one, except that some of them may be
grouped on a side that may have more parentheses. -/
inductive Regrouped (group : List TypeExpr → Place → TypeExpr) (v : Variation)
    (R : TypeExpr → TypeExpr → Prop) : List TypeExpr → List TypeExpr → Prop
  | nil : Regrouped group v R [] []
  | cons {t t' : TypeExpr} {ts ts' : List TypeExpr} (h : R t t') (rest : Regrouped group v R ts ts') :
      Regrouped group v R (t :: ts) (t' :: ts')
  | left {ms us' ts ts' : List TypeExpr} (hv : v.left) (n : Nat) (place : Place) (nonempty : ms ≠ [])
      (inner : Regrouped group v R ms us') (rest : Regrouped group v R ts ts') :
      Regrouped group v R (.inParens n (group ms place) :: ts) (us' ++ ts')
  | right {us ms' ts ts' : List TypeExpr} (hv : v.right) (n : Nat) (place : Place)
      (nonempty : ms' ≠ []) (inner : Regrouped group v R us ms') (rest : Regrouped group v R ts ts') :
      Regrouped group v R (us ++ ts) (.inParens n (group ms' place) :: ts')

/-- Types of one form whose parts are alike. -/
inductive TypeExpr.Matches (v : Variation) (R : TypeExpr → TypeExpr → Prop) :
    TypeExpr → TypeExpr → Prop
  | simple {name name' : String} {args args' : List TypeExpr} (place place' : Place)
      (hname : v.name name name') (hargs : List.Forall₂ R args args') :
      Matches v R (.reference (.simple name) args place) (.reference (.simple name') args' place')
  | dotted {name name' : DottedName} {args args' : List TypeExpr} (place place' : Place)
      (hname : v.dotted name name') (hargs : List.Forall₂ R args args') :
      Matches v R (.reference (.dotted name) args place) (.reference (.dotted name') args' place')
  | keyword (word : String) (place place' : Place) :
      Matches v R (.keyword word place) (.keyword word place')
  | null : Matches v R .null .null
  | undefined : Matches v R .undefined .undefined
  | string (value : String) (place place' : Place) :
      Matches v R (.string value place) (.string value place')
  | boolean (value : Bool) (place place' : Place) :
      Matches v R (.boolean value place) (.boolean value place')
  | number (text : String) (place place' : Place) :
      Matches v R (.number text place) (.number text place')
  | object {ms ms' : List (Member TypeExpr)} (place place' : Place)
      (h : List.Forall₂ (Member.Alike v R) ms ms') : Matches v R (.object ms place) (.object ms' place')
  | array {t t' : TypeExpr} (place place' : Place) (h : R t t') :
      Matches v R (.array t place) (.array t' place')
  | tuple {ts ts' : List TypeExpr} (place place' : Place) (h : List.Forall₂ R ts ts') :
      Matches v R (.tuple ts place) (.tuple ts' place')
  | union {ts ts' : List TypeExpr} (place place' : Place) (h : Regrouped .union v R ts ts') :
      Matches v R (.union ts place) (.union ts' place')
  | intersection {ts ts' : List TypeExpr} (place place' : Place)
      (h : Regrouped .intersection v R ts ts') :
      Matches v R (.intersection ts place) (.intersection ts' place')
  | function {c c' : Callable TypeExpr} (place place' : Place) (h : c.Alike v R c') :
      Matches v R (.function c place) (.function c' place')
  | predicate : Matches v R .predicate .predicate
  | assertion : Matches v R .assertion .assertion
  | parenthesized {t t' : TypeExpr} (h : R t t') : Matches v R (.parenthesized t) (.parenthesized t')
  | readonly {t t' : TypeExpr} (h : R t t') : Matches v R (.readonly t) (.readonly t')
  | other (text text' : String) (place place' : Place) :
      Matches v R (.other text place) (.other text' place')

/-- Types that match but for parentheses around them, on a side that may have more. -/
inductive TypeExpr.AlikeBy (v : Variation) (R : TypeExpr → TypeExpr → Prop) :
    TypeExpr → TypeExpr → Prop
  | mk {n n' : Nat} {t t' : TypeExpr} (hn : n ≠ 0 → v.left) (hn' : n' ≠ 0 → v.right)
      (h : t.Matches v R t') : AlikeBy v R (t.inParens n) (t'.inParens n')

variable (hR : ∀ t t', R t t' → R' t' t)
include hR

theorem optionRel_flip {o o' : Option TypeExpr} (h : Option.Rel R o o') : Option.Rel R' o' o := by
  cases h with
  | none => exact .none
  | some h => exact .some (hR _ _ h)

theorem forall₂_flip {ts ts' : List TypeExpr} (h : List.Forall₂ R ts ts') :
    List.Forall₂ R' ts' ts :=
  (h.imp hR).flip

theorem TypeParam.Alike.flip {p p' : TypeParam TypeExpr} (h : p.Alike v R p') :
    p'.Alike v.flip R' p :=
  ⟨h.name, optionRel_flip hR h.bound, optionRel_flip hR h.fallback⟩

theorem typeParams_flip {ps ps' : List (TypeParam TypeExpr)}
    (h : List.Forall₂ (TypeParam.Alike v R) ps ps') :
    List.Forall₂ (TypeParam.Alike v.flip R') ps' ps :=
  (h.imp fun _ _ hp => hp.flip hR).flip

theorem Callable.Alike.flip {c c' : Callable TypeExpr} (h : c.Alike v R c') :
    c'.Alike v.flip R' c :=
  ⟨typeParams_flip hR h.typeParams,
    (h.params.imp fun _ _ hp =>
      (⟨hp.name.symm, optionRel_flip hR hp.typeExpr, hp.optional.symm⟩ : Param.Alike R' _ _)).flip,
    optionRel_flip hR h.result⟩

theorem Member.Alike.flip {m m' : Member TypeExpr} (h : m.Alike v R m') : m'.Alike v.flip R' m := by
  cases h with
  | property name optional place place' h =>
      exact .property name optional place' place (optionRel_flip hR h)
  | method name optional place place' h => exact .method name optional place' place (h.flip hR)

theorem members_flip {ms ms' : List (Member TypeExpr)}
    (h : List.Forall₂ (Member.Alike v R) ms ms') : List.Forall₂ (Member.Alike v.flip R') ms' ms :=
  (h.imp fun _ _ hm => hm.flip hR).flip

theorem Regrouped.flip {group : List TypeExpr → Place → TypeExpr} {ts ts' : List TypeExpr}
    (h : Regrouped group v R ts ts') : Regrouped group v.flip R' ts' ts := by
  induction h with
  | nil => exact .nil
  | cons h _ ih => exact .cons (hR _ _ h) ih
  | left hv n place nonempty _ _ ih ih' => exact .right hv n place nonempty ih ih'
  | right hv n place nonempty _ _ ih ih' => exact .left hv n place nonempty ih ih'

theorem TypeExpr.Matches.flip {t t' : TypeExpr} (h : t.Matches v R t') : t'.Matches v.flip R' t := by
  cases h with
  | simple place place' hname hargs => exact .simple place' place hname (forall₂_flip hR hargs)
  | dotted place place' hname hargs => exact .dotted place' place hname (forall₂_flip hR hargs)
  | keyword word place place' => exact .keyword word place' place
  | null => exact .null
  | undefined => exact .undefined
  | string value place place' => exact .string value place' place
  | boolean value place place' => exact .boolean value place' place
  | number text place place' => exact .number text place' place
  | object place place' h => exact .object place' place (members_flip hR h)
  | array place place' h => exact .array place' place (hR _ _ h)
  | tuple place place' h => exact .tuple place' place (forall₂_flip hR h)
  | union place place' h => exact .union place' place (h.flip hR)
  | intersection place place' h => exact .intersection place' place (h.flip hR)
  | function place place' h => exact .function place' place (h.flip hR)
  | predicate => exact .predicate
  | assertion => exact .assertion
  | parenthesized h => exact .parenthesized (hR _ _ h)
  | readonly h => exact .readonly (hR _ _ h)
  | other text text' place place' => exact .other text' text place' place

theorem TypeExpr.AlikeBy.flip {t t' : TypeExpr} (h : t.AlikeBy v R t') : t'.AlikeBy v.flip R' t := by
  obtain ⟨hn, hn', h⟩ := h
  exact .mk hn' hn (h.flip hR)

end Forms

section Declarations
variable {v : Variation} {R R' : TypeExpr → TypeExpr → Prop}

structure InterfaceDecl.Alike (v : Variation) (R : TypeExpr → TypeExpr → Prop)
    (d d' : InterfaceDecl) : Prop where
  typeParams : List.Forall₂ (TypeParam.Alike v R) d.typeParams d'.typeParams
  parents : List.Forall₂ R d.parents d'.parents
  members : List.Forall₂ (Member.Alike v R) d.members d'.members

/-- Values of aliases that are alike. An object type has a record of its own if it stands there
without parentheses. -/
inductive AliasValue.Alike (v : Variation) (R : TypeExpr → TypeExpr → Prop) :
    TypeExpr → TypeExpr → Prop
  | object {ms ms' : List (Member TypeExpr)} (place place' : Place)
      (h : List.Forall₂ (Member.Alike v R) ms ms') : Alike v R (.object ms place) (.object ms' place')
  | other {t t' : TypeExpr} (h : R t t') (ht : ∀ ms place, t ≠ .object ms place)
      (ht' : ∀ ms place, t' ≠ .object ms place) : Alike v R t t'

structure AliasDecl.Alike (v : Variation) (R : TypeExpr → TypeExpr → Prop) (d d' : AliasDecl) :
    Prop where
  typeParams : List.Forall₂ (TypeParam.Alike v R) d.typeParams d'.typeParams
  value : AliasValue.Alike v R d.value d'.value

structure Field.Alike (R : TypeExpr → TypeExpr → Prop) (f f' : Field) : Prop where
  name : f.name = f'.name
  typeExpr : Option.Rel R f.typeExpr f'.typeExpr
  optional : f.optional = f'.optional
  isStatic : f.isStatic = f'.isStatic
  hidden : f.hidden = f'.hidden

inductive BaseName.Alike (v : Variation) : BaseName → BaseName → Prop
  | simple {name name' : String} (h : v.name name name') : Alike v (.simple name) (.simple name')
  | dotted {name name' : DottedName} (h : v.dotted name name') : Alike v (.dotted name) (.dotted name')
  | other (text text' : String) : Alike v (.other text) (.other text')

structure Heritage.Alike (v : Variation) (R : TypeExpr → TypeExpr → Prop) (h h' : Heritage) :
    Prop where
  name : h.name.Alike v h'.name
  arguments : List.Forall₂ R h.arguments h'.arguments

structure ClassDecl.Alike (v : Variation) (R : TypeExpr → TypeExpr → Prop) (d d' : ClassDecl) :
    Prop where
  name : d.name = d'.name
  typeParams : List.Forall₂ (TypeParam.Alike v R) d.typeParams d'.typeParams
  heritage : List.Forall₂ (Heritage.Alike v R) d.heritage d'.heritage
  fields : List.Forall₂ (Field.Alike R) d.fields d'.fields

structure ClassSite.Alike (v : Variation) (R : TypeExpr → TypeExpr → Prop) (s s' : ClassSite) :
    Prop where
  position : v.position s.position s'.position
  decl : s.decl.Alike v R s'.decl

/-- Enums that count the same. -/
def EnumDecl.Alike (d d' : EnumDecl) : Prop :=
  List.Forall₂ (fun m m' => m.initializer = m'.initializer) d.members d'.members

inductive Named.Alike (v : Variation) (R : TypeExpr → TypeExpr → Prop) : Named → Named → Prop
  | interfaces {first first' : InterfaceDecl} {more more' : List InterfaceDecl}
      (hfirst : first.Alike v R first') (hmore : List.Forall₂ (InterfaceDecl.Alike v R) more more') :
      Alike v R (.interfaces first more) (.interfaces first' more')
  | aliases {first first' : AliasDecl} {more more' : List AliasDecl}
      (hfirst : first.Alike v R first') (hmore : List.Forall₂ (AliasDecl.Alike v R) more more') :
      Alike v R (.aliases first more) (.aliases first' more')
  | classes {first first' : ClassSite} {more more' : List ClassSite}
      (hfirst : first.Alike v R first') (hmore : List.Forall₂ (ClassSite.Alike v R) more more') :
      Alike v R (.classes first more) (.classes first' more')
  | enums {first first' : EnumDecl} {more more' : List EnumDecl}
      (hfirst : first.Alike first') (hmore : List.Forall₂ EnumDecl.Alike more more') :
      Alike v R (.enums first more) (.enums first' more')

variable (hR : ∀ t t', R t t' → R' t' t)
include hR

theorem InterfaceDecl.Alike.flip {d d' : InterfaceDecl} (h : d.Alike v R d') :
    d'.Alike v.flip R' d :=
  ⟨typeParams_flip hR h.typeParams, forall₂_flip hR h.parents, members_flip hR h.members⟩

theorem AliasDecl.Alike.flip {d d' : AliasDecl} (h : d.Alike v R d') : d'.Alike v.flip R' d := by
  refine ⟨typeParams_flip hR h.typeParams, ?_⟩
  have hvalue := h.value
  generalize d.value = t at hvalue ⊢
  generalize d'.value = t' at hvalue ⊢
  cases hvalue with
  | object place place' h => exact .object place' place (members_flip hR h)
  | other h ht ht' => exact .other (hR _ _ h) ht' ht

theorem Heritage.Alike.flip {h h' : Heritage} (hh : h.Alike v R h') : h'.Alike v.flip R' h := by
  refine ⟨?_, forall₂_flip hR hh.arguments⟩
  have hname := hh.name
  generalize h.name = n at hname ⊢
  generalize h'.name = n' at hname ⊢
  cases hname with
  | simple h => exact .simple h
  | dotted h => exact .dotted h
  | other text text' => exact .other text' text

theorem ClassDecl.Alike.flip {d d' : ClassDecl} (h : d.Alike v R d') : d'.Alike v.flip R' d :=
  ⟨h.name.symm, typeParams_flip hR h.typeParams, (h.heritage.imp fun _ _ hh => hh.flip hR).flip,
    (h.fields.imp fun _ _ hf => (⟨hf.name.symm, optionRel_flip hR hf.typeExpr, hf.optional.symm,
      hf.isStatic.symm, hf.hidden.symm⟩ : Field.Alike R' _ _)).flip⟩

theorem ClassSite.Alike.flip {s s' : ClassSite} (h : s.Alike v R s') : s'.Alike v.flip R' s :=
  ⟨h.position, h.decl.flip hR⟩

omit hR in
theorem EnumDecl.Alike.flip {d d' : EnumDecl} (h : d.Alike d') : d'.Alike d :=
  List.Forall₂.flip (List.Forall₂.imp (fun _ _ hm => Eq.symm hm) h)

theorem Named.Alike.flip {n n' : Named} (h : n.Alike v R n') : n'.Alike v.flip R' n := by
  cases h with
  | interfaces hfirst hmore =>
      exact .interfaces (hfirst.flip hR) (hmore.imp fun _ _ h => h.flip hR).flip
  | aliases hfirst hmore =>
      exact .aliases (hfirst.flip hR) (hmore.imp fun _ _ h => h.flip hR).flip
  | classes hfirst hmore =>
      exact .classes (hfirst.flip hR) (hmore.imp fun _ _ h => h.flip hR).flip
  | enums hfirst hmore => exact .enums hfirst.flip (hmore.imp fun _ _ h => h.flip).flip

end Declarations

/-- Types that are alike down to a depth. -/
def TypeExpr.AlikeTo (v : Variation) : Nat → TypeExpr → TypeExpr → Prop
  | 0 => fun _ _ => True
  | depth + 1 => AlikeBy v (AlikeTo v depth)

/-- Types that are alike all the way. -/
def TypeExpr.Alike (v : Variation) (t t' : TypeExpr) : Prop := ∀ depth, AlikeTo v depth t t'

namespace TypeExpr
variable {v : Variation} {R R' : TypeExpr → TypeExpr → Prop} {t t' : TypeExpr}

theorem AlikeBy.imp (hR : ∀ t t', R t t' → R' t t') (h : t.AlikeBy v R t') : t.AlikeBy v R' t' := by
  have hflip : t'.AlikeBy v.flip (Function.swap R') t := h.flip hR
  exact hflip.flip fun _ _ h => h

theorem AlikeTo.flip {depth : Nat} (h : AlikeTo v depth t t') : AlikeTo v.flip depth t' t := by
  induction depth generalizing t t' with
  | zero => trivial
  | succ depth ih => exact AlikeBy.flip (fun _ _ => ih) h

/-- What is alike down to a depth is so down to the depths before. -/
theorem AlikeTo.pred {depth : Nat} (h : AlikeTo v (depth + 1) t t') : AlikeTo v depth t t' := by
  induction depth generalizing t t' with
  | zero => trivial
  | succ depth ih => exact AlikeBy.imp (fun _ _ => ih) h

theorem Alike.flip (h : t.Alike v t') : t'.Alike v.flip t := fun depth => (h depth).flip

theorem Matches.alikeBy (h : t.Matches v R t') : t.AlikeBy v R t' :=
  @AlikeBy.mk v R 0 0 t t' (absurd rfl) (absurd rfl) h

theorem Alike.of_matches (h : ∀ depth, t.Matches v (AlikeTo v depth) t') : t.Alike v t'
  | 0 => trivial
  | depth + 1 => (h depth).alikeBy

end TypeExpr

/-- The qualifier of a dotted name, and its last part. -/
def qualifiedParts (text : String) : String × String :=
  let (before, last) := Text.splitLast '.' (Text.erase ' ' text.toList)
  (String.ofList before, String.ofList last)

/-- The symbol of a dotted name that is none of the framework. -/
def qualifiedSymbol (text : String) : String :=
  (qualifiedParts text).1 ++ "." ++ (qualifiedParts text).2

/-- Names of types that are there without a declaration. -/
def builtinNames : List String :=
  TypeGraph.primitiveNames ++ ["Array", "ReadonlyArray", "Partial", "Readonly"]

namespace Scope

theorem qualifiedType_eq (sc : Scope) (text : String) (arguments : List NodeId) (place : Place) :
    sc.qualifiedType text arguments place =
      if sc.isFramework (qualifiedParts text).1 then
        frameworkType (qualified (qualifiedParts text).2) arguments
      else Resolve.push (.unresolved text (some (qualifiedSymbol text))) (some (sc.location place)) :=
  rfl

/-- Dotted names that mean the same: a type of the framework, or nothing that is known. -/
inductive QualifiedAlike (v : Variation) (sc sc' : Scope) (text text' : String) : Prop
  | framework (h : sc.isFramework (qualifiedParts text).1)
      (h' : sc'.isFramework (qualifiedParts text').1)
      (name : (qualifiedParts text).2 = (qualifiedParts text').2)
  | unresolved (h : sc.isFramework (qualifiedParts text).1 = false)
      (h' : sc'.isFramework (qualifiedParts text').1 = false)
      (symbol : v.symbol (some (qualifiedSymbol text)) (some (qualifiedSymbol text')))

/-- Declarations of names that stand for each other: there are none, or those of one name. -/
inductive DeclaredAlike (v : Variation) (name name' : String) : Option Named → Option Named → Prop
  | none : DeclaredAlike v name name' none none
  | some {named named' : Named} (same : name = name')
      (h : named.Alike v (TypeExpr.Alike v) named') :
      DeclaredAlike v name name' (some named) (some named')

theorem DeclaredAlike.eq_none {v : Variation} {name name' : String} {found : Option Named}
    (h : DeclaredAlike v name name' found Option.none) : found = Option.none := by
  cases h
  rfl

/-- A qualifier means the framework by its imports and declarations. -/
theorem DeclaredAlike.isFramework_eq {v : Variation} {sc sc' : Scope} {name : String}
    (h : DeclaredAlike v name name (sc.find? name) (sc'.find? name))
    (hmem : name ∈ sc'.namespaces ↔ name ∈ sc.namespaces) :
    sc'.isFramework name = sc.isFramework name := by
  have hcontains : sc'.namespaces.contains name = sc.namespaces.contains name := by
    rw [Bool.eq_iff_iff, List.contains_iff_mem, List.contains_iff_mem, hmem]
  unfold isFramework
  rw [hcontains]
  generalize sc.find? name = x at h ⊢
  generalize sc'.find? name = y at h ⊢
  cases h <;> rfl

theorem DeclaredAlike.flip {v : Variation} {a b : String} {x y : Option Named}
    (h : DeclaredAlike v a b x y) : DeclaredAlike v.flip b a y x := by
  cases h with
  | none => exact .none
  | some same hn => exact .some same.symm (hn.flip fun _ _ ht => ht.flip)

/-- Scopes in which names that stand for each other mean the same. -/
structure Alike (v : Variation) (sc sc' : Scope) : Prop where
  names : ∀ {a b a' b'}, v.name a b → v.name a' b' → (a = a' ↔ b = b')
  positions : ∀ {p q p' q'}, v.position p q → v.position p' q' → (p = p' ↔ q = q')
  symbols : ∀ symbol, v.symbol symbol symbol
  declared : ∀ {a b}, v.name a b → DeclaredAlike v a b (sc.find? a) (sc'.find? b)
  imported : ∀ {a b}, v.name a b → sc.find? a = none → sc.imported.lookup a = sc'.imported.lookup b
  /-- Only a name that is known neither here nor there may be another. -/
  unknown : ∀ {a b}, v.name a b → sc.find? a = none → sc.imported.lookup a = none →
    a = b ∨ a ∉ builtinNames ∧ b ∉ builtinNames ∧ v.symbol (some a) (some b)
  dotted : ∀ {n n'}, v.dotted n n' → QualifiedAlike v sc sc' n.text n'.text

theorem Alike.flip {v : Variation} {sc sc' : Scope} (h : sc.Alike v sc') : sc'.Alike v.flip sc where
  names hab hab' := (h.names hab hab').symm
  positions hpq hpq' := (h.positions hpq hpq').symm
  symbols := h.symbols
  declared {b a} hab := DeclaredAlike.flip (h.declared hab)
  imported {b a} hab hb := by
    have hd : DeclaredAlike v a b (sc.find? a) (sc'.find? b) := h.declared hab
    rw [hb] at hd
    exact (h.imported hab hd.eq_none).symm
  unknown {b a} hab hb himported := by
    have hd : DeclaredAlike v a b (sc.find? a) (sc'.find? b) := h.declared hab
    rw [hb] at hd
    rw [← h.imported hab hd.eq_none] at himported
    exact (h.unknown hab hd.eq_none himported).imp Eq.symm fun hu => ⟨hu.2.1, hu.1, hu.2.2⟩
  dotted {n' n} hn := by
    have hq : QualifiedAlike v sc sc' n.text n'.text := h.dotted hn
    cases hq with
    | framework h h' name => exact .framework h' h name.symm
    | unresolved h h' symbol => exact .unresolved h' h symbol

end Scope

/-- Whether a statement may export classes. -/
def Statement.exports : Statement → Bool
  | .exportDeclaration (.classDecl _) => true
  | .exportClass _ => true
  | .exportName _ => true
  | .exportNames _ _ => true
  | _ => false

/-- Exporting statements, with their positions, that export classes that are alike. -/
inductive Statement.ExportsAlike (v : Variation) (sc sc' : Scope) :
    Statement × Nat → Statement × Nat → Prop
  | declaration {d d' : ClassDecl} {p p' : Nat} (h : d.Alike v (TypeExpr.Alike v) d')
      (hp : v.position p p') :
      ExportsAlike v sc sc' (.exportDeclaration (.classDecl d), p)
        (.exportDeclaration (.classDecl d'), p')
  | expression {d d' : ClassDecl} {p p' : Nat} (h : d.Alike v (TypeExpr.Alike v) d')
      (hp : v.position p p') : ExportsAlike v sc sc' (.exportClass d, p) (.exportClass d', p')
  | name {name name' : String} (p p' : Nat)
      (h : Scope.DeclaredAlike v name name' (sc.find? name) (sc'.find? name')) :
      ExportsAlike v sc sc' (.exportName name, p) (.exportName name', p')
  | names {names names' : List String} (source source' : Option String) (p p' : Nat)
      (h : List.Forall₂ (fun name name' =>
        Scope.DeclaredAlike v name name' (sc.find? name) (sc'.find? name')) names names') :
      ExportsAlike v sc sc' (.exportNames names source, p) (.exportNames names' source', p')

theorem Statement.ExportsAlike.flip {v : Variation} {sc sc' : Scope} {s s' : Statement × Nat}
    (h : ExportsAlike v sc sc' s s') : ExportsAlike v.flip sc' sc s' s := by
  cases h with
  | declaration h hp => exact .declaration (h.flip fun _ _ ht => ht.flip) hp
  | expression h hp => exact .expression (h.flip fun _ _ ht => ht.flip) hp
  | name p p' h => exact .name p' p h.flip
  | names source source' p p' h => exact .names source' source p' p (h.imp fun _ _ hn => hn.flip).flip

namespace Module

/-- The statements that may export classes, with their positions. -/
def exporting (m : Module) : List (Statement × Nat) := m.statements.zipIdx.filter fun s => s.1.exports

/-- Modules that are alike: names mean the same, and the same is exported. -/
structure Alike (v : Variation) (m m' : Module) : Prop where
  scope : (Scope.ofModule m).Alike v (Scope.ofModule m')
  exports : List.Forall₂ (Statement.ExportsAlike v (Scope.ofModule m) (Scope.ofModule m'))
    m.exporting m'.exporting

theorem Alike.flip {v : Variation} {m m' : Module} (h : m.Alike v m') : m'.Alike v.flip m :=
  ⟨h.scope.flip, (h.exports.imp fun _ _ he => he.flip).flip⟩

end Module

end PropSchema.TypeScript
