import PropSchema.Proofs.TypeScript.Following
/-!
Resolution in scopes that are alike. Where one resolver follows another on the types within, what is
made of those types follows as well: there is one lemma for each step of resolution.
-/
namespace PropSchema.TypeScript

open Filter Resolve
variable {v : Variation} {l : Filter Nat} {w w' : Link v}

theorem primitive_lt {name : String} {id : NodeId} (h : TypeGraph.primitive? name = some id) :
    id < TypeGraph.primitiveNames.length :=
  (List.findIdx?_eq_some_iff_getElem.mp h).1

theorem primitive?_eq_none {name : String} (h : name ∉ builtinNames) :
    TypeGraph.primitive? name = none :=
  List.idxOf?_eq_none_iff.mpr fun hmem => h (List.mem_append_left _ hmem)

/-- What a built-in generic type makes of its first argument. -/
theorem builtinType?_eq (name : String) (args : List NodeId) (location : Option Location) :
    builtinType? name args location =
      if name = "Array" ∨ name = "ReadonlyArray" then
        some (push (.array (args.headD TypeGraph.anyId)) location)
      else if name = "Partial" then args.head?.map (partialType · location)
      else if name = "Readonly" then args.head?.map pure
      else none := by
  unfold builtinType?
  by_cases harray : name = "Array" ∨ name = "ReadonlyArray"
  · rw [if_pos harray, if_pos (by simpa using harray)]
  · rw [if_neg harray, if_neg (by simpa using harray)]
    split
    · rfl
    · rfl
    · next hpartial hreadonly =>
        cases args with
        | nil => simp
        | cons a as =>
            rw [if_neg fun hname => hpartial a as hname rfl,
              if_neg fun hname => hreadonly a as hname rfl]

theorem builtinType?_eq_none {name : String} (h : name ∉ builtinNames) (args : List NodeId)
    (location : Option Location) : builtinType? name args location = none := by
  simp only [builtinNames, List.mem_append, List.mem_cons, not_or] at h
  rw [builtinType?_eq, if_neg (not_or.mpr ⟨h.2.1, h.2.2.1⟩), if_neg h.2.2.2.1, if_neg h.2.2.2.2.1]

theorem Link.sameKey_injective (w : Link v) {key key' other other' : Instance}
    (h : SameKey w.rel key key') (h' : SameKey w.rel other other') :
    key = other ↔ key' = other' := by
  rw [Prod.ext_iff, Prod.ext_iff, h.1, h'.1, w.likeness.eq_iff h.2 h'.2]

namespace Follows

theorem remember {key key' : Instance} (hkey : SameKey w.rel key key') {a b : NodeId}
    (hab : w.rel a b) :
    Follows l w (Resolve.remember key a) (fun _ => Resolve.remember key' b) fun _ _ _ => True :=
  modify rfl rfl { w.remembered with instances := .cons ⟨hkey, hab⟩ w.remembered.instances }

theorem partialType {a b : NodeId} (hab : w.rel a b) (location location' : Option Location) :
    Follows l w (TypeScript.partialType a location) (fun _ => TypeScript.partialType b location')
      Link.rel := by
  refine get_bind ?_
  have hlookup := Sequences.lookup_rel w.likeness.injective w.remembered.partials hab
  generalize w.left.partials.lookup a = x at hlookup ⊢
  generalize w.right.partials.lookup b = y at hlookup ⊢
  cases hlookup with
  | some h => exact pure h
  | none =>
      refine (push location location' (.partialOf hab)).bind fun w₁ hw₁ c d hcd => ?_
      refine (modify rfl rfl ?_).bind fun w₂ hw₂ _ _ _ => pure (Link.rel_mono hw₂ hcd)
      exact { w₁.remembered with
        partials := .cons ⟨Link.rel_mono hw₁ hab, hcd⟩ w₁.remembered.partials }

theorem frameworkNode {key key' : Instance} (hkey : SameKey w.rel key key') {make : Resolve NodeId}
    {make' : Nat → Resolve NodeId} (h : Follows l w make make' Link.rel) :
    Follows l w (TypeScript.frameworkNode key make)
      (fun n => TypeScript.frameworkNode key' (make' n)) Link.rel := by
  refine get_bind ?_
  have hlookup := Sequences.lookup_rel w.sameKey_injective w.remembered.framework hkey
  generalize w.left.framework.lookup key = x at hlookup ⊢
  generalize w.right.framework.lookup key' = y at hlookup ⊢
  cases hlookup with
  | some h => exact pure h
  | none =>
      refine h.bind fun w₁ hw₁ a b hab => ?_
      refine (modify rfl rfl ?_).bind fun w₂ hw₂ _ _ _ => pure (Link.rel_mono hw₂ hab)
      exact { w₁.remembered with
        framework := .cons ⟨hkey.mono fun _ _ => Link.rel_mono hw₁, hab⟩ w₁.remembered.framework }

theorem frameworkRecord (symbol : String) {args args' bases bases' : List NodeId}
    (hargs : List.Forall₂ w.rel args args') (hbases : List.Forall₂ w.rel bases bases') :
    Follows l w (TypeScript.frameworkRecord symbol args bases)
      (fun _ => TypeScript.frameworkRecord symbol args' bases') Link.rel :=
  push none none (.record ⟨rfl, .nil, rfl, hargs, hbases⟩)

theorem frameworkType (symbol : String) {args args' : List NodeId}
    (hargs : List.Forall₂ w.rel args args') :
    Follows l w (TypeScript.frameworkType symbol args)
      (fun _ => TypeScript.frameworkType symbol args') Link.rel := by
  have hplain : ∀ name (args args' : List NodeId), List.Forall₂ w.rel args args' → Follows l w
      (TypeScript.frameworkNode (qualified name, args)
        (TypeScript.frameworkRecord (qualified name) args []))
      (fun _ => TypeScript.frameworkNode (qualified name, args')
        (TypeScript.frameworkRecord (qualified name) args' [])) Link.rel :=
    fun name args args' h =>
      have hkey : SameKey w.rel (qualified name, args) (qualified name, args') := ⟨rfl, h⟩
      frameworkNode hkey (frameworkRecord _ h .nil)
  have hhandler : ∀ {w' : Link v} {event event' : NodeId}, w'.rel event event' → Follows l w'
      (Resolve.push (.function ⟨[⟨"event", event, false⟩], TypeGraph.voidId, some symbol⟩) none)
      (fun _ => Resolve.push (.function ⟨[⟨"event", event', false⟩], TypeGraph.voidId, some symbol⟩)
        none) Link.rel := fun {w' _ _} h =>
    have hvoid : w'.rel TypeGraph.voidId TypeGraph.voidId := w'.likeness.shared (by decide)
    push none none (.function ⟨.cons ⟨rfl, h, rfl⟩ .nil, hvoid, rfl⟩)
  have hkey : SameKey w.rel (symbol, args) (symbol, args') := ⟨rfl, hargs⟩
  refine frameworkNode hkey ?_
  dsimp only
  split
  · split
    · cases hargs with
      | nil => exact (hplain _ [] [] .nil).bind fun _ _ _ _ => hhandler
      | cons h _ => exact hhandler h
    · exact (hplain _ _ _ hargs).bind fun _ _ _ _ => hhandler
  · split
    · refine (hplain _ _ _ hargs).bind fun w₁ hw₁ _ _ hbase => ?_
      exact frameworkRecord _ (Link.rels_mono hw₁ hargs) (.cons hbase .nil)
    · exact frameworkRecord _ hargs .nil

theorem builtinType? (name : String) {args args' : List NodeId}
    (hargs : List.Forall₂ w.rel args args') (location location' : Option Location)
    {m : Resolve NodeId} {m' : Nat → Resolve NodeId} (h : Follows l w m m' Link.rel) :
    Follows l w ((TypeScript.builtinType? name args location).getD m)
      (fun n => (TypeScript.builtinType? name args' location').getD (m' n)) Link.rel := by
  have hhead : w.rel (args.headD TypeGraph.anyId) (args'.headD TypeGraph.anyId) := by
    cases hargs with
    | nil => exact w.likeness.shared (by decide)
    | cons hab _ => exact hab
  have hfirst := Sequences.head?_rel hargs
  simp only [builtinType?_eq]
  generalize args.head? = x at hfirst ⊢
  generalize args'.head? = y at hfirst ⊢
  split
  · exact push _ _ (.array hhead)
  · split
    · cases hfirst with
      | none => exact h
      | some hab => exact partialType hab _ _
    · split
      · cases hfirst with
        | none => exact h
        | some hab => exact pure hab
      · exact h

/-- A node of no known type. -/
theorem pushUnresolved (text text' : String) {symbol symbol' : Option String}
    (h : v.symbol symbol symbol') (location location' : Option Location) :
    Follows l w (Resolve.push (.unresolved text symbol) location)
      (fun _ => Resolve.push (.unresolved text' symbol') location') Link.rel :=
  push location location' (.unresolved text text' h)

end Follows

/-- Bindings of names that stand for each other to nodes that are paired. -/
def SameBindings (w : Link v) (bindings bindings' : Bindings) : Prop :=
  List.Forall₂ (fun e e' => v.name e.1 e'.1 ∧ w.rel e.2 e'.2) bindings bindings'

theorem SameBindings.mono {bindings bindings' : Bindings} (h : SameBindings w bindings bindings')
    (hw : w ≤ w') : SameBindings w' bindings bindings' :=
  h.imp fun _ _ he => ⟨he.1, Link.rel_mono hw he.2⟩

theorem monotone_rel (a b : NodeId) : Monotone fun w : Link v => w.rel a b :=
  fun _ _ hw => Link.rel_mono hw

theorem monotone_property (p q : Property) : Monotone fun w : Link v => Property.Rel w.rel p q :=
  fun _ _ hw => Property.Rel.imp fun _ _ => Link.rel_mono hw

/-- A resolver, and resolvers at all depths that follow it: on types in a relation, given bindings
in a relation that lasts. -/
structure ResolverFollows (v : Variation) (l : Filter Nat)
    (E : Link v → Bindings → Bindings → Prop) (R : TypeExpr → TypeExpr → Prop)
    (resolve : Resolver) (resolve' : Nat → Resolver) : Prop where
  mono : ∀ {w w' : Link v} {bindings bindings' : Bindings}, w ≤ w' → E w bindings bindings' →
    E w' bindings bindings'
  type : ∀ {w : Link v} {bindings bindings' : Bindings} {t t' : TypeExpr},
    E w bindings bindings' → R t t' →
      Follows l w (resolve bindings t) (fun n => resolve' n bindings' t') Link.rel

/-- What an alias stands for that has no record of its own; it is unresolved if it leads to
itself. -/
def aliasedType (resolve : Resolver) (bindings : Bindings) (key : Instance) (value : TypeExpr) :
    Resolve NodeId := do
  if (← get).pending.contains key then
    modify fun r => { r with recursive := key.1 :: r.recursive }
    push (.unresolved key.1 (some key.1)) none
  else
    modify fun r => { r with pending := key :: r.pending }
    let id ← resolve bindings value
    modify fun r => { r with pending := r.pending.erase key }
    remember key id
    pure id

theorem Scope.aliasType_eq_aliasedType {sc : Scope} {resolve : Resolver} {bindings : Bindings}
    {key : Instance} {d : AliasDecl} (hne : ∀ ms place, d.value ≠ .object ms place) :
    sc.aliasType resolve bindings key d = aliasedType resolve bindings key d.value := by
  unfold Scope.aliasType
  split
  · next ms place heq => exact absurd heq (hne ms place)
  · rfl

/-- The node of an instance of a declared type that is met for the first time. -/
def Scope.newType (sc : Scope) (resolve : Resolver) (key : Instance) : Named → Resolve NodeId
  | .interfaces first more => do
    sc.interfaceType resolve (← sc.bindTypeParams resolve [] first.typeParams key.2) key first more
  | .aliases first _ => do
    sc.aliasType resolve (← sc.bindTypeParams resolve [] first.typeParams key.2) key first
  | .classes first _ => do
    sc.classType resolve (← sc.bindTypeParams resolve [] first.decl.typeParams key.2) key first.decl
  | .enums first more => do
    let id ← sc.enumType first more
    remember key id
    pure id

theorem Scope.declaredType_eq {sc : Scope} {resolve : Resolver} {key : Instance} {named : Named} :
    sc.declaredType resolve key named = (do
      match (← get).instances.lookup key with
      | some id => pure id
      | none => sc.newType resolve key named) := by
  cases named <;> rfl

namespace Follows
variable {sc sc' : Scope}

theorem declaredRecord {key key' : Instance} (hkey : SameKey w.rel key key')
    (place place' : Place) :
    Follows l w (sc.declaredRecord key place) (fun _ => sc'.declaredRecord key' place')
      Link.rel := by
  have hrecord : RecordType.Rel w.rel
      ⟨some key.1, [], some key.1, key.2, []⟩ ⟨some key'.1, [], some key'.1, key'.2, []⟩ :=
    ⟨congrArg some hkey.1, .nil, congrArg some hkey.1, hkey.2, .nil⟩
  refine (push _ _ (.record hrecord)).bind fun w₁ hw₁ a b hab => ?_
  exact (remember (hkey.mono fun _ _ => Link.rel_mono hw₁) hab).bind fun w₂ hw₂ _ _ _ =>
    pure (Link.rel_mono hw₂ hab)

theorem enumMembers {ms ms' : List EnumMember} (hrefl : ∀ symbol, v.symbol symbol symbol)
    (hms : List.Forall₂ (fun m m' => m.initializer = m'.initializer) ms ms')
    (next : Option Numeral) :
    Follows l w (sc.enumMembers next ms) (fun _ => sc'.enumMembers next ms')
      fun w => List.Forall₂ w.rel := by
  induction hms generalizing w next with
  | nil => exact pure .nil
  | @cons m m' _ _ hm _ ih =>
      have hrest : ∀ {w₁ : Link v} {a b : NodeId} (next : Option Numeral), w₁.rel a b →
          Follows l w₁ (do Pure.pure (a :: (← sc.enumMembers next _)))
            (fun _ => do Pure.pure (b :: (← sc'.enumMembers next _))) fun w => List.Forall₂ w.rel :=
        fun next hab => (ih next).bind fun w₂ hw₂ _ _ hs => pure (.cons (Link.rel_mono hw₂ hab) hs)
      simp only [Scope.enumMembers, hm]
      cases Scope.enumValue next m'.initializer with
      | some value => exact (push _ _ (.literal value)).bind fun _ _ _ _ => hrest _
      | none => exact (pushUnresolved _ _ (hrefl none) none none).bind fun _ _ _ _ => hrest _

theorem enumType (hrefl : ∀ symbol, v.symbol symbol symbol) {first first' : EnumDecl}
    (hfirst : first.Alike first') {more more' : List EnumDecl}
    (hmore : List.Forall₂ EnumDecl.Alike more more') :
    Follows l w (sc.enumType first more) (fun _ => sc'.enumType first' more') Link.rel := by
  have hall : List.Forall₂ EnumDecl.Alike (first :: more) (first' :: more') := .cons hfirst hmore
  refine (enumMembers hrefl (List.rel_flatMap hall fun _ _ hd => hd) _).bind
    fun w₁ hw₁ as bs hs => ?_
  exact unionOf _ _ (w₁.likeness.leaves_rel hs)

/-- Declared types are known by their instances, or follow as what is made of their declarations. -/
theorem declaredType {resolve : Resolver} {resolve' : Nat → Resolver} {key key' : Instance}
    (hkey : SameKey w.rel key key') {named named' : Named}
    (h : Follows l w (sc.newType resolve key named) (fun n => sc'.newType (resolve' n) key' named')
      Link.rel) :
    Follows l w (sc.declaredType resolve key named)
      (fun n => sc'.declaredType (resolve' n) key' named') Link.rel := by
  simp only [Scope.declaredType_eq]
  refine get_bind ?_
  have hlookup := Sequences.lookup_rel w.sameKey_injective w.remembered.instances hkey
  generalize w.left.instances.lookup key = x at hlookup ⊢
  generalize w.right.instances.lookup key' = y at hlookup ⊢
  cases hlookup with
  | some hab => exact pure hab
  | none => exact h

/-- An enum is remembered as what its members make up. -/
theorem newEnum (hrefl : ∀ symbol, v.symbol symbol symbol) {key key' : Instance}
    (hkey : SameKey w.rel key key') {first first' : EnumDecl} (hfirst : first.Alike first')
    {more more' : List EnumDecl} (hmore : List.Forall₂ EnumDecl.Alike more more')
    (resolve : Resolver) (resolve' : Nat → Resolver) :
    Follows l w (sc.newType resolve key (.enums first more))
      (fun n => sc'.newType (resolve' n) key' (.enums first' more')) Link.rel := by
  refine (enumType hrefl hfirst hmore).bind fun w₁ hw₁ a b hab => ?_
  exact (remember (hkey.mono fun _ _ => Link.rel_mono hw₁) hab).bind fun w₂ hw₂ _ _ _ =>
    pure (Link.rel_mono hw₂ hab)

/-- A name that is neither bound nor declared nor imported is one that is built in, or unknown. -/
theorem builtinName (hrefl : ∀ symbol, v.symbol symbol symbol) (name : String)
    {args args' : List NodeId} (hargs : List.Forall₂ w.rel args args')
    (location location' : Option Location) :
    Follows l w
      (match TypeGraph.primitive? name with
        | some id => Pure.pure id
        | none => (TypeScript.builtinType? name args location).getD
          (Resolve.push (.unresolved name (some name)) location))
      (fun _ => match TypeGraph.primitive? name with
        | some id => Pure.pure id
        | none => (TypeScript.builtinType? name args' location').getD
          (Resolve.push (.unresolved name (some name)) location')) Link.rel := by
  cases hprimitive : TypeGraph.primitive? name with
  | some id => exact pure (w.likeness.shared (primitive_lt hprimitive))
  | none => exact builtinType? name hargs _ _ (pushUnresolved _ _ (hrefl (some name)) _ _)

theorem qualifiedType {text text' : String} (h : Scope.QualifiedAlike v sc sc' text text')
    {args args' : List NodeId} (hargs : List.Forall₂ w.rel args args') (place place' : Place) :
    Follows l w (sc.qualifiedType text args place) (fun _ => sc'.qualifiedType text' args' place')
      Link.rel := by
  simp only [Scope.qualifiedType_eq]
  cases h with
  | framework hq hq' hlast =>
      rw [if_pos hq, if_pos hq', hlast]
      exact frameworkType _ hargs
  | unresolved hq hq' hsymbol =>
      rw [if_neg (by simp [hq]), if_neg (by simp [hq'])]
      exact pushUnresolved _ _ hsymbol _ _

theorem keywordType (hrefl : ∀ symbol, v.symbol symbol symbol) {resolve : Resolver}
    {resolve' : Nat → Resolver} {bindings bindings' : Bindings} (word : String)
    (place place' : Place) :
    Follows l w (sc.typeOf resolve bindings (.keyword word place))
      (fun n => sc'.typeOf (resolve' n) bindings' (.keyword word place')) Link.rel := by
  unfold Scope.typeOf
  dsimp only
  split
  · exact push _ _ (.record ⟨rfl, .nil, rfl, .nil, .nil⟩)
  · cases hprimitive : TypeGraph.primitive? word with
    | some id => exact pure (w.likeness.shared (primitive_lt hprimitive))
    | none => exact pushUnresolved _ _ (hrefl none) _ _

theorem numberType (hrefl : ∀ symbol, v.symbol symbol symbol) {resolve : Resolver}
    {resolve' : Nat → Resolver} {bindings bindings' : Bindings} (text : String)
    (place place' : Place) :
    Follows l w (sc.typeOf resolve bindings (.number text place))
      (fun n => sc'.typeOf (resolve' n) bindings' (.number text place')) Link.rel := by
  unfold Scope.typeOf
  dsimp only
  cases Numeral.read? text with
  | some value => exact push _ _ (.literal _)
  | none => exact pushUnresolved _ _ (hrefl none) _ _

end Follows

namespace ResolverFollows
variable {E E' : Link v → Bindings → Bindings → Prop} {R R' : TypeExpr → TypeExpr → Prop}
  {resolve : Resolver} {resolve' : Nat → Resolver} {sc sc' : Scope} {bindings bindings' : Bindings}
  (h : ResolverFollows v l E R resolve resolve')
include h

theorem imp (hR : ∀ t t', R' t t' → R t t') : ResolverFollows v l E R' resolve resolve' :=
  ⟨h.mono, fun hb ht => h.type hb (hR _ _ ht)⟩

section Bound
variable (hb : E w bindings bindings')
include hb

theorem types {ts ts' : List TypeExpr} (hts : List.Forall₂ R ts ts') :
    Follows l w (ts.mapM (resolve bindings)) (fun n => ts'.mapM (resolve' n bindings'))
      fun w => List.Forall₂ w.rel :=
  .mapM monotone_rel hts fun _ hw _ _ ht => h.type (h.mono hw hb) ht

/-- A type parameter, by what it adds to the bindings. -/
theorem bindTypeParam (h' : ResolverFollows v l E' R' resolve resolve') {p p' : TypeParam TypeExpr}
    (hcons : ∀ {w' : Link v} {a b : NodeId}, E w' bindings bindings' → w'.rel a b →
      E' w' ((p.name, a) :: bindings) ((p'.name, b) :: bindings'))
    (hbound : Option.Rel R' p.bound p'.bound) (hfallback : Option.Rel R p.fallback p'.fallback)
    {arg arg' : Option NodeId} (harg : Option.Rel w.rel arg arg') :
    Follows l w (sc.bindTypeParam resolve bindings p arg)
      (fun n => sc'.bindTypeParam (resolve' n) bindings' p' arg') E' := by
  obtain ⟨name, bound, fallback, place⟩ := p
  obtain ⟨name', bound', fallback', place'⟩ := p'
  dsimp only at hcons hbound hfallback
  unfold Scope.bindTypeParam
  cases harg with
  | some hid => exact .pure (hcons hb hid)
  | none =>
      cases hfallback with
      | some ht =>
          exact (h.type hb ht).bind fun w₁ hw₁ a b hab => .pure (hcons (h.mono hw₁ hb) hab)
      | none =>
          refine (Follows.pushed _ _ (.parameter name name' .none)).bind fun w₁ hw₁ a b hab => ?_
          have hb₁ : E' w₁ ((name, a) :: bindings) ((name', b) :: bindings') :=
            hcons (h.mono hw₁ hb) hab.1
          cases hbound with
          | none => exact .pure hb₁
          | some ht =>
              refine (h'.type hb₁ ht).bind fun w₂ hw₂ c d hcd => ?_
              refine (Follows.setForm (Link.rel_mono hw₂ hab.1)
                (.parameter name name' (.some hcd)) rfl rfl ?_ ?_).bind fun w₃ hw₃ _ _ _ =>
                  .pure (h'.mono (hw₂.trans hw₃) hb₁)
              · rw [Link.Before.left hw₂ |>.combined (w₁.bounded hab.1).1, hab.2.1]
                rfl
              · rw [Link.Before.right hw₂ |>.combined (w₁.bounded hab.1).2, hab.2.2]
                rfl

theorem annotated {t t' : Option TypeExpr} (ht : Option.Rel R t t') :
    Follows l w (Scope.annotated resolve bindings t)
      (fun n => Scope.annotated (resolve' n) bindings' t') Link.rel := by
  cases ht with
  | none => exact .pure (w.likeness.shared (by decide))
  | some ht => exact h.type hb ht

theorem parameters {ps ps' : List (Param TypeExpr)}
    (hps : List.Forall₂ (Param.Alike R) ps ps') :
    Follows l w (Scope.parameters resolve bindings ps)
      (fun n => Scope.parameters (resolve' n) bindings' ps')
      fun w => List.Forall₂ (Parameter.Rel w.rel) := by
  refine .mapM (Q := fun w => Parameter.Rel w.rel) (fun _ _ _ _ hw hp => ?_)
    (List.rel_filter (R := Param.Alike R) (fun _ _ hp => by simp only [hp.name]) hps)
    fun w₁ hw₁ p p' hp => ?_
  · exact ⟨hp.name, Link.rel_mono hw hp.type, hp.optional⟩
  · exact (h.annotated (h.mono hw₁ hb) hp.typeExpr).bind fun w₂ hw₂ a b hab =>
      .pure ⟨hp.name, hab, hp.optional⟩

theorem property (name : String) {t t' : Option TypeExpr} (ht : Option.Rel R t t')
    (optional : Bool) (place place' : Place) :
    Follows l w (sc.property resolve bindings name t optional place)
      (fun n => sc'.property (resolve' n) bindings' name t' optional place')
      fun w => Property.Rel w.rel := by
  cases ht with
  | none => exact .pure ⟨rfl, .none, rfl, rfl⟩
  | some ht =>
      simp only [Scope.property_some]
      exact (h.type hb ht).bind fun w₁ hw₁ a b hab => .pure ⟨rfl, .some hab, rfl, rfl⟩

theorem addParent {a b : NodeId} (hab : w.rel a b) {t t' : TypeExpr} (ht : R t t') :
    Follows l w (TypeScript.addParent resolve bindings a t)
      (fun n => TypeScript.addParent (resolve' n) bindings' b t') fun _ _ _ => True := by
  refine (h.type hb ht).bind fun w₁ hw₁ base base' hbase => ?_
  have hchange : ∀ {r r'}, RecordType.Rel w₁.rel r r' →
      RecordType.Rel w₁.rel (Scope.withBase r base) (Scope.withBase r' base') :=
    fun hr => withBase_rel hr hbase
  refine (Follows.modifyRecord (Link.rel_mono hw₁ hab) hchange).bind fun w₂ hw₂ _ _ _ => ?_
  refine .get_bind ?_
  have hforms := w₂.likeness.forms (Link.rel_mono hw₂ hbase)
  generalize w₂.left.graph.form base = x at hforms ⊢
  generalize w₂.right.graph.form base' = y at hforms ⊢
  cases hforms with
  | record hr => exact .addNewProperties (Link.rel_mono (hw₁.trans hw₂) hab) hr.properties
  | _ => exact .pure trivial

/-- Interfaces whose declarations correspond, by their members and parents. -/
theorem interfaceOf {key key' : Instance} (hkey : SameKey w.rel key key')
    {S : InterfaceDecl → InterfaceDecl → Prop} {first first' : InterfaceDecl}
    {more more' : List InterfaceDecl} (hall : List.Forall₂ S (first :: more) (first' :: more'))
    (hmembers : ∀ {w' : Link v} {d d' : InterfaceDecl}, E w' bindings bindings' → S d d' →
      Follows l w' (d.members.mapM (sc.member resolve bindings))
        (fun n => d'.members.mapM (sc'.member (resolve' n) bindings'))
        fun w => List.Forall₂ (Property.Rel w.rel))
    (hparents : ∀ {d d' : InterfaceDecl}, S d d' → List.Forall₂ R d.parents d'.parents) :
    Follows l w (sc.interfaceType resolve bindings key first more)
      (fun n => sc'.interfaceType (resolve' n) bindings' key' first' more') Link.rel := by
  simp only [Scope.interfaceType_eq]
  refine (Follows.declaredRecord hkey first.place first'.place).bind fun w₁ hw₁ a b hab => ?_
  refine (Follows.forM hall fun w' hw' d d' hd => ?_).bind fun w₂ hw₂ _ _ _ => ?_
  · exact (hmembers (h.mono (hw₁.trans hw') hb) hd).bind fun _ hw'' _ _ hps =>
      .addNewProperties (Link.rel_mono (hw'.trans hw'') hab) hps
  refine (Follows.forM hall fun w' hw' d d' hd => ?_).bind fun w₃ hw₃ _ _ _ =>
    .pure (Link.rel_mono (hw₂.trans hw₃) hab)
  refine .forM (hparents hd) fun w'' hw'' t t' ht => ?_
  have hle := hw₂.trans (hw'.trans hw'')
  exact h.addParent (h.mono (hw₁.trans hle) hb) (Link.rel_mono hle hab) ht

theorem aliasedType (hrefl : ∀ symbol, v.symbol symbol symbol) {key key' : Instance}
    (hkey : SameKey w.rel key key') {t t' : TypeExpr} (ht : R t t') :
    Follows l w (TypeScript.aliasedType resolve bindings key t)
      (fun n => TypeScript.aliasedType (resolve' n) bindings' key' t') Link.rel := by
  refine .get_bind ?_
  rw [Sequences.contains_eq w.sameKey_injective w.remembered.pending hkey]
  split
  · refine (Follows.modify rfl rfl ⟨w.remembered.instances, w.remembered.framework,
      w.remembered.partials, w.remembered.classes, w.remembered.pending⟩).bind fun w₁ _ _ _ _ => ?_
    exact .pushUnresolved _ _ (hkey.1 ▸ hrefl _) none none
  · refine (Follows.modify rfl rfl { w.remembered with
      pending := .cons hkey w.remembered.pending }).bind fun w₁ hw₁ _ _ _ => ?_
    refine (h.type (h.mono hw₁ hb) ht).bind fun w₂ hw₂ a b hab => ?_
    have hkey₂ : SameKey w₂.rel key key' := hkey.mono fun _ _ => Link.rel_mono (hw₁.trans hw₂)
    refine (Follows.modify rfl rfl { w₂.remembered with
      pending := Sequences.erase_rel w₂.sameKey_injective w₂.remembered.pending hkey₂ }).bind
        fun w₃ hw₃ _ _ _ => ?_
    refine (Follows.remember (hkey₂.mono fun _ _ => Link.rel_mono hw₃)
      (Link.rel_mono hw₃ hab)).bind fun w₄ hw₄ _ _ _ => ?_
    exact .pure (Link.rel_mono (hw₃.trans hw₄) hab)

/-- Aliases of object types are records of their members. -/
theorem aliasRecord {key key' : Instance} (hkey : SameKey w.rel key key')
    {ms ms' : List (Member TypeExpr)}
    (hmembers : ∀ {w' : Link v}, E w' bindings bindings' →
      Follows l w' (ms.mapM (sc.member resolve bindings))
        (fun n => ms'.mapM (sc'.member (resolve' n) bindings'))
        fun w => List.Forall₂ (Property.Rel w.rel)) {d d' : AliasDecl} {place place' : Place}
    (hd : d.value = .object ms place) (hd' : d'.value = .object ms' place') :
    Follows l w (sc.aliasType resolve bindings key d)
      (fun n => sc'.aliasType (resolve' n) bindings' key' d') Link.rel := by
  unfold Scope.aliasType
  rw [hd, hd']
  refine (Follows.declaredRecord hkey d.place d'.place).bind fun w₁ hw₁ a b hab => ?_
  refine (hmembers (h.mono hw₁ hb)).bind fun w₂ hw₂ ps qs hs => ?_
  exact (Follows.addProperties (Link.rel_mono hw₂ hab) hs).bind fun w₃ hw₃ _ _ _ =>
    .pure (Link.rel_mono (hw₂.trans hw₃) hab)

theorem addField {a b : NodeId} (hab : w.rel a b) {f f' : Field} (hf : f.Alike R f') :
    Follows l w (sc.addField resolve bindings a f)
      (fun n => sc'.addField (resolve' n) bindings' b f') fun _ _ _ => True := by
  unfold Scope.addField
  rw [hf.isStatic, hf.hidden, hf.name, hf.optional]
  split
  · exact (h.property hb f'.name hf.typeExpr f'.optional f.place f'.place).bind
      fun w₁ hw₁ p q hp => .addProperties (Link.rel_mono hw₁ hab) (.cons hp .nil)
  · exact .pure trivial

/-- What a class extends that is not a name. -/
theorem baseOf {args args' : List TypeExpr} (hargs : List.Forall₂ R args args')
    (hrefl : ∀ symbol, v.symbol symbol symbol) (text text' : String) (place place' : Place) :
    Follows l w (sc.baseType resolve bindings ⟨.other text, args, place⟩)
      (fun n => sc'.baseType (resolve' n) bindings' ⟨.other text', args', place'⟩) Link.rel := by
  have hdiscard : Follows l w (discard (args.mapM (resolve bindings)))
      (fun n => discard (args'.mapM (resolve' n bindings'))) fun _ _ _ => True :=
    (h.types hb hargs).bind fun _ _ _ _ _ => .pure trivial
  exact hdiscard.bind fun _ _ _ _ _ => .pushUnresolved _ _ (hrefl none) _ _

/-- Classes whose bases and fields correspond. -/
theorem classOf {key key' : Instance} (hkey : SameKey w.rel key key') {d d' : ClassDecl}
    (hbases : ∀ {w' : Link v}, E w' bindings bindings' →
      Follows l w' (d.heritage.mapM (sc.baseType resolve bindings))
        (fun n => d'.heritage.mapM (sc'.baseType (resolve' n) bindings'))
        fun w => List.Forall₂ w.rel)
    (hfields : List.Forall₂ (Field.Alike R) d.fields d'.fields) :
    Follows l w (sc.classType resolve bindings key d)
      (fun n => sc'.classType (resolve' n) bindings' key' d') Link.rel := by
  simp only [Scope.classType_eq]
  refine (Follows.declaredRecord hkey d.place d'.place).bind fun w₁ hw₁ a b hab => ?_
  refine (hbases (h.mono hw₁ hb)).bind fun w₂ hw₂ as bs hs => ?_
  have hchange : ∀ {r r' : RecordType}, RecordType.Rel w₂.rel r r' →
      RecordType.Rel w₂.rel { r with bases := as } { r' with bases := bs } :=
    fun hr => withBases_rel hr hs
  refine (Follows.modifyRecord (Link.rel_mono hw₂ hab) hchange).bind fun w₃ hw₃ _ _ _ => ?_
  have hle := hw₂.trans hw₃
  refine (Follows.forM hfields fun w' hw' f f' hf => ?_).bind fun w₄ hw₄ _ _ _ =>
    .pure (Link.rel_mono (hle.trans hw₄) hab)
  exact h.addField (h.mono (hw₁.trans (hle.trans hw')) hb) (Link.rel_mono (hle.trans hw') hab) hf

end Bound

/-- Functions whose type parameters are bound alike. -/
theorem functionOf {c c' : Callable TypeExpr}
    (hbind : Follows l w (sc.bindTypeParams resolve bindings c.typeParams [])
      (fun n => sc'.bindTypeParams (resolve' n) bindings' c'.typeParams []) E)
    (hparams : List.Forall₂ (Param.Alike R) c.params c'.params)
    (hresult : Option.Rel R c.result c'.result) (place place' : Place) :
    Follows l w (sc.functionType resolve bindings c place)
      (fun n => sc'.functionType (resolve' n) bindings' c' place') Link.rel := by
  refine hbind.bind fun w₁ hw₁ b b' hb₁ => ?_
  refine (h.parameters hb₁ hparams).bind fun w₂ hw₂ ps ps' hps => ?_
  refine (h.annotated (h.mono hw₂ hb₁) hresult).bind fun w₃ hw₃ a a' ha => ?_
  refine .push _ _ (.function ⟨?_, ha, rfl⟩)
  exact hps.imp fun _ _ hp => ⟨hp.name, Link.rel_mono hw₃ hp.type, hp.optional⟩

end ResolverFollows

section Alike
variable {R : TypeExpr → TypeExpr → Prop} {resolve : Resolver} {resolve' : Nat → Resolver}
  {sc sc' : Scope} {bindings bindings' : Bindings}

namespace ResolverFollows
variable (h : ResolverFollows v l SameBindings R resolve resolve')
include h

theorem bindTypeParams {ps ps' : List (TypeParam TypeExpr)}
    (hps : List.Forall₂ (TypeParam.Alike v R) ps ps') {args args' : List NodeId}
    (hargs : List.Forall₂ w.rel args args') (hb : SameBindings w bindings bindings') :
    Follows l w (sc.bindTypeParams resolve bindings ps args)
      (fun n => sc'.bindTypeParams (resolve' n) bindings' ps' args') SameBindings := by
  induction hps generalizing w bindings bindings' args args' with
  | nil => exact .pure hb
  | cons hp _ ih =>
      refine Follows.bind (h.bindTypeParam hb h (fun hb hab => .cons ⟨hp.name, hab⟩ hb) hp.bound
        hp.fallback (Sequences.head?_rel hargs)) fun w₁ hw₁ b b' hb₁ => ih ?_ hb₁
      cases hargs with
      | nil => exact .nil
      | cons _ hrest => exact Link.rels_mono hw₁ hrest

theorem functionType (hb : SameBindings w bindings bindings') {c c' : Callable TypeExpr}
    (hc : c.Alike v R c') (place place' : Place) :
    Follows l w (sc.functionType resolve bindings c place)
      (fun n => sc'.functionType (resolve' n) bindings' c' place') Link.rel :=
  h.functionOf (h.bindTypeParams hc.typeParams .nil hb) hc.params hc.result place place'

theorem member (hb : SameBindings w bindings bindings') {m m' : Member TypeExpr}
    (hm : m.Alike v R m') :
    Follows l w (sc.member resolve bindings m) (fun n => sc'.member (resolve' n) bindings' m')
      fun w => Property.Rel w.rel := by
  cases hm with
  | property name optional place place' ht => exact h.property hb name ht optional place place'
  | method name optional place place' hc =>
      exact (h.functionType hb hc place place').bind fun w₁ hw₁ a b hab =>
        .pure ⟨rfl, .some hab, rfl, rfl⟩

theorem members (hb : SameBindings w bindings bindings') {ms ms' : List (Member TypeExpr)}
    (hms : List.Forall₂ (Member.Alike v R) ms ms') :
    Follows l w (ms.mapM (sc.member resolve bindings))
      (fun n => ms'.mapM (sc'.member (resolve' n) bindings'))
      fun w => List.Forall₂ (Property.Rel w.rel) :=
  .mapM monotone_property hms fun _ hw _ _ hm => h.member (hb.mono hw) hm

theorem interfaceType (hb : SameBindings w bindings bindings') {key key' : Instance}
    (hkey : SameKey w.rel key key') {first first' : InterfaceDecl} (hfirst : first.Alike v R first')
    {more more' : List InterfaceDecl} (hmore : List.Forall₂ (InterfaceDecl.Alike v R) more more') :
    Follows l w (sc.interfaceType resolve bindings key first more)
      (fun n => sc'.interfaceType (resolve' n) bindings' key' first' more') Link.rel :=
  h.interfaceOf hb hkey (.cons hfirst hmore) (fun hb hd => h.members hb hd.members)
    fun hd => hd.parents

/-- An alias of an object type is a record, and any other one its value. -/
theorem aliasType (hrefl : ∀ symbol, v.symbol symbol symbol)
    (hb : SameBindings w bindings bindings') {key key' : Instance}
    (hkey : SameKey w.rel key key') {d d' : AliasDecl} (hd : d.Alike v R d') :
    Follows l w (sc.aliasType resolve bindings key d)
      (fun n => sc'.aliasType (resolve' n) bindings' key' d') Link.rel := by
  obtain ⟨name, typeParams, value, place⟩ := d
  obtain ⟨name', typeParams', value', place'⟩ := d'
  have hvalue : AliasValue.Alike v R value value' := hd.value
  cases hvalue with
  | object place₁ place₁' hms => exact h.aliasRecord hb hkey (fun hb => h.members hb hms) rfl rfl
  | other ht hne hne' =>
      have hleft : ∀ ms at', (AliasDecl.mk name typeParams value place).value ≠ .object ms at' := hne
      have hright : ∀ ms at', (AliasDecl.mk name' typeParams' value' place').value ≠ .object ms at' :=
        hne'
      simp only [Scope.aliasType_eq_aliasedType hleft, Scope.aliasType_eq_aliasedType hright]
      exact h.aliasedType hb hrefl hkey ht

end ResolverFollows

namespace ResolverFollows
variable (h : ResolverFollows v l SameBindings (TypeExpr.Alike v) resolve resolve')
  (hsc : sc.Alike v sc')
include h hsc

theorem baseType (hb : SameBindings w bindings bindings') {x x' : Heritage}
    (hx : x.Alike v (TypeExpr.Alike v) x') :
    Follows l w (sc.baseType resolve bindings x) (fun n => sc'.baseType (resolve' n) bindings' x')
      Link.rel := by
  obtain ⟨name, args, place⟩ := x
  obtain ⟨name', args', place'⟩ := x'
  obtain ⟨hname, hargs⟩ := hx
  dsimp only at hname hargs
  cases hname with
  | simple hn =>
      exact h.type hb (.of_matches fun _ => .simple place place' hn (hargs.imp fun _ _ ht => ht _))
  | dotted hn =>
      exact h.type hb (.of_matches fun _ => .dotted place place' hn (hargs.imp fun _ _ ht => ht _))
  | other text text' => exact h.baseOf hb hargs hsc.symbols text text' place place'

theorem bases (hb : SameBindings w bindings bindings') {xs xs' : List Heritage}
    (hxs : List.Forall₂ (Heritage.Alike v (TypeExpr.Alike v)) xs xs') :
    Follows l w (xs.mapM (sc.baseType resolve bindings))
      (fun n => xs'.mapM (sc'.baseType (resolve' n) bindings')) fun w => List.Forall₂ w.rel :=
  .mapM monotone_rel hxs fun _ hw _ _ hx => h.baseType hsc (hb.mono hw) hx

theorem newType {key key' : Instance} (hkey : SameKey w.rel key key') {named named' : Named}
    (hn : named.Alike v (TypeExpr.Alike v) named') :
    Follows l w (sc.newType resolve key named) (fun n => sc'.newType (resolve' n) key' named')
      Link.rel := by
  have hbind : ∀ {ps ps' : List (TypeParam TypeExpr)},
      List.Forall₂ (TypeParam.Alike v (TypeExpr.Alike v)) ps ps' →
      Follows l w (sc.bindTypeParams resolve [] ps key.2)
        (fun n => sc'.bindTypeParams (resolve' n) [] ps' key'.2) SameBindings :=
    fun hps => h.bindTypeParams hps hkey.2 .nil
  have hkey' : ∀ {w' : Link v}, w ≤ w' → SameKey w'.rel key key' :=
    fun hw => hkey.mono fun _ _ => Link.rel_mono hw
  cases hn with
  | interfaces hfirst hmore =>
      exact (hbind hfirst.typeParams).bind fun w₁ hw₁ _ _ hb =>
        h.interfaceType hb (hkey' hw₁) hfirst hmore
  | aliases hfirst _ =>
      exact (hbind hfirst.typeParams).bind fun w₁ hw₁ _ _ hb =>
        h.aliasType hsc.symbols hb (hkey' hw₁) hfirst
  | classes hfirst _ =>
      exact (hbind hfirst.decl.typeParams).bind fun w₁ hw₁ _ _ hb =>
        h.classOf hb (hkey' hw₁) (fun hb => h.bases hsc hb hfirst.decl.heritage) hfirst.decl.fields
  | enums hfirst hmore => exact .newEnum hsc.symbols hkey hfirst hmore resolve resolve'

theorem nameType (hb : SameBindings w bindings bindings') {name name' : String}
    (hname : v.name name name') {args args' : List NodeId} (hargs : List.Forall₂ w.rel args args')
    (place place' : Option Place) :
    Follows l w (sc.nameType resolve bindings name args place)
      (fun n => sc'.nameType (resolve' n) bindings' name' args' place') Link.rel := by
  have hbound := Sequences.lookup_rel hsc.names hb hname
  have hdeclared := hsc.declared hname
  have himported := hsc.imported hname
  have hunknown := hsc.unknown hname
  unfold Scope.nameType
  generalize bindings.lookup name = x at hbound ⊢
  generalize bindings'.lookup name' = x' at hbound ⊢
  generalize sc.find? name = y at hdeclared himported hunknown ⊢
  generalize sc'.find? name' = y' at hdeclared ⊢
  cases hbound with
  | some hab => exact .pure hab
  | none =>
      cases hdeclared with
      | some same hn =>
          have hkey : SameKey w.rel (name, args) (name', args') := ⟨same, hargs⟩
          exact .declaredType hkey (h.newType hsc hkey hn)
      | none =>
          dsimp only
          rw [himported rfl] at hunknown ⊢
          generalize sc'.imported.lookup name' = z at hunknown ⊢
          cases z with
          | some symbol => exact .frameworkType symbol hargs
          | none =>
              obtain rfl | ⟨hne, hne', hsymbol⟩ := hunknown rfl rfl
              · exact .builtinName hsc.symbols name hargs _ _
              · simp only [primitive?_eq_none hne, primitive?_eq_none hne',
                  builtinType?_eq_none hne, builtinType?_eq_none hne', Option.getD_none]
                exact .pushUnresolved _ _ hsymbol _ _

end ResolverFollows

end Alike

end PropSchema.TypeScript
