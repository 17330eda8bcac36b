import PropSchema.Proofs.TypeScript.ExportsAlike
import PropSchema.Proofs.TypeScript.Finishing
import PropSchema.Proofs.TypeScript.Respelling
/-!
Hygiene of type parameters. Of two spellings of the chosen parameters of a module, each resolves as
the other does, if neither can be mistaken for another name and the parameters reach as far as
resolution takes them to. Whether the old name means a chosen parameter is told as bindings are
made: it does from where one is bound until another parameter of the name is.
-/
namespace PropSchema.TypeScript

open Filter Resolve
variable {v : Variation} {l : Filter Nat} {w w' : Link v}

namespace Respelling
variable (ρ : Respelling) (new new' : String)

/-- A name that cannot be mistaken for that of the chosen parameters. -/
def Clear (name : String) : Prop := new = ρ.old ∨ name ≠ new

/-- None of the names that are used can be mistaken for either of two spellings. -/
def Apart (uses : List TypeName) : Prop :=
  ∀ name, .simple name ∈ uses → ρ.Clear new name ∧ ρ.Clear new' name

/-- The two spellings of a type. -/
inductive Spellings (inside : Bool) : TypeExpr → TypeExpr → Prop
  | mk (t : TypeExpr) (h : ρ.Apart new new' t.uses) :
      Spellings inside (t.respell ρ new inside) (t.respell ρ new' inside)

/-- Bindings that give the same to the two spellings of each name; where the old name means a chosen
parameter, one is bound. -/
structure BoundAlike (inside : Bool) (w : Link v) (bindings bindings' : Bindings) : Prop where
  lookup : ∀ {name : String}, ρ.Clear new name → ρ.Clear new' name →
    Option.Rel w.rel (bindings.lookup (ρ.spell new inside name))
      (bindings'.lookup (ρ.spell new' inside name))
  meant : inside = true → (bindings.lookup (ρ.spell new inside ρ.old)).isSome

variable {ρ new new'}

theorem Apart.append {us us' : List TypeName} (h : ρ.Apart new new' (us ++ us')) :
    ρ.Apart new new' us ∧ ρ.Apart new new' us' :=
  ⟨fun name hn => h name (List.mem_append_left _ hn),
    fun name hn => h name (List.mem_append_right _ hn)⟩

theorem Apart.simple {name : String} {uses : List TypeName}
    (h : ρ.Apart new new' (.simple name :: uses)) :
    (ρ.Clear new name ∧ ρ.Clear new' name) ∧ ρ.Apart new new' uses :=
  ⟨h name List.mem_cons_self, fun name hn => h name (List.mem_cons_of_mem _ hn)⟩

theorem clear_old : ρ.Clear new ρ.old := (em (new = ρ.old)).imp_right fun hne => Ne.symm hne

/-- Different names stay different. -/
theorem spell_injective {inside : Bool} {a b : String} (ha : ρ.Clear new a) (hb : ρ.Clear new b) :
    ρ.spell new inside a = ρ.spell new inside b ↔ a = b := by
  refine ⟨fun h => ?_, congrArg _⟩
  unfold spell at h
  unfold Clear at ha hb
  grind

theorem spell_of_ne {inside : Bool} {name : String} (h : name ≠ ρ.old) :
    ρ.spell new inside name = name :=
  if_neg fun hn => h hn.2

/-- What a name is bound to once another parameter is. -/
theorem lookup_cons_spell {bindings : Bindings} {inside : Bool} {param name : String}
    {place : Place} (hparam : ρ.Clear new param) (hname : ρ.Clear new name) (id : NodeId) :
    List.lookup (ρ.spell new (ρ.after inside param place) name)
        ((ρ.spell new (ρ.after inside param place) param, id) :: bindings) =
      if name = param then some id else bindings.lookup (ρ.spell new inside name) := by
  rw [List.lookup_cons]
  by_cases h : name = param
  · rw [if_pos h, h, beq_self_eq_true]
  · have hne : ρ.spell new (ρ.after inside param place) name ≠
        ρ.spell new (ρ.after inside param place) param := mt (spell_injective hname hparam).mp h
    rw [if_neg h, beq_false_of_ne hne]
    -- the parameter matters only to the old name, which it then is not
    by_cases hold : param = ρ.old
    · have hother : name ≠ ρ.old := fun he => h (he.trans hold.symm)
      rw [spell_of_ne hother, spell_of_ne hother]
    · rw [after, if_neg hold]

namespace BoundAlike
variable {inside : Bool} {bindings bindings' : Bindings}

theorem nil : ρ.BoundAlike new new' false w [] [] := ⟨fun _ _ => .none, nofun⟩

theorem mono (hw : w ≤ w') (h : ρ.BoundAlike new new' inside w bindings bindings') :
    ρ.BoundAlike new new' inside w' bindings bindings' :=
  ⟨fun hname hname' =>
    Sequences.optionRel_imp (fun _ _ => Link.rel_mono hw) (h.lookup hname hname'), h.meant⟩

theorem cons (h : ρ.BoundAlike new new' inside w bindings bindings') {param : String}
    (hparam : ρ.Clear new param ∧ ρ.Clear new' param) (place : Place) {a b : NodeId}
    (hab : w.rel a b) :
    ρ.BoundAlike new new' (ρ.after inside param place) w
      ((ρ.spell new (ρ.after inside param place) param, a) :: bindings)
      ((ρ.spell new' (ρ.after inside param place) param, b) :: bindings') := by
  refine ⟨fun {name} hname hname' => ?_, fun hinside => ?_⟩
  · rw [lookup_cons_spell hparam.1 hname, lookup_cons_spell hparam.2 hname']
    split
    · exact .some hab
    · exact h.lookup hname hname'
  · rw [lookup_cons_spell hparam.1 clear_old]
    split
    · rfl
    · next hne =>
        rw [after, if_neg (Ne.symm hne)] at hinside
        exact h.meant hinside

/-- A name that is not bound means no parameter, so it has but one spelling. -/
theorem spell_of_unbound (h : ρ.BoundAlike new new' inside w bindings bindings') {name : String}
    (hnone : bindings.lookup (ρ.spell new inside name) = none) :
    ρ.spell new inside name = name ∧ ρ.spell new' inside name = name := by
  by_cases hmeant : inside = true ∧ name = ρ.old
  · have hsome := h.meant hmeant.1
    rw [← hmeant.2, hnone] at hsome
    cases hsome
  · exact ⟨if_neg hmeant, if_neg hmeant⟩

end BoundAlike

theorem types_spellings {inside : Bool} {ts : List TypeExpr}
    (h : ρ.Apart new new' (usesOfTypes ts)) :
    List.Forall₂ (ρ.Spellings new new' inside) (respellTypes ρ new inside ts)
      (respellTypes ρ new' inside ts) := by
  induction ts with
  | nil => exact .nil
  | cons t ts ih =>
      rw [usesOfTypes] at h
      exact .cons (.mk t h.append.1) (ih h.append.2)

theorem optional_spellings {inside : Bool} {t : Option TypeExpr}
    (h : ρ.Apart new new' (usesOfOptional t)) :
    Option.Rel (ρ.Spellings new new' inside) (respellOptional ρ new inside t)
      (respellOptional ρ new' inside t) := by
  cases t with
  | none => exact .none
  | some t => exact .some (.mk t h)

theorem params_spellings {inside : Bool} {ps : List (Param TypeExpr)}
    (h : ρ.Apart new new' (usesOfParams ps)) :
    List.Forall₂ (Param.Alike (ρ.Spellings new new' inside)) (respellParams ρ new inside ps)
      (respellParams ρ new' inside ps) := by
  induction ps with
  | nil => exact .nil
  | cons p ps ih =>
      rw [usesOfParams] at h
      obtain ⟨name, typeExpr, optional⟩ := p
      exact .cons ⟨rfl, optional_spellings h.append.1, rfl⟩ (ih h.append.2)

theorem fields_spellings {fs : List Field}
    (hfs : ρ.Apart new new' (fs.flatMap fun f => usesOfOptional f.typeExpr)) :
    List.Forall₂ (Field.Alike (ρ.Spellings new new' inside)) (fs.map (Field.respell ρ new inside))
      (fs.map (Field.respell ρ new' inside)) := by
  induction fs with
  | nil => exact .nil
  | cons f fs ih =>
      rw [List.flatMap_cons] at hfs
      exact .cons ⟨rfl, optional_spellings hfs.append.1, rfl, rfl, rfl⟩ (ih hfs.append.2)

end Respelling

/-- In both spellings of a module the resolvers of one follow those of the other, whether or not the
old name means a chosen parameter. -/
def Respelling.Follow (ρ : Respelling) (new new' : String) (v : Variation) (l : Filter Nat)
    (resolve : Resolver) (resolve' : Nat → Resolver) : Prop :=
  ∀ inside, ResolverFollows v l (ρ.BoundAlike new new' inside) (ρ.Spellings new new' inside) resolve
    resolve'

namespace Respelling.Follow
variable {ρ : Respelling} {new new' : String} {resolve : Resolver} {resolve' : Nat → Resolver}
  {sc sc' : Scope} {inside : Bool} {bindings bindings' : Bindings}
  (h : ρ.Follow new new' v l resolve resolve') (hreach : ρ.reach = .resolved)
include hreach

theorem seen_eq (lexical resolved : Bool) : ρ.seen lexical resolved = resolved := by
  rw [seen, hreach]

include h

theorem bindTypeParams {ps : List (TypeParam TypeExpr)}
    (hps : ρ.Apart new new' (usesOfTypeParams ps)) (all : Bool) {args args' : List NodeId}
    (hargs : List.Forall₂ w.rel args args')
    (hb : ρ.BoundAlike new new' inside w bindings bindings') :
    Follows l w (sc.bindTypeParams resolve bindings (respellTypeParams ρ new all inside ps) args)
      (fun n => sc'.bindTypeParams (resolve' n) bindings' (respellTypeParams ρ new' all inside ps)
        args') (ρ.BoundAlike new new' (ρ.afterAll inside ps)) := by
  induction ps generalizing w inside bindings bindings' args args' with
  | nil => exact .pure hb
  | cons p ps ih =>
      obtain ⟨name, bound, fallback, place⟩ := p
      rw [usesOfTypeParams, usesOfTypeParam, List.cons_append] at hps
      obtain ⟨hname, hrest⟩ := hps.simple
      obtain ⟨hparts, hps⟩ := hrest.append
      simp only [respellTypeParams, respellTypeParam, seen_eq hreach]
      refine Follows.bind ((h inside).bindTypeParam hb (h (ρ.after inside name place))
        (fun hb hab => hb.cons hname place hab) (optional_spellings hparts.append.1)
        (optional_spellings hparts.append.2) (Sequences.head?_rel hargs))
        fun w₁ hw₁ b b' hb₁ => ih hps ?_ hb₁
      cases hargs with
      | nil => exact .nil
      | cons _ hrest => exact Link.rels_mono hw₁ hrest

theorem functionType {c : Callable TypeExpr} (hc : ρ.Apart new new' (usesOfCallable c))
    (hb : ρ.BoundAlike new new' inside w bindings bindings') (place : Place) :
    Follows l w (sc.functionType resolve bindings (respellCallable ρ new inside c) place)
      (fun n => sc'.functionType (resolve' n) bindings' (respellCallable ρ new' inside c) place)
      Link.rel := by
  obtain ⟨typeParams, params, result⟩ := c
  rw [usesOfCallable] at hc
  obtain ⟨htypeParams, hrest⟩ := hc.append
  simp only [respellCallable]
  exact (h (ρ.afterAll inside typeParams)).functionOf
    (h.bindTypeParams hreach htypeParams _ .nil hb) (params_spellings hrest.append.1)
    (optional_spellings hrest.append.2) place place

theorem member {m : Member TypeExpr} (hm : ρ.Apart new new' (usesOfMember m))
    (hb : ρ.BoundAlike new new' inside w bindings bindings') :
    Follows l w (sc.member resolve bindings (respellMember ρ new inside m))
      (fun n => sc'.member (resolve' n) bindings' (respellMember ρ new' inside m))
      fun w => Property.Rel w.rel := by
  cases m with
  | property name t optional place =>
      exact (h inside).property hb name (optional_spellings hm) optional place place
  | method name c optional place =>
      exact (h.functionType hreach hm hb place).bind fun _ _ _ _ hab =>
        .pure ⟨rfl, .some hab, rfl, rfl⟩

theorem members {ms : List (Member TypeExpr)} (hms : ρ.Apart new new' (usesOfMembers ms))
    (hb : ρ.BoundAlike new new' inside w bindings bindings') :
    Follows l w ((respellMembers ρ new inside ms).mapM (sc.member resolve bindings))
      (fun n => (respellMembers ρ new' inside ms).mapM (sc'.member (resolve' n) bindings'))
      fun w => List.Forall₂ (Property.Rel w.rel) := by
  induction ms generalizing w with
  | nil => exact .pure .nil
  | cons m ms ih =>
      rw [usesOfMembers] at hms
      simp only [respellMembers, List.mapM_cons]
      refine (h.member hreach hms.append.1 hb).bind fun w₁ hw₁ p q hp => ?_
      exact (ih hms.append.2 (hb.mono hw₁)).bind fun w₂ hw₂ _ _ hs =>
        .pure (.cons (monotone_property p q hw₂ hp) hs)

theorem bases (hrefl : ∀ symbol, v.symbol symbol symbol) {xs : List Heritage}
    (hxs : ρ.Apart new new' (xs.flatMap Heritage.uses))
    (hb : ρ.BoundAlike new new' inside w bindings bindings') :
    Follows l w ((xs.map (Heritage.respell ρ new inside)).mapM (sc.baseType resolve bindings))
      (fun n =>
        (xs.map (Heritage.respell ρ new' inside)).mapM (sc'.baseType (resolve' n) bindings'))
      fun w => List.Forall₂ w.rel := by
  induction xs generalizing w with
  | nil => exact .pure .nil
  | cons x xs ih =>
      rw [List.flatMap_cons] at hxs
      have hbase : Follows l w (sc.baseType resolve bindings (x.respell ρ new inside))
          (fun n => sc'.baseType (resolve' n) bindings' (x.respell ρ new' inside)) Link.rel := by
        obtain ⟨name, args, place⟩ := x
        have hx := hxs.append.1
        cases name with
        | simple name =>
            simp only [Heritage.respell, baseName, seen_eq hreach]
            exact (h inside).type hb (.mk (.reference (.simple name) args place) hx)
        | dotted name => exact (h inside).type hb (.mk (.reference (.dotted name) args place) hx)
        | other text =>
            exact (h inside).baseOf hb (types_spellings hx) hrefl text text place place
      simp only [List.map_cons, List.mapM_cons]
      refine hbase.bind fun w₁ hw₁ a b hab => ?_
      exact (ih hxs.append.2 (hb.mono hw₁)).bind fun w₂ hw₂ _ _ hs =>
        .pure (.cons (Link.rel_mono hw₂ hab) hs)

end Respelling.Follow

/-- Nothing is told of symbols, and positions stay. -/
structure Variation.Stays (v : Variation) : Prop where
  symbol : ∀ symbol, v.symbol symbol symbol
  position : ∀ {p q : Nat}, v.position p q ↔ p = q

/-- Whether the old name means a chosen parameter in all of several declarations of an interface or
in none. -/
def Respelling.agrees (ρ : Respelling) : Named → Bool
  | .interfaces first more => more.all fun d =>
    ρ.afterAll false d.typeParams == ρ.afterAll false first.typeParams
  | _ => true

/-- A module that can be spelled in either way: its parameters reach as far as resolution takes them
to, no other name is mistaken for theirs, and declarations that are merged agree. -/
structure Module.Respellable (m : Module) (ρ : Respelling) (new new' : String) : Prop where
  reach : ρ.reach = .resolved
  apart : ∀ d ∈ m.declarations, ρ.Apart new new' d.uses
  merged : (Scope.ofModule m).declared.all fun e => ρ.agrees e.2

/-- What a declaration uses is used in the module. -/
theorem Module.uses_of_mem_declarations {m : Module} {d : Declaration} (hd : d ∈ m.declarations)
    {use : TypeName} (hu : use ∈ d.uses) : use ∈ m.uses := by
  obtain ⟨s, hs, hdeclaration⟩ := List.mem_filterMap.mp hd
  refine List.mem_flatMap.mpr ⟨s, hs, ?_⟩
  cases s <;> cases hdeclaration <;> exact hu

namespace Respelling.Follow
variable {ρ : Respelling} {new new' : String} {resolve : Resolver} {resolve' : Nat → Resolver}
  {inside : Bool} {bindings bindings' : Bindings} {m : Module}
  (h : ρ.Follow new new' v l resolve resolve') (hm : m.Respellable ρ new new') (hv : v.Stays)
include h hm hv

omit hm in
/-- An alias that is no record stands for its value. -/
theorem aliasedType {d : AliasDecl} (hd : ρ.Apart new new' d.value.uses)
    (hb : ρ.BoundAlike new new' (ρ.afterAll false d.typeParams) w bindings bindings')
    {key key' : Instance} (hkey : SameKey w.rel key key')
    (hne : ∀ ms place, d.value ≠ .object ms place) (sc sc' : Scope) :
    Follows l w (sc.aliasType resolve bindings key (d.respell ρ new))
      (fun n => sc'.aliasType (resolve' n) bindings' key' (d.respell ρ new')) Link.rel := by
  have hspelled : ∀ new ms place, (d.respell ρ new).value ≠ .object ms place :=
    fun _ => TypeExpr.respell_ne_object hne
  simp only [Scope.aliasType_eq_aliasedType (hspelled new),
    Scope.aliasType_eq_aliasedType (hspelled new')]
  exact (h _).aliasedType hb hv.symbol hkey (.mk d.value hd)

theorem newType {name : String} {named : Named} (hf : (Scope.ofModule m).find? name = some named)
    {key key' : Instance} (hkey : SameKey w.rel key key') {sc sc' : Scope} :
    Follows l w (sc.newType resolve key (named.respell ρ new))
      (fun n => sc'.newType (resolve' n) key' (named.respell ρ new')) Link.rel := by
  have happart : ∀ d ∈ named.declarations, ρ.Apart new new' d.uses := fun d hd =>
    hm.apart d (m.within.declared _ (Entries.mem_of_lookup hf) d hd)
  have hkey' : ∀ {w' : Link v}, w ≤ w' → SameKey w'.rel key key' :=
    fun hw => hkey.mono fun _ _ => Link.rel_mono hw
  cases named with
  | interfaces first more =>
      have hall : ∀ d ∈ first :: more, ρ.Apart new new' (Declaration.interfaceDecl d).uses ∧
          ρ.afterAll false d.typeParams = ρ.afterAll false first.typeParams := by
        have hagree := List.all_eq_true.mp hm.merged _ (Entries.mem_of_lookup hf)
        refine fun d hd => ⟨happart _ (List.mem_map_of_mem hd), ?_⟩
        obtain rfl | hd := List.mem_cons.mp hd
        · rfl
        · exact beq_iff_eq.mp (List.all_eq_true.mp hagree d hd)
      have hspelled : List.Forall₂
          (fun d d' => ∃ s ∈ first :: more, d = s.respell ρ new ∧ d' = s.respell ρ new')
          ((first :: more).map (InterfaceDecl.respell ρ new))
          ((first :: more).map (InterfaceDecl.respell ρ new')) :=
        List.forall₂_map_left_iff.mpr (List.forall₂_map_right_iff.mpr
          (List.forall₂_same.mpr fun d hd => ⟨d, hd, rfl, rfl⟩))
      have hparams := (hall first List.mem_cons_self).1.append.1
      refine (h.bindTypeParams hm.reach hparams _ hkey.2 .nil).bind fun w₁ hw₁ _ _ hb => ?_
      refine (h _).interfaceOf hb (hkey' hw₁) hspelled ?_ ?_
      · rintro w₂ _ _ hb ⟨s, hs, rfl, rfl⟩
        simp only [InterfaceDecl.respell, (hall s hs).2]
        exact h.members hm.reach (hall s hs).1.append.2.append.2 hb
      · rintro _ _ ⟨s, hs, rfl, rfl⟩
        simp only [InterfaceDecl.respell, (hall s hs).2]
        exact types_spellings (hall s hs).1.append.2.append.1
  | aliases first more =>
      have hfirst := happart _ List.mem_cons_self
      refine (h.bindTypeParams hm.reach hfirst.append.1 _ hkey.2 .nil).bind fun w₁ hw₁ _ _ hb => ?_
      obtain ⟨name, typeParams, value, place⟩ := first
      by_cases hobject : ∃ ms at', value = .object ms at'
      · obtain ⟨ms, at', rfl⟩ := hobject
        exact (h _).aliasRecord hb (hkey' hw₁)
          (fun hb => h.members hm.reach hfirst.append.2 hb) rfl rfl
      · exact h.aliasedType hv hfirst.append.2 hb (hkey' hw₁)
          (fun ms at' he => hobject ⟨ms, at', he⟩) sc sc'
  | classes first more =>
      have hfirst := happart _ List.mem_cons_self
      have hrest := hfirst.append.2
      refine (h.bindTypeParams hm.reach hfirst.append.1 _ hkey.2 .nil).bind fun w₁ hw₁ _ _ hb => ?_
      exact (h _).classOf hb (hkey' hw₁) (fun hb => h.bases hm.reach hv.symbol hrest.append.1 hb)
        (fields_spellings hrest.append.2)
  | enums first more =>
      have hsame : ∀ d : EnumDecl, d.Alike d := fun d => List.forall₂_same.mpr fun _ _ => rfl
      exact .newEnum hv.symbol hkey (hsame first) (List.forall₂_same.mpr fun d _ => hsame d) _ _

/-- A name that is bound to a parameter, or declared, or known without. -/
theorem nameType (hb : ρ.BoundAlike new new' inside w bindings bindings') {name : String}
    (hname : ρ.Clear new name ∧ ρ.Clear new' name) {args args' : List NodeId}
    (hargs : List.Forall₂ w.rel args args') (place : Place) :
    Follows l w ((Scope.ofModule (m.respell ρ new)).nameType resolve bindings
        (ρ.spell new inside name) args (some place))
      (fun n => (Scope.ofModule (m.respell ρ new')).nameType (resolve' n) bindings'
        (ρ.spell new' inside name) args' (some place)) Link.rel := by
  have hbound := hb.lookup hname.1 hname.2
  have hfree : bindings.lookup (ρ.spell new inside name) = none →
      ρ.spell new inside name = name ∧ ρ.spell new' inside name = name := hb.spell_of_unbound
  unfold Scope.nameType
  generalize bindings.lookup (ρ.spell new inside name) = x at hbound hfree ⊢
  generalize bindings'.lookup (ρ.spell new' inside name) = y at hbound ⊢
  cases hbound with
  | some hab => exact .pure hab
  | none =>
      obtain ⟨hspell, hspell'⟩ := hfree rfl
      rw [hspell, hspell', m.find?_respell, m.find?_respell, m.imported_respell,
        m.imported_respell]
      cases hf : (Scope.ofModule m).find? name with
      | some named =>
          have hkey : SameKey w.rel (name, args) (name, args') := ⟨rfl, hargs⟩
          exact .declaredType hkey (h.newType hm hv hf hkey)
      | none =>
          dsimp only [Option.map_none]
          cases (Scope.ofModule m).imported.lookup name with
          | some symbol => exact .frameworkType symbol hargs
          | none => exact .builtinName hv.symbol name hargs _ _

theorem typeOf (hb : ρ.BoundAlike new new' inside w bindings bindings') {t : TypeExpr}
    (ht : ρ.Apart new new' t.uses) :
    Follows l w ((Scope.ofModule (m.respell ρ new)).typeOf resolve bindings
        (t.respell ρ new inside))
      (fun n => (Scope.ofModule (m.respell ρ new')).typeOf (resolve' n) bindings'
        (t.respell ρ new' inside)) Link.rel := by
  have htypes : ∀ {ts}, ρ.Apart new new' (usesOfTypes ts) →
      Follows l w ((respellTypes ρ new inside ts).mapM (resolve bindings))
        (fun n => (respellTypes ρ new' inside ts).mapM (resolve' n bindings'))
        fun w => List.Forall₂ w.rel := fun hts => (h inside).types hb (types_spellings hts)
  cases t with
  | reference name args place =>
      cases name with
      | simple name =>
          exact (htypes ht.simple.2).bind fun w₁ hw₁ _ _ hs =>
            h.nameType hm hv (hb.mono hw₁) ht.simple.1 hs place
      | dotted name =>
          have hargs : ρ.Apart new new' (usesOfTypes args) :=
            fun name hn => ht name (List.mem_cons_of_mem _ hn)
          refine (htypes hargs).bind fun w₁ hw₁ _ _ hs => .qualifiedType ?_ hs place place
          cases hq : (Scope.ofModule m).isFramework (qualifiedParts name.text).1 with
          | true =>
              exact .framework ((m.isFramework_respell ρ new _).trans hq)
                ((m.isFramework_respell ρ new' _).trans hq) rfl
          | false =>
              exact .unresolved ((m.isFramework_respell ρ new _).trans hq)
                ((m.isFramework_respell ρ new' _).trans hq) (hv.symbol _)
  | keyword word place => exact .keywordType hv.symbol word place place
  | null => exact .pure (w.likeness.shared (by decide))
  | undefined => exact .pure (w.likeness.shared (by decide))
  | predicate => exact .pure (w.likeness.shared (by decide))
  | assertion => exact .pure (w.likeness.shared (by decide))
  | string value place => exact .push _ _ (.literal _)
  | boolean value place => exact .push _ _ (.literal _)
  | number text place => exact .numberType hv.symbol text place place
  | object ms place =>
      exact (h.members hm.reach ht hb).bind fun w₁ hw₁ _ _ hs =>
        .push _ _ (.record ⟨rfl, hs, rfl, .nil, .nil⟩)
  | array t place =>
      exact ((h inside).type hb (.mk t ht)).bind fun w₁ hw₁ _ _ hab => .push _ _ (.array hab)
  | tuple ts place => exact (htypes ht).bind fun w₁ hw₁ _ _ hs => .push _ _ (.tuple hs)
  | union ts place =>
      exact (htypes ht).bind fun w₁ hw₁ _ _ hs => .unionOf _ _ (w₁.likeness.leaves_rel hs)
  | intersection ts place =>
      exact (htypes ht).bind fun w₁ hw₁ _ _ hs =>
        .push _ _ (.intersection ⟨_, _, .refl _, .refl _, hs⟩)
  | function c place => exact h.functionType hm.reach ht hb place
  | parenthesized t => exact (h inside).type hb (.mk t ht)
  | readonly t => exact (h inside).type hb (.mk t ht)
  | other text place => exact .pushUnresolved _ _ (hv.symbol none) _ _

end Respelling.Follow

section Modules
variable {ρ : Respelling} {new new' : String} {m : Module} (hm : m.Respellable ρ new new')
  (hv : v.Stays)
include hm hv

/-- To any depth the one spelling of a type resolves as the other does. -/
theorem Scope.resolveTo_follow (depth : Nat) : ρ.Follow new new' v (v.deep depth)
    ((Scope.ofModule (m.respell ρ new)).resolveTo depth)
    (Scope.ofModule (m.respell ρ new')).resolveTo := by
  induction depth with
  | zero => exact fun inside => ⟨fun hw hb => hb.mono hw, fun _ _ => .fail _ _⟩
  | succ depth ih =>
      refine fun inside => ⟨fun hw hb => hb.mono hw, fun hb hs => ?_⟩
      obtain ⟨t, ht⟩ := hs
      exact resolveTo_succ_follows (ih.typeOf hm hv hb ht)

namespace Source

/-- The source of one spelling of a module. -/
def spelled (ρ : Respelling) (m : Module) (new : String) (depth : Nat) : Source :=
  ⟨m.respell ρ new, .ofModule (m.respell ρ new), depth⟩

theorem classNode_follow (site : ClassSite) (hsite : .classDecl site.decl ∈ m.declarations)
    (name : String) (depth : Nat) :
    Follows (v.deep depth) w ((spelled ρ m new depth).classNode (site.respell ρ new) name)
      (fun depth => (spelled ρ m new' depth).classNode (site.respell ρ new') name) Link.rel := by
  have huses := hm.apart _ hsite
  have hfollow := Scope.resolveTo_follow hm hv depth
  refine classNode_of_bases (spelled ρ m new depth) (spelled ρ m new' depth) (site.respell ρ new)
    (site.respell ρ new') (fun hp hq => ?_) (hv.position.mpr rfl) name ?_
    fun hb => hfollow.bases hm.reach hv.symbol huses.append.2.append.1 hb
  · rw [hv.position.mp hp, hv.position.mp hq]
  · exact hfollow.bindTypeParams hm.reach huses.append.1 _ .nil .nil

theorem classesNamed_follow (name : String) (depth : Nat) :
    Follows (v.deep depth) w ((spelled ρ m new depth).classesNamed name)
      (fun depth => (spelled ρ m new' depth).classesNamed name) fun w => List.Forall₂ w.rel := by
  unfold classesNamed spelled
  dsimp only
  rw [m.find?_respell, m.find?_respell]
  cases hf : (Scope.ofModule m).find? name with
  | none => exact .pure .nil
  | some named =>
      cases named with
      | classes first more =>
          have hsites : List.Forall₂
              (fun s s' => ∃ site ∈ first :: more,
                s = site.respell ρ new ∧ s' = site.respell ρ new')
              ((first :: more).map (ClassSite.respell ρ new))
              ((first :: more).map (ClassSite.respell ρ new')) :=
            List.forall₂_map_left_iff.mpr (List.forall₂_map_right_iff.mpr
              (List.forall₂_same.mpr fun d hd => ⟨d, hd, rfl, rfl⟩))
          refine .mapM monotone_rel hsites ?_
          rintro w' _ _ _ ⟨site, hsite, rfl, rfl⟩
          exact classNode_follow hm hv site
            (m.within.declared _ (Entries.mem_of_lookup hf) _ (List.mem_map_of_mem hsite)) _ depth
      | _ => exact .pure .nil

theorem exportedBy_follow {s : Statement} (hs : s ∈ m.statements) (position depth : Nat) :
    Follows (v.deep depth) w ((spelled ρ m new depth).exportedBy position (s.respell ρ new))
      (fun depth => (spelled ρ m new' depth).exportedBy position (s.respell ρ new'))
      fun w => List.Forall₂ w.rel := by
  have hclass : ∀ {d : ClassDecl} (name : String), s.declaration? = some (.classDecl d) →
      Follows (v.deep depth) w
        (do pure [← (spelled ρ m new depth).classNode ⟨position, d.respell ρ new⟩ name])
        (fun depth => do
          pure [← (spelled ρ m new' depth).classNode ⟨position, d.respell ρ new'⟩ name])
        fun w => List.Forall₂ w.rel := fun {d} name hd =>
    (classNode_follow hm hv ⟨position, d⟩ (List.mem_filterMap.mpr ⟨s, hs, hd⟩) name depth).bind
      fun _ _ _ _ hab => .pure (.cons hab .nil)
  cases s with
  | exportDeclaration d =>
      cases d with
      | classDecl d => exact hclass _ rfl
      | _ => exact .pure .nil
  | exportClass d => exact hclass _ rfl
  | exportName name => exact classesNamed_follow hm hv name depth
  | exportNames names source =>
      exact (Follows.mapM monotone_rels (List.forall₂_same.mpr fun _ _ => rfl)
        fun w' _ name name' (hname : name = name') =>
          hname ▸ classesNamed_follow hm hv name depth).bind
            fun _ _ _ _ hs => .pure (List.rel_flatten hs)
  | _ => exact .pure .nil

/-- In two spellings of a module the same classes are exported. -/
theorem exportedClasses_follow (depth : Nat) :
    Follows (v.deep depth) w (spelled ρ m new depth).exportedClasses
      (fun depth => (spelled ρ m new' depth).exportedClasses) fun w => List.Forall₂ w.rel := by
  have hstatements : List.Forall₂
      (fun s s' => ∃ s₀ ∈ m.statements.zipIdx, s = s₀.map (Statement.respell ρ new) id ∧
        s' = s₀.map (Statement.respell ρ new') id)
      (m.respell ρ new).statements.zipIdx (m.respell ρ new').statements.zipIdx := by
    rw [m.zipIdx_respell, m.zipIdx_respell]
    exact List.forall₂_map_left_iff.mpr (List.forall₂_map_right_iff.mpr
      (List.forall₂_same.mpr fun s hs => ⟨s, hs, rfl, rfl⟩))
  refine (Follows.mapM monotone_rels hstatements ?_).bind
    fun _ _ _ _ hs => .pure (List.rel_flatten hs)
  rintro w' _ _ _ ⟨s, hs, rfl, rfl⟩
  exact exportedBy_follow hm hv (List.fst_mem_of_mem_zipIdx hs) s.2 depth

end Source

end Modules

end PropSchema.TypeScript
