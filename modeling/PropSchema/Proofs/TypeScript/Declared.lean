import PropSchema.Proofs.TypeScript.Parts
/-!
The labels of declared types, and what types come down to. A declared type is gone through once, in
a text of its own; later it is known by its node. The label of a type is made of the records only
that the type may come down to, so what an interface inherits can be told from what it extends.
-/
namespace PropSchema.TypeScript

open Resolve

section Declared
variable {sc : RootedScope} {read : Labelling} {i : LabelledInstance} {named : Named}
  {owner : Owner} {names : Names}

/-- The label of a declared type, which depends on nothing but its arguments. -/
noncomputable def Labelling.declaredLabel (read : Labelling) (i : LabelledInstance) :
    Named → Option Label
  | .interfaces _ _ => some (.declared i.1 i.2)
  | .classes _ _ => some (.declared i.1 i.2)
  | .aliases first _ =>
    match first.value with
    | .object _ _ => some (.declared i.1 i.2)
    | _ => do
      let (names, k) ← read.bindLabels (.type i.1 i.2) [] first.typeParams i.2 0
      let (label, _) ← read (.type i.1 i.2) names first.value k
      some label
  | .enums first more => do
    let (label, _) ← Scope.enumLabel (.type i.1 i.2) first more 0
    some label

/-- A text that is gone through by itself leaves the count as it was. -/
theorem run_aside {α β : Type} (e : Numbering α) (f : α → Numbering β) (k : Nat) :
    (do
      let before ← get
      set 0
      let a ← e
      let b ← f a
      set before
      pure b : Numbering β) k =
      ((e 0).bind fun p => (f p.1 p.2).bind fun q => some q.1).map fun b => (b, k) := by
  change ((e 0).bind fun p => (f p.1 p.2).bind fun q => some (q.1, k)) = _
  cases e 0 with
  | none => rfl
  | some p =>
      simp only [Option.bind_some]
      cases f p.1 p.2 <;> rfl

theorem labelOfName_of_find (hf : sc.find? i.1 = some named) (hn : names.lookup i.1 = none)
    (hopen : ∀ first more, named = .aliases first more → ¬ sc.Closes owner i) (k : Nat) :
    sc.labelOfName read owner names i.1 i.2 k =
      (read.declaredLabel i named).map fun l => (l, k) := by
  rw [RootedScope.labelOfName.eq_def]
  simp only [hn, hf]
  cases named with
  | interfaces first more => rfl
  | classes first more => rfl
  | enums first more =>
      change (Scope.enumLabel (.type i.1 i.2) first more 0).bind (fun p => some (p.1, k)) = _
      simp only [Labelling.declaredLabel]
      cases Scope.enumLabel (.type i.1 i.2) first more 0 <;> rfl
  | aliases first more =>
      cases hvalue : first.value with
      | object members place =>
          simp only [Labelling.declaredLabel, hvalue]
          rfl
      | _ =>
          simp only [Labelling.declaredLabel, hvalue, if_neg (hopen first more rfl)]
          exact run_aside _ _ k

theorem labelOfName_of_isRecord (hf : sc.find? i.1 = some named) (hrecord : named.isRecord)
    (hn : names.lookup i.1 = none) (k : Nat) :
    sc.labelOfName read owner names i.1 i.2 k = some (.declared i.1 i.2, k) := by
  rw [RootedScope.labelOfName.eq_def]
  simp only [hn, hf]
  cases named with
  | interfaces first more => rfl
  | classes first more => rfl
  | enums first more => cases hrecord
  | aliases first more =>
      obtain ⟨members, place, hvalue⟩ := Named.isRecord_aliases.mp hrecord
      simp only [hvalue]
      rfl

/-- An alias that is met within its own value is left without structure. -/
theorem labelOfName_of_closes {first : AliasDecl} {more : List AliasDecl}
    (hf : sc.find? i.1 = some (.aliases first more))
    (hrecord : ¬ (Named.aliases first more).isRecord) (hn : names.lookup i.1 = none)
    (hc : sc.Closes owner i) :
    sc.labelOfName read owner names i.1 i.2 =
      read.bindLabels owner [] first.typeParams i.2 >>= fun _ =>
        make owner (.unresolved i.1 (some i.1)) := by
  rw [RootedScope.labelOfName.eq_def]
  simp only [hn, hf]
  cases hvalue : first.value with
  | object members place => exact absurd (Named.isRecord_aliases.mpr ⟨_, _, hvalue⟩) hrecord
  | _ => simp only [if_pos hc]

theorem declaredLabel_of_isRecord (h : named.isRecord) :
    read.declaredLabel i named = some (.declared i.1 i.2) := by
  cases named with
  | interfaces first more => rfl
  | classes first more => rfl
  | enums first more => cases h
  | aliases first more =>
      obtain ⟨members, place, hvalue⟩ := Named.isRecord_aliases.mp h
      simp only [Labelling.declaredLabel, hvalue]

/-- An alias that is no record has the label of its value. -/
theorem declaredLabel_aliases {first : AliasDecl} {more : List AliasDecl}
    (h : ¬ (Named.aliases first more).isRecord) :
    read.declaredLabel i (.aliases first more) =
      (read.bindLabels (.type i.1 i.2) [] first.typeParams i.2 0).bind fun p =>
        (read (.type i.1 i.2) p.1 first.value p.2).bind fun q => some q.1 := by
  simp only [Labelling.declaredLabel]
  split
  · next hvalue => exact absurd (Named.isRecord_aliases.mpr ⟨_, _, hvalue⟩) h
  · rfl

/-- Nothing is being resolved where a class declaration is read. -/
theorem not_closes_site {position : Nat} : ¬ sc.Closes (.site position) i := by
  rintro ⟨reader, u, he, -⟩
  cases he

/-- What a declared type denotes is its label, and the other way round. -/
theorem denotes_iff (hf : sc.find? i.1 = some named) {label : Label} :
    Denotes sc i label ↔ sc.labelOf.declaredLabel i named = some label := by
  constructor
  · intro hd
    have hlabel := hd (.site 0) [] 0 rfl not_closes_site
    rw [labelOfName_of_find hf rfl fun _ _ _ => not_closes_site, Option.map_eq_some_iff] at hlabel
    obtain ⟨l, hl, he⟩ := hlabel
    cases he
    exact hl
  · intro hl owner names k hn hopen
    rw [labelOfName_of_find hf hn fun _ _ _ => hopen, hl]
    rfl

end Declared

namespace Label

/-- A label that is made of no union, and of no declared records but those with a property. -/
def Only (P : Mention → Prop) (label : Label) : Prop :=
  ∀ p ∈ label.parts, p.parts = [p] ∧
    ∀ {name arguments}, p = .declared name arguments → P (name, arguments.length)

variable {P : Mention → Prop}

theorem only_of_single {label : Label}
    (hunion : ∀ owner index members, label ≠ .made owner index (.union members))
    (hdeclared : ∀ {name arguments}, label = .declared name arguments →
      P (name, arguments.length)) : label.Only P := by
  have hparts := parts_of_ne_union hunion
  intro p hp
  rw [hparts, List.mem_singleton] at hp
  subst hp
  exact ⟨hparts, hdeclared⟩

theorem only_made {owner : Owner} {index : Nat} {form : TypeForm Label}
    (hform : ∀ members, form ≠ .union members) : (Label.made owner index form).Only P := by
  refine only_of_single ?_ nofun
  rintro o i members he
  cases he
  exact hform members rfl

theorem Only.declared {name : String} {arguments : List Label}
    (h : (Label.declared name arguments).Only P) : P (name, arguments.length) :=
  (h _ List.mem_cons_self).2 rfl

/-- The union of labels that are made of such records is. -/
theorem only_union {owner : Owner} {members : List Label} {k k' : Nat} {label : Label}
    (hall : ∀ m ∈ members, m.Only P)
    (he : Label.union owner members k = some (label, k')) : label.Only P := by
  have hleaves : ∀ p ∈ leaves members, p.parts = [p] ∧
      ∀ {name arguments}, p = .declared name arguments → P (name, arguments.length) := by
    intro p hp
    obtain ⟨m, hm, hp⟩ := mem_leaves.mp hp
    exact hall m hm p hp
  unfold Label.union at he
  generalize leaves members = found at he hleaves
  match found with
  | [] =>
      cases he
      exact hleaves
  | [leaf] =>
      cases he
      have hleaf := hleaves label List.mem_cons_self
      intro p hp
      rw [hleaf.1, List.mem_singleton] at hp
      rw [hp]
      exact hleaf
  | _ :: _ :: _ =>
      cases he
      exact hleaves

end Label

/-- The result of a node that a text makes. -/
theorem of_make {owner : Owner} {form : TypeForm Label} {k k' : Nat} {label : Label}
    (he : make owner form k = some (label, k')) : label = .made owner k form := by
  cases he
  rfl

variable {sc : RootedScope} {read : Labelling} {P : Mention → Prop} {owner : Owner} {names : Names}
  {k k' : Nat} {label : Label}

theorem only_of_make {form : TypeForm Label} (hform : ∀ members, form ≠ .union members)
    (he : make owner form k = some (label, k')) : label.Only P := by
  rw [of_make he]
  exact Label.only_made hform

theorem only_of_leafLabel {type : TypeExpr} (he : Scope.leafLabel owner type k = some (label, k')) :
    label.Only P := by
  have hshared : ∀ id, (Label.shared id).Only P := fun id => Label.only_of_single nofun nofun
  cases type with
  | keyword word place =>
      simp only [Scope.leafLabel] at he
      split at he
      · exact only_of_make (by simp) he
      · cases hid : TypeGraph.primitive? word with
        | some id =>
            simp only [hid] at he
            cases he
            exact hshared id
        | none =>
            simp only [hid] at he
            exact only_of_make (by simp) he
  | number text place =>
      simp only [Scope.leafLabel] at he
      cases hvalue : Numeral.read? text with
      | some value =>
          simp only [hvalue] at he
          exact only_of_make (by simp) he
      | none =>
          simp only [hvalue] at he
          exact only_of_make (by simp) he
  | string value place => exact only_of_make (by simp) he
  | boolean value place => exact only_of_make (by simp) he
  | other text place => exact only_of_make (by simp) he
  | null =>
      cases he
      exact hshared _
  | undefined =>
      cases he
      exact hshared _
  | predicate =>
      cases he
      exact hshared _
  | assertion =>
      cases he
      exact hshared _
  | _ => cases he

/-- A step whose last part makes a node that is no union. -/
theorem only_of_bind_make {α : Type} {e : Numbering α} {form : α → TypeForm Label}
    (hform : ∀ a members, form a ≠ .union members)
    (he : (e >>= fun a => make owner (form a)) k = some (label, k')) : label.Only P := by
  obtain ⟨⟨a, k₁⟩, -, he⟩ := Option.bind_eq_some_iff.mp he
  exact only_of_make (hform a) he

/-- Of the built-in types only the one that changes nothing has the label of its argument. -/
theorem only_of_builtin? {name : String} {arguments : List Label} {e : Numbering Label}
    (hreadonly : ∀ target rest, name = "Readonly" → arguments = target :: rest → target.Only P)
    (hbuiltin : Label.builtin? owner name arguments = some e) (he : e k = some (label, k')) :
    label.Only P := by
  unfold Label.builtin? at hbuiltin
  split at hbuiltin
  · cases hbuiltin
    exact only_of_make (by simp) he
  · split at hbuiltin
    · cases hbuiltin
      cases he
      exact Label.only_of_single nofun nofun
    · cases hbuiltin
      cases he
      exact hreadonly _ _ rfl rfl
    · cases hbuiltin

theorem only_of_qualifiedLabel {sc : Scope} {text : String} {arguments : List Label}
    (he : sc.qualifiedLabel owner text arguments k = some (label, k')) :
    label.Only P := by
  unfold Scope.qualifiedLabel at he
  dsimp only at he
  split at he
  · cases he
    exact Label.only_of_single nofun nofun
  · exact only_of_make (by simp) he

theorem only_of_enumLabels {next : Option Numeral} {ms : List EnumMember} {labels : List Label}
    (he : Scope.enumLabels owner next ms k = some (labels, k')) : ∀ l ∈ labels, l.Only P := by
  induction ms generalizing next k labels with
  | nil =>
      cases he
      simp
  | cons m ms ih =>
      rw [Scope.enumLabels] at he
      cases hvalue : Scope.enumValue next m.initializer with
      | some value =>
          simp only [hvalue] at he
          obtain ⟨⟨ls, k₁⟩, hrest, he⟩ := Option.bind_eq_some_iff.mp he
          cases he
          exact List.forall_mem_cons.mpr ⟨Label.only_made (by simp), ih hrest⟩
      | none =>
          simp only [hvalue] at he
          obtain ⟨⟨ls, k₁⟩, hrest, he⟩ := Option.bind_eq_some_iff.mp he
          cases he
          exact List.forall_mem_cons.mpr ⟨Label.only_made (by simp), ih hrest⟩

/-- A type parameter stands for its argument, for its default, or for itself. -/
theorem bindLabel_cases {param : TypeParam TypeExpr} {argument : Option Label} {names' : Names}
    (he : read.bindLabel owner names param argument k = some (names', k')) :
    ∃ l, names' = (param.name, l) :: names ∧
      (argument = some l ∨
        (argument = none ∧ ∃ fallback k₁, param.fallback = some fallback ∧
          read owner names fallback k = some (l, k₁)) ∨
        (argument = none ∧ l = .parameter owner k param names)) := by
  rw [Labelling.bindLabel.eq_def] at he
  cases argument with
  | some l =>
      cases he
      exact ⟨l, rfl, .inl rfl⟩
  | none =>
      cases hfallback : param.fallback with
      | some fallback =>
          simp only [hfallback] at he
          obtain ⟨⟨l, k₁⟩, hl, he⟩ := Option.bind_eq_some_iff.mp he
          cases he
          exact ⟨l, rfl, .inr (.inl ⟨rfl, fallback, k', rfl, hl⟩)⟩
      | none =>
          simp only [hfallback] at he
          refine ⟨.parameter owner k param names, ?_, .inr (.inr ⟨rfl, rfl⟩)⟩
          cases hlimit : param.bound with
          | none =>
              simp only [hlimit] at he
              cases he
              rfl
          | some type =>
              simp only [hlimit] at he
              obtain ⟨⟨_, _⟩, -, he⟩ := Option.bind_eq_some_iff.mp he
              cases he
              rfl

theorem keys_bindLabels {params : List (TypeParam TypeExpr)} {arguments : List Label}
    {names' : Names} (he : read.bindLabels owner names params arguments k = some (names', k')) :
    ∀ n, n ∈ names'.map Prod.fst ↔ n ∈ params.map TypeParam.name ∨ n ∈ names.map Prod.fst := by
  induction params generalizing names arguments k with
  | nil =>
      rw [Labelling.bindLabels.eq_def] at he
      cases he
      simp
  | cons param params ih =>
      rw [Labelling.bindLabels.eq_def] at he
      obtain ⟨⟨names₁, k₁⟩, hparam, he⟩ := Option.bind_eq_some_iff.mp he
      obtain ⟨l, rfl, -⟩ := bindLabel_cases hparam
      intro n
      rw [ih he n, List.map_cons, List.map_cons, List.mem_cons, List.mem_cons]
      tauto

/-- The type parameters of a text that have arguments stand for them. -/
theorem placed_of_bindLabels {bound : Binders} {params : List (TypeParam TypeExpr)} {index : Nat}
    {names' : Names} (h : Placed owner names bound)
    (he : read.bindLabels owner names params (owner.arguments.drop index) k =
      some (names', k')) :
    Placed owner names' (bindPositions owner.arguments.length bound index params) := by
  induction params generalizing names bound index k with
  | nil =>
      rw [Labelling.bindLabels.eq_def] at he
      cases he
      exact h
  | cons param params ih =>
      rw [Labelling.bindLabels.eq_def] at he
      obtain ⟨⟨names₁, k₁⟩, hparam, he⟩ := Option.bind_eq_some_iff.mp he
      obtain ⟨l, rfl, hcases⟩ := bindLabel_cases hparam
      rw [List.head?_drop] at hcases
      rw [List.tail_drop] at he
      refine ih (h.cons ?_) he
      intro i hi
      split at hi
      · next hlt =>
          cases hi
          rw [List.getElem?_eq_getElem hlt] at hcases ⊢
          obtain hl | ⟨hnone, -⟩ | ⟨hnone, -⟩ := hcases
          · exact hl
          · cases hnone
          · cases hnone
      · cases hi

theorem lookup_eq_none_iff {name : String} :
    names.lookup name = none ↔ name ∉ names.map Prod.fst := by
  rw [List.lookup_eq_none_iff, List.mem_map]
  constructor
  · rintro h ⟨p, hp, rfl⟩
    have hne := h p hp
    simp at hne
  · intro h p hp
    rw [bne_iff_ne]
    rintro rfl
    exact h ⟨p, hp, rfl⟩

theorem mem_of_lookup {name : String} {l : Label} (hl : names.lookup name = some l) :
    (name, l) ∈ names := by
  obtain ⟨before, after, he, -⟩ := List.lookup_eq_some_iff.mp hl
  simp [he]

/-- What a type may come down to is made of records with a property. -/
structure Scope.Covers (sc : Scope) (params : List String) (P : Mention → Prop) (names : Names)
    (type : TypeExpr) : Prop where
  bound : ∀ n ∈ params, n ∈ names.map Prod.fst
  names : ∀ {n l}, names.lookup n = some l →
    (n ∈ params ∧ ¬ sc.Leads params type (.parameter n)) ∨ l.Only P
  records : ∀ {m}, sc.Leads params type (.record m) → P m

/-- Types have labels that are made of what they may come down to. -/
def RootedScope.Comes (sc : RootedScope) (read : Labelling) : Prop :=
  ∀ {params : List String} {P : Mention → Prop} {owner : Owner} {names : Names} {type : TypeExpr}
    {k k' : Nat} {label : Label}, sc.Covers params P names type →
    read owner names type k = some (label, k') → label.Only P

theorem Scope.Covers.part {sc : Scope} {params : List String} {type part : TypeExpr}
    (h : sc.Covers params P names type)
    (hsub : ∀ {head}, sc.Leads params part head → sc.Leads params type head) :
    sc.Covers params P names part :=
  ⟨h.bound, fun hl => (h.names hl).imp_left fun hn => ⟨hn.1, fun hpart => hn.2 (hsub hpart)⟩,
    fun hpart => h.records (hsub hpart)⟩

/-- What type parameters are bound to, by arguments and defaults that are made of such records. -/
theorem only_of_bindLabels (hread : sc.Comes read) {params : List (TypeParam TypeExpr)}
    {arguments : List Label} {names' : Names} (hargs : ∀ a ∈ arguments, a.Only P)
    (hnames : ∀ p ∈ names, p.2.Only P)
    (hfallbacks : ∀ param ∈ params, ∀ type, param.fallback = some type →
      ∀ {m}, sc.Leads [] type (.record m) → P m)
    (he : read.bindLabels owner names params arguments k = some (names', k')) :
    ∀ p ∈ names', p.2.Only P := by
  induction params generalizing names arguments k with
  | nil =>
      rw [Labelling.bindLabels.eq_def] at he
      cases he
      exact hnames
  | cons param params ih =>
      rw [Labelling.bindLabels.eq_def] at he
      rw [List.forall_mem_cons] at hfallbacks
      obtain ⟨⟨names₁, k₁⟩, hparam, he⟩ := Option.bind_eq_some_iff.mp he
      obtain ⟨l, rfl, hcases⟩ := bindLabel_cases hparam
      have hl : l.Only P := by
        obtain harg | ⟨-, fallback, k₂, hfallback, hlabel⟩ | ⟨-, rfl⟩ := hcases
        · exact hargs l (List.mem_of_mem_head? harg)
        · refine hread ⟨List.forall_mem_nil _, ?_, hfallbacks.1 fallback hfallback⟩ hlabel
          exact fun hl => .inr (hnames _ (mem_of_lookup hl))
        · exact Label.only_of_single (by simp) (by simp)
      exact ih (fun a ha => hargs a (List.mem_of_mem_tail ha))
        (List.forall_mem_cons.mpr ⟨hl, hnames⟩) hfallbacks.2 he

section Name
variable {params : List String} {name : String} {arguments : List TypeExpr} {place : Place}
  {largs : List Label}
  (hcovers : sc.Covers params P names (.reference (.simple name) arguments place))
  (hargs : ∀ l ∈ largs, ∃ t ∈ arguments, ∃ k k', read owner names t k = some (l, k'))
include hcovers hargs

/-- An alias is made of what its value is, and of its arguments and defaults if need be. -/
theorem only_of_alias (hread : sc.Comes read) {first : AliasDecl} {more : List AliasDecl}
    (hfree : name ∉ params) (hf : sc.find? name = some (.aliases first more)) {owner' : Owner}
    {names' : Names} {k₁ k₂ k₃ : Nat}
    (hbind : read.bindLabels owner' [] first.typeParams largs k₁ = some (names', k₂))
    (hlabel : read owner' names' first.value k₂ = some (label, k₃)) : label.Only P := by
  have hkeys := keys_bindLabels hbind
  refine hread ⟨fun n hn => (hkeys n).mpr (.inl hn), ?_, ?_⟩ hlabel
  · intro n l hl
    by_cases hlead : sc.Leads (first.typeParams.map TypeParam.name) first.value (.parameter n)
    · -- the value may come down to a parameter, so its label is looked for among what is bound
      refine .inr (only_of_bindLabels hread ?_ (List.forall_mem_nil _) ?_ hbind _
        (mem_of_lookup hl))
      · intro a ha
        obtain ⟨t, ht, k, k', hread'⟩ := hargs a ha
        exact hread (hcovers.part (.argument place hfree hf hlead ht)) hread'
      · intro param hparam type hfallback m hm
        exact hcovers.records (.fallback arguments place hfree hf hlead hparam hfallback hm)
    · have hmem := List.mem_map_of_mem (f := Prod.fst) (mem_of_lookup hl)
      exact .inl ⟨((hkeys n).mp hmem).resolve_right List.not_mem_nil, hlead⟩
  · exact fun hm => hcovers.records (.value arguments place hfree hf hm)

theorem only_of_declared (hread : sc.Comes read) (hlength : largs.length = arguments.length)
    (hlookup : names.lookup name = none) (hfree : name ∉ params) {named : Named}
    (hf : sc.find? name = some named)
    (he : sc.labelOfName read owner names name largs k = some (label, k')) : label.Only P := by
  by_cases hrecord : named.isRecord
  · rw [labelOfName_of_isRecord (i := (name, largs)) hf hrecord hlookup] at he
    cases he
    refine Label.only_of_single (by simp) ?_
    intro name' arguments' he
    cases he
    rw [hlength]
    exact hcovers.records (.record arguments place hfree hf hrecord)
  cases named with
  | interfaces first more => exact absurd rfl hrecord
  | classes first more => exact absurd rfl hrecord
  | enums first more =>
      rw [labelOfName_of_find (i := (name, largs)) hf hlookup nofun, Option.map_eq_some_iff] at he
      obtain ⟨l, hl, he⟩ := he
      cases he
      obtain ⟨⟨l, k₁⟩, hl, he⟩ := Option.bind_eq_some_iff.mp hl
      cases he
      obtain ⟨⟨members, k₂⟩, hmembers, hunion⟩ := Option.bind_eq_some_iff.mp hl
      exact Label.only_union (only_of_enumLabels hmembers) hunion
  | aliases first more =>
      by_cases hclosed : sc.Closes owner (name, largs)
      · rw [labelOfName_of_closes (i := (name, largs)) hf hrecord hlookup hclosed] at he
        exact only_of_bind_make (by simp) he
      rw [labelOfName_of_find (i := (name, largs)) hf hlookup fun _ _ _ => hclosed,
        Option.map_eq_some_iff] at he
      obtain ⟨l, hl, he⟩ := he
      cases he
      rw [declaredLabel_aliases hrecord] at hl
      obtain ⟨⟨names', k₁⟩, hbind, hl⟩ := Option.bind_eq_some_iff.mp hl
      obtain ⟨⟨l, k₂⟩, hlabel, he⟩ := Option.bind_eq_some_iff.mp hl
      cases he
      exact only_of_alias hcovers hargs hread hfree hf hbind hlabel

omit hargs in
/-- A name that is not declared comes down to nothing that a module declares, unless it is the
built-in type that changes nothing. -/
theorem only_of_undeclared (hread : sc.Comes read)
    (hhead : ∀ target rest, largs = target :: rest → ∃ t ts, arguments = t :: ts ∧
      ∃ k k', read owner names t k = some (target, k'))
    (hlookup : names.lookup name = none) (hfree : name ∉ params) (hf : sc.find? name = none)
    (he : sc.labelOfName read owner names name largs k = some (label, k')) : label.Only P := by
  rw [RootedScope.labelOfName.eq_def] at he
  simp only [hlookup, hf] at he
  cases himported : sc.imported.lookup name with
  | some symbol =>
      simp only [himported] at he
      cases he
      exact Label.only_of_single (by simp) (by simp)
  | none =>
      simp only [himported] at he
      cases hprimitive : TypeGraph.primitive? name with
      | some id =>
          simp only [hprimitive] at he
          cases he
          exact Label.only_of_single (by simp) (by simp)
      | none =>
          simp only [hprimitive] at he
          cases hbuiltin : Label.builtin? owner name largs with
          | some e =>
              rw [hbuiltin] at he
              refine only_of_builtin? ?_ hbuiltin he
              rintro target rest rfl rfl
              obtain ⟨t, ts, rfl, k, k', hlabel⟩ := hhead target rest rfl
              exact hread (hcovers.part (.unwrapped ts place hfree hf)) hlabel
          | none =>
              rw [hbuiltin] at he
              exact only_of_make (by simp) he

theorem only_of_labelOfName (hread : sc.Comes read) (hlength : largs.length = arguments.length)
    (hhead : ∀ target rest, largs = target :: rest → ∃ t ts, arguments = t :: ts ∧
      ∃ k k', read owner names t k = some (target, k'))
    (he : sc.labelOfName read owner names name largs k = some (label, k')) : label.Only P := by
  cases hlookup : names.lookup name with
  | some l =>
      rw [RootedScope.labelOfName.eq_def, hlookup] at he
      cases he
      obtain ⟨hmem, hnot⟩ | hlabel := hcovers.names hlookup
      · exact absurd (.parameter arguments place hmem) hnot
      · exact hlabel
  | none =>
      have hfree : name ∉ params := fun hm => lookup_eq_none_iff.mp hlookup (hcovers.bound name hm)
      cases hf : sc.find? name with
      | some named => exact only_of_declared hcovers hargs hread hlength hlookup hfree hf he
      | none => exact only_of_undeclared hcovers hread hhead hlookup hfree hf he

end Name

/-- A type has a label that is made of what it may come down to, if the types within it have. -/
theorem comes_labelBy (hread : sc.Comes read) : sc.Comes (sc.labelBy read) := by
  intro params P owner names type k k' label hcovers he
  rw [RootedScope.labelBy.eq_def] at he
  cases type with
  | reference name arguments place =>
      obtain ⟨⟨labels, k₁⟩, hlabels, he⟩ := Option.bind_eq_some_iff.mp he
      have hall := Sequences.forall₂_of_mapM hlabels
      cases name with
      | dotted name => exact only_of_qualifiedLabel he
      | simple name =>
          refine only_of_labelOfName hcovers (fun l hl => ?_) hread hall.length_eq.symm ?_ he
          · exact Sequences.exists_of_forall₂ hall hl
          · rintro target rest rfl
            obtain ⟨t, ts, hlabel, -, rfl⟩ := List.forall₂_cons_right_iff.mp hall
            exact ⟨t, ts, rfl, hlabel⟩
  | union members place =>
      obtain ⟨⟨labels, k₁⟩, hmembers, hunion⟩ := Option.bind_eq_some_iff.mp he
      refine Label.only_union (fun l hl => ?_) hunion
      obtain ⟨t, ht, k₂, k₃, hlabel⟩ :=
        Sequences.exists_of_forall₂ (Sequences.forall₂_of_mapM hmembers) hl
      exact hread (hcovers.part (.union place ht)) hlabel
  | object members place => exact only_of_bind_make (by simp) he
  | array element place => exact only_of_bind_make (by simp) he
  | tuple elements place => exact only_of_bind_make (by simp) he
  | intersection members place => exact only_of_bind_make (by simp) he
  | function callable place =>
      simp only [Labelling.functionLabel.eq_def] at he
      obtain ⟨⟨names', k₁⟩, -, he⟩ := Option.bind_eq_some_iff.mp he
      obtain ⟨⟨parameters, k₂⟩, -, he⟩ := Option.bind_eq_some_iff.mp he
      exact only_of_bind_make (by simp) he
  | parenthesized inner => exact hread (hcovers.part .parenthesized) he
  | readonly inner => exact hread (hcovers.part .readonly) he
  | _ => exact only_of_leafLabel he

/-- The label of a type is made of records only that the type may come down to. -/
theorem comes_labelOf (sc : RootedScope) : sc.Comes sc.labelOf := by
  intro params P owner names type k k' label hcovers he
  have hstep : ∀ f, (∀ x y, f x = some y → ∀ params P, sc.Covers params P x.2.1 x.2.2.1 →
      y.1.Only P) → ∀ x y, sc.labelStep f x = some y → ∀ params P,
        sc.Covers params P x.2.1 x.2.2.1 → y.1.Only P := by
    rintro f hf ⟨owner, names, type, k⟩ ⟨label, k'⟩ hstep params P hcovers
    have hread : sc.Comes fun owner names type k => f (owner, names, type, k) :=
      fun hcovers he => hf _ _ he _ _ hcovers
    exact comes_labelBy @hread hcovers hstep
  exact least_induction sc.labelStep_mono hstep he params P hcovers

end PropSchema.TypeScript
