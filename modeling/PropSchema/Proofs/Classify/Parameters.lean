import PropSchema.Proofs.Classify.SideBySide
import PropSchema.Proofs.TypeGraph.Parameters
/-!
Optional parameters. An optional parameter is used as a union with undefined, of which the same is
left as of the type alone once it is stripped. So a pass meets the same records whether a parameter
is optional or not, and the function differs only in whether that argument is nullable. A type
parameter that has a bound is the exception: within the union, nobody asks for its bound.
-/
namespace PropSchema

/-- From level contexts, where the one step succeeds the other does, and leaves level contexts. -/
abbrev Pass.KeepsLevel {α β : Type} (m : Pass α) (m' : Pass β) : Prop :=
  m.Leads Context.Level (fun _ _ => True) m'

namespace Classify
open TypeGraph

/-- A parameter as it is classified. -/
def argumentUse (g : TypeGraph) (p : Parameter) : TypeUse :=
  parameterUse g (g.optionalUse p.type p.optional)

/-- Of each parameter of a function, the same is left as of the parameter in another graph. -/
def SameArguments (id : NodeId) (g h : TypeGraph) : Prop :=
  ∀ f f', g.form id = .function f → h.form id = .function f' →
    List.Forall₂ (fun p p' => h.SameBasis (argumentUse h p) (argumentUse h p')) f.parameters
      f'.parameters

variable {r : Rules} {g h : TypeGraph} {id : NodeId} {f : FunctionType} {depth : Nat}
  {use use' : TypeUse} {s : PropSpec} {slots : TypeIdentity → Option Nat}

/-- Types of which the same is left are classified by the same steps. -/
theorem specTo_of_sameBasis (hbasis : g.SameBasis use use') :
    (specTo r g depth use).Leads Eq (fun _ _ => True) (specTo r g depth use') := by
  cases depth with
  | zero =>
      rw [specTo]
      exact .throw (by simp) _
  | succ depth =>
      have hprop : propTypeTo r g depth (g.stripped use) =
          propTypeTo r g depth (g.stripped use') := by
        cases depth with
        | zero => rw [propTypeTo, propTypeTo]
        | succ depth => rw [propTypeTo_succ, propTypeTo_succ, hbasis.makeup]
      rw [specTo_succ, specTo_succ, hbasis.symbol, hprop]
      exact .bind (.refl _) fun _ _ _ => .pure trivial

section Reparametrized
variable (hgh : Reparametrized id g h)
include hgh

theorem unknownTo_keepsLevel (other : NodeId) :
    (unknownTo r g other).KeepsLevel (unknownTo r h other) := by
  refine .bind (.written (hgh.isSome_render_eq _)) fun _ _ _ => ?_
  cases r.policy with
  | strict => exact .throw (by simp) _
  | lenient => exact .bind (.note .blind _ _) fun _ _ _ => .pure trivial

theorem argumentUse_eq : argumentUse g = argumentUse h := by
  funext p
  rw [argumentUse, argumentUse, hgh.parameterUse_eq, hgh.optionalUse_eq]

theorem specTo_keepsLevel
    (hprop : ∀ use, (propTypeTo r g depth use).KeepsLevel (propTypeTo r h depth use))
    (use : TypeUse) : (specTo r g (depth + 1) use).KeepsLevel (specTo r h (depth + 1) use) := by
  rw [specTo_succ, specTo_succ, hgh.stripped_eq, hgh.symbolOf_eq]
  refine .bind (S := fun _ _ => True) ?_ fun _ _ _ => .pure trivial
  split
  · exact .pure trivial
  · exact hprop _

/-- Types that are made up alike are classified by the same steps. -/
theorem makeupTo_keepsLevel
    (hspec : ∀ use, (specTo r g depth use).KeepsLevel (specTo r h depth use))
    (hslot : ∀ use, (slotTo r g depth use).KeepsLevel (slotTo r h depth use)) (m : Makeup) :
    (makeupTo r g depth m).KeepsLevel (makeupTo r h depth m) := by
  have htype : ∀ id, (do pure (← specTo r g depth (.node id)).propType : Pass PropType).KeepsLevel
      (do pure (← specTo r h depth (.node id)).propType : Pass PropType) :=
    fun id => .bind (hspec _) fun _ _ _ => .pure trivial
  cases m with
  | plain type => exact .pure trivial
  | union leaves =>
      exact .bind (.mapM_same (fun leaf => .unionMember (htype leaf)) _) fun _ _ _ => .pure trivial
  | tuple elements => exact .bind (.mapM_same htype _) fun _ _ _ => .pure trivial
  | array element => exact .bind (hspec _) fun _ _ _ => .pure trivial
  | function signature =>
      have hargs : ∀ p : String × TypeUse, (specTo r g depth (parameterUse g p.2)).KeepsLevel
          (specTo r h depth (parameterUse h p.2)) := by
        rw [hgh.parameterUse_eq]
        exact fun p => hspec _
      exact .bind (.mapM_same hargs _) fun _ _ _ => .bind (hspec _) fun _ _ _ => .pure trivial
  | record use => exact .bind (hslot _) fun _ _ _ => .pure trivial
  | partialRecord target => exact .bind (hslot _) fun _ _ _ => .pure trivial
  | unknown id => exact unknownTo_keepsLevel hgh id

/-- The function itself is classified by the same steps, since its parameters are. -/
theorem propTypeTo_keepsLevel (hargs : SameArguments id g h)
    (hspec : ∀ use, (specTo r g depth use).KeepsLevel (specTo r h depth use))
    (hslot : ∀ use, (slotTo r g depth use).KeepsLevel (slotTo r h depth use)) (use : TypeUse) :
    (propTypeTo r g (depth + 1) use).KeepsLevel (propTypeTo r h (depth + 1) use) := by
  rw [propTypeTo_succ, propTypeTo_succ]
  by_cases huse : use = .node id
  · obtain ⟨f, f', hf, hf', hresult, -⟩ := hgh.function
    have harg : ∀ p p', h.SameBasis (argumentUse h p) (argumentUse h p') →
        (specTo r g depth (argumentUse g p)).KeepsLevel (specTo r h depth (argumentUse h p')) := by
      intro p p' hbasis
      rw [argumentUse_eq hgh]
      exact ((hspec _).trans (specTo_of_sameBasis hbasis)).imp fun _ _ _ => trivial
    subst huse
    rw [makeup_of_function hf, makeup_of_function hf', hresult]
    refine .bind (S := List.Forall₂ fun _ _ => True) ?_ fun _ _ _ =>
      .bind (hspec _) fun _ _ _ => .pure trivial
    rw [List.mapM_map, List.mapM_map]
    exact .mapM (hargs f f' hf hf') harg
  · rw [hgh.makeup_eq huse]
    exact makeupTo_keepsLevel hgh hspec hslot _

theorem memberTo_keepsLevel
    (hspec : ∀ use, (specTo r g depth use).KeepsLevel (specTo r h depth use)) (p : Property) :
    (memberTo r g (depth + 1) p).KeepsLevel (memberTo r h (depth + 1) p) := by
  rw [memberTo, memberTo, hgh.propertyUse?_eq]
  apply Pass.Leads.within .blind
  cases h.propertyUse? p with
  | none => exact .throw (by simp) _
  | some use => exact .bind (hspec use) fun _ _ _ => .pure trivial

theorem slotTo_keepsLevel
    (hmember : ∀ p, (memberTo r g depth p).KeepsLevel (memberTo r h depth p)) (use : TypeUse) :
    (slotTo r g (depth + 1) use).KeepsLevel (slotTo r h (depth + 1) use) := by
  intro c c' hc
  have hid : use.identity c = use.identity c' := by
    unfold TypeUse.identity
    rw [hc.length_eq]
  rw [slotTo_run, slotTo_run, hc.lookup_eq, hid, hc.length_eq]
  cases c'.lookup (use.identity c') with
  | some known => exact .returned trivial hc
  | none =>
      have hentry : (entryTo r g depth use c'.slots.length).KeepsLevel
          (entryTo r h depth use c'.slots.length) := by
        unfold entryTo membersTo
        rw [hgh.propertiesOf_eq]
        refine .bind (S := List.Forall₂ fun _ _ => True) ?_ fun _ _ _ =>
          .bind (.patch fun h => h.patch _) fun _ _ _ => .pure trivial
        exact .bind (.written (hgh.isSome_slotTitle_eq use)) fun _ _ _ =>
          .bind (.note .blind _ _) fun _ _ _ => .mapM_same hmember _
      exact hentry _ _ (hc.reserve _)

/-- To any depth, classification in the one graph succeeds where it does in the other. -/
theorem keepsLevelTo (hargs : SameArguments id g h) (r : Rules) (depth : Nat) :
    (∀ use, (specTo r g depth use).KeepsLevel (specTo r h depth use)) ∧
      (∀ use, (propTypeTo r g depth use).KeepsLevel (propTypeTo r h depth use)) ∧
      (∀ use, (slotTo r g depth use).KeepsLevel (slotTo r h depth use)) ∧
      ∀ p, (memberTo r g depth p).KeepsLevel (memberTo r h depth p) := by
  induction depth with
  | zero =>
      obtain ⟨hspec, hprop, hslot, hmember⟩ := tooDeepTo r g
      simp only [hspec, hprop, hslot, hmember]
      exact ⟨fun _ => .throw (by simp) _, fun _ => .throw (by simp) _, fun _ => .throw (by simp) _,
        fun _ => .throw (by simp) _⟩
  | succ depth ih =>
      obtain ⟨hspec, hprop, hslot, hmember⟩ := ih
      exact ⟨specTo_keepsLevel hgh hprop, propTypeTo_keepsLevel hgh hargs hspec hslot,
        slotTo_keepsLevel hgh hmember, memberTo_keepsLevel hgh hspec⟩

theorem makeupBy_eq (read : TypeUse → Option PropSpec) (m : Makeup) :
    makeupBy r g slots read m = makeupBy r h slots read m := by
  cases m with
  | function signature => rw [makeupBy, makeupBy, hgh.parameterUse_eq]
  | record use => cases use <;> rfl
  | unknown other =>
      have hsome := hgh.isSome_render_eq (.node other)
      rw [makeupBy, makeupBy]
      cases r.policy with
      | strict => rfl
      | lenient =>
          cases hg : g.render (.node other) <;> cases hh : h.render (.node other) <;>
            rw [hg, hh] at hsome <;> first | rfl | cases hsome
  | _ => rfl

/-- Whatever is not the function is read alike, given how the types in it are read. -/
theorem specBy_eq (read : TypeUse → Option PropSpec) (hne : g.stripped use ≠ .node id) :
    specBy r g slots read use = specBy r h slots read use := by
  rw [specBy, specBy, hgh.makeup_eq hne, hgh.symbolOf_eq, hgh.stripped_eq, hgh.isNullable_eq,
    makeupBy_eq hgh]

omit hgh in
/-- What is left of a type is all that is read of it, but for its nullability. -/
theorem specBy_stripped (hform : g.form id = .function f) {read : TypeUse → Option PropSpec}
    (huse : g.stripped use = .node id) (hs : specBy r g slots read use = some s) :
    specBy r g slots read (.node id) = some ⟨s.propType, false⟩ := by
  have hleaf : ∀ inner, g.form id ≠ .union inner := by simp [hform]
  unfold specBy at hs ⊢
  rw [huse] at hs
  obtain ⟨t, ht, he⟩ := Option.bind_eq_some_iff.mp hs
  cases he
  rw [stripped_of_leaf hleaf, isNullable_of_leaf hleaf]
  exact Option.bind_eq_some_iff.mpr ⟨t, ht, rfl⟩

/-- The types that a function is read from do not lead back to it, so they are read alike. -/
theorem exists_read (hs : reading r g slots (.node id) = some s) :
    ∃ read, Extends read (reading r g slots) ∧ Extends read (reading r h slots) ∧
      specBy r g slots read (.node id) = some s := by
  obtain ⟨f, -, hform, -⟩ := hgh.function
  have hself : g.stripped (.node id) = .node id := stripped_of_leaf (by simp [hform])
  -- either a type is read alike, or the function has been read within it
  have hread : (g.stripped (.node id) ≠ .node id ∧ reading r g slots (.node id) = some s ∧
      reading r h slots (.node id) = some s) ∨
      ∃ read s', Extends read (reading r g slots) ∧ Extends read (reading r h slots) ∧
        specBy r g slots read (.node id) = some s' := by
    refine reading_induction (motive := fun use s => (g.stripped use ≠ .node id ∧
      reading r g slots use = some s ∧ reading r h slots use = some s) ∨ _) ?_ hs
    intro read hread use s hs
    refine or_iff_not_imp_right.mpr fun hnot => ?_
    have hboth : ∀ use s, read use = some s →
        reading r g slots use = some s ∧ reading r h slots use = some s :=
      fun use s huse => ((hread use s huse).resolve_right hnot).2
    have hg : Extends read (reading r g slots) := fun use s huse => (hboth use s huse).1
    have hh : Extends read (reading r h slots) := fun use s huse => (hboth use s huse).2
    have hne : g.stripped use ≠ .node id := fun huse =>
      hnot ⟨read, _, hg, hh, specBy_stripped hform huse hs⟩
    refine ⟨hne, ?_, ?_⟩
    · rw [reading_eq]
      exact specBy_mono (.refl slots) hg hs
    · rw [reading_eq, ← specBy_eq hgh _ hne]
      exact specBy_mono (.refl slots) hh hs
  obtain ⟨hne, -⟩ | ⟨read, s', hg, hh, hs'⟩ := hread
  · exact absurd hself hne
  · have hsame : reading r g slots (.node id) = some s' := by
      rw [reading_eq]
      exact specBy_mono (.refl slots) hg hs'
    cases hs.symm.trans hsame
    exact ⟨read, hg, hh, hs'⟩

end Reparametrized

/-- A known function is read as what it is known as. -/
theorem specBy_of_known (hform : g.form id = .function f) {known : PropType}
    (hfind : r.registry.find? f.symbol = some known) {read : TypeUse → Option PropSpec}
    (hs : specBy r g slots read (.node id) = some s) : s = ⟨known, false⟩ := by
  have hleaf : ∀ inner, g.form id ≠ .union inner := by simp [hform]
  have hsymbol : g.symbolOf (.node id) = f.symbol := by rw [symbolOf, symbol, hform]
  rw [specBy, stripped_of_leaf hleaf, isNullable_of_leaf hleaf, hsymbol, hfind] at hs
  cases hs
  rfl

/-- Any other function is read from its parameters and its result. -/
theorem specBy_of_function (hform : g.form id = .function f)
    (hfind : r.registry.find? f.symbol = none) {read : TypeUse → Option PropSpec}
    (hs : specBy r g slots read (.node id) = some s) :
    ∃ args result, List.Forall₂ (fun p arg => read (argumentUse g p) = some arg) f.parameters args ∧
      read (.node f.result) = some result ∧ s = ⟨.fn args result, false⟩ := by
  have hleaf : ∀ inner, g.form id ≠ .union inner := by simp [hform]
  have hsymbol : g.symbolOf (.node id) = f.symbol := by rw [symbolOf, symbol, hform]
  rw [specBy, stripped_of_leaf hleaf, isNullable_of_leaf hleaf, hsymbol, hfind,
    makeup_of_function hform] at hs
  obtain ⟨t, ht, he⟩ := Option.bind_eq_some_iff.mp hs
  cases he
  cases makeupBy_eq_some_iff.mp ht with
  | function hargs hresult => exact ⟨_, _, List.forall₂_map_left_iff.mp hargs, hresult, rfl⟩

/-- A parameter that need not be given may be undefined, which says nothing of a bound. -/
theorem parameterUse_of_optional (hundefined : g.form undefinedId = .primitive "undefined")
    {t : NodeId} (ht : g.Proper t) :
    parameterUse g (g.optionalUse t true) = g.optionalUse t true := by
  obtain ⟨-, huse⟩ | ⟨leaves, huse, -⟩ := optionalUse_cases hundefined ht
  · rw [huse, parameterUse, constraint?, hundefined]
  · rw [huse, parameterUse]

theorem argumentUse_of_required {p : Parameter} (hrequired : p.optional = false)
    (hbound : g.constraint? p.type = none) : argumentUse g p = .node p.type := by
  rw [argumentUse, optionalUse, hrequired, if_neg Bool.false_ne_true, parameterUse, hbound]

theorem argumentUse_of_optional (hundefined : g.form undefinedId = .primitive "undefined")
    {p : Parameter} (hproper : g.Proper p.type) :
    argumentUse g { p with optional := true } = g.optionalUse p.type true :=
  parameterUse_of_optional hundefined hproper

/-- The same is left of a parameter that is made optional, unless it has a bound. -/
theorem sameBasis_of_optional (hundefined : g.form undefinedId = .primitive "undefined")
    {p : Parameter} (hrequired : p.optional = false) (hproper : g.Proper p.type)
    (hbound : g.constraint? p.type = none) :
    g.SameBasis (argumentUse g p) (argumentUse g { p with optional := true }) := by
  rw [argumentUse_of_required hrequired hbound, argumentUse_of_optional hundefined hproper]
  obtain ⟨htype, huse⟩ | ⟨leaves, huse, -, -, hbasis⟩ := optionalUse_cases hundefined hproper
  · rw [huse, htype]
    exact .refl _
  · rw [huse]
    exact hbasis

/-- What is read of a parameter that need not be given: the same, but nullable unless it is void. -/
def orUndefined (s : PropSpec) : PropSpec := ⟨s.propType, !s.propType.isVoid⟩

theorem reading_of_made_optional (hundefined : g.form undefinedId = .primitive "undefined")
    {p : Parameter} (hrequired : p.optional = false) (hproper : g.Proper p.type)
    (hbound : g.constraint? p.type = none) {s' : PropSpec}
    (hs : reading r g slots (argumentUse g p) = some s)
    (hs' : reading r g slots (argumentUse g { p with optional := true }) = some s') :
    s' = orUndefined s := by
  rw [argumentUse_of_required hrequired hbound] at hs
  rw [argumentUse_of_optional hundefined hproper] at hs'
  obtain ⟨hnullable, s₁, hs₁, htype⟩ := reading_of_optional hundefined hproper hs'
  cases hs.symm.trans hs₁
  rw [orUndefined, htype, ← hnullable]

section MakeOptional
variable {i : Nat} {p : Parameter} (hg : g.HasPrimitives) (hform : g.form id = .function f)
  (hp : f.parameters[i]? = some p) (hrequired : p.optional = false) (hproper : g.Proper p.type)
  (hbound : g.constraint? p.type = none)
include hg hform hp hrequired hproper hbound

/-- The same is left of every parameter, in either graph and whichever is looked at first. -/
theorem sameArguments_makeOptional : SameArguments id g (g.makeOptional id i) ∧
    SameArguments id (g.makeOptional id i) g := by
  have hgh := reparametrized_makeOptional hform i
  have hbasis : ∀ q, f.parameters[i]? = some q →
      g.SameBasis (argumentUse g q) (argumentUse g { q with optional := true }) := by
    intro q hq
    cases hp.symm.trans hq
    exact sameBasis_of_optional hg.undefined hrequired hproper hbound
  have hbasis' : ∀ q, f.parameters[i]? = some q → (g.makeOptional id i).SameBasis
      (argumentUse (g.makeOptional id i) q)
      (argumentUse (g.makeOptional id i) { q with optional := true }) := by
    intro q hq
    cases hp.symm.trans hq
    exact sameBasis_of_optional (hgh.form_primitive hg.undefined) hrequired (hgh.proper hproper)
      (hgh.constraint?_eq.symm.trans hbound)
  constructor
  · intro f₁ f₂ hf₁ hf₂
    cases hform.symm.trans hf₁
    cases (form_makeOptional hform i).symm.trans hf₂
    exact Sequences.forall₂_modify (fun q => .refl _) hbasis'
  · intro f₁ f₂ hf₁ hf₂
    cases (form_makeOptional hform i).symm.trans hf₁
    cases hform.symm.trans hf₂
    refine List.Forall₂.flip (Sequences.forall₂_modify (fun q => .refl _) fun q hq => ?_)
    exact (hbasis q hq).symm

/-- A function says the same with an optional parameter, but for the nullability of that one. -/
theorem reading_makeOptional (hfind : r.registry.find? f.symbol = none) {s' : PropSpec}
    (hs : reading r g slots (.node id) = some s)
    (hs' : reading r (g.makeOptional id i) slots (.node id) = some s') :
    ∃ args result, args.length = f.parameters.length ∧ s = ⟨.fn args result, false⟩ ∧
      s' = ⟨.fn (args.modify i orUndefined) result, false⟩ := by
  have hgh := reparametrized_makeOptional hform i
  obtain ⟨read, -, hread, hspec⟩ := exists_read hgh hs
  obtain ⟨args, result, hargs, hresult, rfl⟩ := specBy_of_function hform hfind hspec
  rw [reading_eq] at hs'
  obtain ⟨args', result', hargs', hresult', rfl⟩ :=
    specBy_of_function (form_makeOptional hform i) hfind hs'
  have hargs₁ := hargs.imp fun q arg harg => hread _ _ (argumentUse_eq hgh ▸ harg)
  have hall : args' = args.modify i orUndefined := by
    refine Sequences.eq_modify_of_forall₂ hargs₁ hargs' fun q arg arg' hq harg harg' => ?_
    cases hp.symm.trans hq
    exact reading_of_made_optional (hgh.form_primitive hg.undefined) hrequired (hgh.proper hproper)
      (hgh.constraint?_eq.symm.trans hbound) harg harg'
  cases (hread _ _ hresult).symm.trans hresult'
  exact ⟨args, result, hargs.length_eq.symm, rfl, by rw [hall]⟩

end MakeOptional

/-- Let a required parameter of a function be made optional, of any type but one with fewer than two
leaves in a union or a type parameter with a bound. In any context and to any depth, the function is
classified with the parameter optional if and only if it is with the parameter required. Either way
the pass has met the same records afterwards. A function that is known by its symbol is what it is
known as, either way. Any other function differs in that argument alone: it has the same prop type,
and is nullable unless that is void. -/
theorem optional_parameter_is_nullable (r : Rules) (hg : g.HasPrimitives)
    (hform : g.form id = .function f) {i : Nat} {p : Parameter} (hp : f.parameters[i]? = some p)
    (hrequired : p.optional = false) (hproper : g.Proper p.type)
    (hbound : g.constraint? p.type = none) (depth : Nat) (c : Context) :
    ((∃ s d, (specTo r g depth (.node id)).run c = (.ok s, d)) ↔
      ∃ s d, (specTo r (g.makeOptional id i) depth (.node id)).run c = (.ok s, d)) ∧
    ∀ s d s' d', (specTo r g depth (.node id)).run c = (.ok s, d) →
      (specTo r (g.makeOptional id i) depth (.node id)).run c = (.ok s', d') →
      d.Level d' ∧ match r.registry.find? f.symbol with
        | some known => s = ⟨known, false⟩ ∧ s' = s
        | none => ∃ args result, args.length = f.parameters.length ∧ s = ⟨.fn args result, false⟩ ∧
            s' = ⟨.fn (args.modify i orUndefined) result, false⟩ := by
  have hgh := reparametrized_makeOptional hform i
  obtain ⟨hargs, hargs'⟩ := sameArguments_makeOptional hg hform hp hrequired hproper hbound
  have hlevel := (keepsLevelTo hgh hargs r depth).1 (.node id)
  have hlevel' := (keepsLevelTo hgh.symm hargs' r depth).1 (.node id)
  refine ⟨⟨fun ⟨s, d, hrun⟩ => ?_, fun ⟨s, d, hrun⟩ => ?_⟩, fun s d s' d' hrun hrun' => ?_⟩
  · obtain ⟨s', d', hrun', -⟩ := hlevel.ok (.refl c) hrun
    exact ⟨s', d', hrun'⟩
  · obtain ⟨s', d', hrun', -⟩ := hlevel'.ok (.refl c) hrun
    exact ⟨s', d', hrun'⟩
  · obtain ⟨s₁, d₁, hrun₁, -, hd⟩ := hlevel.ok (.refl c) hrun
    cases hrun'.symm.trans hrun₁
    refine ⟨hd, ?_⟩
    have hs : reading r g d.lookup (.node id) = some s := ((tellsTo r g depth).1 _ hrun).2
    have hs' : reading r (g.makeOptional id i) d'.lookup (.node id) = some s' :=
      ((tellsTo r _ depth).1 _ hrun').2
    rw [← hd.lookup_eq] at hs'
    cases hfind : r.registry.find? f.symbol with
    | none => exact reading_makeOptional hg hform hp hrequired hproper hbound hfind hs hs'
    | some known =>
        rw [reading_eq] at hs hs'
        have hknown := specBy_of_known hform hfind hs
        exact ⟨hknown, (specBy_of_known (form_makeOptional hform i) hfind hs').trans hknown.symm⟩

/-- A function that takes an item, which has the function for a member, and a string or a number. -/
def itemGraph : TypeGraph :=
  ⟨TypeGraph.initial.nodes ++ #[
    ⟨.function ⟨[⟨"item", 12, false⟩, ⟨"label", 13, false⟩], voidId, none⟩, none⟩,
    ⟨.record ⟨some "Item", [⟨"pick", some 11, false, none⟩], none, [], []⟩, none⟩,
    ⟨.union [stringId, numberId], none⟩]⟩

theorem itemGraph_proper : itemGraph.Proper 13 := by
  have hstring : ∀ inner, itemGraph.form stringId ≠ .union inner := by
    rintro inner ⟨⟩
  have hnumber : ∀ inner, itemGraph.form numberId ≠ .union inner := by
    rintro inner ⟨⟩
  intro members hform
  cases hform
  exact ⟨_, .leaf hstring (.leaf hnumber .nothing), by decide⟩

open Components in
/-- The label is a string or a number either way, and nullable if it need not be given. -/
theorem optional_label_is_nullable : ∃ d d',
    (specTo lenientRules.toRules itemGraph itemGraph.classifyDepth (.node 11)).run .fresh =
      (.ok ⟨.fn [⟨.ref 0, false⟩, ⟨.union [.string, .number], false⟩] ⟨.void, false⟩, false⟩, d) ∧
    (specTo lenientRules.toRules (itemGraph.makeOptional 11 1) itemGraph.classifyDepth
      (.node 11)).run .fresh =
      (.ok ⟨.fn [⟨.ref 0, false⟩, ⟨.union [.string, .number], true⟩] ⟨.void, false⟩, false⟩, d') ∧
    d.Level d' := by
  have hform : itemGraph.form 11 = .function
    ⟨[⟨"item", 12, false⟩, ⟨"label", 13, false⟩], voidId, none⟩ := rfl
  obtain ⟨⟨hmade, -⟩, hall⟩ := optional_parameter_is_nullable lenientRules.toRules
    (hasPrimitives_append _) hform (i := 1) rfl rfl itemGraph_proper rfl itemGraph.classifyDepth
    .fresh
  have hrequired : ((specTo lenientRules.toRules itemGraph itemGraph.classifyDepth
      (.node 11)).run .fresh).1 = .ok ⟨.fn [⟨.ref 0, false⟩, ⟨.union [.string, .number], false⟩]
        ⟨.void, false⟩, false⟩ := by rfl
  have hrun := Pass.run_eq_of_fst hrequired
  obtain ⟨s', d', hrun'⟩ := hmade ⟨_, _, hrun⟩
  obtain ⟨hlevel, args, result, -, hs, rfl⟩ := hall _ _ _ _ hrun hrun'
  cases hs
  exact ⟨_, d', hrun, hrun', hlevel⟩

/-- A function that takes a value of a type parameter, of which strings are the bound. -/
def boundGraph : TypeGraph :=
  ⟨TypeGraph.initial.nodes ++ #[
    ⟨.parameter "T" (some stringId), none⟩,
    ⟨.function ⟨[⟨"x", 11, false⟩], voidId, none⟩, none⟩]⟩

open Components in
/-- Not every optional parameter is of the prop type that it has when it is required: only then is a
type parameter with a bound taken for its bound. -/
theorem not_every_optional_parameter_keeps_its_type : ¬ ∀ (r : Rules) (g : TypeGraph) (id : NodeId)
    (f : FunctionType) (i : Nat) (p : Parameter) (s s' : PropSpec) (d d' : Context),
    g.HasPrimitives → g.form id = .function f → f.parameters[i]? = some p → p.optional = false →
    g.Proper p.type → r.registry.find? f.symbol = none →
    (spec r g (.node id)).run .fresh = (.ok s, d) →
    (spec r (g.makeOptional id i) (.node id)).run .fresh = (.ok s', d') →
      ∃ args result, s = ⟨.fn args result, false⟩ ∧
        s' = ⟨.fn (args.modify i orUndefined) result, false⟩ := by
  intro h
  have hrequired : ((spec lenientRules.toRules boundGraph (.node 12)).run .fresh).1 =
      .ok ⟨.fn [⟨.string, false⟩] ⟨.void, false⟩, false⟩ := by rfl
  have hoptional : ((spec lenientRules.toRules (boundGraph.makeOptional 12 0) (.node 12)).run
      .fresh).1 = .ok ⟨.fn [⟨.any, true⟩] ⟨.void, false⟩, false⟩ := by rfl
  have hproper : boundGraph.Proper 11 := by
    rintro members ⟨⟩
  obtain ⟨args, result, hs, hs'⟩ := h lenientRules.toRules boundGraph 12 _ 0 _ _ _ _ _
    (hasPrimitives_append _) rfl rfl rfl hproper rfl (Pass.run_eq_of_fst hrequired)
    (Pass.run_eq_of_fst hoptional)
  cases hs
  cases hs'

end Classify

end PropSchema
