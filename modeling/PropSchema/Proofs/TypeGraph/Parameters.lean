import PropSchema.Proofs.Classify.Partials
/-!
Graphs that differ in the parameters of one function. Whatever else is asked of a type does not look
at parameters: its leaves, its shape, its properties and what it is stripped to are the same, and
the function alone may be made up otherwise.
-/
namespace PropSchema

/-- A function of which one parameter is optional. -/
def FunctionType.makeOptional (f : FunctionType) (i : Nat) : FunctionType :=
  { f with parameters := f.parameters.modify i fun p => { p with optional := true } }

namespace TypeGraph

theorem SameBasis.refl {g : TypeGraph} (use : TypeUse) : g.SameBasis use use := ⟨rfl, rfl⟩

theorem SameBasis.symm {g : TypeGraph} {use use' : TypeUse} (h : g.SameBasis use use') :
    g.SameBasis use' use :=
  ⟨h.symbol.symm, h.makeup.symm⟩

/-- Two graphs that are the same but for the parameters of one function, whose types stay. -/
structure Reparametrized (id : NodeId) (g h : TypeGraph) : Prop where
  size : g.size = h.size
  forms : ∀ other, other ≠ id → g.form other = h.form other
  shown : g.shown id = h.shown id
  function : ∃ f f', g.form id = .function f ∧ h.form id = .function f' ∧ f.result = f'.result ∧
    f.symbol = f'.symbol

namespace Reparametrized
variable {id other : NodeId} {g h : TypeGraph} (hgh : Reparametrized id g h)
include hgh

theorem symm : Reparametrized id h g := by
  obtain ⟨f, f', hf, hf', hresult, hsymbol⟩ := hgh.function
  exact ⟨hgh.size.symm, fun other hne => (hgh.forms other hne).symm, hgh.shown.symm,
    f', f, hf', hf, hresult.symm, hsymbol.symm⟩

/-- The two graphs have the same form at a place, or functions that go by one name. -/
theorem form_cases (other : NodeId) : g.form other = h.form other ∨
    ∃ f f', g.form other = .function f ∧ h.form other = .function f' ∧ f.symbol = f'.symbol := by
  by_cases hne : other = id
  · obtain ⟨f, f', hf, hf', -, hsymbol⟩ := hgh.function
    exact .inr ⟨f, f', hne ▸ hf, hne ▸ hf', hsymbol⟩
  · exact .inl (hgh.forms other hne)

theorem form_primitive {name : String} (hform : g.form other = .primitive name) :
    h.form other = .primitive name := by
  obtain heq | ⟨f, f', hf, -⟩ := hgh.form_cases other
  · exact heq.symm.trans hform
  · cases hform.symm.trans hf

theorem depth_eq : g.depth = h.depth := congrArg (· + 1) hgh.size

theorem form_union_iff {members : List NodeId} :
    g.form other = .union members ↔ h.form other = .union members := by
  obtain heq | ⟨f, f', hf, hf', -⟩ := hgh.form_cases other
  · rw [heq]
  · rw [hf, hf']
    simp

theorem symbol_eq : g.symbol other = h.symbol other := by
  unfold symbol
  obtain heq | ⟨f, f', hf, hf', hsymbol⟩ := hgh.form_cases other
  · rw [heq]
  · rw [hf, hf']
    exact hsymbol

theorem isNullish_eq : g.isNullish = h.isNullish := by
  funext other
  unfold isNullish
  obtain heq | ⟨f, f', hf, hf', -⟩ := hgh.form_cases other
  · rw [heq]
  · rw [hf, hf']

theorem constraint?_eq : g.constraint? other = h.constraint? other := by
  unfold constraint?
  obtain heq | ⟨f, f', hf, hf', -⟩ := hgh.form_cases other
  · rw [heq]
  · rw [hf, hf']

theorem members?_eq (use : TypeUse) : g.members? use = h.members? use := by
  cases use with
  | union leaves => rfl
  | node other =>
      unfold members?
      dsimp only
      obtain heq | ⟨f, f', hf, hf', -⟩ := hgh.form_cases other
      · rw [heq]
      · rw [hf, hf']

theorem leavesTo_eq (depth : Nat) (members : List NodeId) :
    g.leavesTo depth members = h.leavesTo depth members := by
  induction depth generalizing members with
  | zero => rfl
  | succ depth ih =>
      rw [leavesTo, leavesTo]
      congr 1
      funext leaves member
      obtain heq | ⟨f, f', hf, hf', -⟩ := hgh.form_cases member
      · rw [heq]
        simp only [ih]
      · rw [hf, hf']

theorem leaves_eq : g.leaves = h.leaves := by
  funext members
  rw [leaves, leaves, hgh.depth_eq, hgh.leavesTo_eq]

theorem unionLeaves?_eq : g.unionLeaves? = h.unionLeaves? := by
  funext use
  rw [unionLeaves?, unionLeaves?, hgh.members?_eq, hgh.leaves_eq]

theorem isNullable_eq (use : TypeUse) : g.isNullable use = h.isNullable use := by
  rw [isNullable, isNullable, hgh.unionLeaves?_eq, hgh.isNullish_eq]

theorem stripped_eq (use : TypeUse) : g.stripped use = h.stripped use := by
  rw [stripped, stripped, hgh.isNullable_eq, nonNullable, nonNullable, hgh.members?_eq, hgh.leaves_eq,
    hgh.isNullish_eq]

theorem isVoidLikeTo_eq (depth : Nat) : g.isVoidLikeTo depth = h.isVoidLikeTo depth := by
  induction depth with
  | zero => rfl
  | succ depth ih =>
      funext other
      rw [isVoidLikeTo, isVoidLikeTo, ih]
      obtain heq | ⟨f, f', hf, hf', -⟩ := hgh.form_cases other
      · rw [heq]
      · rw [hf, hf']

theorem isVoidLike_eq (use : TypeUse) : g.isVoidLike use = h.isVoidLike use := by
  cases use <;> rw [isVoidLike, isVoidLike, hgh.depth_eq, hgh.isVoidLikeTo_eq]

theorem isRecordTo_eq (depth : Nat) : g.isRecordTo depth = h.isRecordTo depth := by
  induction depth with
  | zero => rfl
  | succ depth ih =>
      funext other
      rw [isRecordTo, isRecordTo, ih]
      obtain heq | ⟨f, f', hf, hf', -⟩ := hgh.form_cases other
      · rw [heq]
      · rw [hf, hf']

theorem isRecord_eq : g.isRecord = h.isRecord := by
  funext other
  rw [isRecord, isRecord, hgh.depth_eq, hgh.isRecordTo_eq]

theorem shape_eq (use : TypeUse) : g.shape use = h.shape use := by
  unfold shape
  rw [hgh.isVoidLike_eq]
  cases use with
  | union leaves => rfl
  | node other =>
      dsimp only
      unfold nodeShape
      rw [hgh.isRecord_eq]
      obtain heq | ⟨f, f', hf, hf', -⟩ := hgh.form_cases other
      · rw [heq]
      · rw [hf, hf']

theorem propertiesTo_eq (depth : Nat) : g.propertiesTo depth = h.propertiesTo depth := by
  induction depth with
  | zero => rfl
  | succ depth ih =>
      funext other
      rw [propertiesTo, propertiesTo, ih]
      obtain heq | ⟨f, f', hf, hf', -⟩ := hgh.form_cases other
      · rw [heq]
      · rw [hf, hf']

theorem propertiesOf_eq (use : TypeUse) : g.propertiesOf use = h.propertiesOf use := by
  cases use with
  | union leaves => rfl
  | node other =>
      rw [propertiesOf, propertiesOf, properties, properties, hgh.depth_eq, hgh.propertiesTo_eq]

theorem symbolOf_eq (use : TypeUse) : g.symbolOf use = h.symbolOf use := by
  cases use with
  | union leaves => rfl
  | node other => exact hgh.symbol_eq

theorem optionalUse_eq : g.optionalUse = h.optionalUse := by
  funext t optional
  rw [TypeGraph.optionalUse, TypeGraph.optionalUse, unionUse, unionUse, hgh.leaves_eq]

theorem propertyUse?_eq (p : Property) : g.propertyUse? p = h.propertyUse? p := by
  rw [propertyUse?, propertyUse?, hgh.optionalUse_eq]

theorem parameterUse_eq : Classify.parameterUse g = Classify.parameterUse h := by
  funext use
  cases use with
  | union leaves => rfl
  | node other => rw [Classify.parameterUse, Classify.parameterUse, hgh.constraint?_eq]

theorem makeup_eq {use : TypeUse} (hne : use ≠ .node id) : g.makeup use = h.makeup use := by
  unfold makeup
  rw [hgh.shape_eq, hgh.unionLeaves?_eq]
  cases use with
  | union leaves => cases h.shape (.union leaves) <;> rfl
  | node other =>
      have hform : g.form other = h.form other := hgh.forms other fun heq => hne (heq ▸ rfl)
      have hmakeup : g.formMakeup other = h.formMakeup other := by
        rw [formMakeup, formMakeup, signature?, signature?, hform, hgh.optionalUse_eq]
      cases h.shape (.node other)
      case void | string | number | boolean | any | union | object => rfl
      all_goals exact hmakeup

omit hgh in
theorem textless_of_textless (hgh : Reparametrized id g h) (hnone : g.Textless other) :
    h.Textless other := by
  refine Textless.of_shown (R := Eq) (fun a b hab => ?_) rfl hnone
  subst hab
  have hshown : g.shown a = h.shown a := by
    by_cases hne : a = id
    · rw [hne, hgh.shown]
    · rw [TypeGraph.shown, TypeGraph.shown, hgh.forms a hne]
  refine ⟨?_, _, _, .refl _, hshown ▸ .refl _, List.forall₂_same.mpr fun _ _ => rfl⟩
  rintro ⟨value, hform, htext⟩
  obtain heq | ⟨f, f', hf, -⟩ := hgh.form_cases a
  · exact ⟨value, heq.symm.trans hform, htext⟩
  · cases hform.symm.trans hf

/-- Types have a text in both graphs or in neither. -/
theorem isSome_render_eq (use : TypeUse) : (g.render use).isSome = (h.render use).isSome := by
  have htextless : ∀ other, g.Textless other ↔ h.Textless other := fun other =>
    ⟨hgh.textless_of_textless, hgh.symm.textless_of_textless⟩
  rw [Bool.eq_iff_iff, ← not_iff_not, Option.not_isSome_iff_eq_none, Option.not_isSome_iff_eq_none]
  cases use with
  | node other => rw [render_node_eq_none_iff, render_node_eq_none_iff, htextless]
  | union leaves =>
      rw [render_union_eq_none_iff, render_union_eq_none_iff]
      simp only [htextless]

theorem declaredNameOf_eq (use : TypeUse) : g.declaredNameOf use = h.declaredNameOf use := by
  cases use with
  | union leaves => rfl
  | node other =>
      rw [declaredNameOf, declaredNameOf, declaredName, declaredName]
      obtain heq | ⟨f, f', hf, hf', -⟩ := hgh.form_cases other
      · rw [heq]
      · rw [hf, hf']

/-- Records can be reported in both graphs or in neither. -/
theorem isSome_slotTitle_eq (use : TypeUse) :
    (Classify.slotTitle g use).isSome = (Classify.slotTitle h use).isSome := by
  rw [Classify.slotTitle, Classify.slotTitle, hgh.declaredNameOf_eq]
  split
  · rfl
  · exact hgh.isSome_render_eq use

/-- A type that brings leaves into a union brings the same. -/
theorem brings {members ids : List NodeId} (hb : g.Brings members ids) : h.Brings members ids := by
  induction hb with
  | nothing => exact .nothing
  | leaf hform _ ih => exact .leaf (fun inner hinner => hform inner (hgh.form_union_iff.mpr hinner)) ih
  | union hform hne _ _ ih ih' => exact .union (hgh.form_union_iff.mp hform) hne ih ih'

theorem proper {t : NodeId} (ht : g.Proper t) : h.Proper t := by
  intro members hform
  obtain ⟨ids, hb, htwo⟩ := ht members (hgh.form_union_iff.mpr hform)
  exact ⟨ids, hgh.brings hb, htwo⟩

end Reparametrized

section Optional
variable {g : TypeGraph} {id : NodeId} {f : FunctionType}

/-- The graph in which one parameter of a function is optional. -/
def makeOptional (g : TypeGraph) (id : NodeId) (i : Nat) : TypeGraph :=
  match g.form id with
  | .function f => g.setForm id (.function (f.makeOptional i))
  | _ => g

theorem lt_size_of_function (hform : g.form id = .function f) : id < g.size := by
  refine Nat.lt_of_not_le fun hle => ?_
  rw [form_of_size_le hle] at hform
  cases hform

theorem makeOptional_eq (hform : g.form id = .function f) (i : Nat) :
    g.makeOptional id i = g.setForm id (.function (f.makeOptional i)) := by
  rw [makeOptional, hform]

theorem form_makeOptional (hform : g.form id = .function f) (i : Nat) :
    (g.makeOptional id i).form id = .function (f.makeOptional i) := by
  rw [makeOptional_eq hform, form_setForm (lt_size_of_function hform), if_pos rfl]

theorem reparametrized_makeOptional (hform : g.form id = .function f) (i : Nat) :
    Reparametrized id g (g.makeOptional id i) := by
  have heq := makeOptional_eq hform i
  refine ⟨?_, fun other hne => ?_, ?_, f, f.makeOptional i, hform, form_makeOptional hform i, rfl,
    rfl⟩
  · rw [heq, size_setForm]
  · rw [heq, form_setForm (lt_size_of_function hform), if_neg hne]
  · have hsame := @Sequences.forall₂_modify Parameter (fun p q => p.type = q.type) (fun _ => rfl)
      (fun p => { p with optional := true }) f.parameters i fun _ _ => rfl
    have htypes := List.forall₂_map_left_iff.mpr (List.forall₂_map_right_iff.mpr hsame)
    rw [List.forall₂_eq_eq_eq] at htypes
    rw [shown, shown, form_makeOptional hform i, hform]
    exact congrArg (· ++ [f.result]) htypes

/-- A function is made up of what its parameters are used as. -/
theorem makeup_of_function (hform : g.form id = .function f) : g.makeup (.node id) =
    .function ⟨f.parameters.map fun p => (p.name, g.optionalUse p.type p.optional), f.result⟩ := by
  have hvoid : g.isVoidLike (.node id) = false := by
    rw [isVoidLike, depth, isVoidLikeTo, hform]
  have hnode : g.nodeShape id = .callable := by
    unfold nodeShape
    rw [hform]
  have hshape : g.shape (.node id) = .callable := by
    rw [shape.eq_def, hvoid]
    exact hnode
  have hsignature : g.signature? id =
      some ⟨f.parameters.map fun p => (p.name, g.optionalUse p.type p.optional), f.result⟩ := by
    rw [signature?, hform]
  unfold makeup
  rw [hshape]
  dsimp only
  rw [formMakeup, hform, hsignature]

end Optional

end TypeGraph

end PropSchema
