import PropSchema.Proofs.Scan
import PropSchema.Proofs.TypeScript.Sound
/-!
Lenient scans. Whatever types a source declares, once they are resolved the scan has a valid outcome,
unless the bound of a type parameter leads back to a function that takes it, or a literal type is
too long to be reported. A function of the first kind has no schema to any depth.
-/
namespace PropSchema.Scan

open TypeScript TypeGraph

/-- Whether lenient scans have valid outcomes wherever the types are resolved. -/
def LenientSucceeds : Prop :=
  ∀ {rules : ComponentRules} {src : Source}, rules.policy = .lenient → rules.registry.Plain →
    (src.exportedClasses.run .initial).isSome → ∃ x, (ofSource rules src).outcome = .ok x ∧ x.Valid

/-- By lenient rules a source whose types are resolved has a valid outcome, or else it is refused:
for depth, and in its types there is a bound that leads back to its function, or for the want of a
text, and one of its types is a literal with more digits than are written. Every registry that is
made by adding names is plain, see `Registry.plain_of_extend`. -/
theorem lenient_succeeds {rules : ComponentRules} {src : Source} {classes : List NodeId}
    {r : Resolution} (lenient : rules.policy = .lenient) (plain : rules.registry.Plain)
    (resolved : src.exportedClasses.run .initial = some (classes, r)) :
    (∃ x, (ofSource rules src).outcome = .ok x ∧ x.Valid) ∨
      (ofSource rules src).outcome = .error .tooDeep ∧ r.graph.BoundLoop ∨
      (ofSource rules src).outcome = .error .unwritable ∧ ∃ id, r.graph.TooLong id := by
  have hsound : r.graph.Sound := (Source.Reached.initial.exportedClasses resolved).sound
  rw [outcome_eq resolved]
  exact Components.find_lenient lenient plain hsound.declared hsound.primitives.undefined
    hsound.parts rfl

/-- The record of the views leads to itself, but no bound leads back to a function. -/
theorem views_succeed : ∃ x,
    (ofSource Components.lenientRules (.ofModule Views.views)).outcome = .ok x ∧ x.Valid := by
  have hsketch : sketch (ofSource Components.lenientRules (.ofModule Views.views)).outcome =
      some ([⟨"First", 0⟩, ⟨"Second", 1⟩], [[true], [true, false]]) := by decide +kernel
  have hresolved : ((Source.ofModule Views.views).exportedClasses.run .initial).isSome := by
    decide +kernel
  obtain ⟨⟨classes, r⟩, hrun⟩ := Option.isSome_iff_exists.mp hresolved
  obtain ⟨x, hx, -⟩ := exists_of_sketch hsketch
  have hlenient : Components.lenientRules.policy = .lenient := rfl
  obtain hvalid | ⟨hdeep, -⟩ | ⟨hlong, -⟩ :=
    lenient_succeeds hlenient Registry.plain_builtin hrun
  · exact hvalid
  · rw [hx] at hdeep
    cases hdeep
  · rw [hx] at hlong
    cases hlong

/-- A callback that takes what it is the bound of, in arrays of arrays. -/
def callback : TypeExpr :=
  Nat.repeat (.array · ⟨2, 27⟩) 49 (.parenthesized (.function
    ⟨[], [⟨"x", some (.reference (.simple "T") [] ⟨2, 32⟩), false⟩],
      some (.keyword "void" ⟨2, 38⟩)⟩ ⟨2, 28⟩))

/--
A method whose type parameter is bound by arrays of callbacks that take it. After the import of
`React`, with as many brackets as there are arrays:

    interface P { f<T extends ((x: T) => void)[]>(x: T): void }
    export class A extends React.Component<P> {}
-/
def callbacks : Module := ⟨"Callbacks.tsx", [.imports "react" [.whole "React"],
  .declaration (.interfaceDecl ⟨"P", [], [],
    [.method "f" ⟨[⟨"T", some callback, none, ⟨2, 17⟩⟩],
      [⟨"x", some (.reference (.simple "T") [] ⟨2, 146⟩), false⟩],
      some (.keyword "void" ⟨2, 150⟩)⟩ false ⟨2, 15⟩], ⟨2, 1⟩⟩),
  .exportDeclaration (.classDecl ⟨some "A", [], [⟨.dotted ⟨"React", ".Component"⟩,
    [.reference (.simple "P") [] ⟨3, 40⟩], ⟨3, 24⟩⟩], [], ⟨3, 8⟩⟩)]⟩

/-- The callback, the arrays around it and the method. -/
def round : List NodeId := List.range' 14 51

/-- What the class, its props and their method are made to. -/
def LeadsRound (classes : List NodeId) (g : TypeGraph) : Prop :=
  Components.distinctClasses g classes = [11] ∧
    (g.bases 11).find? (Components.derives g Components.defaultMarkers) = some 65 ∧
    g.arguments 65 = [12] ∧ g.isNullable (.node 12) = false ∧
    (g.properties 12).map g.propertyUse? = [some (.node 64)] ∧
    Classify.slotTitle g (.node 12) = some "P" ∧ Classify.GoesRound g round

instance (classes : List NodeId) (g : TypeGraph) : Decidable (LeadsRound classes g) := by
  unfold LeadsRound
  infer_instance

/-- Where the only class has such props, the search for components is refused for depth. -/
theorem LeadsRound.find_tooDeep {classes : List NodeId} {g : TypeGraph} (h : LeadsRound classes g) :
    ((Components.find Components.lenientRules g classes).run .fresh).1 = .error .tooDeep := by
  obtain ⟨hclasses, hbase, harguments, hnullable, hproperties, htitle, hround⟩ := h
  obtain ⟨p, hp, huse⟩ := List.map_eq_singleton_iff.mp hproperties
  have hslot : ((Classify.propsSlot Components.lenientRules.toRules g (.node 12)).run .fresh).1 =
      .error .tooDeep := by
    rw [Classify.propsSlot, if_neg (by simp [hnullable])]
    have hprops : g.propertiesOf (.node 12) = p :: [] := hp
    exact Classify.slotTo_tooDeep hround (by decide) huse hprops htitle rfl _
  rcases hrun : (Classify.propsSlot Components.lenientRules.toRules g (.node 12)).run .fresh
    with ⟨outcome, c⟩
  obtain rfl : outcome = .error .tooDeep := (congrArg Prod.fst hrun).symm.trans hslot
  have hclass : (Components.ofClass Components.lenientRules g 11).run .fresh =
      (.error .tooDeep, c) := by
    have hmarkers : Components.lenientRules.markers = Components.defaultMarkers := rfl
    rw [Components.ofClass, hmarkers, hbase]
    dsimp only
    rw [harguments]
    exact Pass.run_bind_error hrun _
  have hall : ((Components.distinctClasses g classes).mapM
      (Components.ofClass Components.lenientRules g)).run .fresh = (.error .tooDeep, c) := by
    rw [hclasses, List.mapM_cons]
    exact Pass.run_bind_error hclass _
  exact congrArg Prod.fst (Pass.run_bind_error hall _)

/-- The types are resolved, but the arrays and the callback lead round to no end. -/
theorem not_lenientSucceeds : ¬ LenientSucceeds := by
  intro hall
  have hsketch : ((Source.ofModule callbacks).exportedClasses.run .initial).any
      (fun p => decide (LeadsRound p.1 p.2.graph)) = true := by decide +kernel
  obtain ⟨⟨classes, r⟩, hrun, hround⟩ := (Option.any_eq_true _ _).mp hsketch
  have hlenient : Components.lenientRules.policy = .lenient := rfl
  obtain ⟨x, hx, -⟩ := hall hlenient Registry.plain_builtin
    (Option.isSome_iff_exists.mpr ⟨_, hrun⟩)
  rw [outcome_eq hrun, (of_decide_eq_true hround).find_tooDeep] at hx
  cases hx

end PropSchema.Scan
