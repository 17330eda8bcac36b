import PropSchema.Proofs.TypeScript.Framework
/-!
The parts of types in step with their labels: type parameters, functions, properties and members of
enums, given that the types within them are. What is open in the resolution is what the scene tells.
-/
namespace PropSchema.TypeScript

open Resolve

/-- A name of an alias that is no object type. -/
def RootedScope.IsAlias (sc : RootedScope) (name : String) : Prop :=
  ∃ first more, sc.find? name = some (.aliases first more) ∧
    ¬ (Named.aliases first more).isRecord

/-- What is open in a resolution is what a scene tells, where the text of an owner is read. -/
structure Agrees (sc : RootedScope) (s : Scene) (owner : Owner) (o : Opens)
    (labels : List Label) : Prop where
  reader : owner.mention? = s.reader
  shut : ∀ u ∈ s.shut, ∃ i, owner.Means u i ∧ i ∈ o.aliases ∧ sc.IsAlias i.1
  known : ∀ u ∈ s.known, ∃ i, owner.Means u i ∧ .declared i.1 i.2 ∈ labels
  begun : ∀ i ∈ o.hidden, (i.1, i.2.length) ∈ s.begun
  filling : ∀ {name arguments form}, (.declared name arguments, form) ∈ o.unfilled →
    (name, arguments.length) ∈ s.filling

/-- A name stands for a node and for its label. -/
structure SameBinding (labels : List Label) (p : String × NodeId) (q : String × Label) : Prop where
  name : p.1 = q.1
  label : At labels p.2 q.2

/-- Names are bound at a point in a text, those of its type parameters to its arguments. -/
structure Placed (owner : Owner) (names : Names) (bound : Binders) : Prop where
  free : ∀ {name}, names.lookup name = none → bound.lookup name = none
  positions : ∀ {name index}, bound.lookup name = some (some index) →
    ∃ label, names.lookup name = some label ∧ owner.arguments[index]? = some label

/-- What the names stand for that are bound at a point in a text. -/
structure Stands (owner : Owner) (labels : List Label) (bindings : Bindings) (names : Names)
    (bound : Binders) : Prop where
  bindings : List.Forall₂ (SameBinding labels) bindings names
  placed : Placed owner names bound

/-- A point in the text of an owner. -/
structure InScope (sc : RootedScope) (s : Scene) (owner : Owner) (o : Opens) (labels : List Label)
    (bindings : Bindings) (names : Names) (bound : Binders) : Prop where
  agrees : Agrees sc s owner o labels
  names : Stands owner labels bindings names bound

/-- A way to resolve types that goes as their labels say. -/
def ResolverTracks (sc : RootedScope) (sites : Nat → Option (ClassSite × String))
    (resolve : Resolver) : Prop :=
  ∀ {s owner o labels bindings names bound type},
    InScope sc s owner o labels bindings names bound →
    sc.Visits s (TypeExpr.references bound type) →
    Tracks sc sites owner o labels (resolve bindings type) (sc.labelOf owner names type)
      (fun _ => o) At

/-- A type parameter with a bound is there before the bound is resolved. -/
theorem bindTypeParam_run {sc : Scope} {resolve : Resolver} {bindings : Bindings}
    {param : TypeParam TypeExpr} {type : TypeExpr} (hfallback : param.fallback = none)
    (hbound : param.bound = some type) (r : Resolution) :
    sc.bindTypeParam resolve bindings param none r =
      (resolve ((param.name, r.graph.size) :: bindings) type { r with
        graph := (r.graph.push (.parameter param.name none)
          (some (sc.location param.place))).2 }).bind fun (constraint, r₂) =>
        some ((param.name, r.graph.size) :: bindings, { r₂ with
          graph := r₂.graph.setForm r.graph.size (.parameter param.name (some constraint)) }) := by
  simp only [Scope.bindTypeParam, hfallback, hbound]
  rfl

theorem Owner.Means.eq {owner : Owner} {u : Reference} {i j : LabelledInstance}
    (h : owner.Means u i) (h' : owner.Means u j) : i = j := by
  have harguments : ∀ {positions : List (Option Nat)} {ls ls' : List Label},
      List.Forall₂ (fun position label => ∃ index, position = some index ∧
        owner.arguments[index]? = some label) positions ls →
      List.Forall₂ (fun position label => ∃ index, position = some index ∧
        owner.arguments[index]? = some label) positions ls' → ls = ls' := by
    intro positions ls ls' hl hl'
    refine List.right_unique_forall₂' ?_ hl hl'
    rintro _ l l' ⟨index, rfl, hlabel⟩ ⟨_, he, hlabel'⟩
    cases he
    exact Option.some.inj (hlabel.symm.trans hlabel')
  exact Prod.ext (h.name.symm.trans h'.name) (harguments h.arguments h'.arguments)

namespace Agrees
variable {sc : RootedScope} {s : Scene} {owner : Owner} {o : Opens} {labels labels' : List Label}

theorem mono (hpre : labels <+: labels') (h : Agrees sc s owner o labels) :
    Agrees sc s owner o labels' := by
  refine ⟨h.reader, h.shut, ?_, h.begun, h.filling⟩
  intro u hu
  obtain ⟨i, hmeans, hm⟩ := h.known u hu
  exact ⟨i, hmeans, hpre.subset hm⟩

theorem fill (h : Agrees sc s owner o labels) {label : Label} {form : TypeForm Label}
    (hfilling : ∀ {name arguments}, label = .declared name arguments →
      (name, arguments.length) ∈ s.filling) : Agrees sc s owner (o.fill label form) labels := by
  refine ⟨h.reader, h.shut, h.known, h.begun, ?_⟩
  intro name arguments form hm
  obtain he | hm := List.mem_cons.mp hm
  · cases he
    exact hfilling rfl
  · exact h.filling hm

end Agrees

theorem Placed.cons {owner : Owner} {names : Names} {bound : Binders}
    (h : Placed owner names bound) {name : String} {label : Label} {position : Option Nat}
    (hposition : ∀ index, position = some index → owner.arguments[index]? = some label) :
    Placed owner ((name, label) :: names) ((name, position) :: bound) := by
  refine ⟨?_, ?_⟩
  · intro other hl
    rw [List.lookup_cons] at hl ⊢
    split at hl
    · cases hl
    · exact h.free hl
  · intro other index hl
    rw [List.lookup_cons] at hl ⊢
    split at hl
    · cases hl
      exact ⟨label, rfl, hposition index rfl⟩
    · exact h.positions hl

namespace Stands
variable {owner : Owner} {labels labels' : List Label} {bindings : Bindings} {names : Names}
  {bound : Binders}

theorem nil : Stands owner labels [] [] [] := ⟨.nil, fun _ => rfl, nofun⟩

theorem mono (hpre : labels <+: labels') (h : Stands owner labels bindings names bound) :
    Stands owner labels' bindings names bound :=
  ⟨h.bindings.imp fun _ _ hb => ⟨hb.name, hb.label.mono hpre⟩, h.placed⟩

theorem cons (h : Stands owner labels bindings names bound) {name : String} {id : NodeId}
    {label : Label} (ha : At labels id label) :
    Stands owner labels ((name, id) :: bindings) ((name, label) :: names)
      ((name, none) :: bound) :=
  ⟨.cons ⟨rfl, ha⟩ h.bindings, h.placed.cons nofun⟩

theorem lookup_rel (h : Stands owner labels bindings names bound) (name : String) :
    Option.Rel (At labels) (bindings.lookup name) (names.lookup name) := by
  have hb := h.bindings
  clear h
  induction hb with
  | nil => exact .none
  | @cons p q _ _ hpq _ ih =>
      rw [List.lookup_cons, List.lookup_cons, hpq.name]
      split
      · exact .some hpq.label
      · exact ih

end Stands

namespace InScope
variable {sc : RootedScope} {s : Scene} {owner : Owner} {o : Opens} {labels labels' : List Label}
  {bindings : Bindings} {names : Names} {bound : Binders}

theorem mono (hpre : labels <+: labels')
    (h : InScope sc s owner o labels bindings names bound) :
    InScope sc s owner o labels' bindings names bound :=
  ⟨h.agrees.mono hpre, h.names.mono hpre⟩

/-- A name that is not a type parameter of the text. -/
theorem cons (h : InScope sc s owner o labels bindings names bound) {name : String} {id : NodeId}
    {label : Label} (ha : At labels id label) :
    InScope sc s owner o labels ((name, id) :: bindings) ((name, label) :: names)
      ((name, none) :: bound) :=
  ⟨h.agrees, h.names.cons ha⟩

/-- A type parameter is not what an interface could copy from, so it may be filled anywhere. -/
theorem fill_parameter (h : InScope sc s owner o labels bindings names bound) {owner' : Owner}
    {index : Nat} {param : TypeParam TypeExpr} {names' : Names} {form : TypeForm Label} :
    InScope sc s owner (o.fill (.parameter owner' index param names') form) labels bindings names
      bound :=
  ⟨h.agrees.fill nofun, h.names⟩

end InScope

namespace Tracks
variable {sc : RootedScope} {sites : Nat → Option (ClassSite × String)} {s : Scene}
  {owner : Owner} {o : Opens} {labels : List Label} {resolve : Resolver} {bindings : Bindings}
  {names : Names} {bound : Binders}

/-- The shared primitives are there from the beginning. -/
theorem shared {id : NodeId} (hid : id < TypeGraph.primitiveNames.length) :
    Tracks sc sites owner o labels (Pure.pure id) (Pure.pure (.shared id)) (fun _ => o) At := by
  intro count r id' r' h hm
  cases hm
  exact ⟨_, count, labels, rfl, List.prefix_refl _, h, h.nodes.shared hid⟩

theorem primitive {name : String} {id : NodeId} (hid : TypeGraph.primitive? name = some id) :
    Tracks sc sites owner o labels (Pure.pure id) (Pure.pure (.shared id)) (fun _ => o) At := by
  obtain ⟨hlt, -⟩ := List.findIdx?_eq_some_iff_getElem.mp hid
  exact shared hlt

theorem annotated (hr : ResolverTracks sc sites resolve)
    (hs : InScope sc s owner o labels bindings names bound) {type : Option TypeExpr}
    (hv : sc.Visits s (referencesOfOptional bound type)) :
    Tracks sc sites owner o labels (Scope.annotated resolve bindings type)
      (sc.labelOf.annotatedLabel owner names type) (fun _ => o) At := by
  cases type with
  | none =>
      rw [Labelling.annotatedLabel]
      exact shared (by decide)
  | some type =>
      rw [Labelling.annotatedLabel]
      exact hr hs hv

/-- A type parameter with a bound: its node is there before the bound, and whole after it. -/
theorem boundedParam (hr : ResolverTracks sc sites resolve)
    (hs : InScope sc s owner o labels bindings names bound) {param : TypeParam TypeExpr}
    {type : TypeExpr} (hfallback : param.fallback = none) (hbound : param.bound = some type)
    (hv : sc.Visits s (type.references ((param.name, none) :: bound))) :
    Tracks sc sites owner o labels (sc.bindTypeParam resolve bindings param none)
      (sc.labelOf.bindLabel owner names param none) (fun _ => o) fun labels' bindings names =>
        InScope sc s owner o labels' bindings names ((param.name, none) :: bound) := by
  intro count r bindings' r' h hm
  have hlabels : sc.labelOf.bindLabel owner names param none count =
      (sc.labelOf owner ((param.name, .parameter owner count param names) :: names) type
        (count + 1)).bind fun result =>
          some ((param.name, .parameter owner count param names) :: names, result.2) := by
    rw [Labelling.bindLabel.eq_def]
    simp only [hfallback, hbound]
    rfl
  rw [bindTypeParam_run hfallback hbound] at hm
  obtain ⟨⟨constraint, r₂⟩, hresolve, he⟩ := Option.bind_eq_some_iff.mp hm
  cases he
  have hpre : labels <+: labels ++ [.parameter owner count param names] := List.prefix_append _ _
  have hlast := At.last labels (.parameter owner count param names)
  rw [h.size] at hlast
  have hscope : InScope sc s owner o _ ((param.name, r.graph.size) :: bindings)
      ((param.name, .parameter owner count param names) :: names) ((param.name, none) :: bound) :=
    (hs.mono hpre).cons hlast
  obtain ⟨bound', count', labels', he, hpre', h', hbound'⟩ :=
    hr hscope.fill_parameter hv _ _ _ _ (h.next_parameter (some (sc.location param.place))) hresolve
  have hform : sc.formOf sites (.parameter owner count param names) =
      some (.parameter param.name (some bound')) := by
    simp only [RootedScope.formOf, hbound]
    rw [he]
    rfl
  have hlast' := hlast.mono hpre'
  have hset := Labelled.setForm (o := o.within owner count') h' hlast'
    (.parameter param.name (.some hbound')) (.parameter ..)
  refine ⟨_, count', labels', ?_, hpre.trans hpre', hset.filled hform, hscope.mono hpre'⟩
  rw [hlabels, he]
  rfl

/-- What a type parameter is bound to: nothing more is mentioned if it has an argument. -/
theorem bindTypeParam (hr : ResolverTracks sc sites resolve)
    (hs : InScope sc s owner o labels bindings names bound) {param : TypeParam TypeExpr}
    {argument : Option NodeId} {largument : Option Label}
    (ha : Option.Rel (At labels) argument largument)
    (hv : argument = none → sc.Visits s (referencesOfTypeParam bound param)) :
    Tracks sc sites owner o labels (sc.bindTypeParam resolve bindings param argument)
      (sc.labelOf.bindLabel owner names param largument) (fun _ => o) fun labels' bindings names =>
        InScope sc s owner o labels' bindings names ((param.name, none) :: bound) := by
  cases ha with
  | some ha =>
      rw [Labelling.bindLabel.eq_def]
      exact pure (hs.cons ha)
  | none =>
      have hv := hv rfl
      cases hfallback : param.fallback with
      | some fallback =>
          rw [Labelling.bindLabel.eq_def]
          simp only [Scope.bindTypeParam, hfallback]
          exact (hr hs (hv.of_fallback hfallback)).map fun _ _ _ hpre ha => (hs.mono hpre).cons ha
      | none =>
          cases hbound : param.bound with
          | some type =>
              exact boundedParam hr hs hfallback hbound (hv.of_bound hbound)
          | none =>
              rw [Labelling.bindLabel.eq_def]
              simp only [Scope.bindTypeParam, hfallback, hbound]
              refine map ?_ fun labels' id label hpre ha => (hs.mono hpre).cons ha
              intro count r id r' h hm
              cases hm
              have hform : sc.formOf sites (.parameter owner count param names) =
                  some (.parameter param.name none) := by
                simp only [RootedScope.formOf, hbound]
              have hlast := At.last labels (.parameter owner count param names)
              rw [h.size] at hlast
              exact ⟨_, count + 1, _, rfl, List.prefix_append _ _,
                h.next rfl hform (.parameter param.name .none) (fun he => Label.noConfusion he) _,
                hlast⟩

theorem bindTypeParams (hr : ResolverTracks sc sites resolve)
    (hs : InScope sc s owner o labels bindings names bound) {params : List (TypeParam TypeExpr)}
    {arguments : List NodeId} {largs : List Label}
    (hall : List.Forall₂ (At labels) arguments largs)
    (hv : sc.Visits s (referencesOfUnbound bound arguments.length params)) :
    Tracks sc sites owner o labels (sc.bindTypeParams resolve bindings params arguments)
      (sc.labelOf.bindLabels owner names params largs) (fun _ => o) fun labels' bindings names =>
        InScope sc s owner o labels' bindings names (hideNames bound params) := by
  induction params generalizing labels bindings names bound arguments largs with
  | nil =>
      rw [Labelling.bindLabels.eq_def]
      exact pure hs
  | cons param params ih =>
      rw [Labelling.bindLabels.eq_def]
      have hhead : Option.Rel (At labels) arguments.head? largs.head? := Sequences.head?_rel hall
      have htail : List.Forall₂ (At labels) arguments.tail largs.tail := by
        cases hall with
        | nil => exact .nil
        | cons _ hrest => exact hrest
      have hparam : arguments.head? = none →
          sc.Visits s (referencesOfTypeParam bound param) := by
        intro hnone
        rw [List.head?_eq_none_iff.mp hnone] at hv
        exact hv.of_unbound_head
      have hparams := hv.of_unbound_tail
      rw [← List.length_tail] at hparams
      refine (bindTypeParam hr hs hhead hparam).bind fun labels' bindings' names' hpre hs' => ?_
      exact ih hs' (At.all_mono hpre htail) hparams

theorem parameters (hr : ResolverTracks sc sites resolve)
    (hs : InScope sc s owner o labels bindings names bound) {params : List (Param TypeExpr)}
    (hv : sc.Visits s (referencesOfParams bound params)) :
    Tracks sc sites owner o labels (Scope.parameters resolve bindings params)
      ((params.filter fun p => p.name != "this").mapM fun p => do
        let label ← sc.labelOf.annotatedLabel owner names p.typeExpr
        Pure.pure (⟨p.name, label, p.optional⟩ : Parameter Label)) (fun _ => o)
      fun labels' ps qs => List.Forall₂ (Parameter.Rel (At labels')) ps qs := by
  refine mapM (fun hpre hp => ⟨hp.name, hp.type.mono hpre, hp.optional⟩) ?_
  intro p hp labels' hpre
  have hv' := hv.of_params p (List.mem_of_mem_filter hp)
  exact (annotated hr (hs.mono hpre) hv').map fun _ _ _ _ ha => ⟨rfl, ha, rfl⟩

theorem functionType (hr : ResolverTracks sc sites resolve)
    (hs : InScope sc s owner o labels bindings names bound) {callable : Callable TypeExpr}
    (hv : sc.Visits s (referencesOfCallable bound callable)) (place : Place) :
    Tracks sc sites owner o labels (sc.functionType resolve bindings callable place)
      (sc.labelOf.functionLabel owner names callable) (fun _ => o) At := by
  obtain ⟨typeParams, params, result⟩ := callable
  rw [Labelling.functionLabel.eq_def]
  refine (bindTypeParams hr hs .nil hv.left).bind fun labels₁ bindings₁ names₁ _ hs₁ => ?_
  refine (parameters hr hs₁ hv.right.left).bind fun labels₂ ps qs hpre₂ hps => ?_
  refine (annotated hr (hs₁.mono hpre₂) hv.right.right).bind fun labels₃ id label hpre₃ ha => ?_
  refine make (.function ⟨?_, ha, rfl⟩) nofun _
  exact hps.imp fun _ _ hp => ⟨hp.name, hp.type.mono hpre₃, hp.optional⟩

theorem property (hr : ResolverTracks sc sites resolve)
    (hs : InScope sc s owner o labels bindings names bound) {name : String}
    {typeExpr : Option TypeExpr} {optional : Bool} {place : Place}
    (hv : sc.Visits s (referencesOfOptional bound typeExpr)) :
    Tracks sc sites owner o labels (sc.property resolve bindings name typeExpr optional place)
      (sc.propertyLabel sc.labelOf owner names (.property name typeExpr optional place)) (fun _ => o)
      fun labels' => Property.Rel (At labels') := by
  rw [Scope.propertyLabel.eq_def]
  cases typeExpr with
  | none => exact pure ⟨rfl, .none, rfl, rfl⟩
  | some type =>
      rw [Scope.property_some]
      exact (hr hs hv).map fun _ _ _ _ ha => ⟨rfl, .some ha, rfl, rfl⟩

theorem member (hr : ResolverTracks sc sites resolve)
    (hs : InScope sc s owner o labels bindings names bound) {m : Member TypeExpr}
    (hv : sc.Visits s (referencesOfMember bound m)) :
    Tracks sc sites owner o labels (sc.member resolve bindings m)
      (sc.propertyLabel sc.labelOf owner names m) (fun _ => o)
      fun labels' => Property.Rel (At labels') := by
  cases m with
  | property name typeExpr optional place => exact property hr hs hv
  | method name callable optional place =>
      rw [Scope.propertyLabel.eq_def]
      exact (functionType hr hs hv place).map fun _ _ _ _ ha => ⟨rfl, .some ha, rfl, rfl⟩

theorem members (hr : ResolverTracks sc sites resolve)
    (hs : InScope sc s owner o labels bindings names bound) {ms : List (Member TypeExpr)}
    (hv : sc.Visits s (referencesOfMembers bound ms)) :
    Tracks sc sites owner o labels (ms.mapM (sc.member resolve bindings))
      (ms.mapM fun m => sc.propertyLabel sc.labelOf owner names m) (fun _ => o)
      fun labels' => List.Forall₂ (Property.Rel (At labels')) := by
  refine mapM (fun hpre hp => hp.imp fun _ _ => At.mono hpre) ?_
  intro m hm labels' hpre
  exact member hr (hs.mono hpre) (hv.of_members m hm)

theorem types (hr : ResolverTracks sc sites resolve)
    (hs : InScope sc s owner o labels bindings names bound) {ts : List TypeExpr}
    (hv : sc.Visits s (referencesOfTypes bound ts)) :
    Tracks sc sites owner o labels (ts.mapM (resolve bindings))
      (ts.mapM fun t => sc.labelOf owner names t) (fun _ => o)
      fun labels' => List.Forall₂ (At labels') := by
  refine mapM (fun hpre ha => ha.mono hpre) ?_
  intro t ht labels' hpre
  exact hr (hs.mono hpre) (hv.of_types t ht)

theorem enumMembers {next : Option Numeral} {ms : List EnumMember} :
    Tracks sc sites owner o labels (sc.enumMembers next ms) (Scope.enumLabels owner next ms)
      (fun _ => o) fun labels' => List.Forall₂ (At labels') := by
  induction ms generalizing labels next with
  | nil => exact pure .nil
  | cons m ms ih =>
      have hrest : ∀ {labels₁ id label}, At labels₁ id label →
          Tracks sc sites owner o labels₁
            (sc.enumMembers (Scope.numberAfter (Scope.enumValue next m.initializer)) ms >>=
              fun ids => Pure.pure (id :: ids))
            (Scope.enumLabels owner (Scope.numberAfter (Scope.enumValue next m.initializer)) ms >>=
              fun ls => Pure.pure (label :: ls)) (fun _ => o)
            fun labels' => List.Forall₂ (At labels') :=
        fun ha => ih.map fun _ _ _ hpre hall => .cons (ha.mono hpre) hall
      cases hvalue : Scope.enumValue next m.initializer with
      | some value =>
          rw [hvalue] at hrest
          simp only [Scope.enumMembers, Scope.enumLabels, hvalue]
          exact (make (.literal value) nofun _).bind fun _ _ _ _ ha => hrest ha
      | none =>
          rw [hvalue] at hrest
          simp only [Scope.enumMembers, Scope.enumLabels, hvalue]
          exact (make (.unresolved m.text none) nofun _).bind fun _ _ _ _ ha => hrest ha

theorem enumType {first : EnumDecl} {more : List EnumDecl} :
    Tracks sc sites owner o labels (sc.enumType first more) (Scope.enumLabel owner first more)
      (fun _ => o) At :=
  enumMembers.bind fun _ _ _ _ hall => unionOf hall _

end Tracks

end PropSchema.TypeScript
