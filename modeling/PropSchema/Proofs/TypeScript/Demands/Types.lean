import PropSchema.Proofs.TypeScript.Demands
import PropSchema.Proofs.TypeScript.Exported
/-!
Graphs of modules that are as a demand asks. Every type of such a module is resolved to allowed nodes
only, to whatever depth, and so are the classes that it exports.
-/
namespace PropSchema.TypeScript

open Resolve

namespace Demand
variable {D : Demand} {m : Module} {bound : Nat} {resolve : Resolver} {bindings : Bindings}

/-- A way to resolve types that makes allowed nodes of all that is written in a module. -/
def ResolverObeys (D : Demand) (m : Module) (resolve : Resolver) : Prop :=
  ∀ bound bindings type, m.Writes type → D.Obeys bound (resolve bindings type)

namespace Obeys
variable (hr : D.ResolverObeys m resolve)
include hr

theorem annotated {type : Option TypeExpr} (hw : ∀ t ∈ type, m.Writes t) :
    D.Obeys bound (Scope.annotated resolve bindings type) := by
  cases type with
  | none => exact pure _
  | some type => exact hr _ _ _ (hw type rfl)

theorem types {ts : List TypeExpr} (hw : ∀ t ∈ ts, m.Writes t) :
    D.Obeys bound (ts.mapM (resolve bindings)) :=
  mapM fun t ht => hr _ _ _ (hw t ht)

/-- A type parameter has its node before its bound is resolved. -/
theorem boundedParam (sc : Scope) {param : TypeParam TypeExpr} {type : TypeExpr}
    (hfallback : param.fallback = none) (hbounded : param.bound = some type)
    (hw : m.Writes type) : D.Obeys bound (sc.bindTypeParam resolve bindings param none) := by
  intro r bindings' r' hbound hrun
  rw [bindTypeParam_run hfallback hbounded] at hrun
  obtain ⟨⟨constraint, r₂⟩, hresolve, he⟩ := Option.bind_eq_some_iff.mp hrun
  cases he
  have hform : D.AllowsForm (.parameter param.name none) := trivial
  have hfirst : D.Respects bound r { r with graph := (r.graph.push
      (.parameter param.name none) (some (sc.location param.place))).2 } :=
    .push hbound hform _ rfl
  have hsecond := hr _ _ _ hw _ _ r₂ (Nat.le_trans hbound hfirst.size) hresolve
  have hlt : r.graph.size < r₂.graph.size :=
    Nat.lt_of_lt_of_le (Nat.lt_of_lt_of_eq (Nat.lt_succ_self _) (size_push _ _ _).symm) hsecond.size
  exact (hfirst.trans hsecond).trans
    (.setForm hbound hlt (fun _ => by exact trivial) rfl)

theorem bindTypeParam (sc : Scope) {param : TypeParam TypeExpr} (argument : Option NodeId)
    (hw : ∀ t ∈ param.types, m.Writes t) :
    D.Obeys bound (sc.bindTypeParam resolve bindings param argument) := by
  rw [TypeParam.types, List.forall_mem_append] at hw
  cases argument with
  | some id => exact pure _
  | none =>
      cases hfallback : param.fallback with
      | some fallback =>
          simp only [Scope.bindTypeParam, hfallback]
          exact (hr _ _ _ (hw.1 fallback (by simp [hfallback]))).map _
      | none =>
          cases hbounded : param.bound with
          | some type =>
              exact boundedParam hr sc hfallback hbounded (hw.2 type (by simp [hbounded]))
          | none =>
              simp only [Scope.bindTypeParam, hfallback, hbounded]
              exact (push (by trivial) _).map _

theorem bindTypeParams (sc : Scope) {params : List (TypeParam TypeExpr)}
    (arguments : List NodeId) (hw : ∀ t ∈ params.flatMap TypeParam.types, m.Writes t) :
    D.Obeys bound (sc.bindTypeParams resolve bindings params arguments) := by
  induction params generalizing bindings arguments with
  | nil => exact pure _
  | cons param params ih =>
      rw [List.flatMap_cons, List.forall_mem_append] at hw
      exact (bindTypeParam hr sc _ hw.1).bind fun _ => ih _ hw.2

theorem parameters {params : List (Param TypeExpr)}
    (hw : ∀ t ∈ params.filterMap Param.typeExpr, m.Writes t) :
    D.Obeys bound (Scope.parameters resolve bindings params) := by
  refine mapM fun p hp => (annotated hr fun t ht => ?_).map _
  exact hw t (List.mem_filterMap.mpr ⟨p, List.mem_of_mem_filter hp, ht⟩)

theorem functionType (sc : Scope) {callable : Callable TypeExpr}
    (hw : ∀ t ∈ callable.types, m.Writes t) (place : Place) :
    D.Obeys bound (sc.functionType resolve bindings callable place) := by
  rw [Callable.types, List.forall_mem_append, List.forall_mem_append] at hw
  refine (bindTypeParams hr sc _ hw.1).bind fun _ => ?_
  refine (parameters hr hw.2.1).bind fun _ => ?_
  refine (annotated hr fun t ht => hw.2.2 t (Option.mem_toList.mpr ht)).bind fun _ => ?_
  exact push (by trivial) _

theorem property (sc : Scope) (name : String) {typeExpr : Option TypeExpr}
    (hw : ∀ t ∈ typeExpr, m.Writes t) (optional : Bool) (place : Place) :
    D.Obeys bound (sc.property resolve bindings name typeExpr optional place) := by
  cases typeExpr with
  | none => exact pure _
  | some type =>
      rw [Scope.property_some]
      exact map (hr _ _ _ (hw type rfl)) _

theorem member (sc : Scope) {member : Member TypeExpr} (hw : ∀ t ∈ member.types, m.Writes t) :
    D.Obeys bound (sc.member resolve bindings member) := by
  cases member with
  | property name typeExpr optional place =>
      exact property hr sc name (fun t ht => hw t (Option.mem_toList.mpr ht)) optional place
  | method name callable optional place => exact (functionType hr sc hw place).map _

theorem members (sc : Scope) {ms : List (Member TypeExpr)}
    (hw : ∀ t ∈ ms.flatMap Member.types, m.Writes t) :
    D.Obeys bound (ms.mapM (sc.member resolve bindings)) :=
  mapM fun member hm => Obeys.member hr sc fun t ht => hw t (List.mem_flatMap.mpr ⟨member, hm, ht⟩)

theorem baseType (sc : Scope) {h : Heritage} (hw : ∀ t ∈ h.types, m.Writes t) :
    D.Obeys bound (sc.baseType resolve bindings h) := by
  obtain ⟨name, arguments, place⟩ := h
  cases name with
  | simple name => exact hr _ _ _ (hw _ (List.mem_singleton_self _))
  | dotted name => exact hr _ _ _ (hw _ (List.mem_singleton_self _))
  | other text =>
      have hdone : D.Obeys bound (discard (arguments.mapM (resolve bindings))) :=
        map (types hr hw) _
      exact hdone.bind fun _ => push (by trivial) _

end Obeys

/-! A property has the name of the member that it comes from. -/

theorem name_of_property {sc : Scope} {name : String} {typeExpr : Option TypeExpr} {optional : Bool}
    {place : Place} {p : Property} {r r' : Resolution}
    (h : sc.property resolve bindings name typeExpr optional place r = some (p, r')) :
    p.name = name := by
  obtain ⟨_, -, h⟩ := Option.bind_eq_some_iff.mp h
  cases h
  rfl

theorem name_of_member {sc : Scope} {member : Member TypeExpr} {p : Property} {r r' : Resolution}
    (h : sc.member resolve bindings member r = some (p, r')) : p.name = member.name := by
  cases member with
  | property name typeExpr optional place => exact name_of_property h
  | method name callable optional place =>
      obtain ⟨_, -, h⟩ := Option.bind_eq_some_iff.mp h
      cases h
      rfl

theorem names_of_members {sc : Scope} {ms : List (Member TypeExpr)} {ps : List Property}
    {r r' : Resolution} (h : ms.mapM (sc.member resolve bindings) r = some (ps, r')) :
    ps.map Property.name = ms.map Member.name := by
  induction ms generalizing r ps with
  | nil =>
      cases h
      rfl
  | cons member ms ih =>
      rw [List.mapM_cons] at h
      obtain ⟨⟨p, r₁⟩, hp, h⟩ := Option.bind_eq_some_iff.mp h
      obtain ⟨⟨ps', r₂⟩, hps, h⟩ := Option.bind_eq_some_iff.mp h
      cases h
      rw [List.map_cons, List.map_cons, name_of_member hp, ih hps]

/-- What a record lacks may be added. -/
theorem allowsForm_withNew {record : RecordType} (h : D.AllowsForm (.record record))
    (ps : List Property) : D.AllowsForm (.record (Scope.withNew record ps)) := by
  induction ps generalizing record with
  | nil => exact h
  | cons p ps ih =>
      rw [← List.singleton_append, ← Scope.withNew_append]
      refine ih ?_
      change D.names _
      simp only [Scope.withNew, List.foldl_cons, List.foldl_nil]
      split
      · exact h
      · next hnew =>
          rw [List.map_append]
          refine D.more h fun hmem => hnew ?_
          obtain ⟨k, hk, hname⟩ := List.mem_map.mp hmem
          exact List.any_eq_true.mpr ⟨k, hk, beq_iff_eq.mpr hname⟩

/-- A type that stands in what a name declares is written in the module. -/
theorem writes_of_find? {name : String} {named : Named}
    (hf : (Scope.ofModule m).find? name = some named) {d : Declaration} (hd : d ∈ named.declarations)
    {t : TypeExpr} (ht : t ∈ d.types) : m.Writes t :=
  .declared (m.within.declared _ (Entries.mem_of_lookup hf) d hd) ht

theorem allows_of_find? (hm : D.AllowsModule m) {name : String} {named : Named}
    (hf : (Scope.ofModule m).find? name = some named) {d : Declaration}
    (hd : d ∈ named.declarations) : D.AllowsDeclaration d :=
  hm.declarations d (m.within.declared _ (Entries.mem_of_lookup hf) d hd)

section Records
variable (hr : D.ResolverObeys m resolve) {sc : Scope} {id : NodeId}
include hr

namespace Obeys

theorem addMembers {d : InterfaceDecl} (hw : ∀ t ∈ d.members.flatMap Member.types, m.Writes t)
    (hid : bound ≤ id) : D.Obeys bound (sc.addMembers resolve bindings id d) :=
  (members hr sc hw).bind fun ps => modifyRecord hid fun _ h => allowsForm_withNew h ps

theorem addParent {type : TypeExpr} (hw : m.Writes type) (hid : bound ≤ id) :
    D.Obeys bound (TypeScript.addParent resolve bindings id type) := by
  refine (hr _ _ _ hw).bind fun base => ?_
  refine bind (modifyRecord hid fun _ h => h) fun _ => get fun r => ?_
  cases r.graph.form base with
  | record source => exact modifyRecord hid fun _ h => allowsForm_withNew h source.properties
  | _ => exact pure _

end Obeys

/-- A field that is open to all gets its name into the record of its class. -/
theorem respects_of_addField {f : Field} (hopen : f.isOpen)
    (hw : ∀ t ∈ f.typeExpr, m.Writes t) (hid : bound ≤ id) {r r' : Resolution}
    {record : RecordType} (hform : r.graph.form id = .record record)
    (hnames : D.names (record.properties.map Property.name ++ [f.name])) {u : PUnit}
    (hadd : sc.addField resolve bindings id f r = some (u, r')) :
    D.Respects bound r r' ∧ ∃ record', r'.graph.form id = .record record' ∧
      record'.properties.map Property.name = record.properties.map Property.name ++ [f.name] := by
  unfold Scope.addField at hadd
  have hcase : (!f.isStatic && !f.hidden) = true := hopen
  rw [if_pos hcase] at hadd
  obtain ⟨⟨p, r₁⟩, hp, hadd⟩ := Option.bind_eq_some_iff.mp hadd
  cases hadd
  have hstep : D.Respects (id + 1) r r₁ :=
    Obeys.property hr sc f.name hw f.optional f.place r p r₁ (lt_of_record hform) hp
  have hform₁ : r₁.graph.form id = .record record :=
    (hstep.kept id (Nat.lt_succ_self id)).trans hform
  have hnames₁ : (record.properties ++ [p]).map Property.name =
      record.properties.map Property.name ++ [f.name] := by
    rw [List.map_append, List.map_singleton, name_of_property hp]
  have hadded : D.Respects bound r₁ { r₁ with
      graph := r₁.graph.modifyRecord id fun record =>
        { record with properties := record.properties ++ [p] } } := by
    refine .modifyRecord hid _ (fun record' hform' _ => ?_) rfl
    cases hform₁.symm.trans hform'
    change D.names ((record.properties ++ [p]).map Property.name)
    rwa [hnames₁]
  exact ⟨(hstep.mono (Nat.le_succ_of_le hid)).trans hadded, _, form_modifyRecord hform₁ _, hnames₁⟩

/-- While the fields of a class are added, its record has the names of those before them. -/
theorem respects_of_addFields {fields : List Field}
    (hw : ∀ t ∈ fields.filterMap Field.typeExpr, m.Writes t) (hid : bound ≤ id) {r r' : Resolution}
    {record : RecordType} (hform : r.graph.form id = .record record)
    (hnames : D.names (record.properties.map Property.name ++
      (fields.filter Field.isOpen).map Field.name)) {u : PUnit}
    (hrun : forM fields (sc.addField resolve bindings id) r = some (u, r')) :
    D.Respects bound r r' := by
  induction fields generalizing r record with
  | nil =>
      cases hrun
      exact .refl bound _
  | cons f fields ih =>
      rw [List.forM_cons] at hrun
      obtain ⟨⟨_, r₁⟩, hadd, hrun⟩ := Option.bind_eq_some_iff.mp hrun
      have hrest : ∀ t ∈ fields.filterMap Field.typeExpr, m.Writes t := by
        intro t ht
        obtain ⟨g, hg, ht⟩ := List.mem_filterMap.mp ht
        exact hw t (List.mem_filterMap.mpr ⟨g, List.mem_cons_of_mem f hg, ht⟩)
      by_cases hopen : f.isOpen
      · have hwrites : ∀ t ∈ f.typeExpr, m.Writes t := fun t ht =>
          hw t (List.mem_filterMap.mpr ⟨f, List.mem_cons_self, ht⟩)
        rw [List.filter_cons_of_pos (p := Field.isOpen) hopen, List.map_cons,
          ← List.singleton_append, ← List.append_assoc] at hnames
        obtain ⟨hstep, record', hform', hnames'⟩ :=
          respects_of_addField hr hopen hwrites hid hform (D.fewer hnames) hadd
        rw [← hnames'] at hnames
        exact hstep.trans (ih hrest hform' hnames hrun)
      · have hclosed : ¬ (!f.isStatic && !f.hidden) = true := hopen
        unfold Scope.addField at hadd
        rw [if_neg hclosed] at hadd
        cases hadd
        rw [List.filter_cons_of_neg (p := Field.isOpen) hopen] at hnames
        exact ih hrest hform hnames hrun

end Records

/-- A new record has no members. -/
theorem Respects.declared {r : Resolution} (hbound : bound ≤ r.graph.size) (key : Instance)
    (location : Option Location) : D.Respects bound r { r with
      graph := (r.graph.push (Scope.emptyRecord key.1 key.2) location).2
      instances := (key, r.graph.size) :: r.instances } :=
  .push hbound (by exact D.empty) location rfl

namespace Obeys
variable (hm : D.AllowsModule m) (hr : D.ResolverObeys m resolve) {key : Instance}
include hr

theorem interfaceType {first : InterfaceDecl} {more : List InterfaceDecl}
    (hf : (Scope.ofModule m).find? key.1 = some (.interfaces first more)) :
    D.Obeys bound ((Scope.ofModule m).interfaceType resolve bindings key first more) := by
  have hw : ∀ d ∈ first :: more, ∀ t ∈ d.parents ++ d.members.flatMap Member.types, m.Writes t :=
    fun d hd t ht => writes_of_find? hf (List.mem_map_of_mem hd) (List.mem_append_right _ ht)
  intro r id r' hbound hrun
  rw [Scope.interfaceType_eq] at hrun
  obtain ⟨⟨_, r₂⟩, hown, hrun⟩ := Option.bind_eq_some_iff.mp hrun
  obtain ⟨⟨_, r₃⟩, hparents, hrun⟩ := Option.bind_eq_some_iff.mp hrun
  cases hrun
  have hstart := Respects.declared (D := D) hbound key
    (some ((Scope.ofModule m).location first.place))
  have hmembers : D.Respects bound _ r₂ := forM (fun d hd => addMembers hr
    (fun t ht => hw d hd t (List.mem_append_right _ ht)) hbound) _ _ r₂
    (Nat.le_trans hbound hstart.size) hown
  refine (hstart.trans hmembers).trans (forM (fun d hd => forM fun t ht => ?_) _ _ _
    (Nat.le_trans hbound (hstart.trans hmembers).size) hparents)
  exact addParent hr (hw d hd t (List.mem_append_left _ ht)) hbound

include hm

/-- An alias of an object type has the members of the type, any other those of its value. -/
theorem aliasType {first : AliasDecl} {more : List AliasDecl}
    (hf : (Scope.ofModule m).find? key.1 = some (.aliases first more)) :
    D.Obeys bound ((Scope.ofModule m).aliasType resolve bindings key first) := by
  have hvalue : m.Writes first.value :=
    writes_of_find? hf List.mem_cons_self (List.mem_append_right _ (List.mem_singleton_self _))
  intro r id r' hbound hrun
  by_cases hrecord : (Named.aliases first more).isRecord
  · obtain ⟨members, place, hobject⟩ := Named.isRecord_aliases.mp hrecord
    rw [hobject] at hvalue
    simp only [Scope.aliasType, hobject] at hrun
    obtain ⟨⟨ps, r₂⟩, hmembers, hrun⟩ := Option.bind_eq_some_iff.mp hrun
    cases hrun
    have hnames : D.names (ps.map Property.name) := by
      rw [names_of_members hmembers]
      exact hm.types hvalue
    have hstart := Respects.declared (D := D) hbound key
      (some ((Scope.ofModule m).location first.place))
    have hstep : D.Respects (r.graph.size + 1) _ r₂ := Obeys.members hr (Scope.ofModule m)
      (fun t ht => .within hvalue ht) _ ps r₂ (Nat.le_of_eq (size_push _ _ _).symm) hmembers
    have hform : r₂.graph.form r.graph.size = Scope.emptyRecord key.1 key.2 :=
      (hstep.kept _ (Nat.lt_succ_self _)).trans (form_push_size _ _ _)
    refine (hstart.trans (hstep.mono (Nat.le_succ_of_le hbound))).trans
      (.modifyRecord hbound _ (fun record hrecord _ => ?_) rfl)
    cases hform.symm.trans hrecord
    exact hnames
  · rw [aliasType_run hrecord] at hrun
    split at hrun
    · have hmake : D.Obeys bound (Resolve.push (.unresolved key.1 (some key.1)) none) :=
        push (by trivial) _
      exact hmake.around hbound hrun
    · obtain ⟨⟨id', r₂⟩, hresolve, hrun⟩ := Option.bind_eq_some_iff.mp hrun
      cases hrun
      have hstep := (hr bound _ _ hvalue).around hbound hresolve
      exact hstep.trans (.of_graph rfl)

theorem classType {first : ClassSite} {more : List ClassSite}
    (hf : (Scope.ofModule m).find? key.1 = some (.classes first more)) :
    D.Obeys bound ((Scope.ofModule m).classType resolve bindings key first.decl) := by
  have hw : ∀ t ∈ first.decl.heritage.flatMap Heritage.types ++
      first.decl.fields.filterMap Field.typeExpr, m.Writes t :=
    fun t ht => writes_of_find? hf List.mem_cons_self (List.mem_append_right _ ht)
  rw [List.forall_mem_append] at hw
  intro r id r' hbound hrun
  rw [Scope.classType_eq] at hrun
  obtain ⟨⟨bases, r₂⟩, hbases, hrun⟩ := Option.bind_eq_some_iff.mp hrun
  obtain ⟨⟨_, r₃⟩, hfields, hrun⟩ := Option.bind_eq_some_iff.mp hrun
  cases hrun
  have hstart := Respects.declared (D := D) hbound key
    (some ((Scope.ofModule m).location first.decl.place))
  have hstep : D.Respects (r.graph.size + 1) _ r₂ := mapM (fun h hh =>
    Obeys.baseType hr (Scope.ofModule m) fun t ht =>
      hw.1 t (List.mem_flatMap.mpr ⟨h, hh, ht⟩)) _ bases r₂ (Nat.le_of_eq (size_push _ _ _).symm)
    hbases
  have hform : r₂.graph.form r.graph.size = Scope.emptyRecord key.1 key.2 :=
    (hstep.kept _ (Nat.lt_succ_self _)).trans (form_push_size _ _ _)
  have hbased : D.Respects bound r₂ { r₂ with
      graph := r₂.graph.modifyRecord r.graph.size fun record => { record with bases } } :=
    .modifyRecord hbound (fun record => { record with bases }) (fun _ _ h => h) rfl
  refine ((hstart.trans (hstep.mono (Nat.le_succ_of_le hbound))).trans hbased).trans ?_
  refine respects_of_addFields hr hw.2 hbound (form_modifyRecord hform _) ?_ hfields
  exact allows_of_find? hm hf List.mem_cons_self

omit hr in
theorem enumType {first : EnumDecl} {more : List EnumDecl}
    (hf : (Scope.ofModule m).find? key.1 = some (.enums first more)) :
    D.Obeys bound ((Scope.ofModule m).enumType first more) := by
  refine (enumMembers (by rintro x ⟨⟩) _ fun e he => ?_).bind fun _ => unionOf _ _
  obtain ⟨d, hd, he⟩ := List.mem_flatMap.mp he
  exact allows_of_find? hm hf (List.mem_map_of_mem hd) e he

theorem declaredType {named : Named} (hf : (Scope.ofModule m).find? key.1 = some named) :
    D.Obeys bound ((Scope.ofModule m).declaredType resolve key named) := by
  have hparams : ∀ d ∈ named.declarations, ∀ params : List (TypeParam TypeExpr),
      params.flatMap TypeParam.types ⊆ d.types →
        D.Obeys bound ((Scope.ofModule m).bindTypeParams resolve [] params key.2) :=
    fun d hd params hsub => bindTypeParams hr _ _ fun t ht => writes_of_find? hf hd (hsub ht)
  refine get fun r => ?_
  cases r.instances.lookup key with
  | some id => exact pure id
  | none =>
      cases named with
      | interfaces first more =>
          exact (hparams _ List.mem_cons_self _ (List.subset_append_left _ _)).bind fun _ =>
            interfaceType hr hf
      | aliases first more =>
          exact (hparams _ List.mem_cons_self _ (List.subset_append_left _ _)).bind fun _ =>
            aliasType hm hr hf
      | classes first more =>
          exact (hparams _ List.mem_cons_self _ (List.subset_append_left _ _)).bind fun _ =>
            classType hm hr hf
      | enums first more =>
          exact (enumType hm hf).bind fun _ => bind (tables fun _ => rfl) fun _ => pure _

theorem nameType (name : String) (arguments : List NodeId) (place : Option Place) :
    D.Obeys bound ((Scope.ofModule m).nameType resolve bindings name arguments place) := by
  unfold Scope.nameType
  cases bindings.lookup name with
  | some id => exact pure id
  | none =>
      dsimp only
      cases hf : (Scope.ofModule m).find? name with
      | some named => exact declaredType hm hr hf
      | none =>
          cases (Scope.ofModule m).imported.lookup name with
          | some symbol => exact frameworkType symbol arguments
          | none =>
              cases TypeGraph.primitive? name with
              | some id => exact pure id
              | none => exact builtinType? name arguments _ (push (by trivial) _)

/-- A type goes as the types within it do. -/
theorem typeOf {type : TypeExpr} (hw : m.Writes type) :
    D.Obeys bound ((Scope.ofModule m).typeOf resolve bindings type) := by
  have hparts : ∀ part ∈ type.parts, m.Writes part := fun part hp => .within hw hp
  unfold Scope.typeOf
  cases type with
  | reference name arguments place =>
      refine (types hr hparts).bind fun ids => ?_
      cases name with
      | simple name => exact nameType hm hr name ids _
      | dotted name => exact qualifiedType _ _ ids place
  | keyword word place =>
      dsimp only
      split
      · exact push (by exact D.empty) _
      · cases TypeGraph.primitive? word with
        | some id => exact pure id
        | none => exact push (by trivial) _
  | null => exact pure _
  | undefined => exact pure _
  | string value place => exact push (by exact D.string value) _
  | boolean value place => exact push (by exact D.boolean value) _
  | number text place =>
      dsimp only
      cases hread : Numeral.read? text with
      | some value =>
          refine push (allowsForm_of_numeral fun x hx => ?_) _
          exact hm.types hw x (hx ▸ hread)
      | none => exact push (by trivial) _
  | object ms place =>
      intro r id r' hbound hrun
      obtain ⟨⟨ps, r₁⟩, hmembers, hrun⟩ := Option.bind_eq_some_iff.mp hrun
      have hnames : D.AllowsForm (.record ⟨none, ps, none, [], []⟩) := by
        change D.names _
        rw [names_of_members hmembers]
        exact hm.types hw
      have hstep := members hr (Scope.ofModule m) hparts r ps r₁ hbound hmembers
      exact hstep.trans (push hnames _ r₁ id r' (Nat.le_trans hbound hstep.size) hrun)
  | array element place =>
      exact (hr _ _ _ (hparts _ (List.mem_singleton_self _))).bind fun _ => push (by trivial) _
  | tuple elements place => exact (types hr hparts).bind fun _ => push (by trivial) _
  | union ms place => exact (types hr hparts).bind fun ids => unionOf ids _
  | intersection ms place => exact (types hr hparts).bind fun _ => push (by trivial) _
  | function callable place => exact functionType hr _ hparts place
  | predicate => exact pure _
  | assertion => exact pure _
  | parenthesized inner => exact hr _ _ _ (hparts _ (List.mem_singleton_self _))
  | readonly inner => exact hr _ _ _ (hparts _ (List.mem_singleton_self _))
  | other text place => exact push (by trivial) _

end Obeys

theorem AllowsModule.resolveTo (hm : D.AllowsModule m) (depth : Nat) :
    D.ResolverObeys m ((Scope.ofModule m).resolveTo depth) := by
  induction depth with
  | zero =>
      intro bound bindings type _ r id r' _ hrun
      cases hrun
  | succ depth ih => exact fun bound bindings type hw => Obeys.typeOf hm ih hw

section Exports
variable (hm : D.AllowsModule m)
include hm

namespace Obeys

/-- A class declaration has its node before its bases are resolved. -/
theorem classNode {site : ClassSite} (hsite : .classDecl site.decl ∈ m.declarations)
    (name : String) : D.Obeys bound ((Source.ofModule m).classNode site name) := by
  have hr : D.ResolverObeys m (Source.ofModule m).resolve := hm.resolveTo _
  have hw : ∀ t ∈ site.decl.types, m.Writes t := fun t ht => .declared hsite ht
  rw [ClassDecl.types, List.forall_mem_append, List.forall_mem_append] at hw
  have hbases : D.Obeys bound ((Source.ofModule m).scope.declaredBases
      (Source.ofModule m).resolve site.decl) :=
    (bindTypeParams hr _ _ hw.1).bind fun _ => mapM fun h hh =>
      baseType hr _ fun t ht => hw.2.1 t (List.mem_flatMap.mpr ⟨h, hh, ht⟩)
  intro r id r' hbound hrun
  obtain ⟨-, rfl⟩ | ⟨-, rfl, bases, r₁, hresolve, rfl⟩ := Source.classNode_cases hrun
  · exact .refl bound _
  · have hfirst : D.Respects bound r ((Source.ofModule m).withClass site name r) :=
      .push hbound (by exact trivial) _ rfl
    have hsecond := hbases _ bases r₁ (Nat.le_trans hbound hfirst.size) hresolve
    have hlt : r.graph.size < r₁.graph.size :=
      Nat.lt_of_lt_of_le (Nat.lt_of_lt_of_eq (Nat.lt_succ_self _) (size_push _ _ _).symm)
        hsecond.size
    exact (hfirst.trans hsecond).trans (.setForm hbound hlt (fun _ => by exact trivial) rfl)

theorem classesNamed (name : String) : D.Obeys bound ((Source.ofModule m).classesNamed name) := by
  unfold Source.classesNamed
  split
  · next first more hf =>
      refine mapM fun site hsite => classNode hm ?_ _
      exact m.within.declared _ (Entries.mem_of_lookup hf) _ (List.mem_map_of_mem hsite)
  · exact pure _

theorem exportedBy (position : Nat) {s : Statement} (hs : s ∈ m.statements) :
    D.Obeys bound ((Source.ofModule m).exportedBy position s) := by
  have hmem : ∀ d, s.declaration? = some d → d ∈ m.declarations :=
    fun d hd => List.mem_filterMap.mpr ⟨s, hs, hd⟩
  unfold Source.exportedBy
  split
  · exact (classNode hm (hmem _ rfl) _).map _
  · exact (classNode hm (hmem _ rfl) _).map _
  · exact classesNamed hm _
  · exact (mapM fun name _ => classesNamed hm name).map _
  · exact pure _

theorem exportedClasses : D.Obeys bound (Source.ofModule m).exportedClasses :=
  (mapM fun p hp => exportedBy hm p.2 (List.fst_mem_of_mem_zipIdx hp)).map _

end Obeys

/-- The graph of a module is as a demand asks if the module is. -/
theorem AllowsModule.graph {ids : List NodeId} {r : Resolution}
    (hrun : (Source.ofModule m).exportedClasses.run .initial = some (ids, r)) :
    D.AllowsGraph r.graph := by
  have hobeys : D.Obeys 0 (Source.ofModule m).exportedClasses := Obeys.exportedClasses hm
  refine (hobeys _ ids r (Nat.zero_le _) hrun).allowed fun id => ?_
  change D.AllowsForm (TypeGraph.initial.form id)
  obtain ⟨name, hform⟩ | hform := form_initial_cases id <;> rw [hform]
  · trivial
  · trivial

end Exports

end Demand

end PropSchema.TypeScript
