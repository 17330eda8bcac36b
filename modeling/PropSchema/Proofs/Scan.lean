import PropSchema.Proofs.Classify.Refusal
import PropSchema.Proofs.TypeScript.Alone
import PropSchema.Scan
/-!
The components of a module do not depend on one another. In an untangled module each exported class
has the component that it has when no other class is exported: nodes of two resolutions correspond
if they have one label, however early or late they were made.
-/
namespace PropSchema

namespace TypeScript
variable {sc : RootedScope} {sites : Nat → Option (ClassSite × String)} {r r' : Resolution}
  {labels labels' : List Label}

/-- Nodes of two resolutions that have one label. -/
def SameLabel (labels labels' : List Label) (a b : NodeId) : Prop :=
  ∃ label, At labels a label ∧ At labels' b label

/-- Resolutions of one scope correspond, whatever led to them. -/
theorem correspondence (h : Labelled sc sites .none r labels)
    (h' : Labelled sc sites .none r' labels') :
    TypeGraph.Correspondence r.graph r'.graph (SameLabel labels labels') where
  forms := by
    rintro a b ⟨label, ha, hb⟩
    obtain ⟨form, hform, hrel⟩ := h.nodes.whole_form ha List.not_mem_nil
    obtain ⟨form', hform', hrel'⟩ := h'.nodes.whole_form hb List.not_mem_nil
    rw [hform] at hform'
    cases hform'
    exact hrel.common hrel'
  injective := by
    rintro a b a' b' ⟨label, ha, hb⟩ ⟨label', ha', hb'⟩
    constructor
    · rintro rfl
      cases ha.label_eq ha'
      exact hb.id_eq h'.nodes.nodup hb'
    · rintro rfl
      cases hb.label_eq hb'
      exact ha.id_eq h.nodes.nodup ha'
  shared hid := ⟨_, h.nodes.shared hid, h'.nodes.shared hid⟩
  left := h.nodes.founded
  right := h'.nodes.founded

theorem isClass_of_atClass (h : Labelled sc sites .none r labels) {id : NodeId} {position : Nat}
    (ha : AtClass labels id position) : r.graph.isClass id := by
  obtain ⟨form, hform, hrel⟩ := h.nodes.whole_form ha List.not_mem_nil
  simp only [RootedScope.formOf, Option.bind_eq_bind, Option.bind_eq_some_iff] at hform
  obtain ⟨site, -, bases, -, he⟩ := hform
  cases he
  unfold TypeGraph.isClass
  generalize r.graph.form id = x at hrel ⊢
  cases hrel
  rfl

theorem atClass_injective (h : Labelled sc sites .none r labels) {id id' : NodeId}
    {position position' : Nat} (ha : AtClass labels id position)
    (ha' : AtClass labels id' position') : id = id' ↔ position = position' := by
  constructor
  · rintro rfl
    exact Label.classOf.inj (ha.label_eq ha')
  · rintro rfl
    exact ha.id_eq h.nodes.nodup ha'

/-- The distinct classes among nodes are those at the distinct positions. -/
theorem distinctClasses_rel (h : Labelled sc sites .none r labels) {ids : List NodeId}
    {positions : List Nat} (hall : List.Forall₂ (AtClass labels) ids positions) :
    List.Forall₂ (AtClass labels) (Components.distinctClasses r.graph ids)
      (addMissing [] positions) := by
  have hfilter : ids.filter r.graph.isClass = ids := by
    refine List.filter_eq_self.mpr fun id hid => ?_
    obtain ⟨position, -, ha⟩ := Sequences.exists_of_forall₂ hall.flip hid
    exact isClass_of_atClass h ha
  rw [Components.distinctClasses, hfilter]
  exact addMissing_rel_of_injective (atClass_injective h) .nil hall

end TypeScript

namespace Scan

open TypeScript

/-- What a class has in an outcome it has when it is exported alone, unless that is refused for
depth. -/
def SameAlone (rules : ComponentRules) (m : Module) (x : Extraction) (position : Nat)
    (found : Option ComponentSpec) : Prop :=
  match (ofSource rules (.ofModule (m.exportingOnly position))).outcome with
  | .ok alone => ∃ found' : Option ComponentSpec, alone.components = found'.toList ∧
      Option.Rel (Components.SameComponent x.refs alone.refs) found found'
  | .error fault => fault = .tooDeep

/-- The exported classes of a module do not depend on one another. -/
def Independent (rules : ComponentRules) (m : Module) : Prop :=
  ∀ x, (ofSource rules (.ofModule m)).outcome = .ok x →
    ∃ found : List (Option ComponentSpec), x.components = found.filterMap id ∧
      List.Forall₂ (SameAlone rules m x) m.exportedPositions found

variable {rules : ComponentRules} {m : Module}

theorem outcome_eq {src : Source} {classes : List NodeId} {r : Resolution}
    (h : src.exportedClasses.run .initial = some (classes, r)) :
    (ofSource rules src).outcome = ((Components.find rules r.graph classes).run .fresh).1 := by
  unfold ofSource
  rw [h]
  dsimp only
  rcases (Components.find rules r.graph classes).run .fresh with ⟨outcome, c⟩
  rfl

theorem outcome_of_none {src : Source} (h : src.exportedClasses.run .initial = none) :
    (ofSource rules src).outcome = .error .tooDeep := by
  unfold ofSource
  rw [h]

/-- One exported class, whose answer among the others is known. -/
theorem sameAlone_of_answers (hu : m.rooted.Untangled) (hr : rules.registry.Plain) {r : Resolution}
    {labels : List Label} (h : Labelled m.rooted m.site? .none r labels) {c : Context}
    (hf : Classify.Faithful rules.toRules r.graph c) {x : Extraction}
    (hs : c.slots = x.refs.map some) {id : NodeId} {position : Nat}
    (hposition : position ∈ m.exportedPositions) (ha : AtClass labels id position)
    {found : Option ComponentSpec} (hanswer : Components.Answers rules r.graph id found c)
    (htitled : ∀ props, Components.propsOf? rules r.graph id = some props →
      (Classify.slotTitle r.graph (r.graph.stripped (.node props))).isSome) :
    SameAlone rules m x position found := by
  unfold SameAlone
  have hexported : position ∈ m.positionsNamedByExports :=
    (mem_addMissing.mp hposition).resolve_left List.not_mem_nil
  cases hrun : (Source.ofModule (m.exportingOnly position)).exportedClasses.run .initial with
  | none =>
      rw [outcome_of_none hrun]
  | some p =>
      obtain ⟨classes, r'⟩ := p
      rw [outcome_eq hrun]
      have hfinds : Finds m.rooted m.site? _ _ _ :=
        Finds.exportedClasses (m := m.exportingOnly position) Module.ofModule_exportingOnly hu
          Module.site?_of_exportingOnly (Module.exportedReferences_exportingOnly hexported)
      rw [Module.positionsNamedByExports_exportingOnly (Module.site?_of_exported hexported)]
        at hfinds
      obtain ⟨labels', -, h', hall⟩ := hfinds _ _ _ _ .initial hrun
      have hdistinct : List.Forall₂ (AtClass labels')
          (Components.distinctClasses r'.graph classes) [position] := distinctClasses_rel h' hall
      obtain ⟨id', rest, ha', hrest, hids⟩ := List.forall₂_cons_right_iff.mp hdistinct
      cases hrest
      have hc := correspondence h h'
      have hrel : SameLabel labels labels' id id' := ⟨_, ha, ha'⟩
      rcases hfind : (Components.find rules r'.graph classes).run .fresh with ⟨outcome, c'⟩
      cases outcome with
      | error fault =>
          refine Components.fault_of_find hr (fun a hm => ?_) hfind
          rw [hids, List.mem_singleton] at hm
          exact hm ▸ Components.ofClass_onlyTooDeep hc hf hrel hanswer htitled
      | ok alone =>
          obtain ⟨hadv, all, hres, hanswers⟩ := Components.find_tells rules r'.graph classes hfind
          rw [hids] at hanswers
          obtain ⟨found', rest, hanswer', hrest, rfl⟩ := List.forall₂_cons_left_iff.mp hanswers
          cases hrest
          refine ⟨found', ?_, ?_⟩
          · rw [Context.eq_of_result hres]
            cases found' <;> rfl
          · exact Components.same_of_answers hc hr hf (Classify.faithful_of_advances hadv) hs
              (Components.slots_of_result hadv hres) hrel hanswer hanswer'

/-- In an untangled module each exported class has the component that it has alone. -/
theorem independent_of_untangled (hu : m.rooted.Untangled) (hr : rules.registry.Plain) :
    Independent rules m := by
  intro x hx
  cases hrun : (Source.ofModule m).exportedClasses.run .initial with
  | none =>
      rw [outcome_of_none hrun] at hx
      cases hx
  | some p =>
      obtain ⟨classes, r⟩ := p
      rw [outcome_eq hrun] at hx
      rcases hfind : (Components.find rules r.graph classes).run .fresh with ⟨outcome, c⟩
      rw [hfind] at hx
      cases hx
      have hfinds : Finds m.rooted m.site? (Source.ofModule m).exportedClasses
          m.positionsNamedByExports fun labels => List.Forall₂ (AtClass labels) :=
        Finds.exportedClasses rfl hu id (List.Subset.refl _)
      obtain ⟨labels, -, h, hall⟩ := hfinds _ _ _ _ .initial hrun
      obtain ⟨hadv, found, hres, hanswers⟩ := Components.find_tells rules r.graph classes hfind
      refine ⟨found, by rw [Context.eq_of_result hres], ?_⟩
      have htitles : ∀ id ∈ Components.distinctClasses r.graph classes, ∀ props,
          Components.propsOf? rules r.graph id = some props →
            (Classify.slotTitle r.graph (r.graph.stripped (.node props))).isSome :=
        fun _ hid _ hprops => Components.isSome_slotTitle_of_find hfind hid hprops
      have hanswered :=
        Sequences.forall₂_and (Q := fun _ => True) hanswers htitles fun _ _ => trivial
      have hpairs := Sequences.forall₂_common (distinctClasses_rel h hall).flip hanswered.flip
      refine (Sequences.forall₂_and (P := (· ∈ m.exportedPositions)) (Q := fun _ => True) hpairs
        (fun _ => id) fun _ _ => trivial).imp ?_
      rintro position o ⟨⟨id, ha, hanswer, htitled, -⟩, hposition, -⟩
      exact sameAlone_of_answers hu hr h (Classify.faithful_of_advances hadv)
        (Components.slots_of_result hadv hres) hposition ha hanswer htitled

/-- The components of an outcome, and of each record which of its members are nullable. -/
def sketch (outcome : Except PassFault Extraction) :
    Option (List ComponentSpec × List (List Bool)) :=
  outcome.toOption.map fun x =>
    (x.components, x.refs.map fun e => e.members.map fun m => m.spec.isNullable)

theorem exists_of_sketch {outcome : Except PassFault Extraction} {components : List ComponentSpec}
    {nullable : List (List Bool)} (h : sketch outcome = some (components, nullable)) :
    ∃ x, outcome = .ok x ∧ x.components = components ∧
      x.refs.map (fun e => e.members.map fun m => m.spec.isNullable) = nullable := by
  cases outcome with
  | error fault => cases h
  | ok x =>
      cases h
      exact ⟨x, rfl, rfl, rfl⟩

namespace Views

def base : InterfaceDecl := ⟨"Base", [], [],
  [.property "label" (some (.keyword "string" ⟨2, 25⟩)) false ⟨2, 18⟩], ⟨2, 1⟩⟩

def opt : AliasDecl := ⟨"Opt", [⟨"T", none, none, ⟨3, 10⟩⟩],
  .union [.reference (.simple "T") [] ⟨3, 15⟩, .null] ⟨3, 15⟩, ⟨3, 1⟩⟩

def tree : InterfaceDecl := ⟨"Tree", [], [.reference (.simple "Base") [] ⟨4, 24⟩],
  [.property "next" (some (.reference (.simple "Opt")
    [.reference (.simple "Tree") [] ⟨4, 41⟩] ⟨4, 37⟩)) false ⟨4, 31⟩], ⟨4, 1⟩⟩

def first : ClassDecl := ⟨some "First", [], [⟨.dotted ⟨"React", ".Component"⟩,
  [.object [.property "root" (some (.reference (.simple "Opt")
    [.reference (.simple "Tree") [] ⟨5, 56⟩] ⟨5, 52⟩)) false ⟨5, 46⟩] ⟨5, 44⟩], ⟨5, 28⟩⟩], [], ⟨5, 8⟩⟩

def second : ClassDecl := ⟨some "Second", [], [⟨.dotted ⟨"React", ".Component"⟩,
  [.reference (.simple "Tree") [] ⟨6, 45⟩], ⟨6, 29⟩⟩], [], ⟨6, 8⟩⟩

/--
Components whose props lead to one record, which leads to itself through an alias. After the import
of `React`:

    interface Base { label: string }
    type Opt<T> = T | null;
    interface Tree extends Base { next: Opt<Tree> }
    export class First extends React.Component<{ root: Opt<Tree> }> {}
    export class Second extends React.Component<Tree> {}
-/
def views : Module := ⟨"Tree.tsx", [.imports "react" [.whole "React"],
  .declaration (.interfaceDecl base), .declaration (.aliasDecl opt),
  .declaration (.interfaceDecl tree), .exportDeclaration (.classDecl first),
  .exportDeclaration (.classDecl second)]⟩

end Views

namespace Notes

def json : AliasDecl := ⟨"Json", [], .union [.keyword "string" ⟨4, 13⟩,
  .array (.reference (.simple "Json") [] ⟨4, 22⟩) ⟨4, 22⟩] ⟨4, 13⟩, ⟨4, 1⟩⟩

def note : InterfaceDecl := ⟨"Note", [], [.reference (.simple "Base") [] ⟨5, 24⟩], [
  .property "next" (some (.reference (.simple "Opt")
    [.reference (.simple "Note") [] ⟨5, 41⟩] ⟨5, 37⟩)) false ⟨5, 31⟩,
  .property "data" (some (.reference (.simple "Json") [] ⟨5, 54⟩)) false ⟨5, 48⟩], ⟨5, 1⟩⟩

/--
Notes lead to themselves through an alias, and hold data of a type that stands in its own value.
After the import of `React`:

    interface Base { label: string }
    type Opt<T> = T | null;
    type Json = string | Json[];
    interface Note extends Base { next: Opt<Note>; data: Json }
    export class First extends React.Component<{ root: Opt<Note>; data: Json }> {}
    export class Second extends React.Component<Note> {}
-/
def notes : Module := ⟨"Note.tsx", [.imports "react" [.whole "React"],
  .declaration (.interfaceDecl Views.base), .declaration (.aliasDecl Views.opt),
  .declaration (.aliasDecl json), .declaration (.interfaceDecl note),
  .exportDeclaration (.classDecl ⟨some "First", [], [⟨.dotted ⟨"React", ".Component"⟩, [.object [
    .property "root" (some (.reference (.simple "Opt")
      [.reference (.simple "Note") [] ⟨6, 56⟩] ⟨6, 52⟩)) false ⟨6, 46⟩,
    .property "data" (some (.reference (.simple "Json") [] ⟨6, 69⟩)) false ⟨6, 63⟩]
    ⟨6, 44⟩], ⟨6, 28⟩⟩], [], ⟨6, 8⟩⟩),
  .exportDeclaration (.classDecl ⟨some "Second", [], [⟨.dotted ⟨"React", ".Component"⟩,
    [.reference (.simple "Note") [] ⟨7, 45⟩], ⟨7, 29⟩⟩], [], ⟨7, 8⟩⟩)]⟩

/-- The members of a note are resolved. -/
def inNote : Scene := Scene.start.fill ⟨"Note", []⟩

/-- The data of a component is resolved, or that of a note. -/
def inJson (s : Scene) : Scene := s.value ⟨"Json", []⟩

/-- What may be met while the notes are read. -/
def met : List (Scene × Reference) :=
  [(.start, ⟨"Opt", [none]⟩), (.start, ⟨"Note", []⟩), (.start, ⟨"Json", []⟩),
    (inNote, ⟨"Opt", [none]⟩), (inNote, ⟨"Note", []⟩), (inNote, ⟨"Json", []⟩),
    (inNote, ⟨"Base", []⟩), (inJson .start, ⟨"Json", []⟩), (inJson inNote, ⟨"Json", []⟩)]

theorem untangled : notes.rooted.Untangled := by
  refine .of_met met (by decide +kernel) (by decide +kernel) (by decide +kernel) ?_
  intro p hp hknown first more hfind d hd parent hparent head hlead
  have hnames : ∀ p ∈ met, p.2.name = "Note" ∨ p.2.name = "Base" ∨ p.2.name = "Opt" ∨
      p.2.name = "Json" := by decide +kernel
  obtain hname | hname | hname | hname := hnames p hp
  all_goals
    have hfound := hfind
    rw [hname] at hfound
    cases hfound
  · cases List.mem_singleton.mp hd
    cases List.mem_singleton.mp hparent
    have hwhole : ∀ p ∈ met, p.2.name = "Note" → p.2 ∉ p.1.known →
        ("Base", 0) ∉ p.2.mention :: p.1.filling := by decide +kernel
    have hfound : notes.rooted.find? "Base" = some (.interfaces Views.base []) := by rfl
    exact ⟨_, hlead.of_isRecord List.not_mem_nil hfound rfl, hwhole p hp hname hknown⟩
  · cases List.mem_singleton.mp hd
    cases hparent

end Notes

/-- Each type is met first in one class, and first in the other where that is exported alone. -/
theorem notes_independent :
    sketch (ofSource Components.lenientRules (.ofModule Notes.notes)).outcome =
        some ([⟨"First", 0⟩, ⟨"Second", 1⟩], [[true, false], [true, false, false]]) ∧
      Independent Components.lenientRules Notes.notes :=
  ⟨by decide +kernel, independent_of_untangled Notes.untangled Registry.plain_builtin⟩

/-- Tables that agree have the same nullable members. -/
theorem nullable_eq {refs refs' : List RecordSpec} {i j : Nat}
    (h : SameSchema refs refs' i j) :
    (refs.map fun e => e.members.map fun m => m.spec.isNullable)[i]? =
      (refs'.map fun e => e.members.map fun m => m.spec.isNullable)[j]? := by
  obtain ⟨e, e', he, he', hee⟩ := h 1
  have hmembers : (e.members.map fun m => m.spec.isNullable) =
      e'.members.map fun m => m.spec.isNullable :=
    List.forall₂_eq_eq_eq ▸ List.rel_map (P := Eq) (fun _ _ hm => hm.spec.isNullable) hee.members
  have hi : refs[i]? = some e := he
  have hj : refs'[j]? = some e' := he'
  rw [List.getElem?_map, List.getElem?_map, hi, hj, Option.map_some, Option.map_some, hmembers]

/--
An alias that leads back to itself. After the import of `React`:

    interface Node { next: Opt }
    type Opt = Node | null;
    export class A extends React.Component<{ first: Opt }> {}
    export class B extends React.Component<Node> {}

With both exported, `Opt` is met first and `Node` within it, so `next` is left unresolved there.
-/
def tangled : Module := ⟨"Tree.tsx", [
  .imports "react" [.whole "React"],
  .declaration (.interfaceDecl ⟨"Node", [], [],
    [.property "next" (some (.reference (.simple "Opt") [] ⟨2, 24⟩)) false ⟨2, 18⟩], ⟨2, 1⟩⟩),
  .declaration (.aliasDecl ⟨"Opt", [],
    .union [.reference (.simple "Node") [] ⟨3, 12⟩, .null] ⟨3, 12⟩, ⟨3, 1⟩⟩),
  .exportDeclaration (.classDecl ⟨some "A", [], [⟨.dotted ⟨"React", ".Component"⟩,
    [.object [.property "first" (some (.reference (.simple "Opt") [] ⟨4, 49⟩)) false ⟨4, 42⟩]
      ⟨4, 40⟩], ⟨4, 24⟩⟩], [], ⟨4, 8⟩⟩),
  .exportDeclaration (.classDecl ⟨some "B", [], [⟨.dotted ⟨"React", ".Component"⟩,
    [.reference (.simple "Node") [] ⟨5, 40⟩], ⟨5, 24⟩⟩], [], ⟨5, 8⟩⟩)]⟩

theorem tangled_not_independent : ¬ Independent Components.lenientRules tangled := by
  intro h
  have hall : sketch (ofSource Components.lenientRules (.ofModule tangled)).outcome =
      some ([⟨"A", 0⟩, ⟨"B", 1⟩], [[true], [false]]) := by decide +kernel
  have halone : sketch (ofSource Components.lenientRules
      (.ofModule (tangled.exportingOnly 4))).outcome = some ([⟨"B", 0⟩], [[true]]) := by
    decide +kernel
  have hpositions : tangled.exportedPositions = [3, 4] := by decide +kernel
  obtain ⟨x, hx, hcomponents, hnullable⟩ := exists_of_sketch hall
  obtain ⟨alone, ha, hcomponents', hnullable'⟩ := exists_of_sketch halone
  obtain ⟨found, hfound, hsame⟩ := h x hx
  rw [hpositions] at hsame
  cases hsame with
  | @cons _ o _ _ _ hrest =>
      cases hrest with
      | @cons _ o' _ _ hsame hrest =>
          cases hrest
          rw [SameAlone, ha] at hsame
          obtain ⟨found', hfound', hrel⟩ := hsame
          rw [hcomponents] at hfound
          rw [hcomponents'] at hfound'
          cases o <;> cases o' <;> cases hfound
          cases hrel with
          | some hk =>
              cases hfound'
              have hnext := nullable_eq (i := 1) (j := 0) hk.schema
              rw [hnullable, hnullable'] at hnext
              cases hnext

end Scan

end PropSchema
