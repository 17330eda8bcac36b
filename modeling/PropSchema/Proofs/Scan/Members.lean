import PropSchema.Proofs.Scan
import PropSchema.Proofs.TypeScript.Demands.Types
/-!
The names of members. Where no object type and no class body names a member twice, no entry of a
table does, wherever its record comes from: an interface gets each name once, however often its
declarations and the types that it extends have it, and so does an intersection.
-/
namespace PropSchema

namespace TypeScript

/-- Object types and the open fields of classes name each member once. -/
structure Module.NamesOnce (m : Module) : Prop where
  objects : ∀ {members place}, m.Writes (.object members place) → (members.map Member.name).Nodup
  classes : ∀ {d}, .classDecl d ∈ m.declarations → (d.openFields.map Field.name).Nodup

def TypeExpr.namesOnce : TypeExpr → Bool
  | .object members _ => decide (members.map Member.name).Nodup
  | _ => true

def Declaration.namesOnce : Declaration → Bool
  | .classDecl d => decide (d.openFields.map Field.name).Nodup
  | _ => true

/-- It is enough to look into the types of a module down to some depth. -/
theorem Module.NamesOnce.of_check {m : Module} (depth : Nat)
    (htypes : m.declarations.all fun d => d.types.all (TypeExpr.allTo TypeExpr.namesOnce depth))
    (hclasses : m.declarations.all Declaration.namesOnce) : m.NamesOnce where
  objects hw := of_decide_eq_true (Module.Writes.of_allTo TypeExpr.namesOnce depth htypes hw)
  classes hd := of_decide_eq_true (List.all_eq_true.mp hclasses _ hd)

/-- No record has two members of one name. -/
def Demand.distinct : Demand where
  literal _ := True
  names := List.Nodup
  string _ := trivial
  boolean _ := trivial
  integer _ := trivial
  succ _ := trivial
  empty := List.nodup_nil
  more h hn := List.nodup_append.mpr ⟨h, List.nodup_singleton _, by
    rintro a ha b hb rfl
    exact hn (List.mem_singleton.mp hb ▸ ha)⟩
  fewer h := (List.nodup_append.mp h).1

theorem Module.NamesOnce.allowed {m : Module} (h : m.NamesOnce) :
    Demand.distinct.AllowsModule m where
  types {type} hw := by
    cases type with
    | object members place => exact h.objects hw
    | number text place => exact fun _ _ => trivial
    | _ => trivial
  declarations d hd := by
    cases d with
    | classDecl d => exact h.classes hd
    | enumDecl d => exact fun _ _ _ _ _ _ => trivial
    | _ => trivial

end TypeScript

open TypeScript

/-- Types have distinct properties if the records do that they are made of. -/
theorem TypeGraph.nodup_properties {g : TypeGraph} (h : Demand.distinct.AllowsGraph g)
    (id : NodeId) : ((g.properties id).map Property.name).Nodup := by
  unfold properties
  generalize g.depth = depth
  induction depth generalizing id with
  | zero => exact List.nodup_nil
  | succ depth ih =>
      rw [propertiesTo]
      split
      · next record hform =>
          have hrecord := h id
          rw [hform] at hrecord
          exact hrecord
      · next target _ =>
          rw [List.map_map]
          exact ih target
      · exact nodup_firstOfEachName _
      · exact List.nodup_nil

/-- A member is found by its name if no other has the name. -/
theorem RecordSpec.member?_of_nodup {record : RecordSpec}
    (h : (record.members.map MemberSpec.name).Nodup) {member : MemberSpec}
    (hmem : member ∈ record.members) : record.member? member.name = some member :=
  Sequences.find?_of_nodup MemberSpec.name h hmem

namespace Components
open Classify

/-- Every entry of the table of an outcome says what some type says. -/
theorem describes_of_find {r : ComponentRules} {g : TypeGraph} {ids : List NodeId} {x : Extraction}
    {c : Context} (hfind : (find r g ids).run .fresh = (.ok x, c)) {record : RecordSpec}
    (hrecord : record ∈ x.refs) : ∃ identity, Describes r.toRules g c.lookup identity record := by
  obtain ⟨hadv, found, hres, -⟩ := find_tells r g ids hfind
  have hslots := slots_of_result hadv hres
  obtain ⟨slot, hslot, rfl⟩ := List.getElem_of_mem hrecord
  have hlt : slot < c.slots.length := by rwa [hslots, List.length_map]
  obtain ⟨identity, hl⟩ := (hadv.toExtends.numbered Context.numbered_fresh).exists_lookup hlt
  obtain ⟨record, hentry, hdescribes⟩ := faithful_of_advances hadv identity slot hl
  rw [hslots, List.getElem?_map, List.getElem?_eq_getElem hslot] at hentry
  cases hentry
  exact ⟨identity, hdescribes⟩

end Components

namespace Scan
variable {rules : ComponentRules} {m : Module}

/-- An outcome comes from the graph of the exported classes, and its entries describe types of it. -/
theorem describes_of_outcome {src : Source} {x : Extraction}
    (hx : (ofSource rules src).outcome = .ok x) : ∃ ids r c,
      src.exportedClasses.run .initial = some (ids, r) ∧ ∀ record ∈ x.refs, ∃ identity,
        Classify.Describes rules.toRules r.graph (Context.lookup c) identity record := by
  cases hrun : src.exportedClasses.run .initial with
  | none =>
      rw [outcome_of_none hrun] at hx
      cases hx
  | some p =>
      obtain ⟨ids, r⟩ := p
      rw [outcome_eq hrun] at hx
      rcases hfind : (Components.find rules r.graph ids).run .fresh with ⟨outcome, c⟩
      rw [hfind] at hx
      cases hx
      exact ⟨ids, r, c, rfl, fun record hrecord => Components.describes_of_find hfind hrecord⟩

/-- Every entry has one member of each of its names, and finds it by the name. -/
theorem members_found_by_name (hm : m.NamesOnce) {x : Extraction}
    (hx : (ofSource rules (.ofModule m)).outcome = .ok x) : ∀ record ∈ x.refs,
      (record.members.map MemberSpec.name).Nodup ∧ ∀ name member,
        record.member? name = some member ↔ member ∈ record.members ∧ member.name = name := by
  obtain ⟨ids, r, c, hrun, hentries⟩ := describes_of_outcome hx
  have hgraph : Demand.distinct.AllowsGraph r.graph := hm.allowed.graph hrun
  intro record hrecord
  obtain ⟨identity, hdescribes⟩ := hentries record hrecord
  have hnames : record.members.map MemberSpec.name =
      (identity.properties r.graph).map Property.name := by
    rw [← List.forall₂_eq_eq_eq, List.forall₂_map_left_iff, List.forall₂_map_right_iff]
    exact hdescribes.members.flip.imp fun _ _ h => h.1
  have hnodup : (record.members.map MemberSpec.name).Nodup := by
    rw [hnames]
    cases identity with
    | node id => exact TypeGraph.nodup_properties hgraph id
    | passing slot => exact List.nodup_nil
  refine ⟨hnodup, fun name member => ⟨fun hfound => ?_, ?_⟩⟩
  · exact ⟨List.mem_of_find?_eq_some hfound, by simpa using List.find?_some hfound⟩
  · rintro ⟨hmem, rfl⟩
    exact RecordSpec.member?_of_nodup hnodup hmem

/-- The names of the members of all entries. -/
def memberNames (outcome : Except PassFault Extraction) : Option (List (List String)) :=
  outcome.toOption.map fun x => x.refs.map fun record => record.members.map MemberSpec.name

namespace Repeated

def method (name : String) (params : List String) (line : Nat) : Member TypeExpr :=
  .method name ⟨[], params.map fun p => ⟨p, some (.keyword "string" ⟨line, 1⟩), false⟩,
    some (.keyword "void" ⟨line, 1⟩)⟩ false ⟨line, 1⟩

def field (name type : String) (line : Nat) : Member TypeExpr :=
  .property name (some (.keyword type ⟨line, 1⟩)) false ⟨line, 1⟩

def named (name : String) (line : Nat) : TypeExpr := .reference (.simple name) [] ⟨line, 1⟩

/-- A component of some props. -/
def component (props : TypeExpr) (line : Nat) : Statement :=
  .exportDeclaration (.classDecl ⟨some "A", [],
    [⟨.dotted ⟨"React", ".Component"⟩, [props], ⟨line, 1⟩⟩], [], ⟨line, 1⟩⟩)

/--
Members of one name in every place where there may be any:

    interface Named { name: string; show(): void; show(depth: string): void }
    interface Named { name: number; size: number }
    interface Tagged extends Named { size: string; tag: boolean }
    type Both = Tagged & { size: boolean; label: string };
    export class A extends React.Component<Partial<Both>> {}
-/
def everywhere : Module := ⟨"A.tsx", [.imports "react" [.whole "React"],
  .declaration (.interfaceDecl ⟨"Named", [], [],
    [field "name" "string" 2, method "show" [] 2, method "show" ["depth"] 2], ⟨2, 1⟩⟩),
  .declaration (.interfaceDecl ⟨"Named", [], [],
    [field "name" "number" 3, field "size" "number" 3], ⟨3, 1⟩⟩),
  .declaration (.interfaceDecl ⟨"Tagged", [], [named "Named" 4],
    [field "size" "string" 4, field "tag" "boolean" 4], ⟨4, 1⟩⟩),
  .declaration (.aliasDecl ⟨"Both", [], .intersection [named "Tagged" 5,
    .object [field "size" "boolean" 5, field "label" "string" 5] ⟨5, 22⟩] ⟨5, 13⟩, ⟨5, 1⟩⟩),
  component (.reference (.simple "Partial") [named "Both" 6] ⟨6, 1⟩) 6]⟩

/-- An object type with two signatures of one method. -/
def overloaded : Module := ⟨"A.tsx", [.imports "react" [.whole "React"],
  component (.object [method "f" [] 2, method "f" ["x"] 2] ⟨2, 40⟩) 2]⟩

end Repeated

/-- Each name is left once, in the order of the first members that have it. -/
theorem everywhere_found_by_name :
    memberNames (ofSource Components.lenientRules (.ofModule Repeated.everywhere)).outcome =
        some [["size", "tag", "name", "show", "label"]] ∧
    ∃ x, (ofSource Components.lenientRules (.ofModule Repeated.everywhere)).outcome = .ok x ∧
      ∀ record ∈ x.refs, (record.members.map MemberSpec.name).Nodup ∧ ∀ name member,
        record.member? name = some member ↔ member ∈ record.members ∧ member.name = name := by
  have hnames : memberNames (ofSource Components.lenientRules
      (.ofModule Repeated.everywhere)).outcome =
        some [["size", "tag", "name", "show", "label"]] := by decide +kernel
  have honce : Repeated.everywhere.NamesOnce := .of_check 4 (by decide) (by decide)
  refine ⟨hnames, ?_⟩
  cases hx : (ofSource Components.lenientRules (.ofModule Repeated.everywhere)).outcome with
  | error fault =>
      rw [hx] at hnames
      cases hnames
  | ok x => exact ⟨x, rfl, members_found_by_name honce hx⟩

/-- Not every entry has distinct members: an object type keeps all signatures of a method. -/
theorem not_found_by_name : ¬ ∀ (m : Module) (x : Extraction),
    (ofSource Components.lenientRules (.ofModule m)).outcome = .ok x →
      ∀ record ∈ x.refs, (record.members.map MemberSpec.name).Nodup := by
  intro h
  have hnames : memberNames (ofSource Components.lenientRules
      (.ofModule Repeated.overloaded)).outcome = some [["f", "f"]] := by decide +kernel
  cases hx : (ofSource Components.lenientRules (.ofModule Repeated.overloaded)).outcome with
  | error fault =>
      rw [hx] at hnames
      cases hnames
  | ok x =>
      rw [hx] at hnames
      have hrefs : x.refs.map (fun record => record.members.map MemberSpec.name) = [["f", "f"]] :=
        Option.some.inj hnames
      have hmem : ["f", "f"] ∈ x.refs.map fun record => record.members.map MemberSpec.name := by
        rw [hrefs]
        exact List.mem_singleton_self _
      obtain ⟨record, hrecord, hmembers⟩ := List.mem_map.mp hmem
      have hnodup := h Repeated.overloaded x hx record hrecord
      rw [hmembers] at hnodup
      exact absurd hnodup (by decide)

end Scan

end PropSchema
