import PropSchema.Proofs.Scan
import PropSchema.Proofs.TypeScript.ExactExports
/-!
The classes that a scan considers. They are the classes that the module exports, each of them once,
if the exported names mean the classes that they name: a name that is exported from another module
is not that of a class, and a class that is exported by its name is not followed by something else
of that name.
-/
namespace PropSchema.Scan

open TypeScript
variable {rules : ComponentRules} {m : Module}

/-- A node declares the class that stands at a position. -/
def DeclaresAt (m : Module) (g : TypeGraph) (id : NodeId) (p : Nat) : Prop :=
  ∃ site name bases, m.site? p = some (site, name) ∧ g.form id = .classDeclaration name bases

/-- What is found in a class bears its name. -/
def NamedAt (m : Module) (p : Nat) (found : Option ComponentSpec) : Prop :=
  ∀ k ∈ found, (m.site? p).map (·.2) = some k.name

/-- The class declarations that exports lead to are those of the classes that a module exports, and
a scan considers each of them once. -/
structure ReportedExactly (m : Module) (ids : List NodeId) (r : Resolution)
    (positions : List Nat) : Prop where
  exported : ∀ p, p ∈ positions ↔ m.Exports p
  nodup : positions.Nodup
  mem_distinct : ∀ id, id ∈ Components.distinctClasses r.graph ids ↔ id ∈ ids
  nodup_distinct : (Components.distinctClasses r.graph ids).Nodup
  declares : List.Forall₂ (DeclaresAt m r.graph) (Components.distinctClasses r.graph ids) positions
  considered : ∀ rules x, (ofSource rules (.ofModule m)).outcome = .ok x →
    ∃ found : List (Option ComponentSpec), x.components = found.filterMap id ∧
      List.Forall₂ (NamedAt m) positions found

theorem mem_exportedPositions (h : m.ExportsPlainly) {p : Nat} :
    p ∈ m.exportedPositions ↔ m.Exports p := by
  rw [Module.exportedPositions, mem_addMissing, Module.mem_positionsNamedByExports h]
  simp

/-- Exports lead to one node for each exported position, in the order of the first exports. -/
theorem declaresAt_of_run {ids : List NodeId} {r : Resolution}
    (hrun : (Source.ofModule m).exportedClasses.run .initial = some (ids, r)) :
    List.Forall₂ (DeclaresAt m r.graph) (Components.distinctClasses r.graph ids)
        m.exportedPositions ∧
      ∀ id, id ∈ Components.distinctClasses r.graph ids ↔ id ∈ ids := by
  have hscope : (Source.ofModule m).scope = Scope.ofModule m := rfl
  obtain ⟨htable, hall⟩ := Resolution.TableOf.exportedClasses hscope hrun
  have hclasses : ids.filter r.graph.isClass = ids := by
    refine List.filter_eq_self.mpr fun id hid => ?_
    obtain ⟨p, -, hp⟩ := Sequences.exists_of_forall₂ hall.flip hid
    obtain ⟨site, name, bases, -, hform⟩ := htable.form_of_nodeOf hp
    rw [TypeGraph.isClass, hform]
  rw [Components.distinctClasses, hclasses]
  refine ⟨?_, fun id => by rw [mem_addMissing]; simp⟩
  exact (addMissing_rel_of_injective htable.injective .nil hall).imp fun _ _ =>
    htable.form_of_nodeOf

/-- A scan finds at most one component in each exported class, in their order. -/
theorem namedAt_of_outcome {ids : List NodeId} {r : Resolution}
    (hrun : (Source.ofModule m).exportedClasses.run .initial = some (ids, r)) {x : Extraction}
    (hx : (ofSource rules (.ofModule m)).outcome = .ok x) :
    ∃ found : List (Option ComponentSpec), x.components = found.filterMap id ∧
      List.Forall₂ (NamedAt m) m.exportedPositions found := by
  rw [outcome_eq hrun] at hx
  rcases hfind : (Components.find rules r.graph ids).run .fresh with ⟨outcome, c⟩
  rw [hfind] at hx
  cases hx
  obtain ⟨-, found, hres, hanswers⟩ := Components.find_tells rules r.graph ids hfind
  refine ⟨found, by rw [Context.eq_of_result hres], ?_⟩
  refine (Sequences.forall₂_common (declaresAt_of_run hrun).1.flip hanswers.flip).imp ?_
  rintro p o ⟨id, ⟨site, name, bases, hsite, hform⟩, hanswer⟩ k hk
  rw [(hanswer.declared k hk).1, Components.declarationName, hform, hsite]
  rfl

/-- Classes are reported as they are exported, in the order of their first exports. -/
theorem exports_exact (h : m.ExportsPlainly) {ids : List NodeId} {r : Resolution}
    (hrun : (Source.ofModule m).exportedClasses.run .initial = some (ids, r)) :
    ∃ positions, ReportedExactly m ids r positions := by
  obtain ⟨hdeclares, hmem⟩ := declaresAt_of_run hrun
  exact ⟨m.exportedPositions, {
    exported := fun p => mem_exportedPositions h
    nodup := nodup_addMissing List.nodup_nil _
    mem_distinct := hmem
    nodup_distinct := nodup_addMissing List.nodup_nil _
    declares := hdeclares
    considered := fun _ _ => namedAt_of_outcome hrun }⟩

/-- Exports lead to nothing if no class is exported. -/
theorem ReportedExactly.eq_nil_iff {ids : List NodeId} {r : Resolution} {positions : List Nat}
    (h : ReportedExactly m ids r positions) : ids = [] ↔ ∀ p, ¬ m.Exports p := by
  have hpositions : positions = [] ↔ ∀ p, ¬ m.Exports p := by
    simp only [List.eq_nil_iff_forall_not_mem, h.exported]
  have hids : ids = [] ↔ Components.distinctClasses r.graph ids = [] := by
    simp only [List.eq_nil_iff_forall_not_mem, h.mem_distinct]
  rw [hids, ← hpositions, ← List.length_eq_zero_iff, ← List.length_eq_zero_iff,
    h.declares.length_eq]

namespace Listed

/-- A class of props of its own. -/
def component (name : Option String) (line : Nat) : ClassDecl :=
  ⟨name, [], [⟨.dotted ⟨"React", ".Component"⟩,
    [.object [.property "a" (some (.keyword "string" ⟨line, 43⟩)) false ⟨line, 40⟩] ⟨line, 38⟩],
    ⟨line, 22⟩⟩], [], ⟨line, 1⟩⟩

/-- An interface of a name. -/
def face (name : String) (line : Nat) : Statement :=
  .declaration (.interfaceDecl ⟨name, [], [], [.property "b" (some (.keyword "string" ⟨line, 18⟩))
    false ⟨line, 15⟩], ⟨line, 1⟩⟩)

/--
A class that is exported twice, next to one that is not exported. After the import of `React`:

    interface Label { b: string }
    class Label extends React.Component<{ a: string }> {}
    class Hidden extends React.Component<{ a: string }> {}
    export { Label as Tag };
    export { Other } from './other';
    export { Label };
    export default class extends React.Component<{ a: string }> {}
-/
def twice : Module := ⟨"Label.tsx", [.imports "react" [.whole "React"], face "Label" 2,
  .declaration (.classDecl (component "Label" 3)), .declaration (.classDecl (component "Hidden" 4)),
  .exportNames ["Label"] none, .exportNames ["Other"] (some "./other"),
  .exportNames ["Label"] none, .exportClass (component none 8)]⟩

/-- A class of a name that is exported from another module. -/
def elsewhere : Module := ⟨"A.tsx", [.imports "react" [.whole "React"],
  .declaration (.classDecl (component "A" 2)), .exportNames ["A"] (some "./other")]⟩

/-- An exported class with an interface of its name after it. -/
def merged : Module := ⟨"A.tsx", [.imports "react" [.whole "React"],
  .declaration (.classDecl (component "A" 2)), face "A" 3, .exportNames ["A"] none]⟩

theorem twice_exportsPlainly : twice.ExportsPlainly where
  apart := by
    intro names source hmem
    simp [twice, face] at hmem
    obtain ⟨rfl, -⟩ := hmem
    simp [twice, face, component, Statement.className?]
  last := by
    intro name _ p q s t hlt hs hclass ht hdeclares
    -- The interface stands before every class, and after it classes alone are declared.
    match p, q, hlt with
    | 0, _, _ | 1, _, _ => cases hs; cases hclass
    | _ + 2, 3, _ => cases ht; exact beq_iff_eq.mp hdeclares
    | _ + 2, q + 4, _ =>
        have hmem : t ∈ twice.statements.drop 4 := List.mem_of_getElem? (i := q) ht
        simp only [twice, List.drop, List.mem_cons, List.not_mem_nil, or_false] at hmem
        obtain rfl | rfl | rfl | rfl := hmem <;> cases hdeclares

theorem elsewhere_exports_nothing (p : Nat) : ¬ elsewhere.Exports p := by
  rintro (hs | hs | ⟨-, -, t, ht, hexport⟩)
  · match p with
    | 0 | 1 | 2 => cases hs
  · match p with
    | 0 | 1 | 2 => cases hs
  · simp only [elsewhere, List.mem_cons, List.not_mem_nil, or_false] at ht
    obtain rfl | rfl | rfl := ht <;> simp at hexport

theorem merged_exports : merged.Exports 1 :=
  .name rfl rfl ⟨.exportNames ["A"] none, by simp [merged], .inr ⟨["A"], rfl, by simp⟩⟩

end Listed

/-- The class that is exported twice is found once, and the one that is not exported is not. -/
theorem twice_reported :
    sketch (ofSource Components.lenientRules (.ofModule Listed.twice)).outcome =
        some ([⟨"Label", 0⟩, ⟨"default", 1⟩], [[false], [false]]) ∧
    ∃ ids r, (Source.ofModule Listed.twice).exportedClasses.run .initial = some (ids, r) ∧
      ids.length = 3 ∧ ∃ positions, ReportedExactly Listed.twice ids r positions := by
  have hlength : ((Source.ofModule Listed.twice).exportedClasses.run .initial).map
      (fun e => e.1.length) = some 3 := by decide +kernel
  obtain ⟨⟨ids, r⟩, hrun, hlength⟩ := Option.map_eq_some_iff.mp hlength
  exact ⟨by decide +kernel, ids, r, hrun, hlength, exports_exact Listed.twice_exportsPlainly hrun⟩

/-- Not every class that is found is exported here, and not every exported class is found. -/
theorem not_exports_exact :
    (∃ ids r, (Source.ofModule Listed.elsewhere).exportedClasses.run .initial = some (ids, r) ∧
      ¬ ∃ positions, ReportedExactly Listed.elsewhere ids r positions) ∧
    ∃ ids r, (Source.ofModule Listed.merged).exportedClasses.run .initial = some (ids, r) ∧
      ¬ ∃ positions, ReportedExactly Listed.merged ids r positions := by
  constructor
  · have hlength : ((Source.ofModule Listed.elsewhere).exportedClasses.run .initial).map
        (fun e => e.1.length) = some 1 := by decide +kernel
    obtain ⟨⟨ids, r⟩, hrun, hlength⟩ := Option.map_eq_some_iff.mp hlength
    refine ⟨ids, r, hrun, fun ⟨positions, h⟩ => ?_⟩
    have hnone : ids = [] := h.eq_nil_iff.mpr Listed.elsewhere_exports_nothing
    rw [hnone] at hlength
    cases hlength
  · have hlength : ((Source.ofModule Listed.merged).exportedClasses.run .initial).map
        (fun e => e.1.length) = some 0 := by decide +kernel
    obtain ⟨⟨ids, r⟩, hrun, hlength⟩ := Option.map_eq_some_iff.mp hlength
    refine ⟨ids, r, hrun, fun ⟨positions, h⟩ => ?_⟩
    exact h.eq_nil_iff.mp (List.length_eq_zero_iff.mp hlength) 1 Listed.merged_exports

end PropSchema.Scan
