import PropSchema.Proofs.TypeScript.Finishing
import PropSchema.Proofs.TypeScript.RewrittenSizes
import PropSchema.Proofs.TypeScript.SameNames
/-!
Modules that are rearranged. The statements of a module may be put in another order that keeps the
order of those that bind one name and of those that export classes, declarations may be added whose
names are not mentioned, and all may stand at other places. Both modules are then alike to the one
that has the statements without their places, and without what is added.
-/
namespace PropSchema.TypeScript

def Rewriting.unplaced : Rewriting := ⟨id, fun _ => ⟨0, 0⟩, id, false⟩

/-- The name that a type is looked up by: that of a dotted name is its qualifier. -/
def TypeName.mentioned : TypeName → String
  | .simple name => name
  | .dotted name => (qualifiedParts name.text).1

namespace Statement

/-- The statement without its places. -/
def unplaced (s : Statement) : Statement := s.rewrite .unplaced

/-- The names that types of a statement are looked up by, and those that it exports. -/
def mentions (s : Statement) : List String := s.uses.map TypeName.mentioned ++ s.exportedNames

end Statement

/-- The statements of a module in another order, with their positions in the module. -/
structure Module.Reordered (m : Module) (order : List (Statement × Nat)) : Prop where
  perm : order.Perm m.statements.zipIdx
  /-- Statements that bind one name stay in their order. -/
  names : ∀ name, (order.filter fun s => s.1.bound.contains name) =
    m.statements.zipIdx.filter fun s => s.1.bound.contains name
  exports : (order.filter fun s => s.1.exports) = m.exporting

/-- The statements of a module that declare none of some names, with their positions. -/
def Module.without (m : Module) (names : List String) : List (Statement × Nat) :=
  m.statements.zipIdx.filter fun s => !names.any s.1.declares

/-- The second module has the statements of the first in an order that is as good, with others that
declare added names. -/
structure Module.Rearranged (added : List String) (m m' : Module) : Prop where
  order : ∃ order, m.Reordered order ∧
    order.map (·.1.unplaced) = (m'.without added).map (·.1.unplaced)
  /-- What is added exports no classes. -/
  unexported : ∀ s ∈ m'.statements, added.any s.declares → s.exports = false
  /-- Names that are added are mentioned by what is added, if at all. -/
  fresh : ∀ s ∈ m'.without added, ∀ name ∈ s.1.mentions, name ∉ added

section Told
variable {m : Module} {statements : List (Statement × Nat)} {name : String} {added : List String}

/-- What a name is imported as is told by the statements that bind it. -/
theorem lookup_importedNames :
    (importedNames (statements.filter fun s => s.1.bound.contains name)).reverse.lookup name =
      (importedNames statements).reverse.lookup name := by
  have hfilter : ∀ entries : List (String × String), entries.reverse.lookup name =
      (entries.filter fun e => e.1 == name).reverse.lookup name := by
    intro entries
    rw [← List.filter_reverse, Entries.lookup_filter fun key => key == name,
      if_pos (beq_self_eq_true name)]
  rw [hfilter, hfilter (importedNames statements)]
  unfold importedNames
  rw [List.filter_flatMap, List.filter_flatMap, Sequences.flatMap_filter]
  intro s _ hne
  obtain ⟨e, he⟩ := List.exists_mem_of_ne_nil _ hne
  obtain ⟨hmem, hkey⟩ := List.mem_filter.mp he
  obtain ⟨b, hb, himported⟩ := List.mem_filterMap.mp hmem
  rw [List.contains_iff_mem]
  refine List.mem_append_right _ (List.mem_map.mpr ⟨b, hb, ?_⟩)
  cases b <;> cases himported
  exact beq_iff_eq.mp hkey

theorem Module.Reordered.told (h : m.Reordered statements) : m.ToldBy [] statements where
  declared name _ := by
    rw [← declaredAs_filter (p := fun s => s.1.bound.contains name)
      fun s _ => Statement.bound_of_declares, ← h.names,
      declaredAs_filter fun s _ => Statement.bound_of_declares]
  imported name _ := by rw [← lookup_importedNames, ← h.names, lookup_importedNames]
  namespaces name _ := (h.perm.flatMap_right _).mem_iff.symm
  exports := h.exports.symm

/-- Only names that are bound matter to the order. -/
theorem Module.reordered_of_bound (hperm : statements.Perm m.statements.zipIdx)
    (hnames : ∀ name ∈ m.statements.flatMap Statement.bound,
      (statements.filter fun s => s.1.bound.contains name) =
        m.statements.zipIdx.filter fun s => s.1.bound.contains name)
    (hexports : (statements.filter fun s => s.1.exports) = m.exporting) :
    m.Reordered statements := by
  refine ⟨hperm, fun name => ?_, hexports⟩
  by_cases hname : name ∈ m.statements.flatMap Statement.bound
  · exact hnames name hname
  · have hnone : ∀ s ∈ m.statements.zipIdx, ¬ s.1.bound.contains name := by
      intro s hs hbound
      rw [List.contains_iff_mem] at hbound
      exact hname (List.mem_flatMap.mpr ⟨s.1, List.fst_mem_of_mem_zipIdx hs, hbound⟩)
    rw [List.filter_eq_nil_iff.mpr hnone,
      List.filter_eq_nil_iff.mpr fun s hs => hnone s (hperm.mem_iff.mp hs)]

theorem Module.told_by_without (h : ∀ s ∈ m.statements, added.any s.declares → s.exports = false) :
    m.ToldBy added (m.without added) := by
  have himports : ∀ s ∈ m.statements.zipIdx, s.1.frameworkBindings ≠ [] →
      (!added.any s.1.declares) = true := by
    intro s _ hne
    rw [Bool.not_eq_true', List.any_eq_false]
    intro name _
    generalize s.1 = statement at hne
    cases statement with
    | imports source bindings => exact Bool.false_ne_true
    | _ => exact absurd rfl hne
  refine ⟨fun name hname => ?_, fun name _ => ?_, fun name _ => ?_, ?_⟩
  · refine (declaredAs_filter fun s _ hs => ?_).symm
    rw [Bool.not_eq_true', List.any_eq_false]
    intro other hother hdeclares
    exact hname (Statement.eq_of_declares hs hdeclares ▸ hother)
  · unfold importedNames without
    rw [Sequences.flatMap_filter fun s hs hne => himports s hs fun hnil => hne (by rw [hnil]; rfl)]
  · unfold importedNamespaces without
    rw [Sequences.flatMap_filter fun s hs hne => himports s hs fun hnil => hne (by rw [hnil]; rfl)]
  · unfold exporting without
    rw [List.filter_filter]
    refine List.filter_congr fun s hs => ?_
    cases hexports : s.1.exports with
    | false => rfl
    | true =>
        rw [Bool.true_and, eq_comm, Bool.not_eq_true', Bool.eq_false_iff]
        intro hadded
        rw [h s.1 (List.fst_mem_of_mem_zipIdx hs) hadded] at hexports
        cases hexports

/-- A module is alike to the statements that tell of it, without their places. -/
theorem Module.alike_of_told (rules : ComponentRules) (h : m.ToldBy added statements)
    (hnodup : (statements.map (·.2)).Nodup)
    (hfresh : ∀ s ∈ statements, ∀ name ∈ s.1.mentions, name ∉ added) :
    m.Alike (.sameNames rules added (fun p q => (statements.map (·.2))[q]? = some p) False)
      ⟨"", statements.map (·.1.unplaced)⟩ := by
  refine Module.alike_of_placed (ρ := .unplaced) (fun _ => rfl) nofun ?_ h
    (Module.toldBy_self ⟨"", statements.map (·.1.unplaced)⟩ added) ?_ ?_
  · intro p q p' q' hp hp'
    constructor
    · rintro rfl
      exact (List.getElem?_inj (List.getElem?_eq_some_iff.mp hp).1 hnodup).mp (hp.trans hp'.symm)
    · rintro rfl
      exact Option.some.inj (hp.symm.trans hp')
  · suffices hall : List.Forall₂ (Statement.Placed .unplaced
        (.sameNames rules added (fun p q => (statements.map (·.2))[q]? = some p) False))
        (statements.zipIdx.map Prod.fst) (statements.map (·.1.unplaced)).zipIdx by
      rwa [List.zipIdx_map_fst] at hall
    rw [List.zipIdx_map]
    refine List.forall₂_map_left_iff.mpr (List.forall₂_map_right_iff.mpr
      (List.forall₂_same.mpr ?_))
    rintro ⟨s, i⟩ hs
    have hget : statements[i]? = some s := List.mem_zipIdx_iff_getElem?.mp hs
    have hposition : (statements.map (·.2))[i]? = some s.2 := by
      rw [List.getElem?_map, hget, Option.map_some]
    refine ⟨rfl, hposition, fun use huse => ?_⟩
    have hname : use.mentioned ∉ added := by
      refine hfresh s (List.mem_of_getElem? hget) _ (List.mem_append_left _ ?_)
      exact List.mem_map_of_mem huse
    cases use with
    | simple name => exact ⟨rfl, hname⟩
    | dotted name => exact ⟨rfl, hname⟩
  · exact fun s hs name hname => hfresh s hs name (List.mem_append_right _ hname)

end Told

theorem total_perm {α : Type} (size : α → Nat) {as as' : List α} (h : as.Perm as') :
    total size as = total size as' := by
  induction h with
  | nil => rfl
  | cons a _ ih => rw [total, total, ih]
  | swap a b _ => rw [total, total, total, total, Nat.add_left_comm]
  | trans _ _ ih ih' => rw [ih, ih']

theorem Module.size_eq_zipIdx (m : Module) :
    m.size = total (fun s => s.1.size) m.statements.zipIdx := by
  rw [← total_map (f := Prod.fst) (fun _ => rfl), List.zipIdx_map_fst, size]

namespace Module.Rearranged
variable {added : List String} {m m' : Module} (h : m.Rearranged added m')
include h

theorem size_eq_without : m.size = total (fun s => s.1.size) (m'.without added) := by
  obtain ⟨order, horder, hsame⟩ := h.order
  have hplaced : ∀ statements : List (Statement × Nat),
      total Statement.size (statements.map (·.1.unplaced)) = total (fun s => s.1.size) statements :=
    total_map fun s => Statement.size_rewrite rfl s.1
  rw [m.size_eq_zipIdx, ← total_perm _ horder.perm, ← hplaced, hsame, hplaced]

/-- What is added can only make a module larger. -/
theorem size_le : m.size ≤ m'.size := by
  rw [h.size_eq_without, m'.size_eq_zipIdx]
  exact total_filter_le _ _ _

theorem size_eq (hnone : added = []) : m'.size = m.size := by
  rw [h.size_eq_without, m'.size_eq_zipIdx, hnone]
  exact congrArg (total _) (List.filter_eq_self.mpr fun _ _ => rfl).symm

end Module.Rearranged

end PropSchema.TypeScript
