import PropSchema.Proofs.TypeScript.Exported
/-!
A module that exports one of its classes alone. Its names are those of the module as it stands, and
its exports are that class.
-/
namespace PropSchema.TypeScript

namespace Statement

/-- The statement without its exports. -/
def unexported : Statement → Statement
  | .exportDeclaration d => .declaration d
  | .exportClass _ => .other
  | .exportName _ => .other
  | .exportNames _ _ => .other
  | s => s

/-- The statement with the class exported that it declares. -/
def exported : Statement → Statement
  | .declaration (.classDecl d) => .exportDeclaration (.classDecl d)
  | s => s

/-- The statement at its position, in a module that exports the class at one position alone. -/
def alone (position index : Nat) (s : Statement) : Statement :=
  if index = position then s.exported else s.unexported

end Statement

namespace Module

/-- The module with the class at a position as its only export. -/
def exportingOnly (m : Module) (position : Nat) : Module :=
  { m with statements := m.statements.mapIdx fun index s => s.alone position index }

variable {m : Module} {position : Nat}

theorem zipIdx_exportingOnly : (m.exportingOnly position).statements.zipIdx =
    m.statements.zipIdx.map fun (s, index) => (s.alone position index, index) := by
  simp only [exportingOnly, List.mapIdx_eq_zipIdx_map]
  apply List.ext_getElem?
  intro i
  simp only [List.getElem?_zipIdx, List.getElem?_map]
  cases m.statements[i]? <;> simp

/-- A statement declares the same with other exports. -/
theorem add_alone (sc : Scope) (position index : Nat) (s : Statement) :
    sc.add index (s.alone position index) = sc.add index s := by
  unfold Statement.alone
  split
  · cases s with
    | declaration d => cases d <;> rfl
    | _ => rfl
  · cases s <;> rfl

theorem ofModule_exportingOnly : Scope.ofModule (m.exportingOnly position) = Scope.ofModule m := by
  unfold Scope.ofModule
  rw [zipIdx_exportingOnly, List.foldl_map]
  simp only [add_alone]
  rfl

theorem site?_alone {index : Nat} {s : Statement} {x : ClassSite × String}
    (h : (s.alone position index).site? index = some x) : s.site? index = some x := by
  unfold Statement.alone at h
  split at h
  · cases s with
    | declaration d => cases d <;> exact h
    | _ => exact h
  · cases s with
    | declaration d => exact h
    | exportDeclaration d => cases d <;> exact h
    | _ => cases h

/-- What the module has when it exports one class alone, it has as it stands. -/
theorem site?_of_exportingOnly {index : Nat} {x : ClassSite × String}
    (h : (m.exportingOnly position).site? index = some x) : m.site? index = some x := by
  unfold site? at h ⊢
  simp only [exportingOnly, List.getElem?_mapIdx] at h
  cases hs : m.statements[index]? with
  | none =>
      rw [hs] at h
      cases h
  | some s =>
      rw [hs] at h
      exact site?_alone h

theorem flatMap_eq_singleton {α β : Type} {f : α × Nat → List β} {b : β} {xs : List α} {start : Nat}
    (h : ∀ x ∈ xs.zipIdx start, f x = if x.2 = position then [b] else [])
    (hle : start ≤ position) (hlt : position < start + xs.length) :
    (xs.zipIdx start).flatMap f = [b] := by
  induction xs generalizing start with
  | nil => exact absurd hlt (Nat.not_lt_of_le hle)
  | cons x xs ih =>
      rw [List.zipIdx_cons, List.forall_mem_cons] at h
      rw [List.zipIdx_cons, List.flatMap_cons, h.1]
      rw [List.length_cons] at hlt
      dsimp only
      split
      · next he =>
          have hrest : (xs.zipIdx (start + 1)).flatMap f = [] := by
            rw [List.flatMap_eq_nil_iff]
            intro y hy
            have hge := List.le_snd_of_mem_zipIdx hy
            rw [h.2 y hy, if_neg (by omega)]
          rw [hrest]
          rfl
      · exact ih h.2 (by omega) (by omega)

theorem positionsExportedBy_alone (sc : Scope) {index : Nat} {s : Statement}
    (h : index = position → (s.site? position).isSome) :
    sc.positionsExportedBy index (s.alone position index) =
      if index = position then [position] else [] := by
  unfold Statement.alone
  split
  · next he =>
      subst he
      have hs := h rfl
      cases s with
      | declaration d => cases d <;> first | rfl | cases hs
      | exportDeclaration d => cases d <;> first | rfl | cases hs
      | exportClass d => rfl
      | _ => cases hs
  · cases s <;> rfl

theorem positionsNamedByExports_exportingOnly (h : (m.site? position).isSome) :
    (m.exportingOnly position).positionsNamedByExports = [position] := by
  have hlt : position < m.statements.length := by
    obtain ⟨x, hx⟩ := Option.isSome_iff_exists.mp h
    obtain ⟨s, hs, -⟩ := Option.bind_eq_some_iff.mp hx
    exact (List.getElem?_eq_some_iff.mp hs).1
  unfold positionsNamedByExports
  rw [ofModule_exportingOnly, zipIdx_exportingOnly, List.flatMap_map]
  rw [← Nat.zero_add m.statements.length] at hlt
  refine flatMap_eq_singleton (fun x hx => ?_) (Nat.zero_le position) hlt
  refine positionsExportedBy_alone _ fun he => ?_
  rw [site?, ← he, List.mem_zipIdx_iff_getElem?.mp hx] at h
  rw [← he]
  exact h

/-- The class that is exported alone mentions what it does among the others. -/
theorem exportedReferences_exportingOnly (h : position ∈ m.positionsNamedByExports) :
    (m.exportingOnly position).exportedReferences ⊆ m.exportedReferences := by
  intro u hu
  obtain ⟨index, hindex, hu⟩ := List.mem_flatMap.mp hu
  rw [positionsNamedByExports_exportingOnly (site?_of_exported h), List.mem_singleton] at hindex
  subst hindex
  refine List.mem_flatMap.mpr ⟨index, h, ?_⟩
  cases hsite : (m.exportingOnly index).site? index with
  | none =>
      rw [hsite] at hu
      cases hu
  | some x =>
      rw [hsite] at hu
      rw [site?_of_exportingOnly hsite]
      exact hu

end Module

end PropSchema.TypeScript
