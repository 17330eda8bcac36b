import PropSchema.Proofs.TypeScript.Framework
import PropSchema.Proofs.TypeScript.RewrittenSizes
import PropSchema.Proofs.TypeScript.SameNames
/-!
Modules in which an imported name is replaced by another that does not occur. They are alike if
every type name that begins with it means the same afterwards: what is imported by name and members
of the framework do, others only if nothing is known of them before or after.
-/
namespace PropSchema.TypeScript

/-- Names are replaced; places and texts of unknown types are left out. -/
def Rewriting.naming (f : String → String) : Rewriting := ⟨f, fun _ => ⟨0, 0⟩, fun _ => "", false⟩

def renamed (old new name : String) : String := if name = old then new else name

namespace TypeName

/-- The names that a type name may be looked up by. -/
def parts : TypeName → List String
  | .simple name => [name]
  | .dotted name => [name.head, (qualifiedParts name.text).1]

end TypeName

/-- A single name after a dot. -/
def DottedName.isMember (n : DottedName) : Prop :=
  ∃ last, Text.erase ' ' n.rest.toList = '.' :: last ∧ '.' ∉ last

/-- The module with a name replaced by another, of which places do not count. -/
def Module.rename (m : Module) (old new : String) : Module := m.rewrite (.naming (renamed old new))

/-- How a type name means the same when a name is replaced by another. -/
inductive TypeName.Kept (rules : ComponentRules) (m : Module) (old new : String) : TypeName → Prop
  /-- What is imported by name is so by the other. -/
  | imported {symbol : String} (h : (old, symbol) ∈ importedNames m.statements.zipIdx) :
      Kept rules m old new (.simple old)
  | member {n : DottedName} (hhead : n.head = old) (hmember : n.isMember)
      (h : old ∈ importedNamespaces m.statements.zipIdx) : Kept rules m old new (.dotted n)
  | unknownName (hold : old ∉ builtinNames) (hnew : new ∉ builtinNames)
      (h : rules.Same (some old) (some new)) : Kept rules m old new (.simple old)
  | unknown {n : DottedName} (n' : DottedName) (hn' : n' = ⟨renamed old new n.head, n.rest⟩)
      (h : (Scope.ofModule m).isFramework (qualifiedParts n.text).1 = false)
      (h' : (Scope.ofModule (m.rename old new)).isFramework (qualifiedParts n'.text).1 = false)
      (hsame : rules.Same (some (qualifiedSymbol n.text)) (some (qualifiedSymbol n'.text))) :
      Kept rules m old new (.dotted n)

/-- The second module is the first with a name replaced by one that does not occur in it. -/
structure Module.Renamed (rules : ComponentRules) (old new : String) (m m' : Module) : Prop where
  same : m'.statements.map (Statement.rewrite (.naming id)) = (m.rename old new).statements
  identifiers : ' ' ∉ old.toList ∧ ' ' ∉ new.toList
  undeclared : ∀ s ∈ m.statements, s.declares old = false
  fresh : ∀ s ∈ m.statements, new ∉ s.bound ∧ new ∉ s.exportedNames ∧
    ∀ use ∈ s.uses, new ∉ use.parts
  kept : ∀ use ∈ m.uses, old ∈ use.parts → use.Kept rules m old new

/-- Names stand for what they are replaced by, if they mean the same. -/
def Variation.renaming (rules : ComponentRules) (m : Module) (old new : String) : Variation where
  name a b := b = renamed old new a ∧ a ≠ new ∧ (a = old → TypeName.Kept rules m old new (.simple a))
  dotted n n' := n' = ⟨renamed old new n.head, n.rest⟩ ∧ new ∉ (TypeName.dotted n).parts ∧
    (old ∈ (TypeName.dotted n).parts → TypeName.Kept rules m old new (.dotted n))
  symbol := rules.Same
  position := (· = ·)
  left := False
  right := False

theorem renamed_injective {old new a b : String} (ha : a ≠ new) (hb : b ≠ new) :
    a = b ↔ renamed old new a = renamed old new b := by
  refine ⟨congrArg _, fun h => ?_⟩
  unfold renamed at h
  split at h <;> split at h <;> simp_all

theorem qualifiedParts_of_isMember {head rest : String} (hhead : ' ' ∉ head.toList)
    {last : List Char} (hrest : Text.erase ' ' rest.toList = '.' :: last) (hlast : '.' ∉ last) :
    qualifiedParts (head ++ rest) = (head, String.ofList last) := by
  have herased : Text.erase ' ' (head ++ rest).toList = head.toList ++ '.' :: last := by
    rw [String.toList_append, Text.erase, List.filter_append]
    refine congr (congrArg _ (List.filter_eq_self.mpr fun c hc => ?_)) hrest
    exact bne_iff_ne.mpr fun he => hhead (he ▸ hc)
  rw [qualifiedParts, herased, splitLast_append hlast]
  exact Prod.ext String.ofList_toList rfl

/-- A member of what is renamed is one of the other name. -/
theorem DottedName.isMember.qualifiedParts {n : DottedName} (h : n.isMember) {old new : String}
    (hhead : n.head = old) (hold : ' ' ∉ old.toList) (hnew : ' ' ∉ new.toList) :
    ∃ last, TypeScript.qualifiedParts n.text = (old, last) ∧
      TypeScript.qualifiedParts (new ++ n.rest) = (new, last) := by
  obtain ⟨last, hrest, hlast⟩ := h
  refine ⟨String.ofList last, ?_, qualifiedParts_of_isMember hnew hrest hlast⟩
  rw [text, hhead]
  exact qualifiedParts_of_isMember hold hrest hlast

theorem renamed_of_ne {old new name : String} (h : name ≠ old) : renamed old new name = name :=
  if_neg h

theorem renamed_self (old new : String) : renamed old new old = new := if_pos rfl

/-- A name that does not occur stands for none of those that are replaced. -/
theorem mem_map_renamed {old new name : String} {names : List String} (hnew : new ∉ names)
    (hold : name ≠ old) (hname : name ≠ new) :
    name ∈ names.map (renamed old new) ↔ name ∈ names := by
  rw [List.mem_map]
  constructor
  · rintro ⟨other, hmem, heq⟩
    have hother : other ≠ new := fun he => hnew (he ▸ hmem)
    have hsame := (renamed_injective hother hname).mpr (heq.trans (renamed_of_ne hold).symm)
    exact hsame ▸ hmem
  · exact fun hmem => ⟨name, hmem, renamed_of_ne hold⟩

/-- A module is alike to what is left of it without places and texts. -/
theorem Module.alike_of_same (rules : ComponentRules) {m m' : Module}
    (h : m'.statements.map (Statement.rewrite (.naming id)) = m.statements) :
    m'.Alike (.sameNames rules [] (· = ·) False) m := by
  refine alike_of_placed (ρ := .naming id) (fun _ => rfl) nofun ?_ (m'.toldBy_self [])
    (m.toldBy_self []) ?_ fun _ _ _ _ => List.not_mem_nil
  · rintro p _ p' _ rfl rfl
    exact Iff.rfl
  · rw [← h, List.zipIdx_map]
    refine List.forall₂_map_right_iff.mpr (List.forall₂_same.mpr fun s _ => ?_)
    refine ⟨rfl, rfl, fun use _ => ?_⟩
    cases use with
    | simple name => exact ⟨rfl, List.not_mem_nil⟩
    | dotted name => exact ⟨rfl, List.not_mem_nil⟩

theorem Module.size_of_same {m m' : Module}
    (h : m'.statements.map (Statement.rewrite (.naming id)) = m.statements) : m'.size = m.size := by
  have hsize : total Statement.size (m'.statements.map (Statement.rewrite (.naming id))) =
    m'.size := total_map (Statement.size_rewrite rfl) m'.statements
  rw [← hsize, h]
  rfl

namespace Module.Renamed
variable {rules : ComponentRules} {old new : String} {m m' : Module}
  (h : m.Renamed rules old new m')
include h

theorem placed : List.Forall₂
    (Statement.Placed (.naming (renamed old new)) (.renaming rules m old new)) m.statements.zipIdx
    (m.rename old new).statements.zipIdx := by
  rw [Module.rename, Module.rewrite, List.zipIdx_map]
  refine List.forall₂_map_right_iff.mpr (List.forall₂_same.mpr fun s hs => ?_)
  refine ⟨rfl, rfl, fun use hu => ?_⟩
  have hmem := List.fst_mem_of_mem_zipIdx hs
  have hfresh := (h.fresh s.1 hmem).2.2 use hu
  have hkept := h.kept use (List.mem_flatMap.mpr ⟨s.1, hmem, hu⟩)
  cases use with
  | simple name =>
      refine ⟨rfl, fun he => hfresh (he ▸ List.mem_cons_self), fun he => hkept ?_⟩
      exact he ▸ List.mem_cons_self
  | dotted n => exact ⟨rfl, hfresh, hkept⟩

/-- Declarations of a name are those of the same name. -/
theorem declared (name : String) : Scope.DeclaredAlike (.renaming rules m old new) name name
    ((Scope.ofModule m).find? name) ((Scope.ofModule (m.rename old new)).find? name) := by
  rw [find?_scope, find?_scope]
  exact declaredAlike_of_placed (ρ := .naming (renamed old new)) nofun h.placed name

theorem old_undeclared : (Scope.ofModule m).find? old = none := m.find?_eq_none h.undeclared

theorem new_undeclared : (Scope.ofModule (m.rename old new)).find? new = none := by
  have hnone : (Scope.ofModule m).find? new = none := by
    refine m.find?_eq_none fun s hs => Bool.eq_false_iff.mpr fun hd => ?_
    exact (h.fresh s hs).1 (List.contains_iff_mem.mp (Statement.bound_of_declares hd))
  have hnew := h.declared new
  rw [hnone] at hnew
  exact hnew.flip.eq_none

theorem new_unbound {s : Statement × Nat} (hs : s ∈ m.statements.zipIdx) : new ∉ s.1.bound :=
  (h.fresh s.1 (List.fst_mem_of_mem_zipIdx hs)).1

/-- A name and what it is replaced by stand for the same declarations. -/
theorem declared_renamed {name : String} : Scope.DeclaredAlike (.renaming rules m old new) name
    (renamed old new name) ((Scope.ofModule m).find? name)
      ((Scope.ofModule (m.rename old new)).find? (renamed old new name)) := by
  by_cases hname : name = old
  · rw [hname, renamed_self, h.old_undeclared, h.new_undeclared]
    exact .none
  · rw [renamed_of_ne hname]
    exact h.declared name

theorem imported_renamed {name : String} (hname : name ≠ new) :
    (Scope.ofModule m).imported.lookup name =
      (Scope.ofModule (m.rename old new)).imported.lookup (renamed old new name) := by
  rw [m.imported_scope, (m.rename old new).imported_scope, importedNames_of_placed h.placed,
    ← List.map_reverse]
  refine Sequences.lookup_eq (P := fun k k' => k ≠ new ∧ k' = renamed old new k) ?_ ?_ ⟨hname, rfl⟩
  · rintro k _ l _ ⟨hk, rfl⟩ ⟨hl, rfl⟩
    exact renamed_injective hk hl
  · refine List.forall₂_map_right_iff.mpr (List.forall₂_same.mpr fun e he => ⟨⟨?_, rfl⟩, rfl⟩)
    obtain ⟨s, hs, hbound⟩ := exists_bound_of_imported (List.mem_reverse.mp he)
    exact fun heq => h.new_unbound hs (heq ▸ hbound)

/-- A qualifier that is neither name means the framework in both modules or in neither. -/
theorem isFramework_eq {qualifier : String} (hold : qualifier ≠ old) (hnew : qualifier ≠ new) :
    (Scope.ofModule (m.rename old new)).isFramework qualifier =
      (Scope.ofModule m).isFramework qualifier := by
  refine (h.declared qualifier).isFramework_eq ?_
  rw [m.namespaces_scope, (m.rename old new).namespaces_scope, List.mem_reverse, List.mem_reverse,
    importedNamespaces_of_placed h.placed]
  refine mem_map_renamed (fun hmem => ?_) hold hnew
  obtain ⟨s, hs, hbound⟩ := exists_bound_of_namespace hmem
  exact h.new_unbound hs hbound

/-- Dotted names mean the same if those that begin with what is replaced do. -/
theorem dotted_alike {n n' : DottedName} (hn : (Variation.renaming rules m old new).dotted n n') :
    Scope.QualifiedAlike (.renaming rules m old new) (.ofModule m) (.ofModule (m.rename old new))
      n.text n'.text := by
  obtain ⟨rfl, hfresh, hkept⟩ := hn
  by_cases hparts : old ∈ (TypeName.dotted n).parts
  · cases hkept hparts with
    | member hhead hmember hold =>
        obtain ⟨last, hq, hq'⟩ := hmember.qualifiedParts hhead h.identifiers.1 h.identifiers.2
        have hnew : new ∈ importedNamespaces (m.rename old new).statements.zipIdx := by
          rw [importedNamespaces_of_placed h.placed]
          exact List.mem_map.mpr ⟨old, hold, renamed_self old new⟩
        rw [hhead, renamed_self]
        refine .framework ?_ ?_ (by rw [hq, DottedName.text, hq'])
        · rw [hq, Scope.isFramework, m.namespaces_scope]
          exact (Bool.or_eq_true _ _).mpr
            (.inl (List.contains_iff_mem.mpr (List.mem_reverse.mpr hold)))
        · rw [DottedName.text, hq', Scope.isFramework, (m.rename old new).namespaces_scope]
          exact (Bool.or_eq_true _ _).mpr
            (.inl (List.contains_iff_mem.mpr (List.mem_reverse.mpr hnew)))
    | unknown n' hn' hm hm' hsame =>
        subst hn'
        exact .unresolved hm hm' hsame
  · have hhead : n.head ≠ old := fun he => hparts (he ▸ List.mem_cons_self)
    have hold : (qualifiedParts n.text).1 ≠ old := fun he =>
      hparts (List.mem_cons_of_mem _ (he ▸ List.mem_cons_self))
    have hnew : (qualifiedParts n.text).1 ≠ new := fun he =>
      hfresh (List.mem_cons_of_mem _ (he ▸ List.mem_cons_self))
    have hframework := h.isFramework_eq hold hnew
    rw [renamed_of_ne hhead]
    cases hq : (Scope.ofModule m).isFramework (qualifiedParts n.text).1 with
    | true => exact .framework hq (hframework.trans hq) rfl
    | false => exact .unresolved hq (hframework.trans hq) (.refl rules _)

/-- A module is alike to itself with the name replaced. -/
theorem alike_rename : m.Alike (.renaming rules m old new) (m.rename old new) := by
  refine ⟨⟨?_, ?_, .refl rules, ?_, ?_, ?_, fun hn => h.dotted_alike hn⟩, ?_⟩
  · rintro a _ b _ ⟨rfl, ha, -⟩ ⟨rfl, hb, -⟩
    exact renamed_injective ha hb
  · rintro p _ p' _ rfl rfl
    exact Iff.rfl
  · rintro a _ ⟨rfl, -, -⟩
    exact h.declared_renamed
  · rintro a _ ⟨rfl, ha, -⟩ -
    exact h.imported_renamed ha
  · rintro a _ ⟨rfl, ha, hkept⟩ - himported
    by_cases hold : a = old
    · subst hold
      rw [renamed_self]
      cases hkept rfl with
      | imported hmem =>
          rw [m.imported_scope, List.lookup_eq_none_iff] at himported
          have hne := himported _ (List.mem_reverse.mpr hmem)
          rw [bne_self_eq_false] at hne
          cases hne
      | unknownName hold hnew hsame => exact .inr ⟨hold, hnew, hsame⟩
    · exact .inl (renamed_of_ne hold).symm
  · exact exports_alike (ρ := .naming (renamed old new)) nofun h.placed fun s hs name hname =>
      ⟨h.declared name, h.declared_renamed⟩

/-- The second module is alike to what the first is with the name replaced. -/
theorem alike_right : m'.Alike (.sameNames rules [] (· = ·) False) (m.rename old new) :=
  Module.alike_of_same rules h.same

theorem size_eq : m'.size = m.size := (Module.size_of_same h.same).trans (m.size_rewrite rfl)

end Module.Renamed

end PropSchema.TypeScript
