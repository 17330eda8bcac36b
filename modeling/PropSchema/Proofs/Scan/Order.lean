import PropSchema.Proofs.Scan
import PropSchema.Proofs.Scan.Alike
import PropSchema.Proofs.TypeScript.Rearranged
/-!
The order of statements, and declarations that nothing uses. What a module gives does not depend on
where its statements stand, if those that bind one name and those that export classes come in the
same order; nor on declarations of names that the module does not mention.
-/
namespace PropSchema.Scan

open TypeScript
variable {rules : ComponentRules} {m m' : Module} {added : List String}

/-- A module that is rearranged has the same outcome at every depth of resolution. At its own depth
it has what the other has, and if nothing is added also its refusal. -/
theorem outcome_of_rearranged (lenient : rules.policy = .lenient) (plain : rules.registry.Plain)
    (h : m.Rearranged added m') :
    (∀ depth, (ofSource rules (atDepth m' depth)).outcome =
      (ofSource rules (atDepth m depth)).outcome) ∧
    (∀ x, (ofSource rules (.ofModule m)).outcome = .ok x →
      (ofSource rules (.ofModule m')).outcome = .ok x) ∧
    (added = [] → (ofSource rules (.ofModule m')).outcome =
      (ofSource rules (.ofModule m)).outcome) := by
  obtain ⟨order, horder, hsame⟩ := h.order
  have hpositions : ∀ m : Module, (m.statements.zipIdx.map (·.2)).Nodup := by
    intro m
    rw [List.zipIdx_map_snd]
    exact List.nodup_range'
  have hpositions' : ((m'.without added).map (·.2)).Nodup :=
    (hpositions m').sublist ((List.filter_sublist (l := m'.statements.zipIdx)).map (·.2))
  have hleft : m.Alike _ ⟨"", order.map (·.1.unplaced)⟩ :=
    Module.alike_of_told rules horder.told
      ((horder.perm.map (·.2)).nodup_iff.mpr (hpositions m)) fun _ _ _ _ => List.not_mem_nil
  have hright : m'.Alike _ ⟨"", (m'.without added).map (·.1.unplaced)⟩ :=
    Module.alike_of_told rules (Module.told_by_without h.unexported) hpositions' h.fresh
  rw [← hsame] at hright
  have hto : ∀ {depth depth' x}, depth ≤ depth' →
      (ofSource rules (atDepth m depth)).outcome = .ok x →
        (ofSource rules (atDepth m' depth')).outcome = .ok x := by
    intro depth depth' x hdepth hx
    have hbetween := ok_of_alike lenient hleft rfl not_false not_false (le_refl depth) hx
    exact ok_of_alike lenient hright.flip (same_swap rfl) not_false not_false hdepth hbetween
  have hall : ∀ depth, (ofSource rules (atDepth m' depth)).outcome =
      (ofSource rules (atDepth m depth)).outcome := by
    intro depth
    rw [← outcome_eq_of_alike lenient plain hleft rfl not_false not_false,
      ← outcome_eq_of_alike lenient plain hright rfl not_false not_false]
  refine ⟨hall, fun x hx => ?_, fun hnone => ?_⟩
  · exact hto (Nat.add_le_add_right (Nat.mul_le_mul_left 2 h.size_le) 4096) hx
  · have hdepth : Source.ofModule m' = atDepth m' (2 * m.size + 4096) := by
      rw [← h.size_eq hnone]
      rfl
    rw [hdepth]
    exact hall _

namespace Views

/--
The views with their types after them and the import in between, at other places and with one more
type:

    interface Tree extends Base { next: Opt<Tree> }
    export class First extends React.Component<{ root: Opt<Tree> }> {}
    export class Second extends React.Component<Tree> {}
    … the import of `React` …
    type Leaf = Tree | Leaf[];
    interface Base { label: string }
    type Opt<T> = T | null;
-/
def turned : Module := ⟨"Turned.tsx", [
  .declaration (.interfaceDecl { tree with place := ⟨1, 1⟩ }),
  .exportDeclaration (.classDecl { first with place := ⟨2, 8⟩ }),
  .exportDeclaration (.classDecl { second with place := ⟨3, 8⟩ }),
  .imports "react" [.whole "React"],
  .declaration (.aliasDecl ⟨"Leaf", [], .union [.reference (.simple "Tree") [] ⟨5, 13⟩,
    .array (.reference (.simple "Leaf") [] ⟨5, 20⟩) ⟨5, 20⟩] ⟨5, 13⟩, ⟨5, 1⟩⟩),
  .declaration (.interfaceDecl base), .declaration (.aliasDecl opt)]⟩

def turnedOrder : List (Statement × Nat) :=
  views.statements.zipIdx.drop 3 ++ views.statements.zipIdx.take 3

theorem reordered : views.Reordered turnedOrder := by
  refine Module.reordered_of_bound List.perm_append_comm ?_ rfl
  have hbound : views.statements.flatMap Statement.bound =
      ["React", "Base", "Opt", "Tree", "First", "Second"] := rfl
  rw [hbound]
  simp only [List.forall_mem_cons]
  exact ⟨rfl, rfl, rfl, rfl, rfl, rfl, nofun⟩

theorem rearranged : views.Rearranged ["Leaf"] turned where
  order := ⟨turnedOrder, reordered, rfl⟩
  unexported := by decide
  fresh := by decide

end Views

/-- However the views are turned, the tree leads to itself through the alias. -/
theorem views_turned :
    sketch (ofSource Components.lenientRules (.ofModule Views.turned)).outcome =
        some ([⟨"First", 0⟩, ⟨"Second", 1⟩], [[true], [true, false]]) ∧
      (∀ depth, (ofSource Components.lenientRules (atDepth Views.turned depth)).outcome =
        (ofSource Components.lenientRules (atDepth Views.views depth)).outcome) ∧
      ∀ x, (ofSource Components.lenientRules (.ofModule Views.views)).outcome = .ok x →
        (ofSource Components.lenientRules (.ofModule Views.turned)).outcome = .ok x := by
  obtain ⟨hall, hok, -⟩ := @outcome_of_rearranged Components.lenientRules _ _ _ rfl
    Registry.plain_builtin Views.rearranged
  exact ⟨by decide +kernel, hall, hok⟩

end PropSchema.Scan
