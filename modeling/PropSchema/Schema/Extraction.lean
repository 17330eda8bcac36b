import PropSchema.Schema
/-!
The outcome of an extraction pass: the components found and the reference table that their props
index. Outcomes of several files are merged by appending, with the indices of the later ones
shifted past the table of the earlier ones.
-/
namespace PropSchema

structure Extraction where
  components : List ComponentSpec
  refs : List RecordSpec
  deriving Inhabited

/-- An index that is not in its table. -/
structure DanglingIndex where
  index : Int
  size : Nat
  deriving DecidableEq

namespace Extraction

def empty : Extraction := ⟨[], []⟩

/-- Every table index: those of the components, then those of the entries. -/
def indices (x : Extraction) : List Int :=
  x.components.map ComponentSpec.props ++ x.refs.flatMap RecordSpec.indices

/-- Every index points into the table. -/
def Valid (x : Extraction) : Prop := ∀ i ∈ x.indices, 0 ≤ i ∧ i < x.refs.length

instance (x : Extraction) : Decidable x.Valid := by unfold Valid; infer_instance

/-- The first index that does not point into the table. -/
def dangling? (x : Extraction) : Option DanglingIndex :=
  (x.indices.find? fun (i : Int) => !decide (0 ≤ i ∧ i < x.refs.length)).map (⟨·, x.refs.length⟩)

theorem dangling?_eq_none_iff (x : Extraction) : x.dangling? = none ↔ x.Valid := by
  simp [dangling?, Valid]

def shift (offset : Int) (x : Extraction) : Extraction :=
  ⟨x.components.map (ComponentSpec.shift offset), x.refs.map (RecordSpec.shift offset)⟩

/-- The second outcome after the first. -/
def merge (x y : Extraction) : Extraction :=
  let moved := y.shift x.refs.length
  ⟨x.components ++ moved.components, x.refs ++ moved.refs⟩

end Extraction

end PropSchema
