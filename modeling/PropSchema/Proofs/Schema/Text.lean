import PropSchema.Proofs.Schema.Wire
/-!
Extractions as text. Whatever the indent, the text of a valid extraction is JSON text of a value
from which the same extraction is read. With an integer of too many digits it has no text.
-/
namespace PropSchema

namespace Extraction

/-- A valid extraction has a text just if its integers have, and is read back from it. -/
theorem read_back_from_text (x : Extraction) (h : x.Valid) (indent : Option Nat) :
    ((Wire.ofExtraction x).render indent).isSome = (Wire.ofExtraction x).isWritable ∧
    ∀ text, (Wire.ofExtraction x).render indent = some text →
      ∃ value, Json.read text = .ok value ∧ Wire.toExtraction value = .ok x := by
  refine ⟨Json.isSome_render _ _, fun text htext => ?_⟩
  have hread := (Wire.distinct_ofExtraction x).read_render htext
  exact ⟨_, hread, Wire.toExtraction_of_encodes h (Wire.encodes_ofExtraction x)⟩

/-- Literals that only their kinds tell apart, in every form that takes parts. -/
def assorted : Extraction := ⟨[⟨"Say \"\\\né😀\"", 0⟩],
  [⟨some "Node\x00", [⟨"next", ⟨.union [.literal (.int 1), .literal (.bool true),
      .literal (.float .one), .array (.tuple [.ref 0, .string])], true⟩⟩,
    ⟨"large", ⟨.literal (.int (-(10 ^ 40))), false⟩⟩,
    ⟨"zero", ⟨.tuple [.literal (.int 0), .literal (.float (.zero true))], false⟩⟩,
    ⟨"special", ⟨.tuple [.literal (.float .nan), .literal (.float (.infinite true))], false⟩⟩,
    ⟨"visit", ⟨.fn [⟨.partialRef 1, true⟩] ⟨.literal (.str "\ud7ff\ue000𝔘"), false⟩, false⟩⟩]⟩,
    ⟨none, []⟩]⟩

theorem read_back_assorted : assorted.Valid ∧
    ∃ text value, (Wire.ofExtraction assorted).render (some 2) = some text ∧
      Json.read text = .ok value ∧ Wire.toExtraction value = .ok assorted := by
  obtain ⟨hsome, hread⟩ := read_back_from_text assorted (by decide) (some 2)
  rw [show (Wire.ofExtraction assorted).isWritable = true by decide +kernel] at hsome
  obtain ⟨text, htext⟩ := Option.isSome_iff_exists.mp hsome
  obtain ⟨value, hvalue⟩ := hread text htext
  exact ⟨by decide, text, value, htext, hvalue⟩

/-- One member, whose type is an integer. -/
def ofInteger (n : Int) : Extraction := ⟨[⟨"A", 0⟩], [⟨none, [⟨"a", ⟨.literal (.int n), false⟩⟩]⟩]⟩

theorem valid_ofInteger (n : Int) : (ofInteger n).Valid := by
  intro i hi
  obtain rfl := List.mem_singleton.mp (hi : i ∈ [0])
  exact ⟨Int.le_refl 0, Int.zero_lt_one⟩

/-- The integer alone decides whether there is a text. -/
theorem isWritable_ofInteger (n : Int) :
    (Wire.ofExtraction (ofInteger n)).isWritable = Numeral.isWritable n := by
  have hindex : Numeral.isWritable 0 = true := by decide +kernel
  simp [hindex, ofInteger, Wire.ofExtraction, Wire.ofRecord, Wire.ofMember, Wire.ofComponent,
    Wire.ofPropType, Wire.ofLiteral, Wire.tagged, Json.ofOptionString, Json.isWritable,
    Json.fieldsWritable, Json.areWritable]

/-- Every valid extraction is read back from its text, which it has. -/
def AllReadBack : Prop :=
  ∀ (x : Extraction) (indent : Option Nat), x.Valid → ∃ text value,
    (Wire.ofExtraction x).render indent = some text ∧ Json.read text = .ok value ∧
      Wire.toExtraction value = .ok x

/-- An integer of 4301 digits has no text. -/
theorem not_allReadBack : ¬AllReadBack := by
  intro h
  obtain ⟨text, -, htext, -⟩ := h (ofInteger (10 ^ 4300)) none (valid_ofInteger _)
  obtain ⟨hwritable, -⟩ := Json.render_eq_some_iff.mp htext
  rw [isWritable_ofInteger] at hwritable
  exact absurd hwritable (by decide +kernel)

end Extraction

end PropSchema
