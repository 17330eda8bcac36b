import PropSchema.Proofs.Schema.Reading
import PropSchema.Proofs.Schema.Sorted
import PropSchema.ResultCache
/-!
Entries of a cache. Whatever the fields of an entry are, it answers with the outcome that they have.
One that holds an outcome with the signature and the fingerprint that it was stored with answers for
these alone, and still does when its fields are sorted.
-/
namespace PropSchema
open Json (Distinct)

/-- An outcome with the signature and the fingerprint that it answers for. -/
structure Stored where
  signature : String
  fingerprint : String
  result : Extraction

namespace CacheEntry
variable {entry : CacheEntry} {s : Stored} {signature fingerprint : String} {x : Extraction}

theorem hasText_iff {name text : String} :
    entry.hasText name text ↔ entry.lookup name = some (.str text) := by
  rw [hasText]
  split
  · next s hfield =>
      rw [beq_iff_eq, hfield]
      exact ⟨fun h => by rw [h], fun h => by cases h; rfl⟩
  · next hother => exact iff_of_false Bool.false_ne_true (hother text)

/-- The fields of an entry have an outcome for a signature and a fingerprint. -/
structure Answers (entry : CacheEntry) (signature fingerprint : String) (x : Extraction) : Prop where
  signature : entry.lookup "signature" = some (.str signature)
  fingerprint : entry.lookup "fingerprint" = some (.str fingerprint)
  result : ∃ value, entry.lookup "result" = some value ∧ Wire.ReadsExtraction value x

/-- Whatever the fields of an entry are, it gives the outcome that they have, if that is valid. -/
theorem outcome_eq_some_iff :
    entry.outcome signature fingerprint = .ok (some x) ↔
      entry.Answers signature fingerprint x ∧ x.Valid := by
  rw [outcome]
  constructor
  · intro h
    split at h
    · next htexts =>
        rw [Bool.and_eq_true, hasText_iff, hasText_iff] at htexts
        split at h
        · next fields hresult =>
            obtain ⟨y, hread, h⟩ := Sequences.ok_of_bind h
            cases h
            obtain ⟨hreads, valid⟩ := Wire.toExtraction_eq_ok_iff.mp hread
            exact ⟨⟨htexts.1, htexts.2, _, hresult, hreads⟩, valid⟩
        · cases h
    · cases h
  · rintro ⟨⟨hsignature, hfingerprint, value, hresult, hreads⟩, valid⟩
    obtain ⟨items, hitems, -⟩ := hreads.components
    obtain ⟨fields, rfl⟩ := Wire.exists_obj hitems
    rw [if_pos (by rw [Bool.and_eq_true, hasText_iff, hasText_iff]; exact ⟨hsignature, hfingerprint⟩),
      hresult]
    dsimp only
    rw [Wire.toExtraction_eq_ok_iff.mpr ⟨hreads, valid⟩]
    rfl

/-- The fields that a cache file asks for are there. -/
def Complete (entry : CacheEntry) : Prop :=
  ∀ name ∈ ["signature", "fingerprint", "result"], (entry.lookup name).isSome

theorem complete_of_lookup {value value' value'' : Json}
    (hsignature : entry.lookup "signature" = some value)
    (hfingerprint : entry.lookup "fingerprint" = some value')
    (hresult : entry.lookup "result" = some value'') : entry.Complete := by
  intro name hname
  simp only [List.mem_cons, List.not_mem_nil, or_false] at hname
  rcases hname with rfl | rfl | rfl
  · rw [hsignature, Option.isSome_some]
  · rw [hfingerprint, Option.isSome_some]
  · rw [hresult, Option.isSome_some]

theorem Answers.complete (h : entry.Answers signature fingerprint x) : entry.Complete := by
  obtain ⟨value, hresult, -⟩ := h.result
  exact complete_of_lookup h.signature h.fingerprint hresult

theorem ofJson?_eq_some_iff {value : Json} :
    ofJson? value = some entry ↔ value = .obj entry ∧ entry.Complete := by
  constructor
  · intro h
    cases value with
    | obj fields =>
        rw [ofJson?] at h
        split at h
        · next hall =>
            obtain rfl := Option.some.inj h
            exact ⟨rfl, List.all_eq_true.mp hall⟩
        · cases h
    | _ => cases h
  · rintro ⟨rfl, hcomplete⟩
    rw [ofJson?, if_pos (List.all_eq_true.mpr hcomplete)]

/-- An entry with the fields that a cache file asks for, and no field twice. -/
structure Whole (entry : CacheEntry) : Prop where
  distinct : Distinct (.obj entry)
  complete : ∀ name ∈ ["signature", "fingerprint", "result"], (entry.lookup name).isSome

/-- An entry says what was stored. -/
structure Holds (entry : CacheEntry) (s : Stored) : Prop where
  distinct : Distinct (.obj entry)
  signature : entry.lookup "signature" = some (.str s.signature)
  fingerprint : entry.lookup "fingerprint" = some (.str s.fingerprint)
  result : ∃ value, entry.lookup "result" = some value ∧ Wire.EncodesExtraction value s.result
  -- nothing but the outcome in an entry can be too long to be written
  writable : (Json.obj entry).isWritable = (Wire.ofExtraction s.result).isWritable

namespace Whole

/-- Fields that are there are still there when they are sorted, each with its value sorted. -/
theorem lookup_ordered (h : entry.Whole) (name : String) :
    (Json.ordered entry).lookup name = (entry.lookup name).map Json.sorted := by
  cases h.distinct with
  | obj names _ => exact Json.lookup_ordered names name

theorem ofJson?_sorted (h : entry.Whole) :
    ofJson? (Json.obj entry).sorted = some (Json.ordered entry) := by
  refine ofJson?_eq_some_iff.mpr ⟨Json.sorted_obj entry, fun name hname => ?_⟩
  rw [h.lookup_ordered, Option.isSome_map]
  exact h.complete name hname

end Whole

namespace Holds

theorem make (stamp signature fingerprint : String) (x : Extraction) :
    (make stamp signature fingerprint x).Holds ⟨signature, fingerprint, x⟩ := by
  have hnames : ["signature", "fingerprint", "result", "updated_at"].Nodup := by decide
  refine ⟨.obj hnames ?_, rfl, rfl, ⟨_, rfl, Wire.encodes_ofExtraction x⟩, ?_⟩
  · simp only [CacheEntry.make, List.forall_mem_cons]
    exact ⟨.str _, .str _, Wire.distinct_ofExtraction x, .str _, nofun⟩
  · rw [CacheEntry.make, Json.isWritable]
    simp only [Json.fieldsWritable, Json.isWritable, Bool.true_and, Bool.and_true]

theorem whole (h : entry.Holds s) : entry.Whole := by
  obtain ⟨value, hvalue, -⟩ := h.result
  exact ⟨h.distinct, complete_of_lookup h.signature h.fingerprint hvalue⟩

/-- An entry with sorted fields says the same. -/
theorem ordered (h : entry.Holds s) : CacheEntry.Holds (Json.ordered entry) s := by
  have hlookup : ∀ {name value}, entry.lookup name = some value →
      (Json.ordered entry).lookup name = some value.sorted := by
    intro name value hfield
    rw [h.whole.lookup_ordered, hfield]
    rfl
  obtain ⟨value, hvalue, hencodes⟩ := h.result
  refine ⟨?_, hlookup h.signature, hlookup h.fingerprint, ⟨_, hlookup hvalue,
    hencodes.sorted (h.distinct.field hvalue)⟩, ?_⟩
  · rw [← Json.sorted_obj]
    exact h.distinct.sorted
  · rw [← Json.sorted_obj, h.distinct.isWritable_sorted, h.writable]

/-- An entry that answers has what was stored. -/
theorem eq_of_outcome (h : entry.Holds s)
    (houtcome : entry.outcome signature fingerprint = .ok (some x)) :
    s = ⟨signature, fingerprint, x⟩ := by
  obtain ⟨hanswers, valid⟩ := outcome_eq_some_iff.mp houtcome
  obtain ⟨value, hvalue, hreads⟩ := hanswers.result
  obtain ⟨value', hvalue', hencodes⟩ := h.result
  obtain rfl := Option.some.inj (hvalue'.symm.trans hvalue)
  have hsignature := Option.some.inj (h.signature.symm.trans hanswers.signature)
  have hfingerprint := Option.some.inj (h.fingerprint.symm.trans hanswers.fingerprint)
  have hresult := Wire.eq_of_toExtraction hencodes (Wire.toExtraction_eq_ok_iff.mpr ⟨hreads, valid⟩)
  rw [← Json.str.inj hsignature, ← Json.str.inj hfingerprint, hresult]

/-- An entry answers with what was stored, if that is valid. -/
theorem outcome_self (h : entry.Holds s) (valid : s.result.Valid) :
    entry.outcome s.signature s.fingerprint = .ok (some s.result) := by
  obtain ⟨value, hvalue, hencodes⟩ := h.result
  have hread := Wire.toExtraction_of_encodes valid hencodes
  obtain ⟨hreads, -⟩ := Wire.toExtraction_eq_ok_iff.mp hread
  exact outcome_eq_some_iff.mpr ⟨⟨h.signature, h.fingerprint, value, hvalue, hreads⟩, valid⟩

end Holds

end CacheEntry

end PropSchema
