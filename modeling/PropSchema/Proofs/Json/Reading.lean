import PropSchema.Proofs.Json.RoundTrip
import PropSchema.Proofs.Sequences
/-!
Values that are read from any text. However often a text names a field of an object, the object that
is read has it once. Where surrogates are in pairs, it does not matter what one alone is read as.
-/
namespace PropSchema.Json
open Sequences (ok_of_bind)
variable {dialect : Dialect} {fuel : Nat} {cs rest : List Char} {value : Json}

theorem distinct_ofNumeral (n : Numeral) : Distinct (ofNumeral n) := by
  cases n with
  | int n => exact .int n
  | float x => exact .float x

theorem distinct_of_readScalar (h : readScalar dialect cs = .ok (value, rest)) : Distinct value := by
  rw [readScalar.eq_def] at h
  split at h
  · cases h
    exact .null
  split at h
  · cases h
    exact .bool true
  split at h
  · cases h
    exact .bool false
  split at h
  · cases h
    exact .float _
  split at h
  · cases h
    exact .float _
  split at h
  · cases h
    exact .float _
  split at h
  split at h
  case h_2 => cases h
  split at h
  · cases h
    exact distinct_ofNumeral _
  · cases h

/-- What is read with some fuel names no field twice. -/
structure ReadsDistinct (dialect : Dialect) (fuel : Nat) : Prop where
  value : ∀ {cs value rest}, readValue dialect fuel cs = .ok (value, rest) → Distinct value
  items : ∀ {cs items rest}, readItems dialect fuel cs = .ok (items, rest) →
    ∀ item ∈ items, Distinct item
  fields : ∀ {cs fields rest}, readFields dialect fuel cs = .ok (fields, rest) →
    ∀ field ∈ fields, Distinct field.2

namespace ReadsDistinct

theorem readValue (h : ReadsDistinct dialect fuel)
    (hread : readValue dialect (fuel + 1) cs = .ok (value, rest)) : Distinct value := by
  rw [Json.readValue.eq_def] at hread
  dsimp only at hread
  split at hread
  · obtain ⟨s, hs, hread⟩ := ok_of_bind hread
    cases hread
    exact .str _
  · split at hread
    · cases hread
      exact .arr fun _ h => absurd h List.not_mem_nil
    · obtain ⟨items, hitems, hread⟩ := ok_of_bind hread
      cases hread
      exact .arr (h.items hitems)
  · split at hread
    · cases hread
      exact .obj List.nodup_nil fun _ h => absurd h List.not_mem_nil
    · obtain ⟨pairs, hpairs, hread⟩ := ok_of_bind hread
      cases hread
      exact .obj (Entries.nodup_ofPairs _) fun field hfield =>
        h.fields hpairs field (Entries.mem_of_mem_ofPairs hfield)
  · exact distinct_of_readScalar hread

theorem readItems (h : ReadsDistinct dialect fuel) {items : List Json}
    (hread : readItems dialect (fuel + 1) cs = .ok (items, rest)) :
    ∀ item ∈ items, Distinct item := by
  rw [Json.readItems] at hread
  obtain ⟨⟨first, more⟩, hfirst, hread⟩ := ok_of_bind hread
  dsimp only at hread
  split at hread
  · cases hread
    exact List.forall_mem_singleton.mpr (h.value hfirst)
  · obtain ⟨⟨others, _⟩, hothers, hread⟩ := ok_of_bind hread
    cases hread
    exact List.forall_mem_cons.mpr ⟨h.value hfirst, h.items hothers⟩
  · cases hread

theorem readFields (h : ReadsDistinct dialect fuel) {fields : List (String × Json)}
    (hread : readFields dialect (fuel + 1) cs = .ok (fields, rest)) :
    ∀ field ∈ fields, Distinct field.2 := by
  rw [Json.readFields.eq_def] at hread
  dsimp only at hread
  split at hread
  case h_2 =>
    obtain ⟨_, hfail, -⟩ := ok_of_bind hread
    cases hfail
  obtain ⟨⟨name, afterName⟩, -, hread⟩ := ok_of_bind hread
  dsimp only at hread
  split at hread
  case h_2 =>
    obtain ⟨_, hfail, -⟩ := ok_of_bind hread
    cases hfail
  obtain ⟨afterColon, -, hread⟩ := ok_of_bind hread
  obtain ⟨⟨first, more⟩, hfirst, hread⟩ := ok_of_bind hread
  dsimp only at hread
  split at hread
  · cases hread
    exact List.forall_mem_singleton.mpr (h.value hfirst)
  · obtain ⟨⟨others, _⟩, hothers, hread⟩ := ok_of_bind hread
    cases hread
    exact List.forall_mem_cons.mpr ⟨h.value hfirst, h.fields hothers⟩
  · cases hread

end ReadsDistinct

theorem readsDistinct (dialect : Dialect) (fuel : Nat) : ReadsDistinct dialect fuel := by
  induction fuel with
  | zero =>
      refine ⟨fun h => ?_, fun h => ?_, fun h => ?_⟩
      · rw [readValue] at h
        cases h
      · rw [readItems] at h
        cases h
      · rw [readFields] at h
        cases h
  | succ fuel ih => exact ⟨ih.readValue, ih.readItems, ih.readFields⟩

/-- A reader for texts in pairs has what the tolerant one has, unless it met a surrogate alone. -/
def Agrees {α : Type} (paired tolerant : Except ReadError α) : Prop :=
  (∃ left, paired = .error ⟨.loneSurrogate, left⟩) ∨ paired = tolerant

namespace Agrees

theorem refl {α : Type} (x : Except ReadError α) : Agrees x x := .inr rfl

theorem bind {α β : Type} {x y : Except ReadError α} {f g : α → Except ReadError β}
    (h : Agrees x y) (hf : ∀ a, Agrees (f a) (g a)) : Agrees (x >>= f) (y >>= g) := by
  rcases h with ⟨left, rfl⟩ | rfl
  · exact .inl ⟨left, rfl⟩
  · cases x with
    | error e => exact .refl _
    | ok a => exact hf a

theorem readString (cs : List Char) : Agrees (readString .paired cs) (readString .tolerant cs) := by
  refine (refl (stringUnits (cs.length + 1) cs)).bind fun ⟨units, rest⟩ => ?_
  dsimp only
  split
  · exact .inl ⟨_, rfl⟩
  · exact .refl _

end Agrees

/-- With some fuel both readers agree. -/
structure ReadsPaired (fuel : Nat) : Prop where
  value : ∀ cs, Agrees (readValue .paired fuel cs) (readValue .tolerant fuel cs)
  items : ∀ cs, Agrees (readItems .paired fuel cs) (readItems .tolerant fuel cs)
  fields : ∀ cs, Agrees (readFields .paired fuel cs) (readFields .tolerant fuel cs)

namespace ReadsPaired

theorem readValue (h : ReadsPaired fuel) (cs : List Char) :
    Agrees (readValue .paired (fuel + 1) cs) (readValue .tolerant (fuel + 1) cs) := by
  rw [Json.readValue.eq_def, Json.readValue.eq_def]
  dsimp only
  split
  · exact (Agrees.readString _).bind fun _ => .refl _
  · split
    · exact .refl _
    · exact (h.items _).bind fun _ => .refl _
  · split
    · exact .refl _
    · exact (h.fields _).bind fun _ => .refl _
  · exact .inr rfl

theorem readItems (h : ReadsPaired fuel) (cs : List Char) :
    Agrees (readItems .paired (fuel + 1) cs) (readItems .tolerant (fuel + 1) cs) := by
  rw [Json.readItems, Json.readItems]
  refine (h.value cs).bind fun _ => ?_
  dsimp only
  split
  · exact .refl _
  · exact (h.items _).bind fun _ => .refl _
  · exact .refl _

theorem readFields (h : ReadsPaired fuel) (cs : List Char) :
    Agrees (readFields .paired (fuel + 1) cs) (readFields .tolerant (fuel + 1) cs) := by
  rw [Json.readFields.eq_def, Json.readFields.eq_def]
  dsimp only
  split
  case h_2 => exact .refl _
  refine (Agrees.readString _).bind fun _ => ?_
  split
  case h_2 => exact .refl _
  refine (h.value _).bind fun _ => ?_
  split
  · exact .refl _
  · exact (h.fields _).bind fun _ => .refl _
  · exact .refl _

end ReadsPaired

theorem readsPaired (fuel : Nat) : ReadsPaired fuel := by
  induction fuel with
  | zero =>
      refine ⟨fun cs => ?_, fun cs => ?_, fun cs => ?_⟩
      · rw [readValue, readValue]
        exact .refl _
      · rw [readItems, readItems]
        exact .refl _
      · rw [readFields, readFields]
        exact .refl _
  | succ fuel ih => exact ⟨ih.readValue, ih.readItems, ih.readFields⟩

/-- A text that is not refused for a surrogate alone is read in pairs as it is read anyway. -/
theorem readChars_paired (cs : List Char) :
    Agrees (readChars .paired cs) (readChars .tolerant cs) := by
  rw [readChars, readChars]
  split
  · exact .refl _
  · exact ((readsPaired _).value _).bind fun _ => .refl _

/-- Of fields with one name in a text, one is read. -/
theorem distinct_of_read {text : String} (h : read text = .ok value) : Distinct value := by
  rw [read, readChars] at h
  split at h
  · cases h
  obtain ⟨⟨found, rest⟩, hfound, h⟩ := ok_of_bind h
  dsimp only at h
  split at h
  · cases h
    exact (readsDistinct .tolerant _).value hfound
  · cases h

end PropSchema.Json
