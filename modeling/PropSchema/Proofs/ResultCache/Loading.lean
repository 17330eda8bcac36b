import PropSchema.Proofs.Json.Printable
import PropSchema.Proofs.Json.Reading
import PropSchema.Proofs.ResultCache.Entry
import PropSchema.Proofs.ResultCache.File
/-!
Caches of any files. A cache is loaded from whatever a file holds if that is text at all, and
nothing that comes before the first fault of the text is an integer of too many digits. Text that is
no cache file counts for nothing, and of a cache file those entries answer that have a valid
outcome, whatever stands beside them.
-/
namespace PropSchema

namespace ResultCache
variable {cache : ResultCache} {key signature fingerprint : String} {x : Extraction}

theorem get?_eq_some_iff_find :
    cache.get? key signature fingerprint = some x ↔
      cache.find key signature fingerprint = .ok (some x) := by
  rw [get?]
  split
  · next found hfound => rw [hfound, Except.ok.injEq]
  · next fault hfault =>
      rw [hfault]
      exact ⟨nofun, nofun⟩

/-- The file at a path has a text. -/
def HasText (w : Workspace) (path : Path) (text : String) : Prop :=
  ∃ bytes, w.read path = .ok bytes ∧ Utf8.readText bytes = .ok text

theorem HasText.unique {w : Workspace} {path : Path} {text text' : String} (h : HasText w path text)
    (h' : HasText w path text') : text = text' := by
  obtain ⟨bytes, hread, htext⟩ := h
  obtain ⟨bytes', hread', htext'⟩ := h'
  obtain rfl := Except.ok.inj (hread.symm.trans hread')
  exact Except.ok.inj (htext.symm.trans htext')

/-- The file at a path has no text with a surrogate that is not in a pair. -/
def Paired (w : Workspace) (path : Path) : Prop :=
  ∀ text, HasText w path text → ∀ left,
    Json.readChars .paired text.toList ≠ .error ⟨.loneSurrogate, left⟩

/-- The file at a path has a text that is read as a value, each surrogate in a pair. -/
def InFile (w : Workspace) (path : Path) (value : Json) : Prop :=
  ∃ text, HasText w path text ∧ Json.readChars .paired text.toList = .ok value

theorem InFile.unique {w : Workspace} {path : Path} {value value' : Json} (h : InFile w path value)
    (h' : InFile w path value') : value = value' := by
  obtain ⟨text, htext, hvalue⟩ := h
  obtain ⟨text', htext', hvalue'⟩ := h'
  obtain rfl := htext.unique htext'
  exact Except.ok.inj (hvalue.symm.trans hvalue')

theorem read_of_paired {w : Workspace} {path : Path} {text : String} (hpaired : Paired w path)
    (htext : HasText w path text) : Json.readChars .paired text.toList = Json.read text := by
  rcases Json.readChars_paired text.toList with ⟨left, hlone⟩ | heq
  · exact absurd hlone (hpaired text htext left)
  · exact heq

theorem InFile.distinct {w : Workspace} {path : Path} {value : Json} (hpaired : Paired w path)
    (h : InFile w path value) : Json.Distinct value := by
  obtain ⟨text, htext, hvalue⟩ := h
  rw [read_of_paired hpaired htext] at hvalue
  exact Json.distinct_of_read hvalue

/-- A loaded cache has the entries of the value that its file has a text of, or none. -/
theorem entries_of_load {w : Workspace} {path : Path} {reports : List Report}
    (h : load w path = .ok (cache, reports)) :
    (∃ text value, HasText w path text ∧ Json.read text = .ok value ∧
      cache.entries = entriesOf value) ∨
      (∀ text, HasText w path text → ∀ value, Json.read text ≠ .ok value) ∧
        cache.entries = [] := by
  cases hread : w.read path with
  | ok bytes =>
      rw [load, hread] at h
      dsimp only at h
      split at h
      case h_2 => cases h
      next text hbytes =>
      have htext : HasText w path text := ⟨bytes, hread, hbytes⟩
      rw [ofText] at h
      split at h
      · next value hvalue =>
          cases h
          exact .inl ⟨text, value, htext, hvalue, rfl⟩
      · cases h
      · next e _ hfault =>
          cases h
          refine .inr ⟨fun text' htext' value hvalue => ?_, rfl⟩
          obtain rfl := htext.unique htext'
          cases hfault.symm.trans hvalue
  | error e =>
      have hunread : ∀ bytes, w.read path ≠ .ok bytes := fun bytes hok => by
        rw [hread] at hok
        cases hok
      obtain ⟨_, hloaded⟩ := load_of_unread (hasNull_of_load h) hunread
      obtain ⟨rfl, -⟩ := Prod.mk.inj (Except.ok.inj (hloaded.symm.trans h))
      refine .inr ⟨?_, rfl⟩
      rintro text ⟨bytes, hok, -⟩
      exact absurd hok (hunread bytes)

end ResultCache

end PropSchema
