import PropSchema.Proofs.FileTree
import PropSchema.Proofs.ResultCache.File
import PropSchema.Proofs.ResultCache.Loading
import PropSchema.Proofs.Schema.Text
/-!
A cache is a plain map. Outcomes are stored, keys are pruned, the cache is written to its file and
read again from it, in any order; what it answers is what a map of keys to outcomes has, where
writing keeps a copy of the map and reading goes back to that copy. A map with an outcome that has
no text is not written, and its file stays as it is.
-/
namespace PropSchema

/-- What is stored under which key. -/
abbrev StoredMap := String → Option Stored

namespace StoredMap

def empty : StoredMap := fun _ => none

def store (m : StoredMap) (key : String) (s : Stored) : StoredMap :=
  fun other => if other = key then some s else m other

def prune (m : StoredMap) (keep : List String) : StoredMap :=
  fun key => if key ∈ keep then m key else none

end StoredMap

namespace ResultCache
open CacheEntry (Holds)
variable {path : Path} {w w' : Workspace} {cache cache' : ResultCache} {m known file : StoredMap}
  {key signature fingerprint : String} {s : Stored} {x : Extraction}

/-- The entries of a cache say what a map has. -/
structure Represents (cache : ResultCache) (m : StoredMap) : Prop where
  names : (Entries.keys cache.entries).Nodup
  agrees : ∀ key, Option.Rel (fun entry s => entry.Holds s ∧ s.result.Valid)
    (cache.entries.lookup key) (m key)

namespace Represents

theorem empty (path : Option Path) : (ResultCache.empty path).Represents .empty :=
  ⟨List.nodup_nil, fun _ => .none⟩

theorem store (h : cache.Represents m) (stamp key : String) (valid : s.result.Valid) :
    (cache.store stamp key s.signature s.fingerprint s.result).Represents (m.store key s) := by
  refine ⟨Entries.nodup_put h.names key _, fun other => ?_⟩
  rw [StoredMap.store, ResultCache.store]
  by_cases hother : other = key
  · rw [hother, Entries.lookup_put_self, if_pos rfl]
    exact .some ⟨.make stamp _ _ _, valid⟩
  · rw [Entries.lookup_put_of_ne hother, if_neg hother]
    exact h.agrees other

theorem prune (h : cache.Represents m) (keep : List String) :
    (cache.prune keep).Represents (m.prune keep) := by
  have hsub : (cache.prune keep).entries.Sublist cache.entries := List.filter_sublist
  refine ⟨h.names.sublist (hsub.map Prod.fst), fun key => ?_⟩
  have hlookup : (cache.prune keep).entries.lookup key =
      if keep.contains key then cache.entries.lookup key else none :=
    Entries.lookup_filter keep.contains key cache.entries
  rw [hlookup, StoredMap.prune]
  by_cases hkey : key ∈ keep
  · rw [if_pos (List.contains_iff_mem.mpr hkey), if_pos hkey]
    exact h.agrees key
  · rw [if_neg (mt List.contains_iff_mem.mp hkey), if_neg hkey]
    exact .none

/-- A key has an entry and something is stored, or neither. -/
theorem cases_at (h : cache.Represents m) (key : String) :
    (cache.entries.lookup key = none ∧ m key = none) ∨
      ∃ entry s, cache.entries.lookup key = some entry ∧ m key = some s ∧ entry.Holds s ∧
        s.result.Valid := by
  have hagrees := h.agrees key
  generalize cache.entries.lookup key = entry? at hagrees
  generalize m key = s? at hagrees
  cases hagrees with
  | none => exact .inl ⟨rfl, rfl⟩
  | some hs => exact .inr ⟨_, _, rfl, rfl, hs⟩

/-- Where every key of the cache is to be kept, nothing is taken from the map. -/
theorem prune_eq (h : cache.Represents m) {keep : List String}
    (hall : ∀ entry ∈ cache.entries, keep.contains entry.1) : m.prune keep = m := by
  funext key
  rw [StoredMap.prune]
  split
  · rfl
  · next hkey =>
      rcases h.cases_at key with ⟨-, hnone⟩ | ⟨entry, s, hentry, -⟩
      · exact hnone.symm
      · have hkept := hall _ (Entries.mem_of_lookup hentry)
        exact absurd (List.contains_iff_mem.mp hkept) hkey

theorem whole (h : cache.Represents m) : cache.Whole := by
  refine ⟨h.names, fun key entry hmem => ?_⟩
  have hlookup := Entries.lookup_of_mem h.names hmem
  rcases h.cases_at key with ⟨hnone, -⟩ | ⟨entry', s, hentry, -, hs, -⟩
  · rw [hnone] at hlookup
    nomatch hlookup
  · obtain rfl := Option.some.inj (hentry.symm.trans hlookup)
    exact hs.whole

theorem reread (h : cache.Represents m) (path : Path) : (cache.reread path).Represents m := by
  refine ⟨h.whole.names_reread path, fun key => ?_⟩
  rw [h.whole.lookup_reread]
  rcases h.cases_at key with ⟨hentry, hm⟩ | ⟨entry, s, hentry, hm, hs, valid⟩
  · rw [hentry, hm]
    exact .none
  · rw [hentry, hm]
    exact .some ⟨hs.ordered, valid⟩

/-- The cache answers with what the map has for the key, the signature and the fingerprint. -/
theorem get?_eq_some_iff (h : cache.Represents m) :
    cache.get? key signature fingerprint = some x ↔ m key = some ⟨signature, fingerprint, x⟩ := by
  rw [get?_eq_some_iff_find, find]
  rcases h.cases_at key with ⟨hentry, hm⟩ | ⟨entry, s, hentry, hm, hs, valid⟩
  · rw [hentry, hm]
    constructor
    · intro h
      cases h
    · intro h
      cases h
  · rw [hentry, hm]
    dsimp only
    constructor
    · intro houtcome
      rw [hs.eq_of_outcome houtcome]
    · intro heq
      obtain rfl := Option.some.inj heq
      exact hs.outcome_self valid

/-- A cache without text has an outcome without text. -/
theorem exists_unwritable (h : cache.Represents m) (hnone : cache.text? = none) :
    ∃ key s, m key = some s ∧ (Wire.ofExtraction s.result).isWritable = false := by
  obtain ⟨key, entry, hentry, hnot⟩ := ResultCache.exists_unwritable hnone
  have hlookup := Entries.lookup_of_mem h.names hentry
  rcases h.cases_at key with ⟨hnone, -⟩ | ⟨entry', s, hsome, hs, hholds, -⟩
  · cases hnone.symm.trans hlookup
  · obtain rfl := Option.some.inj (hsome.symm.trans hlookup)
    exact ⟨key, s, hs, hholds.writable ▸ hnot⟩

theorem mem_keys_iff (h : cache.Represents m) : key ∈ cache.keys ↔ (m key).isSome := by
  rw [keys, Entries.mem_keys_iff]
  rcases h.cases_at key with ⟨hentry, hm⟩ | ⟨entry, s, hentry, hm, -⟩
  all_goals rw [hentry, hm]; rfl

end Represents

/-- A cache in use at a path where no file could be read, with the map of what it knows and the map
of what it knew when it was last written. -/
inductive Reached (path : Path) : Workspace → ResultCache → StoredMap → StoredMap → Prop
  | begin {w : Workspace} {cache : ResultCache} {reports : List Report}
      (absent : ∀ bytes, w.read path ≠ .ok bytes)
      (opened : load w path = .ok (cache, reports)) : Reached path w cache .empty .empty
  | store {w : Workspace} {cache : ResultCache} {known file : StoredMap} (stamp key : String)
      (s : Stored) (valid : s.result.Valid) (before : Reached path w cache known file) :
      Reached path w (cache.store stamp key s.signature s.fingerprint s.result)
        (known.store key s) file
  | prune {w : Workspace} {cache : ResultCache} {known file : StoredMap} (keep : List String)
      (before : Reached path w cache known file) :
      Reached path w (cache.prune keep) (known.prune keep) file
  | persist {w w' : Workspace} {cache cache' : ResultCache} {known file : StoredMap}
      (before : Reached path w cache known file)
      (written : persist w cache = (.ok cache', w')) : Reached path w' cache' known known
  | reload {w : Workspace} {cache cache' : ResultCache} {reports : List Report}
      {known file : StoredMap} (before : Reached path w cache known file)
      (opened : load w path = .ok (cache', reports)) : Reached path w cache' file file
  -- other files come and go, as directories do when a write fails after they were made
  | elsewhere {w w' : Workspace} {cache : ResultCache} {known file : StoredMap}
      (before : Reached path w cache known file)
      (same : ∀ bytes, w'.read path = .ok bytes ↔ w.read path = .ok bytes) :
      Reached path w' cache known file

/-- What a cache and its file stand for, where a cache without changes is the one on file. -/
structure Tracks (path : Path) (w : Workspace) (cache : ResultCache) (known file : StoredMap) :
    Prop where
  atPath : cache.path = some path
  represents : cache.Represents known
  onFile : ∃ other reports, load w path = .ok (other, reports) ∧ other.path = some path ∧
    other.Represents file ∧
    (cache.isDirty = false → known = file ∧ other.toJson.sorted = cache.toJson.sorted)

namespace Tracks

theorem begin (absent : ∀ bytes, w.read path ≠ .ok bytes) {reports : List Report}
    (opened : ResultCache.load w path = .ok (cache, reports)) :
    Tracks path w cache .empty .empty := by
  obtain ⟨reports', hload⟩ := load_of_unread (hasNull_of_load opened) absent
  obtain ⟨rfl, -⟩ := Prod.mk.inj (Except.ok.inj (hload.symm.trans opened))
  exact ⟨rfl, .empty _, _, _, hload, rfl, .empty _, fun _ => ⟨rfl, rfl⟩⟩

theorem store (h : Tracks path w cache known file) (stamp key : String) (valid : s.result.Valid) :
    Tracks path w (cache.store stamp key s.signature s.fingerprint s.result) (known.store key s)
      file := by
  obtain ⟨other, reports, hload, hpath, hother, -⟩ := h.onFile
  exact ⟨h.atPath, h.represents.store stamp key valid, other, reports, hload, hpath, hother, nofun⟩

theorem prune (h : Tracks path w cache known file) (keep : List String) :
    Tracks path w (cache.prune keep) (known.prune keep) file := by
  obtain ⟨other, reports, hload, hpath, hother, hclean⟩ := h.onFile
  refine ⟨h.atPath, h.represents.prune keep, other, reports, hload, hpath, hother, fun hdirty => ?_⟩
  obtain ⟨hcache, hlength⟩ := Bool.or_eq_false_iff.mp hdirty
  -- nothing was removed, so every key that the cache has is to be kept
  have hall : ∀ entry ∈ cache.entries, keep.contains entry.1 :=
    List.length_filter_eq_length_iff.mp (by simpa using hlength)
  have hentries : cache.entries.filter (fun entry => keep.contains entry.1) = cache.entries :=
    List.filter_eq_self.mpr hall
  obtain ⟨hfile, hsorted⟩ := hclean hcache
  refine ⟨(h.represents.prune_eq hall).trans hfile, ?_⟩
  rw [hsorted, toJson, toJson, ResultCache.prune]
  dsimp only
  rw [hentries]

theorem persist (h : Tracks path w cache known file)
    (written : ResultCache.persist w cache = (.ok cache', w')) :
    Tracks path w' cache' known known := by
  have hends := cache.persisted w
  rw [written] at hends
  cases hends with
  | clean hclean =>
      obtain ⟨other, reports, hload, hpath, hother, honFile⟩ := h.onFile
      obtain ⟨rfl, hsorted⟩ := honFile (hclean path h.atPath)
      exact ⟨h.atPath, h.represents, other, reports, hload, hpath, hother, fun _ => ⟨rfl, hsorted⟩⟩
  | written hpath _ htext saved =>
      obtain rfl := Option.some.inj (h.atPath.symm.trans hpath)
      have hload := h.represents.whole.load htext (Workspace.read_of_save saved)
      exact ⟨h.atPath, ⟨h.represents.names, h.represents.agrees⟩, cache.reread path, [], hload, rfl,
        h.represents.reread path, fun _ => ⟨rfl, h.represents.whole.sorted_reread path⟩⟩

theorem reload (h : Tracks path w cache known file) {reports : List Report}
    (opened : ResultCache.load w path = .ok (cache', reports)) :
    Tracks path w cache' file file := by
  obtain ⟨other, reports', hload, hpath, hother, -⟩ := h.onFile
  obtain ⟨rfl, -⟩ := Prod.mk.inj (Except.ok.inj (hload.symm.trans opened))
  exact ⟨hpath, hother, _, _, opened, hpath, hother, fun _ => ⟨rfl, rfl⟩⟩

theorem elsewhere (h : Tracks path w cache known file)
    (same : ∀ bytes, w'.read path = .ok bytes ↔ w.read path = .ok bytes) :
    Tracks path w' cache known file := by
  obtain ⟨other, reports, hload, hrest⟩ := h.onFile
  obtain ⟨reports', hload'⟩ := load_of_same same hload
  exact ⟨h.atPath, h.represents, other, reports', hload', hrest⟩

end Tracks

theorem Reached.tracks (h : Reached path w cache known file) : Tracks path w cache known file := by
  induction h with
  | begin absent opened => exact .begin absent opened
  | store stamp key s valid _ ih => exact ih.store stamp key valid
  | prune keep _ ih => exact ih.prune keep
  | persist _ written ih => exact ih.persist written
  | reload _ opened ih => exact ih.reload opened
  | elsewhere _ same ih => exact ih.elsewhere same

/-- What two caches are asked for is answered alike. -/
structure AnswersAs (cache other : ResultCache) : Prop where
  get : ∀ key signature fingerprint,
    cache.get? key signature fingerprint = other.get? key signature fingerprint
  keys : cache.keys.Perm other.keys

theorem Represents.answersAs {other : ResultCache} (h : cache.Represents m)
    (hother : other.Represents m) : cache.AnswersAs other := by
  refine ⟨fun key signature fingerprint => Option.ext fun x => ?_, ?_⟩
  · rw [h.get?_eq_some_iff, hother.get?_eq_some_iff]
  · refine (List.perm_ext_iff_of_nodup h.names hother.names).mpr fun key => ?_
    exact h.mem_keys_iff.trans hother.mem_keys_iff.symm

/-- A cache is the map of what was stored and kept. It answers with what the map has for the key
under just this signature and fingerprint, lists every key of the map once, can always be read
again, answers alike when it is written and read again, and without changes has the entries of its
file, but for the order of fields. Where it is not written no file changes, and if that is for want
of a text, the map has an outcome without text. -/
theorem Reached.is_map (h : Reached path w cache known file) :
    (∀ key signature fingerprint x, cache.get? key signature fingerprint = some x ↔
      known key = some ⟨signature, fingerprint, x⟩) ∧
    (cache.keys.Nodup ∧ ∀ key, key ∈ cache.keys ↔ (known key).isSome) ∧
    (∃ onFile reports, load w path = .ok (onFile, reports) ∧
      (cache.isDirty = false → onFile.toJson.sorted = cache.toJson.sorted)) ∧
    (∀ w' cache', ResultCache.persist w cache = (.ok cache', w') →
      ∃ loaded reports, load w' path = .ok (loaded, reports) ∧ loaded.AnswersAs cache) ∧
    ∀ w' fault, ResultCache.persist w cache = (.error fault, w') → w.SameFiles w' ∧
      (fault = .unwritable →
        ∃ key s, known key = some s ∧ (Wire.ofExtraction s.result).isWritable = false) := by
  have htracks := h.tracks
  refine ⟨fun _ _ _ _ => htracks.represents.get?_eq_some_iff,
    ⟨htracks.represents.names, fun _ => htracks.represents.mem_keys_iff⟩, ?_, ?_, ?_⟩
  · obtain ⟨onFile, reports, hload, -, -, hclean⟩ := htracks.onFile
    exact ⟨onFile, reports, hload, fun hdirty => (hclean hdirty).2⟩
  · intro w' cache' written
    obtain ⟨loaded, reports, hload, -, hloaded, -⟩ := (htracks.persist written).onFile
    exact ⟨loaded, reports, hload, hloaded.answersAs htracks.represents⟩
  · intro w' fault hfault
    refine ⟨sameFiles_of_persist hfault, ?_⟩
    rintro rfl
    have hends := cache.persisted w
    rw [hfault] at hends
    cases hends with
    | unwritable _ noText _ => exact htracks.represents.exists_unwritable noText

/-- A component whose props have a label. -/
def labelledButton : Stored :=
  ⟨"settings", "text", ⟨[⟨"Button", 0⟩], [⟨some "Props", [⟨"label", .string, false⟩]⟩]⟩⟩

theorem reached_empty : Reached ⟨"", ["cache.json"]⟩ ⟨.empty, []⟩
    (.empty (some ⟨"", ["cache.json"]⟩)) .empty .empty := by
  have hread : Workspace.read ⟨.empty, []⟩ ⟨"", ["cache.json"]⟩ =
      .error ⟨.missing, ⟨"", ["cache.json"]⟩⟩ := rfl
  refine .begin (fun bytes hok => ?_) rfl
  rw [hread] at hok
  cases hok

/-- In an empty directory, what is stored and written is found by the next cache, and only for the
text that it was stored for. -/
theorem stored_and_found_again :
    ∃ saved w loaded reports,
      persist ⟨.empty, []⟩ ((empty (some ⟨"", ["cache.json"]⟩)).store "now" "Button.tsx"
        labelledButton.signature labelledButton.fingerprint labelledButton.result) =
          (.ok saved, w) ∧
      load w ⟨"", ["cache.json"]⟩ = .ok (loaded, reports) ∧
      loaded.get? "Button.tsx" "settings" "text" = some labelledButton.result ∧
      loaded.get? "Button.tsx" "settings" "another text" = none ∧
      loaded.keys = ["Button.tsx"] := by
  have hvalid : labelledButton.result.Valid := by decide
  have hstored := reached_empty.store "now" "Button.tsx" labelledButton hvalid
  obtain ⟨hget, -, -, hwritten, -⟩ := hstored.is_map
  have hwritable : (Wire.ofExtraction labelledButton.result).isWritable = true := by decide +kernel
  have hsave : ∀ bytes, ∃ w, Workspace.save ⟨.empty, []⟩ ⟨"", ["cache.json"]⟩ bytes = .ok w :=
    fun bytes => ⟨_, rfl⟩
  have hpersist : ∃ saved w, persist ⟨.empty, []⟩ ((empty (some ⟨"", ["cache.json"]⟩)).store "now"
      "Button.tsx" labelledButton.signature labelledButton.fingerprint labelledButton.result) =
        (.ok saved, w) := by
    rcases persist_of_save hstored.tracks.atPath hsave with ⟨saved, hok⟩ | ⟨-, hnone⟩
    · exact ⟨saved, _, Prod.ext hok rfl⟩
    · obtain ⟨key, s, hs, hnot⟩ := hstored.tracks.represents.exists_unwritable hnone
      rw [StoredMap.store] at hs
      split at hs
      · obtain rfl := Option.some.inj hs
        cases hwritable.symm.trans hnot
      · cases hs
  obtain ⟨saved, w, hsaved⟩ := hpersist
  obtain ⟨loaded, reports, hload, halike⟩ := hwritten _ _ hsaved
  refine ⟨saved, w, loaded, reports, hsaved, hload, ?_, ?_, ?_⟩
  · rw [halike.get]
    exact (hget _ _ _ _).mpr rfl
  · rw [halike.get]
    refine Option.eq_none_iff_forall_ne_some.mpr fun x hx => ?_
    have heq : some labelledButton = some ⟨"settings", "another text", x⟩ := (hget _ _ _ _).mp hx
    have hfingerprint : "text" = "another text" := congrArg Stored.fingerprint (Option.some.inj heq)
    exact absurd hfingerprint (by decide)
  · exact List.perm_singleton.mp halike.keys

/-- A cache that can be saved at its path is written there, and answers alike when read again. -/
def AlwaysWritten : Prop :=
  ∀ (path : Path) (w : Workspace) (cache : ResultCache) (known file : StoredMap),
    Reached path w cache known file → (∀ bytes, ∃ w', w.save path bytes = .ok w') →
      ∃ cache' w', ResultCache.persist w cache = (.ok cache', w') ∧
        ∃ loaded reports, load w' path = .ok (loaded, reports) ∧ loaded.AnswersAs cache

/-- A cache is not written once an outcome with an integer of 4301 digits was stored. -/
theorem not_alwaysWritten : ¬AlwaysWritten := by
  intro h
  have hstored := reached_empty.store "now" "A.tsx" ⟨"", "", .ofInteger (10 ^ 4300)⟩
    (Extraction.valid_ofInteger _)
  obtain ⟨cache', w', hpersist, -⟩ := h _ _ _ _ _ hstored fun bytes => ⟨_, rfl⟩
  have hunwritable : (Wire.ofExtraction (.ofInteger (10 ^ 4300))).isWritable = false := by
    rw [Extraction.isWritable_ofInteger]
    decide +kernel
  have hends := ResultCache.persisted ⟨.empty, []⟩ ((empty (some ⟨"", ["cache.json"]⟩)).store "now"
    "A.tsx" "" "" (.ofInteger (10 ^ 4300)))
  rw [hpersist] at hends
  cases hends with
  | clean hclean => cases hclean _ rfl
  | written _ _ htext _ =>
      have hwritable := isWritable_of_text? htext
      simp [toJson, ResultCache.store, ResultCache.empty, Entries.put, CacheEntry.make,
        Json.isWritable, Json.fieldsWritable, hunwritable] at hwritable

end ResultCache

end PropSchema
