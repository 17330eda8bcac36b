import PropSchema.Proofs.Classify.Requests
import PropSchema.Proofs.Project.Keys
import PropSchema.Proofs.ResultCache.File
import PropSchema.Proofs.Settings
import PropSchema.Proofs.TypeScript.Relocation
/-!
What entries of a cache stand for. A sound entry keeps an outcome that was found for some text under
some settings, and still does after the cache was written to its file and read again. As long as
digests tell the texts that take part apart, an entry that answers has the outcome that is looked for.
-/
namespace PropSchema

/-- What stays fixed while files and settings change: the directory that keys are relative to, the
spelling of the cache path, and the texts that digests have to tell apart. -/
structure Course where
  root : Place
  cachePath : String
  /-- The texts of files that are scanned. -/
  sources : Set String
  /-- The essences of settings as texts. -/
  essences : Set String

/-- Rules that agree find the same in a text that is read in the same dialect. -/
theorem Scan.outcome_of_agree {r r' : ComponentRules} (h : r.Agree r') {path path' text : String}
    (hmarkup : TypeScript.hasMarkup path = TypeScript.hasMarkup path') {x : Extraction}
    (houtcome : (Scan.ofText r path text).outcome = .ok x) :
    (Scan.ofText r' path' text).outcome = .ok x := by
  rw [Scan.ofText_relocate h hmarkup, houtcome]
  rfl

theorem Scan.valid_of_outcome {rules : ComponentRules} {src : TypeScript.Source} {x : Extraction}
    (h : (ofSource rules src).outcome = .ok x) : x.Valid := by
  rw [ofSource] at h
  split at h
  · cases h
  · next classes r _ =>
      have hfind : (Components.find rules r.graph classes).run .fresh = (.ok x, _) := Prod.ext h rfl
      obtain ⟨found, c, -, hfinish⟩ := Pass.ok_of_bind hfind
      have hresult := (Components.run_finish found c).symm.trans hfinish
      exact Context.valid_of_result (congrArg Prod.fst hresult)

namespace Course

/-- No two texts of one kind share a digest. -/
structure ToldApart (c : Course) : Prop where
  sources : Set.InjOn Sha256.ofText c.sources
  essences : Set.InjOn Sha256.ofText c.essences

/-- An outcome was found for a text with a fingerprint under settings with a signature. -/
inductive Finds (c : Course) (key : String) : String → String → Extraction → Prop
  | scan {settings : Settings} {rules : ComponentRules} {path text : String} {x : Extraction}
      (admitted : settings.rules = .ok rules) (essence : settings.essenceText ∈ c.essences)
      (source : text ∈ c.sources)
      (dialect : TypeScript.hasMarkup path = Path.markupOf c.root key)
      (outcome : (Scan.ofText rules path text).outcome = .ok x) :
      Finds c key settings.signature (Sha256.ofText text) x

/-- What was found once is found again wherever key, signature and fingerprint are the same. -/
theorem Finds.outcome_eq {c : Course} (apart : c.ToldApart) {key text path : String}
    {settings : Settings} {rules : ComponentRules} {x : Extraction}
    (h : c.Finds key settings.signature (Sha256.ofText text) x)
    (admitted : settings.rules = .ok rules)
    (essence : settings.essenceText ∈ c.essences) (source : text ∈ c.sources)
    (dialect : TypeScript.hasMarkup path = Path.markupOf c.root key) :
    (Scan.ofText rules path text).outcome = .ok x := by
  generalize hsignature : settings.signature = signature at h
  generalize hfingerprint : Sha256.ofText text = fingerprint at h
  obtain ⟨admitted', essence', source', dialect', outcome⟩ := h
  have htext := apart.sources source source' hfingerprint
  have hessence := apart.essences essence' essence hsignature.symm
  have hagree := Settings.rules_agree hessence admitted' admitted
  rw [htext]
  exact Scan.outcome_of_agree hagree (dialect'.trans dialect.symm) outcome

/-- What was found is valid. -/
theorem Finds.valid {c : Course} {key signature fingerprint : String} {x : Extraction}
    (h : c.Finds key signature fingerprint x) : x.Valid := by
  obtain ⟨-, -, -, -, houtcome⟩ := h
  exact Scan.valid_of_outcome houtcome

end Course

open Json (Distinct)

namespace CacheEntry
variable {c : Course} {key signature fingerprint : String} {entry : CacheEntry} {x : Extraction}

/-- An entry keeps an outcome that was found for its key, its signature and its fingerprint. -/
inductive Keeps (c : Course) (key : String) (entry : CacheEntry) : Prop
  | stored (s : Stored) (holds : entry.Holds s)
      (found : c.Finds key s.signature s.fingerprint s.result)

theorem Keeps.make (h : c.Finds key signature fingerprint x) (stamp : String) :
    Keeps c key (make stamp signature fingerprint x) :=
  .stored ⟨signature, fingerprint, x⟩ (.make stamp signature fingerprint x) h

theorem Keeps.whole (h : Keeps c key entry) : entry.Whole := by
  cases h with
  | stored s holds found => exact holds.whole

/-- Sorting the fields of an entry keeps what it keeps. -/
theorem Keeps.ordered (h : Keeps c key entry) : Keeps c key (Json.ordered entry) := by
  cases h with
  | stored s holds found => exact .stored s holds.ordered found

/-- An entry that answers has the outcome that it keeps. -/
theorem Keeps.finds (h : Keeps c key entry)
    (houtcome : entry.outcome signature fingerprint = .ok (some x)) :
    c.Finds key signature fingerprint x := by
  cases h with
  | stored s holds found =>
      obtain rfl := holds.eq_of_outcome houtcome
      exact found

end CacheEntry

namespace ResultCache
open CacheEntry (Keeps)
variable {c : Course} {cache : ResultCache} {key signature fingerprint : String} {x : Extraction}

/-- Every entry keeps an outcome, and no key has two. -/
structure Sound (c : Course) (cache : ResultCache) : Prop where
  names : (Entries.keys cache.entries).Nodup
  keeps : ∀ key entry, (key, entry) ∈ cache.entries → Keeps c key entry

namespace Sound

theorem empty (c : Course) (path : Option Path) : Sound c (.empty path) :=
  ⟨List.nodup_nil, fun _ _ h => absurd h List.not_mem_nil⟩

theorem store (h : cache.Sound c) (stamp : String) (hx : c.Finds key signature fingerprint x) :
    (cache.store stamp key signature fingerprint x).Sound c := by
  refine ⟨Entries.nodup_put h.names key _, fun other entry hmem => ?_⟩
  rcases Entries.mem_put hmem with heq | hmem
  · cases heq
    exact .make hx stamp
  · exact h.keeps other entry hmem

theorem prune (h : cache.Sound c) (keep : List String) : (cache.prune keep).Sound c := by
  have hsub : (cache.prune keep).entries.Sublist cache.entries := List.filter_sublist
  exact ⟨h.names.sublist (hsub.map Prod.fst), fun key entry hmem =>
    h.keeps key entry (hsub.subset hmem)⟩

theorem finds (h : cache.Sound c) (hfind : cache.find key signature fingerprint = .ok (some x)) :
    c.Finds key signature fingerprint x := by
  rw [find] at hfind
  cases hentry : cache.entries.lookup key with
  | none => rw [hentry] at hfind; nomatch hfind
  | some entry =>
      rw [hentry] at hfind
      exact (h.keeps key entry (Entries.mem_of_lookup hentry)).finds hfind

theorem whole (h : cache.Sound c) : cache.Whole :=
  ⟨h.names, fun key entry hmem => (h.keeps key entry hmem).whole⟩

/-- The file of a sound cache is read as a sound cache. -/
theorem reread (h : cache.Sound c) (path : Path) : (cache.reread path).Sound c := by
  refine ⟨h.whole.names_reread path, fun key entry hmem => ?_⟩
  have hlookup := Entries.lookup_of_mem (h.whole.names_reread path) hmem
  rw [h.whole.lookup_reread] at hlookup
  obtain ⟨kept, hkept, rfl⟩ := Option.map_eq_some_iff.mp hlookup
  exact (h.keeps key kept (Entries.mem_of_lookup hkept)).ordered

/-- What a sound cache was written as is loaded as a sound cache. -/
theorem load (h : cache.Sound c) {w : Workspace} {path : Path} {text : String}
    (htext : cache.text? = some text) (hread : w.read path = .ok text.toUTF8.toList) :
    ∃ loaded : ResultCache, ResultCache.load w path = .ok (loaded, []) ∧ loaded.Sound c ∧
      loaded.path = some path :=
  ⟨cache.reread path, h.whole.load htext hread, h.reread path, rfl⟩

/-- A sound cache without text has an outcome without text. -/
theorem exists_unwritable (h : cache.Sound c) (hnone : cache.text? = none) :
    ∃ key signature fingerprint x, c.Finds key signature fingerprint x ∧
      cache.get? key signature fingerprint = some x ∧ (Wire.ofExtraction x).isWritable = false := by
  obtain ⟨key, entry, hentry, hnot⟩ := ResultCache.exists_unwritable hnone
  cases h.keeps key entry hentry with
  | stored s holds found =>
      have hlookup := Entries.lookup_of_mem h.names hentry
      refine ⟨key, s.signature, s.fingerprint, s.result, found, ?_, holds.writable ▸ hnot⟩
      rw [get?, find, hlookup]
      dsimp only
      rw [holds.outcome_self found.valid]

end Sound

end ResultCache

end PropSchema
