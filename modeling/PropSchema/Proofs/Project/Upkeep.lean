import PropSchema.Proofs.Project.Assignments
import PropSchema.Proofs.ResultCache.Loading
/-!
The cache file while files come and go. A scan that fails leaves it as it is. After a scan that
returns it has the keys of the files that were scanned, and of the keys that the cache had before
those whose files are there, wherever they are. A scanner writes the file only when its cache differs
from what the file had, so this needs that nothing else has changed the file since the scanner was
made, or that the scan has written it.
-/
namespace PropSchema
open Scanning (Ensures Yields)

namespace ResultCache
variable {w w' : Workspace} {path : Path} {cache cache' : ResultCache} {key : String}
  {keep : List String}

/-- The file at a path has the entries of some keys, and no others; none if it is not there. -/
def HasKeys (w : Workspace) (path : Path) (P : String → Prop) : Prop :=
  ∃ loaded reports, load w path = .ok (loaded, reports) ∧ ∀ key, key ∈ loaded.keys ↔ P key

theorem HasKeys.imp {P Q : String → Prop} (h : HasKeys w path P) (hPQ : ∀ key, P key ↔ Q key) :
    HasKeys w path Q := by
  obtain ⟨loaded, reports, hload, hkeys⟩ := h
  exact ⟨loaded, reports, hload, fun key => (hkeys key).trans (hPQ key)⟩

theorem HasKeys.of_same {P : String → Prop} (h : HasKeys w path P)
    (same : ∀ bytes, w'.read path = .ok bytes ↔ w.read path = .ok bytes) : HasKeys w' path P := by
  obtain ⟨loaded, reports, hload, hkeys⟩ := h
  obtain ⟨reports', hload'⟩ := load_of_same same hload
  exact ⟨loaded, reports', hload', hkeys⟩

/-- Entries that are left out take their keys with them. -/
theorem keys_filterMap_sublist (f : Json → Option CacheEntry) (fields : List (String × Json)) :
    (Entries.keys (fields.filterMap fun field => (f field.2).map (field.1, ·))).Sublist
      (Entries.keys fields) := by
  induction fields with
  | nil => exact .slnil
  | cons field fields ih =>
      rw [List.filterMap_cons]
      split
      · exact ih.cons field.1
      · next entry hentry =>
          obtain ⟨_, -, rfl⟩ := Option.map_eq_some_iff.mp hentry
          exact ih.cons_cons field.1

/-- Whatever a file holds, its cache has no key twice, and whole entries. -/
theorem whole_of_load {reports : List Report} (h : load w path = .ok (cache, reports)) :
    cache.Whole := by
  have hnone : cache.entries = [] → cache.Whole := fun hentries =>
    ⟨hentries ▸ List.nodup_nil, fun _ _ hmem => absurd (hentries ▸ hmem) List.not_mem_nil⟩
  rcases entries_of_load h with ⟨_, value, -, hread, hentries⟩ | ⟨-, hentries⟩
  · rw [entriesOf] at hentries
    split at hentries
    · next number fields hversion hfields =>
        split at hentries
        · cases (Json.distinct_of_read hread).field hfields with
          | obj names values =>
              refine ⟨hentries ▸ names.sublist (keys_filterMap_sublist _ fields), ?_⟩
              intro key entry hmem
              rw [hentries] at hmem
              obtain ⟨field, hfield, hentry⟩ := List.mem_filterMap.mp hmem
              obtain ⟨found, hfound, heq⟩ := Option.map_eq_some_iff.mp hentry
              cases heq
              obtain ⟨hvalue, hcomplete⟩ := CacheEntry.ofJson?_eq_some_iff.mp hfound
              exact ⟨hvalue ▸ values field hfield, hcomplete⟩
        · exact hnone hentries
    · exact hnone hentries
  · exact hnone hentries

theorem path_of_load {reports : List Report} (h : load w path = .ok (cache, reports)) :
    cache.path = some path := by
  rw [load] at h
  split at h
  · split at h
    · rw [ofText] at h
      split at h
      all_goals cases h
      all_goals rfl
    · cases h
  all_goals cases h
  all_goals rfl

theorem mem_keys_store {stamp other signature fingerprint : String} {x : Extraction} :
    key ∈ (cache.store stamp other signature fingerprint x).keys ↔
      key = other ∨ key ∈ cache.keys := by
  rw [keys, keys, Entries.mem_keys_iff, Entries.mem_keys_iff, store]
  by_cases h : key = other
  · subst h
    simp [Entries.lookup_put_self]
  · simp [Entries.lookup_put_of_ne h, h]

theorem mem_keys_of_find {signature fingerprint : String} {x : Extraction}
    (h : cache.find key signature fingerprint = .ok (some x)) : key ∈ cache.keys := by
  rw [find] at h
  rw [keys, Entries.mem_keys_iff]
  cases hlookup : cache.entries.lookup key with
  | none => rw [hlookup] at h; cases h
  | some entry => rfl

theorem Whole.store (h : cache.Whole) (stamp key signature fingerprint : String) (x : Extraction) :
    (cache.store stamp key signature fingerprint x).Whole := by
  refine ⟨Entries.nodup_put h.names _ _, fun other entry hmem => ?_⟩
  rcases Entries.mem_put hmem with heq | hmem
  · cases heq
    exact (CacheEntry.Holds.make stamp signature fingerprint x).whole
  · exact h.entries other entry hmem

theorem mem_keys_prune : key ∈ (cache.prune keep).keys ↔ key ∈ cache.keys ∧ key ∈ keep := by
  rw [keys, keys, Entries.mem_keys_iff, Entries.mem_keys_iff, prune,
    Entries.lookup_filter keep.contains]
  by_cases h : key ∈ keep <;> simp [h]

theorem Whole.prune (h : cache.Whole) (keep : List String) : (cache.prune keep).Whole := by
  have hsub : (cache.prune keep).entries.Sublist cache.entries := List.filter_sublist
  exact ⟨h.names.sublist (hsub.map Prod.fst), fun key entry hmem =>
    h.entries key entry (hsub.subset hmem)⟩

/-- Where pruning leaves nothing to write there was nothing to drop. -/
theorem prune_of_clean (h : (cache.prune keep).isDirty = false) :
    cache.isDirty = false ∧ (cache.prune keep).entries = cache.entries := by
  obtain ⟨hcache, hlength⟩ := Bool.or_eq_false_iff.mp h
  exact ⟨hcache, List.filter_eq_self.mpr
    (List.length_filter_eq_length_iff.mp (by simpa using hlength))⟩

/-- A cache that is written to a file has its keys there. -/
theorem hasKeys_of_persist (hpath : cache.path = some path) (h : cache.Whole)
    (hdirty : cache.isDirty = true) (hpersist : cache.persist w = (.ok cache', w')) :
    HasKeys w' path (· ∈ cache.keys) := by
  have hends := cache.persisted w
  rw [hpersist] at hends
  cases hends with
  | clean hclean => cases hdirty.symm.trans (hclean path hpath)
  | @written path' text _ path_eq _ text_eq saved =>
      obtain rfl := Option.some.inj (hpath.symm.trans path_eq)
      refine ⟨cache.reread path, [], h.load text_eq (Workspace.read_of_save saved), fun key => ?_⟩
      have hkeys : key ∈ (cache.reread path).keys ↔ key ∈ cache.keys := by
        rw [keys, keys, Entries.mem_keys_iff, Entries.mem_keys_iff, h.lookup_reread,
          Option.isSome_map]
      exact hkeys

/-- A cache with nothing to write is kept without touching its file. -/
theorem persist_of_clean (hclean : cache.isDirty = false) : cache.persist w = (.ok cache, w) := by
  rw [persist, hclean]
  cases cache.path <;> rfl

end ResultCache

namespace Session

/-- The cache has an entry for a key. -/
def Knows (σ : Session) (key : String) : Prop := ∀ cache ∈ σ.cache, key ∈ cache.keys

end Session

namespace Scanner.Accepts
variable {s : Scanner} {w : Workspace} {P : Session → Prop} {visited : Path → Prop} {p : Path}

/-- What the cache knows it still knows after more is stored. -/
theorem knowing (h : s.Accepts w P visited) (key : String) :
    s.Accepts w (fun σ => P σ ∧ σ.Knows key) visited := by
  refine ⟨fun σ hσ => h.workspace σ hσ.1, fun r σ hσ => ⟨h.report r σ hσ.1, hσ.2⟩, ?_⟩
  intro p hp text htext x hx stamp σ hσ
  refine ⟨h.stored p hp text htext x hx stamp σ hσ.1, fun cache hcache => ?_⟩
  obtain ⟨old, hold, rfl⟩ := Option.map_eq_some_iff.mp hcache
  exact ResultCache.mem_keys_store.mpr (.inr (hσ.2 old hold))

theorem cached_knows (h : s.Accepts w P visited) (p : Path) (text : String) :
    Ensures P (s.cached (s.key w p) (Sha256.ofText text)) fun r σ =>
      P σ ∧ ((∃ x, r = .ok (some x)) → σ.Knows (s.key w p)) := by
  refine h.cached_of p text (fun σ hσ => ⟨hσ, nofun⟩) fun σ hσ cache x hcache hfind => ?_
  refine ⟨hσ, fun _ other hother => ?_⟩
  obtain rfl := Option.some.inj (hcache.symm.trans hother)
  exact ResultCache.mem_keys_of_find hfind

/-- A file that was scanned is known, whether the cache had it or not. -/
theorem scanFile_knows (h : s.Accepts w P visited) (hp : visited p) :
    Ensures P (s.scanFile p) fun r σ =>
      P σ ∧ ((∃ x, r = .ok x) → σ.Knows (s.key w p)) := by
  refine Ensures.get_bind fun session hsession => ?_
  refine Ensures.mono (P := P) ?_ (fun σ hσ => hσ ▸ hsession) fun _ _ h => h
  rw [h.workspace session hsession]
  refine (Yields.ofExcept (readSource w p)).bind_ensures (fun text htext => ?_)
    fun fault σ _ hσ => ⟨hσ, nofun⟩
  refine Ensures.bind (h.cached_knows p text) (fun found => ?_) fun _ _ hσ => ⟨hσ.1, nofun⟩
  cases found with
  | some x =>
      refine Ensures.mono (P := fun σ => P σ ∧ σ.Knows (s.key w p)) ?_
        (fun σ hσ => ⟨hσ.1, hσ.2 ⟨x, rfl⟩⟩) fun _ _ h => h
      refine Ensures.bind ((h.knowing _).report_yields _)
        (fun _ => .pure fun σ hσ => ⟨hσ.2.1, fun _ => hσ.2.2⟩) fun _ σ hσ => by cases hσ.1
  | none =>
      refine Ensures.mono (P := P) ?_ (fun σ hσ => hσ.1) fun _ _ h => h
      refine Ensures.bind (h.report_yields _) (fun _ => ?_) fun _ σ hσ => by cases hσ.1
      refine Ensures.mono (P := P) ?_ (fun σ hσ => hσ.2) fun _ _ h => h
      refine (h.extract_yields p text).bind_ensures (fun x hx => ?_)
        fun _ σ _ hσ => ⟨hσ, nofun⟩
      have hscan : (Scan.ofText s.rules p.text text).outcome = .ok x := by
        generalize (Scan.ofText s.rules p.text text).outcome = outcome at hx
        cases outcome with
        | ok y => exact congrArg Except.ok (Except.ok.inj hx)
        | error fault => cases hx
      refine fun σ hσ => ⟨h.stored p hp text htext x hscan session.stamp σ hσ, fun _ cache hcache => ?_⟩
      obtain ⟨old, hold, rfl⟩ := Option.map_eq_some_iff.mp hcache
      exact ResultCache.mem_keys_store.mpr (.inl rfl)

/-- After all files were scanned, each of them is known. -/
theorem scanAll_knows (h : s.Accepts w P visited) {files : List Path}
    (hfiles : ∀ p ∈ files, visited p) :
    Ensures P (s.scanAll files) fun r σ =>
      P σ ∧ ((∃ x, r = .ok x) → ∀ p ∈ files, σ.Knows (s.key w p)) := by
  unfold scanAll
  generalize Extraction.empty = merged
  induction files generalizing P merged with
  | nil => exact .pure fun σ hσ => ⟨hσ, fun _ => nofun⟩
  | cons p files ih =>
      rw [List.forall_mem_cons] at hfiles
      rw [List.foldlM_cons]
      have hfile : Ensures P (do Pure.pure (merged.merge (← s.scanFile p)))
          fun r σ => P σ ∧ ((∃ x, r = .ok x) → σ.Knows (s.key w p)) :=
        Ensures.bind (h.scanFile_knows hfiles.1)
          (fun x => .pure fun σ hσ => ⟨hσ.1, fun _ => hσ.2 ⟨x, rfl⟩⟩) fun _ σ hσ => ⟨hσ.1, nofun⟩
      refine Ensures.bind hfile (fun merged => ?_) fun _ σ hσ => ⟨hσ.1, nofun⟩
      -- the rest of the files keeps what is known of the first
      refine (ih (h.knowing (s.key w p)) hfiles.2 merged).mono
        (fun σ hσ => ⟨hσ.1, hσ.2 ⟨merged, rfl⟩⟩) fun r σ hσ => ⟨hσ.1.1, fun hr => ?_⟩
      exact List.forall_mem_cons.mpr ⟨hσ.1.2, hσ.2 hr⟩

end Scanner.Accepts

/-- A cache that comes from an earlier one by storing what is found in files. -/
structure ResultCache.Gathered (s : Scanner) (w : Workspace) (visited : Path → Prop)
    (earlier cache : ResultCache) : Prop where
  path : cache.path = earlier.path
  whole : cache.Whole
  same : cache.isDirty = false → cache = earlier
  kept : ∀ key ∈ earlier.keys, key ∈ cache.keys
  found : ∀ key ∈ cache.keys, key ∈ earlier.keys ∨ ∃ p, visited p ∧ s.key w p = key

theorem ResultCache.Gathered.refl {s : Scanner} {w : Workspace} {visited : Path → Prop}
    {earlier : ResultCache} (h : earlier.Whole) : Gathered s w visited earlier earlier :=
  ⟨rfl, h, fun _ => rfl, fun _ h => h, fun _ h => .inl h⟩

theorem ResultCache.Gathered.store {s : Scanner} {w : Workspace} {visited : Path → Prop}
    {earlier cache : ResultCache} (h : Gathered s w visited earlier cache) {p : Path}
    (hp : visited p) (stamp signature fingerprint : String) (x : Extraction) :
    Gathered s w visited earlier (cache.store stamp (s.key w p) signature fingerprint x) where
  path := h.path
  whole := h.whole.store _ _ _ _ _
  same := nofun
  kept key hkey := mem_keys_store.mpr (.inr (h.kept key hkey))
  found key hkey := by
    rcases mem_keys_store.mp hkey with rfl | hkey
    · exact .inr ⟨p, hp, rfl⟩
    · exact h.found key hkey

namespace Scanner
open ResultCache (Gathered)
variable {s : Scanner} {w : Workspace} {visited : Path → Prop} {earlier cache : ResultCache}

/-- The sessions that are gone through while files are scanned. -/
def Gathers (s : Scanner) (w : Workspace) (visited : Path → Prop) (earlier : ResultCache)
    (σ : Session) : Prop :=
  σ.workspace = w ∧ ∃ cache, σ.cache = some cache ∧ Gathered s w visited earlier cache

theorem gathers_accepts (s : Scanner) (w : Workspace) (visited : Path → Prop)
    (earlier : ResultCache) : s.Accepts w (s.Gathers w visited earlier) visited := by
  refine ⟨fun σ hσ => hσ.1, fun r σ hσ => hσ, ?_⟩
  rintro p hp text htext x hx stamp σ ⟨hworkspace, cache, hcache, hgathered⟩
  exact ⟨hworkspace, _, congrArg (Option.map _) hcache, hgathered.store hp _ _ _ _⟩

/-- The file that a key stands for is there. -/
def Live (s : Scanner) (w : Workspace) (key : String) : Prop :=
  w.isFile ((Path.ofPlace s.root).join (.ofText key))

/-- What pruning leaves: the keys of the files, and earlier ones whose files are there. -/
theorem mem_keys_kept {files : List Path} (h : Gathered s w (· ∈ files) earlier cache)
    (hknows : ∀ p ∈ files, s.key w p ∈ cache.keys) (key : String) :
    key ∈ (cache.prune (s.kept w files cache)).keys ↔
      (∃ p ∈ files, s.key w p = key) ∨ key ∈ earlier.keys ∧ s.Live w key := by
  have hlive : key ∈ s.liveKeys w cache ↔ key ∈ cache.keys ∧ s.Live w key := List.mem_filter
  rw [ResultCache.mem_keys_prune, kept, List.mem_append, List.mem_map, hlive]
  constructor
  · rintro ⟨hkey, hfile | ⟨-, hthere⟩⟩
    · exact .inl hfile
    · exact (h.found key hkey).elim (fun hold => .inr ⟨hold, hthere⟩) .inl
  · rintro (⟨p, hp, rfl⟩ | ⟨hold, hthere⟩)
    · exact ⟨hknows p hp, .inl ⟨p, hp, rfl⟩⟩
    · exact ⟨h.kept key hold, .inr ⟨h.kept key hold, hthere⟩⟩

/-- How a scan ends: it fails before the cache is written, or its files are known and the cache is
kept. -/
inductive ScanEnd (s : Scanner) (paths : List Path) (w : Workspace) (earlier : ResultCache) :
    Except ScanFault Extraction → Session → Prop
  | failed {fault : ScanFault} {σ : Session} {cache : ResultCache}
      (files : w.SameFiles σ.workspace) (memory : σ.cache = some cache)
      (path : cache.path = earlier.path) (whole : cache.Whole)
      (same : cache.isDirty = false → cache = earlier ∧ σ.workspace = w) :
      ScanEnd s paths w earlier (.error fault) σ
  | returned {x : Extraction} {σ : Session} {files : List Path} {cache cache' : ResultCache}
      (listed : s.files w paths = .ok files) (gathered : Gathered s w (· ∈ files) earlier cache)
      (known : ∀ p ∈ files, s.key w p ∈ cache.keys) (memory : σ.cache = some cache')
      (written : (cache.prune (s.kept w files cache)).persist w = (.ok cache', σ.workspace)) :
      ScanEnd s paths w earlier (.ok x) σ

theorem keepCache_ends {paths files : List Path} (hfiles : s.files w paths = .ok files)
    (x : Extraction) :
    Ensures (fun τ => s.Gathers w (· ∈ files) earlier τ ∧ ∀ p ∈ files, τ.Knows (s.key w p))
      (s.keepCache files) fun r τ => s.ScanEnd paths w earlier (r.map fun _ => x) τ := by
  refine keepCache_ensures files ?_ ?_ ?_
  · rintro τ ⟨⟨-, cache, hcache, -⟩, -⟩ hnone
    rw [hcache] at hnone
    cases hnone
  · rintro τ ⟨⟨rfl, cache, hcache, hgathered⟩, hknows⟩ _ hsame w' cache' hpersist
    obtain rfl := Option.some.inj (hcache.symm.trans hsame)
    exact .returned hfiles hgathered (fun p hp => hknows p hp cache hcache) rfl hpersist
  · rintro τ ⟨⟨rfl, cache, hcache, hgathered⟩, -⟩ _ hsame w' fault hpersist
    obtain rfl := Option.some.inj (hcache.symm.trans hsame)
    refine .failed (ResultCache.sameFiles_of_persist hpersist) rfl hgathered.path
      (hgathered.whole.prune _) fun hclean => ?_
    rw [ResultCache.persist_of_clean hclean] at hpersist
    cases hpersist

/-- A report changes neither files nor cache. -/
theorem ScanEnd.report {paths : List Path} {r : Except ScanFault Extraction} {τ : Session}
    (h : s.ScanEnd paths w earlier r τ) (report : Report) :
    s.ScanEnd paths w earlier r { τ with reports := report :: τ.reports } := by
  cases h with
  | failed files memory path whole same => exact .failed files memory path whole same
  | returned listed gathered known memory written =>
      exact .returned listed gathered known memory written

theorem scan_ends (s : Scanner) (paths : List Path) {σ : Session} (hcache : σ.cache = some earlier)
    (hwhole : earlier.Whole) :
    s.ScanEnd paths σ.workspace earlier ((s.scan paths).answer σ) ((s.scan paths).after σ) := by
  have hstart : ∀ visited, s.Gathers σ.workspace visited earlier σ := fun visited =>
    ⟨rfl, earlier, hcache, .refl hwhole⟩
  suffices hscan : Ensures (· = σ) (s.scan paths) (s.ScanEnd paths σ.workspace earlier) from
    hscan σ rfl
  refine Ensures.get_bind fun session hsession => ?_
  subst hsession
  refine (Yields.ofExcept (s.files session.workspace paths)).bind_ensures (fun files hfiles => ?_) ?_
  · have hall := (gathers_accepts s session.workspace (· ∈ files) earlier).scanAll_knows fun _ hp => hp
    refine Ensures.bind (hall.mono (fun τ hτ => hτ ▸ hstart _) fun _ _ h => h) (fun x => ?_) ?_
    · refine Ensures.bind ((keepCache_ends hfiles x).mono (fun τ hτ => ⟨hτ.1, hτ.2 ⟨x, rfl⟩⟩)
        fun _ _ h => h) (fun _ τ hτ => hτ.report _) fun _ _ hτ => hτ
    · rintro fault τ ⟨⟨hworkspace, cache, hτ, hgathered⟩, -⟩
      have hfiles : session.workspace.SameFiles τ.workspace := by
        rw [hworkspace]
        exact .refl _
      exact .failed hfiles hτ hgathered.path hgathered.whole fun hclean =>
        ⟨hgathered.same hclean, hworkspace⟩
  · rintro fault τ - rfl
    exact .failed (.refl _) hcache rfl hwhole fun _ => ⟨rfl, rfl⟩

end Scanner

namespace Course
open ResultCache (HasKeys Gathered)
variable {c : Course} {s : Scanner} {σ : Session} {w w' : Workspace} {alone : Bool}
  {cache : ResultCache}

/-- The bytes of the cache file. -/
def file (c : Course) (w : Workspace) : Option (List UInt8) := (w.read c.path).toOption

/-- The sessions that are reached with caching, from a workspace without a cache file, and whether
nothing but the scanner in use has changed the cache file since that scanner was made or last
changed it. -/
inductive Tended (c : Course) : Option Scanner → Session → Bool → Prop
  | begin (w : Workspace) (stamp : String) (fresh : c.file w = none) :
      Tended c none ⟨w, none, stamp, []⟩ true
  | write {scanner : Option Scanner} {σ : Session} {alone : Bool} {p : Path} {bytes : List UInt8}
      {w : Workspace} (before : Tended c scanner σ alone)
      (written : σ.workspace.save p bytes = .ok w) :
      Tended c scanner { σ with workspace := w } (alone && c.file w == c.file σ.workspace)
  | delete {scanner : Option Scanner} {σ : Session} {alone : Bool} (p : Path)
      (before : Tended c scanner σ alone) :
      Tended c scanner { σ with workspace := σ.workspace.delete p }
        (alone && c.file (σ.workspace.delete p) == c.file σ.workspace)
  | tick {scanner : Option Scanner} {σ : Session} {alone : Bool} (stamp : String)
      (before : Tended c scanner σ alone) : Tended c scanner { σ with stamp } alone
  | create {scanner : Option Scanner} {σ σ' : Session} {alone : Bool} {s : Scanner}
      (settings : Settings) (before : Tended c scanner σ alone)
      (cachePath : settings.cache.path = c.cachePath) (enabled : settings.cache.enabled = true)
      (started : Scanner.start σ.workspace σ.stamp c.root settings true = .ok (s, σ')) :
      Tended c (some s) σ' true
  | file {s : Scanner} {σ : Session} {alone : Bool} (p : Path)
      (before : Tended c (some s) σ alone) : Tended c (some s) ((s.scanFile p).after σ) alone
  | scan {s : Scanner} {σ : Session} {alone : Bool} (paths : List Path)
      (before : Tended c (some s) σ alone) :
      Tended c (some s) ((s.scan paths).after σ)
        (alone || c.file ((s.scan paths).after σ).workspace != c.file σ.workspace)

/-- A cache is whole, and what it has without changes is what its file has, if that was left alone. -/
structure InStep (c : Course) (w : Workspace) (alone : Bool) (cache : ResultCache) : Prop where
  path : cache.path = some c.path
  whole : cache.Whole
  onFile : alone = true → cache.isDirty = false → HasKeys w c.path (· ∈ cache.keys)

theorem read_of_file (h : c.file w' = c.file w) (bytes : List UInt8) :
    w'.read c.path = .ok bytes ↔ w.read c.path = .ok bytes := by
  have hok : ∀ w : Workspace, w.read c.path = .ok bytes ↔ c.file w = some bytes := by
    intro w
    rw [file]
    cases w.read c.path with
    | ok found => rw [Except.ok.injEq]; exact (Option.some.injEq ..).to_iff.symm
    | error e => exact ⟨nofun, nofun⟩
  rw [hok, hok, h]

theorem InStep.edit (h : c.InStep w alone cache) (w' : Workspace) :
    c.InStep w' (alone && c.file w' == c.file w) cache where
  path := h.path
  whole := h.whole
  onFile halone hclean := by
    rw [Bool.and_eq_true, beq_iff_eq] at halone
    exact (h.onFile halone.1 hclean).of_same (read_of_file halone.2)

/-- What is stored makes a cache differ from its file. -/
theorem InStep.gathered {visited : Path → Prop} {earlier : ResultCache}
    (h : c.InStep w alone earlier) (hcache : Gathered s w' visited earlier cache) :
    c.InStep w alone cache where
  path := hcache.path.trans h.path
  whole := hcache.whole
  onFile halone hclean := by
    obtain rfl := hcache.same hclean
    exact h.onFile halone hclean

/-- A scanner that is made with caching begins with what is on file. -/
theorem inStep_of_start {stamp : String} {settings : Settings}
    (hpath : settings.cache.path = c.cachePath) (henabled : settings.cache.enabled = true)
    (h : Scanner.start w stamp c.root settings true = .ok (s, σ)) :
    s.root = c.root ∧ σ.workspace = w ∧ ∃ cache, σ.cache = some cache ∧ c.InStep w true cache := by
  obtain ⟨hmade, -⟩ := make_of_start h
  have hroot : s.root = c.root := by
    obtain ⟨registry, -, hs⟩ := Sequences.ok_of_bind hmade
    rw [← Except.ok.inj hs]
  rw [Scanner.start, hmade, henabled, cachePath_eq hpath] at h
  dsimp only at h
  rw [if_pos (Bool.and_self true)] at h
  cases hload : ResultCache.load w c.path with
  | error fault => rw [hload] at h; cases h
  | ok loaded =>
      obtain ⟨cache, reports⟩ := loaded
      rw [hload] at h
      cases h
      exact ⟨hroot, rfl, cache, rfl, ResultCache.path_of_load hload, ResultCache.whole_of_load hload,
        fun _ _ => ⟨cache, reports, hload, fun _ => .rfl⟩⟩

/-- After a scan that returns, the file has the keys that were kept: it was written, or it was left
alone and there was nothing to write. -/
theorem InStep.hasKeys_of_persist {visited : Path → Prop} {earlier cache' : ResultCache}
    {keep : List String} (h : c.InStep w alone earlier)
    (hcache : Gathered s w visited earlier cache)
    (hpersist : (cache.prune keep).persist w = (.ok cache', w'))
    (hknown : alone = true ∨ c.file w' ≠ c.file w) :
    HasKeys w' c.path (· ∈ (cache.prune keep).keys) := by
  cases hdirty : (cache.prune keep).isDirty with
  | true =>
      exact ResultCache.hasKeys_of_persist (hcache.path.trans h.path) (hcache.whole.prune keep) hdirty
        hpersist
  | false =>
      obtain ⟨hclean, hentries⟩ := ResultCache.prune_of_clean hdirty
      obtain rfl := hcache.same hclean
      rw [ResultCache.persist_of_clean hdirty] at hpersist
      obtain ⟨-, rfl⟩ := Prod.mk.inj hpersist
      have halone := hknown.resolve_right (not_not_intro rfl)
      rw [ResultCache.keys, hentries]
      exact h.onFile halone hclean

theorem InStep.scan {paths : List Path} (h : c.InStep σ.workspace alone cache)
    (hcache : σ.cache = some cache) :
    ∃ cache', ((s.scan paths).after σ).cache = some cache' ∧
      c.InStep ((s.scan paths).after σ).workspace
        (alone || c.file ((s.scan paths).after σ).workspace != c.file σ.workspace) cache' := by
  have hends := s.scan_ends paths hcache h.whole
  generalize (s.scan paths).after σ = τ at hends ⊢
  generalize (s.scan paths).answer σ = r at hends
  cases hends with
  | failed files memory path whole same =>
      refine ⟨_, memory, path.trans h.path, whole, fun halone hclean => ?_⟩
      obtain ⟨rfl, hworkspace⟩ := same hclean
      rw [hworkspace, bne_self_eq_false, Bool.or_false] at halone
      exact hworkspace ▸ h.onFile halone hclean
  | @returned _ _ files stored _ listed gathered known memory written =>
      obtain ⟨hpath, hentries⟩ := ResultCache.persist_eq written
      refine ⟨_, memory, hpath.trans (gathered.path.trans h.path), ?_, fun hknown _ => ?_⟩
      · have hwhole := gathered.whole.prune (s.kept σ.workspace files stored)
        exact ⟨hentries ▸ hwhole.names, fun key entry hmem =>
          hwhole.entries key entry (hentries ▸ hmem)⟩
      · rw [Bool.or_eq_true, bne_iff_ne] at hknown
        rw [ResultCache.keys, hentries]
        exact h.hasKeys_of_persist gathered written hknown

/-- In every session that is reached, the cache is in step with its file. -/
theorem Tended.inStep {scanner : Option Scanner} (h : c.Tended scanner σ alone) :
    ∀ s ∈ scanner, s.root = c.root ∧
      ∃ cache, σ.cache = some cache ∧ c.InStep σ.workspace alone cache := by
  induction h with
  | begin w stamp fresh => exact nofun
  | write before written ih =>
      intro s hs
      obtain ⟨hroot, cache, hcache, hstep⟩ := ih s hs
      exact ⟨hroot, cache, hcache, hstep.edit _⟩
  | delete p before ih =>
      intro s hs
      obtain ⟨hroot, cache, hcache, hstep⟩ := ih s hs
      exact ⟨hroot, cache, hcache, hstep.edit _⟩
  | tick stamp before ih => exact ih
  | create settings before cachePath enabled started ih =>
      intro s hs
      obtain rfl := Option.some.inj (Option.mem_def.mp hs)
      obtain ⟨hroot, hworkspace, cache, hcache, hstep⟩ := inStep_of_start cachePath enabled started
      exact ⟨hroot, cache, hcache, hworkspace ▸ hstep⟩
  | @file s σ alone p before ih =>
      intro s hs
      obtain rfl := Option.some.inj (Option.mem_def.mp hs)
      obtain ⟨hroot, earlier, hearlier, hstep⟩ := ih _ rfl
      have hfile := (s.gathers_accepts σ.workspace (· = p) earlier).scanFile_knows rfl σ
        ⟨rfl, earlier, hearlier, .refl hstep.whole⟩
      obtain ⟨⟨hworkspace, cache, hcache, hgathered⟩, -⟩ := hfile
      exact ⟨hroot, cache, hcache, hworkspace ▸ hstep.gathered hgathered⟩
  | scan paths before ih =>
      intro s hs
      obtain rfl := Option.some.inj (Option.mem_def.mp hs)
      obtain ⟨hroot, earlier, hearlier, hstep⟩ := ih _ rfl
      obtain ⟨cache, hcache, hstep'⟩ := hstep.scan hearlier
      exact ⟨hroot, cache, hcache, hstep'⟩

/-- What a scan does to the cache file. -/
structure Upkept (c : Course) (s : Scanner) (σ : Session) (alone : Bool) (paths : List Path) :
    Prop where
  /-- A scan that fails leaves every byte of the cache file and of all others. -/
  failed : ∀ fault, (s.scan paths).answer σ = .error fault →
    σ.workspace.SameFiles ((s.scan paths).after σ).workspace
  /-- After a scan that returns the file has the keys of its files, and of the earlier keys those
  whose files are there. -/
  returned : ∀ x, (s.scan paths).answer σ = .ok x →
    alone = true ∨ c.file ((s.scan paths).after σ).workspace ≠ c.file σ.workspace →
      ∃ files earlier, s.files σ.workspace paths = .ok files ∧ σ.cache = some earlier ∧
        HasKeys ((s.scan paths).after σ).workspace c.path fun key =>
          (∃ p ∈ files, s.key σ.workspace p = key) ∨ key ∈ earlier.keys ∧ s.Live σ.workspace key
  /-- The key of a place is live as long as a file stands there, inside of the root or outside. -/
  live : ∀ place, (∀ name ∈ place, IsName name) →
    (s.Live σ.workspace (Path.shown s.root place) ↔
      ∃ bytes, σ.workspace.tree.find? place = some (.file bytes))

theorem Tended.upkept (h : c.Tended (some s) σ alone) (paths : List Path) :
    c.Upkept s σ alone paths := by
  obtain ⟨-, earlier, hearlier, hstep⟩ := h.inStep s rfl
  have hends := s.scan_ends paths hearlier hstep.whole
  refine ⟨fun fault hfault => ?_, fun x hx hknown => ?_, fun place hplace => ?_⟩
  · rw [hfault] at hends
    cases hends with
    | failed files _ _ _ _ => exact files
  · rw [hx] at hends
    cases hends with
    | @returned _ _ files cache _ listed gathered known _ written =>
        have hkeys := s.mem_keys_kept gathered known
        exact ⟨files, earlier, listed, hearlier,
          (hstep.hasKeys_of_persist gathered written hknown).imp hkeys⟩
  · rw [Scanner.Live, Path.join_shown s.root hplace]
    exact Workspace.isFile_ofPlace hplace

/-- A component, and a directory in which there is nothing to scan. -/
def notedWorkspace : Workspace :=
  ⟨.directory [("A.tsx", .file widgetText.toUTF8.toList),
    ("docs", .directory [("notes.txt", .file [])])], []⟩

/-- The session after the component was scanned. -/
def widgetCached : Session := (widgetScanner.scan [.ofText "A.tsx"]).after
  ⟨notedWorkspace, some (.empty (some widgets.path)), "", []⟩

def scanOfNotes : Scanning Extraction := widgetScanner.scan [.ofText "docs"]

theorem widgetCached_tended : widgets.Tended (some widgetScanner) widgetCached true :=
  .scan _ (.create .default (.begin notedWorkspace "" rfl) rfl rfl
    (rfl : Scanner.start _ _ _ _ _ = .ok (widgetScanner, _)))

theorem notes_upkept : widgets.Tended (some widgetScanner) widgetCached true ∧
    (scanOfNotes.answer widgetCached).isOk ∧
    widgets.Upkept widgetScanner widgetCached true [.ofText "docs"] :=
  ⟨widgetCached_tended, by decide +kernel, widgetCached_tended.upkept _⟩

/-- After every scan that returns the file has these keys, whoever has changed it before. -/
def AlwaysUpkept : Prop :=
  ∀ (c : Course) (s : Scanner) (σ : Session) (alone : Bool) (paths : List Path),
    c.Tended (some s) σ alone → c.Upkept s σ true paths

/-- The cache file is deleted, and the next scan has nothing to write. -/
theorem not_alwaysUpkept : ¬ AlwaysUpkept := by
  intro h
  have hdeleted := h _ _ _ _ [.ofText "docs"] (widgetCached_tended.delete widgets.path)
  generalize hσ : ({ widgetCached with
    workspace := widgetCached.workspace.delete widgets.path } : Session) = σ at hdeleted
  have hruns : (scanOfNotes.answer σ).isOk ∧ widgets.file (scanOfNotes.after σ).workspace = none ∧
      σ.cache.map ResultCache.keys = some ["A.tsx"] ∧
      σ.workspace.isFile ((Path.ofPlace widgetScanner.root).join (.ofText "A.tsx")) := by
    subst hσ
    decide +kernel
  obtain ⟨hok, hfile, hkeys, hlive⟩ := hruns
  cases hanswer : scanOfNotes.answer σ with
  | error fault => rw [hanswer] at hok; cases hok
  | ok x =>
      obtain ⟨files, earlier, -, hearlier, loaded, reports, hload, hloaded⟩ :=
        hdeleted.returned x hanswer (.inl rfl)
      have hunread : ∀ bytes, (scanOfNotes.after σ).workspace.read widgets.path ≠ .ok bytes := by
        intro bytes hread
        rw [file, hread] at hfile
        cases hfile
      obtain ⟨_, hnone⟩ := ResultCache.load_of_unread rfl hunread
      obtain ⟨rfl, -⟩ := Prod.mk.inj (Except.ok.inj (hnone.symm.trans hload))
      rw [hearlier] at hkeys
      have hmem : "A.tsx" ∈ earlier.keys := by
        rw [Option.some.inj hkeys]
        exact List.mem_singleton_self _
      exact absurd ((hloaded "A.tsx").mpr (.inr ⟨hmem, hlive⟩)) List.not_mem_nil

end Course

end PropSchema
