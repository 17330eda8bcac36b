import PropSchema.Proofs.Project.Transparency
/-!
Settings that are changed under a scanner. A scanner takes the signature of its settings when it is
made, but it reads the policy and the markers whenever it looks at a text. So an entry of its cache
has the outcome that the settings gave when it was stored, and still answers when they are others. A
call has the answer of an empty cache as long as the entries that answer it were stored under
settings that find the same.
-/
namespace PropSchema
open Scanning (Ensures Yields)

/-- Settings by which the same is found with one registry. -/
structure Settings.Alike (s s' : Settings) : Prop where
  policy : s.policy = s'.policy
  markers : ∀ name, s.markers.contains name = s'.markers.contains name

namespace Session

def cached? (σ : Session) (key : String) : Option CacheEntry :=
  σ.cache.bind fun cache => cache.entries.lookup key

/-- The session with nothing in its cache. -/
def emptied (σ : Session) : Session :=
  { σ with cache := σ.cache.map fun cache => { cache with entries := [] } }

open scoped Classical in
/-- The settings that each entry was stored under, after a step under the current ones: an entry
that the step leaves as it was has kept its own. -/
noncomputable def origins (before after : Session) (current : Settings)
    (origin : String → Settings) (key : String) : Settings :=
  if after.cached? key = before.cached? key then origin key else current

theorem cached?_emptied (σ : Session) (key : String) : σ.emptied.cached? key = none := by
  rw [cached?, emptied]
  cases σ.cache <;> rfl

end Session

namespace Scanner

/-- The scanner with the settings in force, after they were given a policy and markers. -/
def assign (s : Scanner) (policy : ErrorPolicy) (markers : List String) : Scanner :=
  { s with settings := { s.settings with policy, markers } }

/-- The rules of the scanner under other settings. -/
def rulesUnder (s : Scanner) (settings : Settings) : ComponentRules :=
  { s with settings }.rules

theorem rulesUnder_agree (s : Scanner) {settings settings' : Settings}
    (h : settings.Alike settings') :
    (s.rulesUnder settings).Agree (s.rulesUnder settings') :=
  ⟨⟨fun _ => rfl, h.policy⟩, h.markers⟩

end Scanner

theorem ResultCache.persist_eq {w w' : Workspace} {cache cache' : ResultCache}
    (h : cache.persist w = (.ok cache', w')) :
    cache'.path = cache.path ∧ cache'.entries = cache.entries := by
  have hends := cache.persisted w
  rw [h] at hends
  cases hends with
  | clean => exact ⟨rfl, rfl⟩
  | written => exact ⟨rfl, rfl⟩

namespace Course
variable {c : Course} {s : Scanner} {w : Workspace} {σ τ : Session} {origin : String → Settings}

/-- Whatever an entry answers was found by some rules in a text with the fingerprint. -/
def Attests (c : Course) (r : ComponentRules) (signature key : String) (entry : CacheEntry) : Prop :=
  ∀ fingerprint x, entry.outcome signature fingerprint = .ok (some x) →
    ∃ text ∈ c.sources, Sha256.ofText text = fingerprint ∧
      ∃ path, TypeScript.hasMarkup path = Path.markupOf c.root key ∧
        (Scan.ofText r path text).outcome = .ok x

theorem Attests.make {r : ComponentRules} {key text path : String} {x : Extraction}
    (hmem : text ∈ c.sources) (hpath : TypeScript.hasMarkup path = Path.markupOf c.root key)
    (houtcome : (Scan.ofText r path text).outcome = .ok x) (stamp signature : String) :
    c.Attests r signature key (.make stamp signature (Sha256.ofText text) x) := by
  intro fingerprint y hy
  have hsame := (CacheEntry.Holds.make stamp signature (Sha256.ofText text) x).eq_of_outcome hy
  obtain ⟨-, hfingerprint, rfl⟩ := Stored.mk.inj hsame
  exact ⟨text, hmem, hfingerprint, path, hpath, houtcome⟩

/-- What an entry answers for a text is found in that text by all rules that agree. -/
theorem Attests.outcome_eq {r r' : ComponentRules} {signature key text path : String}
    {entry : CacheEntry} {x : Extraction} (h : c.Attests r signature key entry)
    (apart : c.ToldApart) (hagree : r.Agree r') (hmem : text ∈ c.sources)
    (hpath : TypeScript.hasMarkup path = Path.markupOf c.root key)
    (hanswer : entry.outcome signature (Sha256.ofText text) = .ok (some x)) :
    (Scan.ofText r' path text).outcome = .ok x := by
  obtain ⟨text', hmem', hdigest, path', hpath', houtcome⟩ := h _ x hanswer
  obtain rfl := apart.sources hmem' hmem hdigest
  exact Scan.outcome_of_agree hagree (hpath'.trans hpath.symm) houtcome

/-- A session that comes from another one by storing what a scanner finds. -/
structure Continues (c : Course) (s : Scanner) (σ τ : Session) : Prop where
  path : ∀ cache ∈ τ.cache, cache.path = some c.path
  entries : ∀ key entry, τ.cached? key = some entry →
    σ.cached? key = some entry ∨ c.Attests s.rules s.signature key entry

/-- Files of a workspace are read as their keys tell, and their texts take part. -/
def Reads (c : Course) (s : Scanner) (w : Workspace) (visited : Path → Prop) : Prop :=
  ∀ p, visited p → ∀ text, Scanner.readSource w p = .ok text →
    text ∈ c.sources ∧ TypeScript.hasMarkup p.text = Path.markupOf c.root (s.key w p)

theorem accepts {visited : Path → Prop} (hreads : c.Reads s σ.workspace visited) :
    s.Accepts σ.workspace (fun τ => τ.workspace = σ.workspace ∧ c.Continues s σ τ) visited := by
  refine ⟨fun _ hτ => hτ.1, fun _ _ hτ => ⟨hτ.1, hτ.2.path, hτ.2.entries⟩, ?_⟩
  rintro p hp text htext x houtcome stamp τ ⟨hworkspace, hτ⟩
  obtain ⟨hmem, hpath⟩ := hreads p hp text htext
  refine ⟨hworkspace, fun cache hcache => ?_, fun key entry hentry => ?_⟩
  · obtain ⟨old, hold, rfl⟩ := Option.map_eq_some_iff.mp hcache
    exact hτ.path old hold
  -- an entry of another key was there before, and the new one has what these rules find
  · obtain ⟨cache, hcache, hlookup⟩ := Option.bind_eq_some_iff.mp hentry
    obtain ⟨old, hold, rfl⟩ := Option.map_eq_some_iff.mp hcache
    rw [ResultCache.store] at hlookup
    by_cases hkey : key = s.key σ.workspace p
    · subst hkey
      rw [Entries.lookup_put_self] at hlookup
      exact .inr (Option.some.inj hlookup ▸ .make hmem hpath houtcome stamp s.signature)
    · rw [Entries.lookup_put_of_ne hkey] at hlookup
      exact hτ.entries key entry (Option.bind_eq_some_iff.mpr ⟨old, hold, hlookup⟩)

/-- The entries that answer for visited files were found by rules that agree with those in force. -/
def Answers (c : Course) (s : Scanner) (σ : Session) (visited : Path → Prop) : Prop :=
  ∀ p, visited p → ∀ text, Scanner.readSource σ.workspace p = .ok text →
    ∀ entry, σ.cached? (s.key σ.workspace p) = some entry →
      (∃ x, entry.outcome s.signature (Sha256.ofText text) = .ok (some x)) →
        ∃ r : ComponentRules, r.Agree s.rules ∧
          c.Attests r s.signature (s.key σ.workspace p) entry

theorem serves_of_answers {visited : Path → Prop} (apart : c.ToldApart)
    (hreads : c.Reads s σ.workspace visited) (hanswers : c.Answers s σ visited) :
    s.Serves σ.workspace (fun τ => τ.workspace = σ.workspace ∧ c.Continues s σ τ) visited := by
  refine ⟨accepts hreads, ?_⟩
  rintro p hp text htext τ ⟨-, hτ⟩ cache hcache x hfind
  obtain ⟨hmem, hpath⟩ := hreads p hp text htext
  rw [ResultCache.find] at hfind
  cases hlookup : cache.entries.lookup (s.key σ.workspace p) with
  | none => rw [hlookup] at hfind; cases hfind
  | some entry =>
      rw [hlookup] at hfind
      have hentry : τ.cached? (s.key σ.workspace p) = some entry :=
        Option.bind_eq_some_iff.mpr ⟨cache, hcache, hlookup⟩
      -- what answers was there before the call, or an earlier file of the call has stored it
      rcases hτ.entries _ entry hentry with hold | hnew
      · obtain ⟨r, hagree, hattests⟩ := hanswers p hp text htext entry hold ⟨x, hfind⟩
        exact hattests.outcome_eq apart hagree hmem hpath hfind
      · exact hnew.outcome_eq apart ⟨⟨fun _ => rfl, rfl⟩, fun _ => rfl⟩ hmem hpath hfind

/-- Pruning takes entries away and changes none. -/
theorem Continues.prune {cache cache' : ResultCache} {keep : List String} (h : c.Continues s σ τ)
    (hcache : τ.cache = some cache) {τ' : Session} (hcache' : τ'.cache = some cache')
    (hpath : cache'.path = cache.path) (hentries : cache'.entries = (cache.prune keep).entries) :
    c.Continues s σ τ' := by
  refine ⟨fun found hfound => ?_, fun key entry hentry => ?_⟩
  · obtain rfl : cache' = found := Option.some.inj (hcache'.symm.trans hfound)
    exact hpath.trans (h.path cache hcache)
  · rw [Session.cached?, hcache'] at hentry
    change cache'.entries.lookup key = some entry at hentry
    rw [hentries, ResultCache.prune, Entries.lookup_filter keep.contains] at hentry
    split at hentry
    · exact h.entries key entry (Option.bind_eq_some_iff.mpr ⟨cache, hcache, hentry⟩)
    · nomatch hentry

theorem keepCache_continues (files : List Path) :
    Ensures (fun τ => τ.workspace = w ∧ c.Continues s σ τ) (s.keepCache files)
      fun r τ => c.Kept w r τ ∧ c.Continues s σ τ := by
  refine Scanner.keepCache_ensures files (fun τ hτ _ => ⟨nofun, hτ.2⟩)
    (fun τ hτ cache hcache w' cache' hpersist => ?_) fun τ hτ cache hcache w' fault hpersist => ?_
  · obtain ⟨hpath, hentries⟩ := ResultCache.persist_eq hpersist
    exact ⟨nofun, hτ.2.prune hcache rfl hpath hentries⟩
  · refine ⟨?_, hτ.2.prune hcache rfl rfl rfl⟩
    rintro _ ⟨⟩ hwritable
    have hpruned : (cache.prune (s.kept τ.workspace files cache)).path = some c.path :=
      hτ.2.path cache hcache
    obtain ⟨rfl, htext⟩ := lacksText_of_persist (hτ.1.symm ▸ hwritable) hpruned hpersist
    exact ⟨rfl, _, rfl, htext⟩

/-- The sessions that a scanner is in, from one that is reached without assignments, with the
settings that each entry of the cache was stored under. -/
inductive Assigned (c : Course) : Scanner → Session → (String → Settings) → Prop
  | start {s : Scanner} {σ : Session} (before : c.Reached (some s) σ) :
      Assigned c s σ fun _ => s.settings
  | write {s : Scanner} {σ : Session} {origin : String → Settings} {p : Path} {bytes : List UInt8}
      {w : Workspace} (before : Assigned c s σ origin)
      (written : σ.workspace.save p bytes = .ok w) :
      Assigned c s { σ with workspace := w } origin
  | delete {s : Scanner} {σ : Session} {origin : String → Settings} (p : Path)
      (before : Assigned c s σ origin) :
      Assigned c s { σ with workspace := σ.workspace.delete p } origin
  | tick {s : Scanner} {σ : Session} {origin : String → Settings} (stamp : String)
      (before : Assigned c s σ origin) : Assigned c s { σ with stamp } origin
  | assign {s : Scanner} {σ : Session} {origin : String → Settings} (policy : ErrorPolicy)
      (markers : List String) (before : Assigned c s σ origin) :
      Assigned c (s.assign policy markers) σ origin
  | call {s : Scanner} {σ : Session} {origin : String → Settings} {call : Call}
      (before : Assigned c s σ origin) (within : call.Within c s σ.workspace) :
      Assigned c s ((call.run s).after σ)
        (σ.origins ((call.run s).after σ) s.settings origin)

/-- Every entry has what was found under the settings that it was stored under. -/
structure Explained (c : Course) (s : Scanner) (σ : Session) (origin : String → Settings) : Prop where
  root : s.root = c.root
  path : ∀ cache ∈ σ.cache, cache.path = some c.path
  entries : ∀ key entry, σ.cached? key = some entry →
    c.Attests (s.rulesUnder (origin key)) s.signature key entry

theorem reads_of_within {call : Call} (hroot : s.root = c.root) (h : call.Within c s w) :
    c.Reads s w (s.Visits w call.paths) := by
  rintro p ⟨files, hfiles, hp⟩ text htext
  obtain ⟨hmem, hkey⟩ := h.reads hfiles hp text htext
  rw [Scanner.ReadsByKey, hroot] at hkey
  exact ⟨hmem, hkey⟩

/-- Before any assignment the entries that answer were found under the settings of the scanner. -/
theorem Explained.start (apart : c.ToldApart) (h : c.Reached (some s) σ) :
    c.Explained s σ fun _ => s.settings := by
  obtain ⟨hholds, hscanner⟩ := h.holds apart
  have hadmits := hscanner s rfl
  obtain ⟨hroot, hsignature, hrules⟩ := hadmits.fields
  refine ⟨hroot, fun cache hcache => (hholds.cache cache hcache).2, fun key entry hentry => ?_⟩
  obtain ⟨cache, hcache, hlookup⟩ := Option.bind_eq_some_iff.mp hentry
  have hkeeps := (hholds.cache cache hcache).1.keeps key entry (Entries.mem_of_lookup hlookup)
  intro fingerprint x hanswer
  have hfinds := hkeeps.finds hanswer
  generalize hs : s.signature = signature at hfinds
  obtain ⟨admitted, essence, source, dialect, outcome⟩ := hfinds
  have hessence := apart.essences essence hadmits.essence (hs.symm.trans hsignature)
  have hagree := Settings.rules_agree hessence admitted hrules
  exact ⟨_, source, rfl, _, dialect, Scan.outcome_of_agree hagree rfl outcome⟩

theorem Explained.assign (h : c.Explained s σ origin) (policy : ErrorPolicy)
    (markers : List String) : c.Explained (s.assign policy markers) σ origin :=
  ⟨h.root, h.path, h.entries⟩

/-- A call stores what is found under the settings in force, whatever it answers. -/
theorem Explained.call {call : Call} (h : c.Explained s σ origin)
    (within : call.Within c s σ.workspace) :
    c.Explained s ((call.run s).after σ)
      (σ.origins ((call.run s).after σ) s.settings origin) := by
  have hcontinues : c.Continues s σ ((call.run s).after σ) :=
    Call.keeps_of_accepts (accepts (reads_of_within h.root within)) (fun _ hτ => hτ.2)
      (fun _ _ hτ => ⟨hτ.path, hτ.entries⟩)
      (fun files => (keepCache_continues files).mono (fun _ hτ => hτ) fun _ _ hτ => hτ.2) σ
      ⟨rfl, h.path, fun _ _ hentry => .inl hentry⟩
  refine ⟨h.root, hcontinues.path, fun key entry hentry => ?_⟩
  rw [Session.origins]
  split
  · next hsame => exact h.entries key entry (hsame.symm.trans hentry)
  · next hnew =>
      refine (hcontinues.entries key entry hentry).resolve_left fun hold => hnew ?_
      rw [hentry, hold]

theorem Assigned.explained (apart : c.ToldApart) (h : c.Assigned s σ origin) :
    c.Explained s σ origin := by
  induction h with
  | start before => exact .start apart before
  | write before written ih => exact ⟨ih.root, ih.path, ih.entries⟩
  | delete p before ih => exact ⟨ih.root, ih.path, ih.entries⟩
  | tick stamp before ih => exact ⟨ih.root, ih.path, ih.entries⟩
  | assign policy markers before ih => exact ih.assign policy markers
  | call before within ih => exact ih.call within

/-- The entries that answer a call were stored under settings that find what those in force find. -/
def Fits (s : Scanner) (σ : Session) (origin : String → Settings) (call : Call) : Prop :=
  ∀ p, s.Visits σ.workspace call.paths p → ∀ text, Scanner.readSource σ.workspace p = .ok text →
    ∀ entry, σ.cached? (s.key σ.workspace p) = some entry →
      (∃ x, entry.outcome s.signature (Sha256.ofText text) = .ok (some x)) →
        (origin (s.key σ.workspace p)).Alike s.settings

/-- A scan gives no answer, for the cache that it leaves in memory has no text. -/
structure Unwritten (s : Scanner) (σ : Session) (call : Call) : Prop where
  scans : ∃ paths, call = .scan paths
  answer : (call.run s).answer σ = .error (.notWritten .unwritable)
  memory : ((call.run s).after σ).LacksText

/-- A call has its outcome without a cache if the entries that answer it fit and the cache can be
written. -/
theorem Explained.answer_eq {call : Call} (h : c.Explained s σ origin) (apart : c.ToldApart)
    (within : call.Within c s σ.workspace)
    (writable : ∀ paths, call = .scan paths → c.Writable σ.workspace)
    (fits : Fits s σ origin call) :
    (call.run s).answer σ = call.outcome s σ.workspace ∨ Unwritten s σ call := by
  have hanswers : c.Answers s σ (s.Visits σ.workspace call.paths) :=
    fun p hp text htext entry hentry hx =>
      ⟨_, s.rulesUnder_agree (fits p hp text htext entry hentry hx), h.entries _ _ hentry⟩
  have hserves := serves_of_answers apart (reads_of_within h.root within) hanswers
  have hbegins : c.Continues s σ σ := ⟨h.path, fun _ _ hentry => .inl hentry⟩
  have hends := Call.ensures_of_serves hserves (fun _ hτ => ⟨nofun, hτ.2⟩)
    (fun _ _ hτ => ⟨nofun, hτ.2.path, hτ.2.entries⟩) keepCache_continues σ ⟨rfl, hbegins⟩
  refine hends.imp And.left fun ⟨paths, _, fault, hcall, _, hanswer, hkept, _⟩ => ?_
  obtain ⟨rfl, htext⟩ := hkept fault rfl (writable paths hcall)
  exact ⟨⟨paths, hcall⟩, hanswer, htext⟩

/-- Answers fit the settings in force as long as the entries do: a call is answered as with an empty
cache if whatever the cache has for the texts that it reads was stored under such settings, unless
one of the two caches cannot be written. -/
theorem Assigned.answer_eq_emptied {call : Call} (h : c.Assigned s σ origin) (apart : c.ToldApart)
    (within : call.Within c s σ.workspace)
    (writable : ∀ paths, call = .scan paths → c.Writable σ.workspace)
    (fits : Fits s σ origin call) :
    (call.run s).answer σ = (call.run s).answer σ.emptied ∨
      Unwritten s σ call ∨ Unwritten s σ.emptied call := by
  have hexplained := h.explained apart
  have hemptied : c.Explained s σ.emptied origin := by
    refine ⟨hexplained.root, fun cache hcache => ?_, fun key entry hentry => ?_⟩
    · obtain ⟨old, hold, rfl⟩ := Option.map_eq_some_iff.mp hcache
      exact hexplained.path old hold
    · rw [σ.cached?_emptied] at hentry
      nomatch hentry
  have hfits : Fits s σ.emptied origin call := fun p _ _ _ entry hentry _ => by
    rw [σ.cached?_emptied] at hentry
    nomatch hentry
  rcases hexplained.answer_eq apart within writable fits with hanswer | hlost
  · rcases hemptied.answer_eq apart within writable hfits with hanswer' | hlost
    · exact .inl (hanswer.trans hanswer'.symm)
    · exact .inr (.inr hlost)
  · exact .inr (.inl hlost)

end Course

namespace Scanner
variable {s : Scanner} {σ : Session} {p : Path} {text : String} {cache : ResultCache} {x : Extraction}

theorem cached_yields {key fingerprint : String} {found : Option Extraction}
    (hcache : σ.cache = some cache) (hfind : cache.find key s.signature fingerprint = .ok found) :
    Yields (· = σ) (s.cached key fingerprint) (.ok found) := by
  refine Ensures.get_bind fun session hsession => ?_
  rw [hsession, hcache]
  dsimp only
  rw [hfind]
  exact Yields.pure found

/-- A file whose text and whose entry in the cache are known is scanned from there on. -/
theorem ensures_of_find {found : Option Extraction} {k : String → Option Extraction → Scanning Extraction}
    {R : Except ScanFault Extraction → Session → Prop} (htext : readSource σ.workspace p = .ok text)
    (hcache : σ.cache = some cache)
    (hfind : cache.find (s.key σ.workspace p) s.signature (Sha256.ofText text) = .ok found)
    (hrest : Ensures (· = σ) (k text found) R) : Ensures (· = σ) (do
      let text ← readSource σ.workspace p
      k text (← s.cached (s.key σ.workspace p) (Sha256.ofText text))) R := by
  rw [htext]
  refine (Yields.ofExcept (.ok text)).bind_ensures (fun y hy => ?_) fun _ _ h => nomatch h
  obtain rfl : text = y := Except.ok.inj hy
  refine (cached_yields hcache hfind).bind_ensures (fun found' hfound => ?_) fun _ _ h => nomatch h
  obtain rfl : found = found' := Except.ok.inj hfound
  exact hrest

/-- What the cache knows of a file is the answer, whatever the settings in force. -/
theorem answer_of_found (htext : readSource σ.workspace p = .ok text) (hcache : σ.cache = some cache)
    (hfind : cache.find (s.key σ.workspace p) s.signature (Sha256.ofText text) = .ok (some x)) :
    (s.scanFile p).answer σ = .ok x := by
  have hscan : Ensures (· = σ) (s.scanFile p) fun r _ => r = .ok x := by
    refine Ensures.get_bind fun session hsession => ?_
    rw [hsession]
    exact ensures_of_find htext hcache hfind fun _ _ => rfl
  exact hscan σ rfl

/-- What is found in a file that the cache does not know is stored. -/
theorem after_of_unknown (htext : readSource σ.workspace p = .ok text)
    (hcache : σ.cache = some cache)
    (hfind : cache.find (s.key σ.workspace p) s.signature (Sha256.ofText text) = .ok none)
    (houtcome : (Scan.ofText s.rules p.text text).outcome = .ok x) :
    ((s.scanFile p).after σ).workspace = σ.workspace ∧ ((s.scanFile p).after σ).cache =
      some (cache.store σ.stamp (s.key σ.workspace p) s.signature (Sha256.ofText text) x) := by
  have haccepts : s.Accepts σ.workspace (fun τ => τ.workspace = σ.workspace ∧ τ.cache = some cache)
      fun _ => False := ⟨fun _ hτ => hτ.1, fun _ _ hτ => hτ, fun _ hp => hp.elim⟩
  have hextract := haccepts.extract_yields p text
  rw [houtcome] at hextract
  have hscan : Ensures (· = σ) (s.scanFile p) fun _ τ => τ.workspace = σ.workspace ∧ τ.cache =
      some (cache.store σ.stamp (s.key σ.workspace p) s.signature (Sha256.ofText text) x) := by
    refine Ensures.get_bind fun session hsession => ?_
    rw [hsession]
    refine ensures_of_find htext hcache hfind ?_
    refine Ensures.mono (P := fun τ => τ.workspace = σ.workspace ∧ τ.cache = some cache) ?_
      (fun τ hτ => by rw [hτ]; exact ⟨rfl, hcache⟩) fun _ _ h => h
    refine (haccepts.report_yields _).bind_ensures (fun _ _ => ?_) fun _ _ h => nomatch h
    refine hextract.bind_ensures (fun y hy => ?_) fun _ _ h => nomatch h
    obtain rfl : x = y := Except.ok.inj hy
    exact fun τ hτ => ⟨hτ.1, congrArg (Option.map _) hτ.2⟩
  exact hscan σ rfl

/-- An outcome that is stored is the answer also after other settings were assigned. -/
theorem answer_after_assign (htext : readSource σ.workspace p = .ok text)
    (hcache : σ.cache = some cache)
    (hfind : cache.find (s.key σ.workspace p) s.signature (Sha256.ofText text) = .ok none)
    (houtcome : (Scan.ofText s.rules p.text text).outcome = .ok x) (hvalid : x.Valid)
    (policy : ErrorPolicy) (markers : List String) :
    ((s.assign policy markers).scanFile p).answer ((s.scanFile p).after σ) = .ok x := by
  obtain ⟨hworkspace, hstored⟩ := after_of_unknown htext hcache hfind houtcome
  refine answer_of_found (by rw [hworkspace]; exact htext) hstored ?_
  have hholds := CacheEntry.Holds.make σ.stamp s.signature (Sha256.ofText text) x
  have hkey : (s.assign policy markers).key σ.workspace p = s.key σ.workspace p := rfl
  rw [hworkspace, hkey, ResultCache.find, ResultCache.store]
  dsimp only
  rw [Entries.lookup_put_self]
  exact hholds.outcome_self hvalid

end Scanner

namespace Course

theorem workspace_after_file (s : Scanner) (p : Path) (σ : Session) :
    (((Call.file p).run s).after σ).workspace = σ.workspace := by
  have haccepts : s.Accepts σ.workspace (fun τ => τ.workspace = σ.workspace) (· = p) :=
    ⟨fun _ hτ => hτ, fun _ _ hτ => hτ, fun _ _ _ _ _ _ _ _ hτ => hτ⟩
  exact (haccepts.scanFile_ensures rfl σ rfl).2

/-- A component with a prop whose type is not known. -/
def widgetText : String := "export class A extends React.Component<{a:Widget}> {}"

def widgets : Course where
  root := []
  cachePath := CacheSettings.default.path
  sources := {widgetText}
  essences := {Settings.default.essenceText}

def widgetWorkspace : Workspace :=
  ⟨.directory [("A.tsx", .file widgetText.toUTF8.toList)], []⟩

def widgetFile : Call := .file (.ofText "A.tsx")

def widgetScanner : Scanner :=
  ⟨.default, [], Registry.builtin, [], Settings.default.signature⟩

def beforeWidget : Session := ⟨widgetWorkspace, some (.empty (some widgets.path)), "", []⟩

def afterWidget : Session := (widgetFile.run widgetScanner).after beforeWidget

theorem widget_read : Scanner.readSource widgetWorkspace (.ofText "A.tsx") = .ok widgetText := by
  decide +kernel

theorem widgets_toldApart : widgets.ToldApart := ⟨Set.injOn_singleton _ _, Set.injOn_singleton _ _⟩

theorem widget_within (s : Scanner) : widgetFile.Within widgets s widgetWorkspace := by
  refine ⟨by decide, fun p hp => ⟨"A.tsx", List.mem_singleton.mp hp⟩, ?_⟩
  intro files hfiles p hp text htext
  obtain rfl : [Path.ofText "A.tsx"] = files :=
    Except.ok.inj ((s.files_of_readSource widget_read).symm.trans hfiles)
  obtain rfl := List.mem_singleton.mp hp
  exact Except.ok.inj (htext.symm.trans widget_read)

theorem afterWidget_within (s : Scanner) : widgetFile.Within widgets s afterWidget.workspace := by
  rw [afterWidget, widgetFile, workspace_after_file]
  exact widget_within s

theorem widget_assigned (policy : ErrorPolicy) (markers : List String) :
    widgets.Assigned (widgetScanner.assign policy markers) afterWidget
      (beforeWidget.origins afterWidget .default fun _ => .default) := by
  have hbegin := Reached.begin (c := widgets) widgetWorkspace "" nofun
  have hstart := hbegin.create .default true rfl rfl
    (rfl : Scanner.start _ _ _ _ _ = .ok (widgetScanner, _))
  exact .assign policy markers (.call (.start hstart) (widget_within widgetScanner))

/-- Listing a marker twice changes nothing, and the cache may answer. -/
theorem widget_answered_as_emptied :
    widgets.ToldApart ∧ widgetFile.Within widgets widgetScanner afterWidget.workspace ∧
    (widgetFile.run (widgetScanner.assign .lenient ["React.Component", "React.Component"])).answer
        afterWidget =
      (widgetFile.run (widgetScanner.assign .lenient ["React.Component", "React.Component"])).answer
        afterWidget.emptied := by
  refine ⟨widgets_toldApart, afterWidget_within _, ?_⟩
  refine ((widget_assigned _ _).answer_eq_emptied widgets_toldApart (afterWidget_within _) nofun
    fun p _ text _ entry _ _ => ?_).elim id ?_
  · rw [Session.origins, ite_self]
    refine ⟨rfl, fun name => ?_⟩
    simp [Settings.default, Components.defaultMarkers, Scanner.assign]
  -- a file is not scanned by a scan, so no cache has to be written
  · rintro (⟨⟨_, hscan⟩, -, -⟩ | ⟨⟨_, hscan⟩, -, -⟩) <;> cases hscan

/-- Whatever the settings in force are, calls are answered as with an empty cache. -/
def AlwaysFits : Prop :=
  ∀ (c : Course) (s : Scanner) (σ : Session) (origin : String → Settings) (call : Call),
    c.Assigned s σ origin → c.ToldApart → call.Within c s σ.workspace →
      (∀ paths, call = .scan paths → c.Writable σ.workspace) →
        (call.run s).answer σ = (call.run s).answer σ.emptied

/-- The outcome under the lenient policy is still the answer when the policy is strict. -/
theorem not_alwaysFits : ¬ AlwaysFits := by
  intro h
  have hassigned := widget_assigned .strict Components.defaultMarkers
  have hvalid : (Scan.ofText widgetScanner.rules (Path.ofText "A.tsx").text
      widgetText).outcome.toOption.map (fun x => decide x.Valid) = some true := by decide +kernel
  have hanswered : ((widgetFile.run (widgetScanner.assign .strict Components.defaultMarkers)).answer
      afterWidget).isOk := by
    cases hx : (Scan.ofText widgetScanner.rules (Path.ofText "A.tsx").text widgetText).outcome with
    | error fault => rw [hx] at hvalid; cases hvalid
    | ok x =>
        rw [hx] at hvalid
        have hanswer := Scanner.answer_after_assign (σ := beforeWidget) widget_read rfl rfl hx
          (of_decide_eq_true (Option.some.inj hvalid)) .strict Components.defaultMarkers
        exact congrArg Except.isOk hanswer
  have hrefused : ¬ ((widgetFile.run (widgetScanner.assign .strict Components.defaultMarkers)).answer
      afterWidget.emptied).isOk := by decide +kernel
  have hsame := h _ _ _ _ _ hassigned widgets_toldApart (afterWidget_within _) nofun
  exact hrefused (hsame ▸ hanswered)

end Course

end PropSchema
