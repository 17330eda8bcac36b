import PropSchema.Proofs.Project.Steps
import PropSchema.Proofs.Sequences
/-!
The cache is transparent as long as it can be written. Files are written and deleted, scanners are
made from settings of all kinds, and each scans what it is asked to; in every session that is
reached like that, a scan answers as it does without a cache. Only an outcome that has no text
stands in the way: the cache that keeps it cannot be written, and the answer is lost.
-/
namespace PropSchema

theorem Scanner.locate_of_readSource {w : Workspace} {p : Path} {text : String}
    (h : readSource w p = .ok text) : ∃ place bytes, w.locate p = .ok (place, .file bytes) := by
  rw [readSource, Workspace.read] at h
  split at h
  · cases h
  · cases h
  · next hread =>
      split at hread
      · next place bytes hlocate => exact ⟨place, bytes, hlocate⟩
      · cases hread
      · cases hread

theorem Scanner.files_of_readSource (s : Scanner) {w : Workspace} {p : Path} {text : String}
    (h : readSource w p = .ok text) : s.files w [p] = .ok [p] := by
  obtain ⟨place, bytes, hlocate⟩ := locate_of_readSource h
  rw [files, List.mapM_cons, filesOf, hlocate]
  rfl

/-- What a scanner is asked for. -/
inductive Call where
  | scan (paths : List Path)
  | file (path : Path)

namespace Call

def run (s : Scanner) : Call → Scanning Extraction
  | scan paths => s.scan paths
  | file path => s.scanFile path

def paths : Call → List Path
  | scan paths => paths
  | file path => [path]

/-- What a call is answered without a cache. -/
def outcome (s : Scanner) (w : Workspace) : Call → Except ScanFault Extraction
  | scan paths => s.outcome w paths
  | file path => s.fileOutcome w path

/-- The working directory is there, paths are spelled out, and the texts read are among the sources. -/
structure Within (c : Course) (s : Scanner) (w : Workspace) (call : Call) : Prop where
  directory : w.isDirectory .here
  spelled : ∀ p ∈ call.paths, ∃ text, p = .ofText text
  sources : ∀ files, s.files w call.paths = .ok files → ∀ p ∈ files, ∀ text,
    Scanner.readSource w p = .ok text → text ∈ c.sources

variable {c : Course} {s : Scanner} {w : Workspace} {call : Call}

theorem Within.reads (h : call.Within c s w) {files : List Path}
    (hfiles : s.files w call.paths = .ok files) {p : Path} (hp : p ∈ files) (text : String)
    (htext : Scanner.readSource w p = .ok text) : text ∈ c.sources ∧ s.ReadsByKey w p := by
  refine ⟨h.sources files hfiles p hp text htext, ?_⟩
  rw [Scanner.files] at hfiles
  cases hfound : call.paths.mapM (s.filesOf w) with
  | error fault => rw [hfound] at hfiles; nomatch hfiles
  | ok found =>
      rw [hfound] at hfiles
      obtain rfl : found.flatten = files := Except.ok.inj hfiles
      obtain ⟨group, hgroup, hp⟩ := List.mem_flatten.mp hp
      obtain ⟨q, hq, hfilesOf⟩ := Sequences.exists_of_mapM hfound hgroup
      obtain ⟨text, rfl⟩ := h.spelled q hq
      exact Scanner.readsByKey_of_filesOf h.directory hfilesOf hp

/-- A file that can be read is visited by a call for it. -/
theorem visits_file {p : Path} {text : String} (htext : Scanner.readSource w p = .ok text) :
    s.Visits w (file p).paths p :=
  ⟨[p], s.files_of_readSource htext, List.mem_cons_self⟩

/-- Without a cache a call has the outcome of its files. -/
theorem answer_of_uncached (s : Scanner) (call : Call) {σ : Session} (h : σ.cache = none) :
    (call.run s).answer σ = call.outcome s σ.workspace := by
  cases call with
  | scan paths => exact s.answer_of_uncached paths h
  | file p => exact ((s.serves_uncached σ.workspace (· = p)).scanFile_yields rfl σ ⟨rfl, h⟩).1

section
open Scanning (Ensures)
variable {P : Session → Prop}

/-- Where caches answer as the texts of files do, a call has its outcome without a cache, unless it
is a scan and the cache cannot be kept. -/
theorem ensures_of_serves {R : Except ScanFault Unit → Session → Prop}
    (h : s.Serves w P (s.Visits w call.paths)) (hkeeps : ∀ σ, P σ → R (.ok ()) σ)
    (hreport : ∀ r σ, R (.ok ()) σ → R (.ok ()) { σ with reports := r :: σ.reports })
    (hcache : ∀ files, Ensures P (s.keepCache files) R) :
    Ensures P (call.run s) fun r σ => (r = call.outcome s w ∧ R (.ok ()) σ) ∨
      ∃ paths x fault, call = scan paths ∧ call.outcome s w = .ok x ∧ r = .error fault ∧
        R (.error fault) σ := by
  cases call with
  | scan paths =>
      refine (h.scan_ensures hkeeps hreport hcache).mono (fun _ hσ => hσ) fun r σ hσ => ?_
      refine hσ.imp_right fun ⟨fault, x, hr, hx, hfault⟩ => ?_
      exact ⟨paths, x, fault, rfl, hx.symm, hr, hfault⟩
  | file p =>
      have hfile := h.mono (· = p) fun q hq text htext => by
        subst hq
        exact visits_file htext
      exact (hfile.scanFile_yields rfl).mono (fun _ hσ => hσ) fun r σ hσ =>
        .inl ⟨hσ.1, hkeeps σ hσ.2⟩

/-- Whatever caches answer, a call leaves sessions of one kind behind. -/
theorem keeps_of_accepts {Q : Session → Prop} (h : s.Accepts w P (s.Visits w call.paths))
    (hkeeps : ∀ σ, P σ → Q σ) (hreport : ∀ r σ, Q σ → Q { σ with reports := r :: σ.reports })
    (hcache : ∀ files, Ensures P (s.keepCache files) fun _ σ => Q σ) :
    Ensures P (call.run s) fun _ σ => Q σ := by
  cases call with
  | scan paths => exact h.scan_keeps hkeeps hreport hcache
  | file p =>
      have hfile := h.mono (· = p) fun q hq text htext => by
        subst hq
        exact visits_file htext
      exact (hfile.scanFile_ensures rfl).mono (fun _ hσ => hσ) fun _ σ hσ => hkeeps σ hσ.2

end

/-- The answer of a call is lost to a cache that cannot be written: an outcome in it has no text. -/
structure Lost (c : Course) (call : Call) (r : Except ScanFault Extraction) (σ : Session) :
    Prop where
  scans : ∃ paths, call = scan paths
  answer : r = .error (.notWritten .unwritable)
  outcome : ∃ cache ∈ σ.cache, ∃ key signature fingerprint x,
    c.Finds key signature fingerprint x ∧ cache.get? key signature fingerprint = some x ∧
      (Wire.ofExtraction x).isWritable = false

/-- A call has its outcome without a cache, or loses it, and leaves sound caches behind. -/
theorem run_ensures (apart : c.ToldApart) (hs : c.Admits s) (h : call.Within c s w) :
    Scanning.Ensures (c.Holds w) (call.run s) fun r σ =>
      (c.Writable w → r = call.outcome s w ∨
        (∃ x, call.outcome s w = .ok x) ∧ call.Lost c r σ) ∧ c.Holds σ.workspace σ := by
  have hserves : s.Serves w (c.Holds w) (s.Visits w call.paths) :=
    Course.serves apart hs fun _ ⟨_, hfiles, hp⟩ => h.reads hfiles hp
  refine (ensures_of_serves hserves (fun _ hσ => ⟨nofun, hσ.workspace.symm ▸ hσ⟩)
    (fun _ _ hσ => ⟨nofun, rfl, hσ.2.stored, hσ.2.cache⟩) Course.keepCache_ensures).mono
    (fun _ hσ => hσ) ?_
  rintro r σ (⟨hr, -, hσ⟩ | ⟨paths, x, fault, hcall, hx, rfl, hkept, hσ⟩)
  · exact ⟨fun _ => .inl hr, hσ⟩
  · refine ⟨fun hwritable => .inr ⟨⟨x, hx⟩, ?_⟩, hσ⟩
    obtain ⟨rfl, cache, hcache, hnone⟩ := hkept fault rfl hwritable
    exact ⟨⟨paths, hcall⟩, rfl, cache, hcache, (hσ.cache cache hcache).1.exists_unwritable hnone⟩

end Call

namespace Course
variable {c : Course}

/-- The sessions that are reached, with the scanner in use, from a workspace without a cache file. -/
inductive Reached (c : Course) : Option Scanner → Session → Prop
  | begin (w : Workspace) (stamp : String)
      (fresh : ∀ bytes, w.tree.find? c.place ≠ some (.file bytes)) :
      Reached c none ⟨w, none, stamp, []⟩
  | write {scanner : Option Scanner} {σ : Session} {p : Path} {bytes : List UInt8} {w : Workspace}
      (before : Reached c scanner σ) (apart : σ.workspace.resolve p ≠ c.place)
      (written : σ.workspace.save p bytes = .ok w) : Reached c scanner { σ with workspace := w }
  | delete {scanner : Option Scanner} {σ : Session} (p : Path) (before : Reached c scanner σ) :
      Reached c scanner { σ with workspace := σ.workspace.delete p }
  | tick {scanner : Option Scanner} {σ : Session} (stamp : String) (before : Reached c scanner σ) :
      Reached c scanner { σ with stamp }
  | create {scanner : Option Scanner} {σ σ' : Session} (settings : Settings) (useCache : Bool)
      {s : Scanner} (before : Reached c scanner σ) (cachePath : settings.cache.path = c.cachePath)
      (essence : settings.essenceText ∈ c.essences)
      (started : Scanner.start σ.workspace σ.stamp c.root settings useCache = .ok (s, σ')) :
      Reached c (some s) σ'
  | call {s : Scanner} {σ : Session} {call : Call} (before : Reached c (some s) σ)
      (within : call.Within c s σ.workspace) : Reached c (some s) ((call.run s).after σ)

/-- The cache stops no scanner from being made, if its path can be one, and answers as if there were
none, unless an answer is lost to an outcome without text. -/
structure Transparent (c : Course) (scanner : Option Scanner) (σ : Session) : Prop where
  starts : ∀ settings useCache, settings.cache.path = c.cachePath → ∀ s,
    (∃ σ', Scanner.start σ.workspace σ.stamp c.root settings useCache = .ok (s, σ')) ↔
      Scanner.make c.root settings = .ok s ∧
        (useCache && settings.cache.enabled → c.path.hasNull = false)
  answers : ∀ s ∈ scanner, ∀ call : Call, call.Within c s σ.workspace → c.Writable σ.workspace →
    ∃ bare, Scanner.start σ.workspace σ.stamp c.root s.settings false = .ok (s, bare) ∧
      ((call.run s).answer σ = (call.run s).answer bare ∨
        (∃ x, (call.run s).answer bare = .ok x) ∧
          call.Lost c ((call.run s).answer σ) ((call.run s).after σ))

theorem Holds.edit {w w' : Workspace} {σ : Session} (h : c.Holds w σ)
    (hfile : ∀ bytes, w'.tree.find? c.place = some (.file bytes) →
      w.tree.find? c.place = some (.file bytes)) : c.Holds w' { σ with workspace := w' } :=
  ⟨rfl, fun bytes hbytes => h.stored bytes (hfile bytes hbytes), h.cache⟩

theorem cachePath_eq {settings : Settings} (h : settings.cache.path = c.cachePath) :
    Scanner.cachePath c.root settings = c.path := by
  rw [Scanner.cachePath, h, path]

/-- What is on file is loaded as a sound cache. -/
theorem exists_load {w : Workspace} (h : c.Stored w) (hnull : c.path.hasNull = false) :
    ∃ cache reports, ResultCache.load w c.path = .ok (cache, reports) ∧ cache.Sound c ∧
      cache.path = some c.path := by
  cases hread : w.read c.path with
  | ok bytes =>
      have hfile := Workspace.find?_of_read hread
      rw [c.resolve_path w] at hfile
      obtain ⟨cache, hcache, text, htext, rfl⟩ := h bytes hfile
      obtain ⟨loaded, hloaded, hsound, hpath⟩ := hcache.load htext hread
      exact ⟨loaded, [], hloaded, hsound, hpath⟩
  | error e =>
      have hunread : ∀ bytes, w.read c.path ≠ .ok bytes := by
        intro bytes
        rw [hread]
        nofun
      obtain ⟨reports, hloaded⟩ := ResultCache.load_of_unread hnull hunread
      exact ⟨.empty (some c.path), reports, hloaded, .empty c _, rfl⟩

theorem exists_start {w : Workspace} {settings : Settings} {s : Scanner} (h : c.Stored w)
    (hpath : settings.cache.path = c.cachePath) (hs : Scanner.make c.root settings = .ok s)
    (stamp : String) (useCache : Bool)
    (hnull : useCache && settings.cache.enabled → c.path.hasNull = false) :
    ∃ σ, Scanner.start w stamp c.root settings useCache = .ok (s, σ) ∧ c.Holds w σ := by
  rw [Scanner.start, hs]
  dsimp only
  split
  · next huse =>
      obtain ⟨cache, reports, hload, hsound, hcache⟩ := exists_load h (hnull huse)
      rw [cachePath_eq hpath, hload]
      exact ⟨_, rfl, rfl, h, fun _ heq => Option.some.inj heq ▸ ⟨hsound, hcache⟩⟩
  · exact ⟨_, rfl, rfl, h, nofun⟩

theorem make_of_start {w : Workspace} {stamp : String} {settings : Settings} {useCache : Bool}
    {s : Scanner} {σ : Session} (h : Scanner.start w stamp c.root settings useCache = .ok (s, σ)) :
    Scanner.make c.root settings = .ok s ∧ s.settings = settings ∧
      (useCache && settings.cache.enabled → (Scanner.cachePath c.root settings).hasNull = false) := by
  have hsettings : ∀ {s}, Scanner.make c.root settings = .ok s → s.settings = settings := by
    intro s hs
    rw [Scanner.make] at hs
    cases hregistry : Registry.extend settings.known with
    | error e => rw [hregistry] at hs; cases hs
    | ok registry =>
        rw [hregistry] at hs
        rw [← Except.ok.inj hs]
  rw [Scanner.start] at h
  cases hs : Scanner.make c.root settings with
  | error kind => rw [hs] at h; cases h
  | ok made =>
      rw [hs] at h
      dsimp only at h
      split at h
      · split at h
        · cases h
        · next hload =>
            cases h
            exact ⟨rfl, hsettings hs, fun _ => ResultCache.hasNull_of_load hload⟩
      · next hunused =>
          cases h
          exact ⟨rfl, hsettings hs, fun huse => absurd huse hunused⟩

/-- Every step keeps the caches sound. -/
theorem Reached.holds (apart : c.ToldApart) {scanner : Option Scanner} {σ : Session}
    (h : c.Reached scanner σ) : c.Holds σ.workspace σ ∧ ∀ s ∈ scanner, c.Admits s := by
  induction h with
  | begin w stamp fresh =>
      exact ⟨⟨rfl, fun bytes hbytes => absurd hbytes (fresh bytes), nofun⟩, nofun⟩
  | write before hplace written ih =>
      refine ⟨ih.1.edit fun bytes hbytes => ?_, ih.2⟩
      rcases Workspace.file_of_save written hbytes with ⟨heq, -⟩ | hold
      · exact absurd heq.symm hplace
      · exact hold
  | delete p before ih =>
      exact ⟨ih.1.edit fun bytes => Workspace.file_of_delete, ih.2⟩
  | tick stamp before ih => exact ⟨⟨rfl, ih.1.stored, ih.1.cache⟩, ih.2⟩
  | create settings useCache before hpath essence started ih =>
      obtain ⟨hmade, hsettings, hnull⟩ := make_of_start started
      obtain ⟨σ, hσ, hholds⟩ :=
        exists_start ih.1.stored hpath hmade _ _ (cachePath_eq hpath ▸ hnull)
      rw [hσ] at started
      cases started
      refine ⟨hholds.workspace ▸ hholds, fun s hs => ?_⟩
      obtain rfl := Option.some.inj (Option.mem_def.mp hs)
      exact ⟨hsettings ▸ hmade, hsettings ▸ hpath, hsettings ▸ essence⟩
  | call before within ih =>
      have hs := ih.2 _ rfl
      exact ⟨((Call.run_ensures apart hs within) _ ih.1).2, ih.2⟩

/-- In every session that is reached, scanners are made and answer as if there were no cache, unless
an answer is lost to an outcome without text. -/
theorem Reached.transparent {scanner : Option Scanner} {σ : Session} (h : c.Reached scanner σ)
    (apart : c.ToldApart) : c.Transparent scanner σ := by
  obtain ⟨hσ, hscanner⟩ := h.holds apart
  refine ⟨fun settings useCache hpath s => ⟨fun ⟨σ', hstart⟩ => ?_, fun ⟨hs, hnull⟩ => ?_⟩,
    fun s hs call hcall hwritable => ?_⟩
  · obtain ⟨hmade, -, hnull⟩ := make_of_start hstart
    exact ⟨hmade, cachePath_eq hpath ▸ hnull⟩
  · obtain ⟨σ', hstart, -⟩ := exists_start hσ.stored hpath hs σ.stamp useCache hnull
    exact ⟨σ', hstart⟩
  · have hadmits := hscanner s hs
    have hstart : Scanner.start σ.workspace σ.stamp c.root s.settings false =
        .ok (s, ⟨σ.workspace, none, σ.stamp, []⟩) := by
      rw [Scanner.start, hadmits.made]
      rfl
    have hbare : (call.run s).answer ⟨σ.workspace, none, σ.stamp, []⟩ =
        call.outcome s σ.workspace := Call.answer_of_uncached s call rfl
    refine ⟨_, hstart, ?_⟩
    rw [hbare]
    exact ((Call.run_ensures apart hadmits hcall) σ hσ).1 hwritable

/-- The first text of a file, with a member that is always there. -/
def requiredText : String := "export class A extends React.Component<{a:string}> {}"

def optionalText : String := "export class A extends React.Component<{a?:string}> {}"

/-- A file is scanned, and then its text is replaced. -/
def edited : Course where
  root := []
  cachePath := CacheSettings.default.path
  sources := {requiredText, optionalText}
  essences := {Settings.default.essenceText}

def editedWorkspace : Workspace :=
  ⟨.directory [("src", .directory [("A.tsx", .file requiredText.toUTF8.toList)])], []⟩

def editedFile : Path := .ofText "src/A.tsx"

def editedScanner : Scanner :=
  ⟨.default, [], Registry.builtin, [], Settings.default.signature⟩

def scanOfSources : Call := .scan [.ofText "src"]

/-- The session after the scan of the first text. -/
def beforeEdit : Session :=
  (scanOfSources.run editedScanner).after ⟨editedWorkspace, some (.empty (some edited.path)), "", []⟩

theorem sources_within : scanOfSources.Within edited editedScanner editedWorkspace := by
  have hfound : editedScanner.files editedWorkspace scanOfSources.paths = .ok [editedFile] := by
    decide +kernel
  have hread : Scanner.readSource editedWorkspace editedFile = .ok requiredText := by decide +kernel
  refine ⟨by decide, fun p hp => ⟨"src", List.mem_singleton.mp hp⟩, ?_⟩
  intro files hfiles p hp text htext
  obtain rfl : [editedFile] = files := Except.ok.inj (hfound.symm.trans hfiles)
  rw [List.mem_singleton.mp hp, hread] at htext
  exact .inl (Except.ok.inj htext).symm

/-- The cache still has the outcome of the first text when the second one is asked for. -/
theorem edited_transparent : edited.ToldApart ∧ ∃ w,
    beforeEdit.workspace.save editedFile optionalText.toUTF8.toList = .ok w ∧
    edited.Reached (some editedScanner) { beforeEdit with workspace := w } ∧
    edited.Transparent (some editedScanner) { beforeEdit with workspace := w } := by
  have apart : edited.ToldApart := by
    have hdiffer : Sha256.ofText requiredText ≠ Sha256.ofText optionalText := by decide +kernel
    refine ⟨?_, Set.injOn_singleton _ _⟩
    rintro text (rfl | rfl) text' (rfl | rfl) heq
    · rfl
    · exact absurd heq hdiffer
    · exact absurd heq.symm hdiffer
    · rfl
  have hsaved : (beforeEdit.workspace.save editedFile optionalText.toUTF8.toList).isOk := by
    decide +kernel
  have hplace : beforeEdit.workspace.resolve editedFile ≠ edited.place := by decide +kernel
  have hstart := (Reached.begin (c := edited) editedWorkspace "" nofun).create .default true rfl rfl
    (rfl : Scanner.start _ _ _ _ _ = .ok (editedScanner, _))
  have hscan := hstart.call sources_within
  cases hw : beforeEdit.workspace.save editedFile optionalText.toUTF8.toList with
  | error e => rw [hw] at hsaved; nomatch hsaved
  | ok w =>
      have hedited := hscan.write hplace hw
      exact ⟨apart, w, rfl, hedited, hedited.transparent apart⟩

end Course

end PropSchema
