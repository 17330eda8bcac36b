import PropSchema.FileTree.Sources
import PropSchema.ResultCache
import PropSchema.Scan
import PropSchema.Settings
/-!
Scanning the files of a project. A scanner takes its registry, its exclusions and the signature of
its settings when it is made; what it finds in each file goes to the cache, and the outcomes of all
files are merged in the order in which they are visited.
-/
namespace PropSchema

structure Scanner where
  settings : Settings
  /-- The directory that cache keys are relative to. -/
  root : Place
  registry : Registry
  exclusions : List Exclusion
  signature : String
  deriving Inhabited

/-- What a scanner works on and changes. -/
structure Session where
  workspace : Workspace
  cache : Option ResultCache
  /-- The time that new cache entries bear. -/
  stamp : String
  /-- Reports, the latest first. -/
  reports : List Report
  deriving Inhabited

/-- Why a scan fails. -/
inductive ScanFault where
  | notFound (path : Path)
  | unreadable (path : Path) (reason : String)
  /-- The path has a null byte. -/
  | nullByte
  | failed (fault : PassFault)
  | notWritten (fault : PersistFault)
  deriving DecidableEq

def ScanFault.message : ScanFault → String
  | .notFound path => "Source path not found: " ++ path.text
  | .unreadable path reason => "Cannot read " ++ path.text ++ ": " ++ reason
  | .nullByte => Obstacle.nullText
  | .failed fault => fault.message
  | .notWritten fault => fault.message

/-- A step of scanning, which changes the session also when it fails. -/
abbrev Scanning := ExceptT ScanFault (StateM Session)

namespace Scanning

def report (r : Report) : Scanning Unit := modify fun s => { s with reports := r :: s.reports }

def modifyCache (f : ResultCache → ResultCache) : Scanning Unit :=
  modify fun s => { s with cache := s.cache.map f }

end Scanning

/-- Why a scanner cannot be made. -/
inductive ScannerFault where
  | unknownKind (kind : UnknownKind)
  | cache (fault : CacheFault)

namespace Scanner

/-- The path of the cache file. -/
def cachePath (root : Place) (settings : Settings) : Path :=
  (Path.ofPlace root).join (.ofText settings.cache.path)

def make (root : Place) (settings : Settings) : Except UnknownKind Scanner := do
  pure ⟨settings, root, ← Registry.extend settings.known, Exclusion.ofPatterns settings.excluded,
    settings.signature⟩

/-- A scanner of a workspace with its session, which begins by loading the cache if it is used. -/
def start (w : Workspace) (stamp : String) (root : Place) (settings : Settings) (useCache : Bool) :
    Except ScannerFault (Scanner × Session) :=
  match make root settings with
  | .error kind => .error (.unknownKind kind)
  | .ok scanner =>
    if useCache && settings.cache.enabled then
      match ResultCache.load w (cachePath root settings) with
      | .error fault => .error (.cache fault)
      | .ok (cache, reports) => .ok (scanner, ⟨w, some cache, stamp, reports⟩)
    else .ok (scanner, ⟨w, none, stamp, []⟩)

/-- What components are found by: the registry of the scanner under the settings as they are. -/
def rules (s : Scanner) : ComponentRules :=
  { registry := s.registry, policy := s.settings.policy, markers := s.settings.markers }

/-- The key of a file: its place, relative to the root if it is in it. -/
def key (s : Scanner) (w : Workspace) (p : Path) : String := Path.shown s.root (w.resolve p)

/-- The files of a path: those of a directory, or the file itself. -/
def filesOf (s : Scanner) (w : Workspace) (p : Path) : Except ScanFault (List Path) :=
  match w.locate p with
  | .ok (_, .directory entries) =>
    .ok ((FileTree.sources s.exclusions (.directory entries)).map fun parts => p.join ⟨"", parts⟩)
  | .ok (_, .file _) => .ok [p]
  | .error _ => .error (.notFound p)

/-- The files of several paths, in their order. -/
def files (s : Scanner) (w : Workspace) (paths : List Path) : Except ScanFault (List Path) := do
  pure (← paths.mapM (s.filesOf w)).flatten

/-- The text of a file. -/
def readSource (w : Workspace) (p : Path) : Except ScanFault String :=
  match w.read p with
  | .error ⟨.nullByte, _⟩ => .error .nullByte
  | .error e => .error (.unreadable p e.message)
  | .ok bytes =>
    match Utf8.readText bytes with
    | .error fault => .error (.unreadable p fault.message)
    | .ok text => .ok text

/-- What the cache has for a key, if it can be decoded. -/
def cached (s : Scanner) (key fingerprint : String) : Scanning (Option Extraction) := do
  match (← get).cache with
  | none => pure none
  | some cache =>
    match cache.find key s.signature fingerprint with
    | .ok found => pure found
    | .error fault =>
      Scanning.report (.unreadableEntry key fault)
      pure none

/-- The outcome of a text that stands in a file. -/
def extract (s : Scanner) (p : Path) (text : String) : Scanning Extraction := do
  let scan := Scan.ofText s.rules p.text text
  scan.notes.forM fun note => Scanning.report (.noted note)
  match scan.outcome with
  | .ok x => pure x
  | .error fault => throw (.failed fault)

/-- The outcome of a file, from the cache if it is there. -/
def scanFile (s : Scanner) (p : Path) : Scanning Extraction := do
  let session ← get
  let text ← readSource session.workspace p
  let key := s.key session.workspace p
  let fingerprint := Sha256.ofText text
  match ← s.cached key fingerprint with
  | some x =>
    Scanning.report (.reused key)
    pure x
  | none =>
    Scanning.report (.scanning key p)
    let x ← s.extract p text
    Scanning.modifyCache fun cache => cache.store session.stamp key s.signature fingerprint x
    pure x

/-- The keys of a cache whose files are there. -/
def liveKeys (s : Scanner) (w : Workspace) (cache : ResultCache) : List String :=
  cache.keys.filter fun key => w.isFile ((Path.ofPlace s.root).join (.ofText key))

/-- Drops the entries of files that are gone, and writes the cache. -/
def keepCache (s : Scanner) (files : List Path) : Scanning Unit := do
  let session ← get
  match session.cache with
  | none => pure ()
  | some cache =>
    let w := session.workspace
    let pruned := cache.prune (files.map (s.key w) ++ s.liveKeys w cache)
    let (outcome, w) := ResultCache.persist w pruned
    match outcome with
    | .ok cache => set { session with workspace := w, cache := some cache }
    | .error fault =>
      set { session with workspace := w, cache := some pruned }
      throw (.notWritten fault)

/-- The merged outcome of all files of some paths; the cache is written if none of them fails. -/
def scan (s : Scanner) (paths : List Path) : Scanning Extraction := do
  let files ← s.files (← get).workspace paths
  let x ← files.foldlM (fun merged p => do pure (merged.merge (← s.scanFile p))) Extraction.empty
  s.keepCache files
  Scanning.report (.found x.components.length files.length)
  pure x

end Scanner

end PropSchema
