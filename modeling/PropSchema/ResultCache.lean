import PropSchema.Entries
import PropSchema.Json.Printer
import PropSchema.Json.Reader
import PropSchema.Report
import PropSchema.Text.Utf8
import PropSchema.Workspace
/-!
A cache of outcomes by the keys of their files. An entry answers only for the signature of the
settings and the fingerprint of the text that it was stored with. Entries of a cache file are kept
as they are, so what cannot be decoded is told when it is asked for, and written back unchanged. An
integer of too many digits is neither read from the file nor written to it.
-/
namespace PropSchema

/-- An entry as the cache file has it: the fields of an object. -/
abbrev CacheEntry := List (String × Json)

namespace CacheEntry

def make (stamp signature fingerprint : String) (x : Extraction) : CacheEntry :=
  [("signature", .str signature), ("fingerprint", .str fingerprint),
    ("result", Wire.ofExtraction x), ("updated_at", .str stamp)]

/-- Whether a field is a text. -/
def hasText (entry : CacheEntry) (name text : String) : Bool :=
  match entry.lookup name with
  | some (.str s) => s == text
  | _ => false

/-- The outcome of an entry for a signature and a fingerprint, if it is there and can be decoded. -/
def outcome (entry : CacheEntry) (signature fingerprint : String) :
    Except WireFault (Option Extraction) :=
  if entry.hasText "signature" signature && entry.hasText "fingerprint" fingerprint then
    match entry.lookup "result" with
    | some (.obj fields) => do pure (some (← Wire.toExtraction (.obj fields)))
    | _ => .ok none
  else .ok none

/-- The entry that a value of the cache file is, which needs all its fields. -/
def ofJson? : Json → Option CacheEntry
  | .obj fields =>
    if ["signature", "fingerprint", "result"].all fun name => (fields.lookup name).isSome then
      some fields
    else none
  | _ => none

end CacheEntry

structure ResultCache where
  /-- The file of the cache; a cache without one is never written. -/
  path : Option Path
  entries : List (String × CacheEntry)
  /-- Whether the entries differ from what the file has. -/
  isDirty : Bool
  deriving Inhabited

/-- Why there is no cache for a path: its file is no text or has an integer of so many digits, or
the path has a null byte. -/
inductive CacheFault where
  | notText (fault : Utf8.Fault)
  | tooLong (digits : Nat)
  | nullByte
  deriving DecidableEq

def CacheFault.message : CacheFault → String
  | .notText fault => fault.message
  | .tooLong digits => Numeral.tooLongText digits
  | .nullByte => Obstacle.nullText

/-- Why a cache cannot be written. -/
inductive PersistFault where
  | file (error : FileError)
  /-- An entry has an integer of too many digits. -/
  | unwritable
  deriving DecidableEq

def PersistFault.message : PersistFault → String
  | .file e => e.message
  | .unwritable => Numeral.unwritableText

namespace ResultCache

def empty (path : Option Path) : ResultCache := ⟨path, [], false⟩

def version : Int := 1

/-- Numbers equal to the version will do, and so does the truth value that counts as one. -/
def isVersion : Json → Bool
  | .int n => n == version
  | .float x => x.sameNumber .one
  | .bool b => b
  | _ => false

/-- The entries of the value of a cache file, none if it is of another version or shape. -/
def entriesOf (value : Json) : List (String × CacheEntry) :=
  match value.field? "version", value.field? "entries" with
  | some v, some (.obj fields) =>
    if isVersion v then
      fields.filterMap fun (key, value) => (CacheEntry.ofJson? value).map (key, ·)
    else []
  | _, _ => []

/-- The cache of a file's text, empty and with a report if that is no JSON text. -/
def ofText (path : Path) (text : String) : Except CacheFault (ResultCache × List Report) :=
  match Json.read text with
  | .ok value => .ok (⟨some path, entriesOf value, false⟩, [])
  | .error ⟨.tooLong digits, _⟩ => .error (.tooLong digits)
  | .error e => .ok (.empty (some path), [.unreadableCache path (e.message text.toList)])

/-- The cache of a path, empty if there is no file. -/
def load (w : Workspace) (path : Path) : Except CacheFault (ResultCache × List Report) :=
  match w.read path with
  | .ok bytes =>
    match Utf8.readText bytes with
    | .ok text => ofText path text
    | .error fault => .error (.notText fault)
  | .error ⟨.missing, _⟩ => .ok (.empty (some path), [])
  | .error ⟨.nullByte, _⟩ => .error .nullByte
  | .error e => .ok (.empty (some path), [.unreadableCache path e.message])

def keys (c : ResultCache) : List String := Entries.keys c.entries

/-- What the cache knows for a key, a signature and a fingerprint. -/
def find (c : ResultCache) (key signature fingerprint : String) :
    Except WireFault (Option Extraction) :=
  match c.entries.lookup key with
  | some entry => entry.outcome signature fingerprint
  | none => .ok none

def get? (c : ResultCache) (key signature fingerprint : String) : Option Extraction :=
  match c.find key signature fingerprint with
  | .ok found => found
  | .error _ => none

def store (c : ResultCache) (stamp key signature fingerprint : String) (x : Extraction) :
    ResultCache :=
  { c with
    entries := Entries.put key (.make stamp signature fingerprint x) c.entries
    isDirty := true }

/-- The cache without the entries of other keys. -/
def prune (c : ResultCache) (keep : List String) : ResultCache :=
  let kept := c.entries.filter fun (key, _) => keep.contains key
  { c with entries := kept, isDirty := c.isDirty || kept.length != c.entries.length }

/-- The value of the cache file. -/
def toJson (c : ResultCache) : Json :=
  .obj [("version", .int version), ("entries", .obj (c.entries.map fun (key, e) => (key, .obj e)))]

def text? (c : ResultCache) : Option String := c.toJson.renderSorted (some 2)

/-- Writes the cache to its file if it has one that differs. The directory of the file is made
before there is a text to write, so it is there also when there is none. -/
def persist (w : Workspace) (c : ResultCache) : Except PersistFault ResultCache × Workspace :=
  match c.path, c.isDirty with
  | some path, true =>
    match w.makeDirectories path.parent with
    | .error e => (.error (.file e), w)
    | .ok w =>
      match c.text? with
      | none => (.error .unwritable, w)
      | some text =>
        match w.write path text.toUTF8.toList with
        | .error e => (.error (.file e), w)
        | .ok w => (.ok { c with isDirty := false }, w)
  | _, _ => (.ok c, w)

end ResultCache

end PropSchema
