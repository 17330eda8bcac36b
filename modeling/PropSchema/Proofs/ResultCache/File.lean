import PropSchema.Proofs.FileTree
import PropSchema.Proofs.Json.Printable
import PropSchema.Proofs.ResultCache.Entry
/-!
A cache and its file. A cache whose entries are whole is read back from what is written for it:
every key with its entry, the fields of the entry in order, and nothing else. Nothing is written for
a cache with an integer of too many digits, and no file is changed then.
-/
namespace PropSchema
open Json (Distinct)

namespace ResultCache
variable {cache : ResultCache} {w : Workspace} {path : Path}

/-- The entries as the object that the file has for them. -/
def listing (cache : ResultCache) : List (String × Json) :=
  cache.entries.map fun entry => (entry.1, .obj entry.2)

/-- The cache that the text of this one is read as. -/
def reread (cache : ResultCache) (path : Path) : ResultCache :=
  ⟨some path, entriesOf cache.toJson.sorted, false⟩

/-- No key has two entries, and all are whole. -/
structure Whole (cache : ResultCache) : Prop where
  names : (Entries.keys cache.entries).Nodup
  entries : ∀ key entry, (key, entry) ∈ cache.entries → entry.Whole

theorem toJson_eq (cache : ResultCache) :
    cache.toJson = .obj [("version", .int version), ("entries", .obj cache.listing)] := rfl

theorem isWritable_of_text? {text : String} (h : cache.text? = some text) :
    cache.toJson.isWritable = true := by
  rw [text?, Json.renderSorted] at h
  split at h
  · assumption
  · cases h

/-- A cache without text has an entry without text. -/
theorem exists_unwritable (hnone : cache.text? = none) :
    ∃ key entry, (key, entry) ∈ cache.entries ∧ (Json.obj entry).isWritable = false := by
  have htext : cache.toJson.isWritable = false := by
    rw [text?, Json.renderSorted] at hnone
    split at hnone
    · cases hnone
    · next hnot => exact eq_false_of_ne_true hnot
  have hlisting : Json.fieldsWritable cache.listing ≠ true := by
    intro hlisting
    have hversion : (Json.int version).isWritable = true := by decide +kernel
    rw [toJson_eq, Json.isWritable, Json.fieldsWritable, Json.fieldsWritable, hversion,
      Json.isWritable, hlisting] at htext
    cases htext
  rw [Ne, Json.fieldsWritable_iff] at hlisting
  push Not at hlisting
  obtain ⟨field, hfield, hnot⟩ := hlisting
  obtain ⟨⟨key, entry⟩, hentry, rfl⟩ := List.mem_map.mp hfield
  exact ⟨key, entry, hentry, eq_false_of_ne_true hnot⟩

namespace Whole

theorem names_listing (h : cache.Whole) : (Entries.keys cache.listing).Nodup := by
  rw [Entries.keys, listing, List.map_map]
  exact h.names

theorem distinct_listing (h : cache.Whole) : Distinct (.obj cache.listing) := by
  refine .obj h.names_listing fun field hfield => ?_
  obtain ⟨entry, hmem, rfl⟩ := List.mem_map.mp hfield
  exact (h.entries _ _ hmem).distinct

theorem distinct_toJson (h : cache.Whole) : Distinct cache.toJson := by
  have hnames : ["version", "entries"].Nodup := by decide
  refine .obj hnames ?_
  simp only [List.forall_mem_cons]
  exact ⟨.int _, h.distinct_listing, nofun⟩

/-- The entries of the file are all those of the cache, in order. -/
theorem listing_reread (h : cache.Whole) (path : Path) :
    (cache.reread path).listing = Json.ordered cache.listing := by
  have hversion : cache.toJson.sorted.field? "version" = some (.int version) := by
    rw [h.distinct_toJson.field?_sorted]
    rfl
  have hentries : cache.toJson.sorted.field? "entries" =
      some (.obj (Json.ordered cache.listing)) := by
    rw [← Json.sorted_obj]
    exact Wire.field_sorted h.distinct_toJson rfl
  have hcurrent : isVersion (.int version) = true := by decide
  have hkept : ∀ field ∈ Json.ordered cache.listing,
      ((CacheEntry.ofJson? field.2).map (field.1, ·)).map
        (fun entry => (entry.1, Json.obj entry.2)) = some field := by
    intro field hfield
    obtain ⟨field, hmem, rfl⟩ := List.mem_map.mp ((Json.ordered_perm _).mem_iff.mp hfield)
    obtain ⟨entry, hentry, rfl⟩ := List.mem_map.mp hmem
    rw [(h.entries _ _ hentry).ofJson?_sorted, Json.sorted_obj]
    rfl
  rw [listing, reread, entriesOf, hversion, hentries]
  dsimp only
  rw [if_pos hcurrent, List.map_filterMap, List.filterMap_congr hkept, List.filterMap_some]

/-- Under each key the file has the entry of the cache, with its fields in order. -/
theorem lookup_reread (h : cache.Whole) (path : Path) (key : String) :
    (cache.reread path).entries.lookup key = (cache.entries.lookup key).map Json.ordered := by
  have hobj : Function.Injective (Option.map Json.obj) :=
    Option.map_injective fun _ _ => Json.obj.inj
  apply hobj
  have hlookup : ∀ c : ResultCache, (c.entries.lookup key).map .obj = c.listing.lookup key :=
    fun c => (Entries.lookup_map _ _ _).symm
  rw [hlookup, h.listing_reread, Json.lookup_ordered h.names_listing, ← hlookup, Option.map_map,
    Option.map_map]
  exact congrArg (Option.map · _) (funext fun entry => Json.sorted_obj entry)

theorem names_reread (h : cache.Whole) (path : Path) :
    (Entries.keys (cache.reread path).entries).Nodup := by
  have hkeys : ∀ c : ResultCache, Entries.keys c.listing = Entries.keys c.entries := by
    intro c
    rw [listing, Entries.keys, List.map_map]
    rfl
  rw [← hkeys, h.listing_reread]
  exact Json.nodup_ordered h.names_listing

/-- The cache that is read back has the same value, but for the order of fields. -/
theorem sorted_reread (h : cache.Whole) (path : Path) :
    (cache.reread path).toJson.sorted = cache.toJson.sorted := by
  have hlisting : (Json.obj (Json.ordered cache.listing)).sorted =
      (Json.obj cache.listing).sorted := by
    rw [← Json.sorted_obj, h.distinct_listing.sorted_sorted]
  have hvalues : ∀ value value' : Json, value.sorted = value'.sorted →
      (Json.obj [("version", .int version), ("entries", value)]).sorted =
        (Json.obj [("version", .int version), ("entries", value')]).sorted := by
    intro value value' heq
    simp only [Json.sorted_obj, Json.ordered, List.map_cons, heq]
  rw [toJson_eq, h.listing_reread, toJson_eq, hvalues _ _ hlisting]

/-- A file that has the text of a cache is loaded without complaint. -/
theorem load (h : cache.Whole) {text : String} (htext : cache.text? = some text)
    (hread : w.read path = .ok text.toUTF8.toList) :
    ResultCache.load w path = .ok (cache.reread path, []) := by
  rw [text?, h.distinct_toJson.renderSorted_eq] at htext
  have hbytes : Utf8.readText text.toUTF8.toList = .ok text :=
    h.distinct_toJson.sorted.readText_render htext
  have hvalue : Json.read text = .ok cache.toJson.sorted :=
    h.distinct_toJson.sorted.read_render htext
  rw [ResultCache.load, hread]
  dsimp only
  rw [hbytes]
  dsimp only
  rw [ofText, hvalue]
  rfl

end Whole

theorem load_nullByte (h : path.hasNull = true) : ResultCache.load w path = .error .nullByte := by
  rw [ResultCache.load, Workspace.read_nullByte h]

theorem hasNull_of_load {loaded : ResultCache × List Report}
    (h : ResultCache.load w path = .ok loaded) : path.hasNull = false := by
  refine eq_false_of_ne_true fun hnull => ?_
  rw [load_nullByte hnull] at h
  cases h

/-- Where no file can be read, an empty cache is loaded. -/
theorem load_of_unread (hnull : path.hasNull = false) (h : ∀ bytes, w.read path ≠ .ok bytes) :
    ∃ reports, ResultCache.load w path = .ok (.empty (some path), reports) := by
  rw [ResultCache.load]
  cases hread : w.read path with
  | ok bytes => exact absurd hread (h bytes)
  | error e =>
      have hobstacle := Workspace.obstacle_of_read hnull hread
      obtain ⟨obstacle, p⟩ := e
      cases obstacle with
      | nullByte => exact absurd rfl hobstacle
      | _ => exact ⟨_, rfl⟩

/-- What is loaded depends on the one file alone. -/
theorem load_of_same {w' : Workspace} {reports : List Report}
    (same : ∀ bytes, w'.read path = .ok bytes ↔ w.read path = .ok bytes)
    (h : load w path = .ok (cache, reports)) :
    ∃ reports', load w' path = .ok (cache, reports') := by
  cases hread : w.read path with
  | ok bytes =>
      rw [load, hread] at h
      rw [load, (same bytes).mpr hread]
      exact ⟨reports, h⟩
  | error e =>
      have hunread : ∀ bytes, w.read path ≠ .ok bytes := fun bytes hok => by
        rw [hread] at hok
        cases hok
      have hnull := hasNull_of_load h
      obtain ⟨empty, hempty⟩ := load_of_unread hnull hunread
      obtain ⟨rfl, -⟩ := Prod.mk.inj (Except.ok.inj (hempty.symm.trans h))
      exact load_of_unread hnull fun bytes hok => hunread bytes ((same bytes).mp hok)

/-- What becomes of a cache and of the files when it is to be written. -/
inductive Persisted (w : Workspace) (cache : ResultCache) :
    Except PersistFault ResultCache → Workspace → Prop
  | clean (h : ∀ path, cache.path = some path → cache.isDirty = false) :
      Persisted w cache (.ok cache) w
  | written {path : Path} {text : String} {w' : Workspace} (path_eq : cache.path = some path)
      (dirty : cache.isDirty = true) (text_eq : cache.text? = some text)
      (saved : w.save path text.toUTF8.toList = .ok w') :
      Persisted w cache (.ok { cache with isDirty := false }) w'
  | obstructed {path : Path} {bytes : List UInt8} {e : FileError} {w' : Workspace}
      (path_eq : cache.path = some path) (dirty : cache.isDirty = true)
      (failed : w.save path bytes = .error e) (same : w.SameFiles w') :
      Persisted w cache (.error (.file e)) w'
  | unwritable {w' : Workspace} (dirty : cache.isDirty = true) (noText : cache.text? = none)
      (same : w.SameFiles w') : Persisted w cache (.error .unwritable) w'

theorem persisted (w : Workspace) (cache : ResultCache) :
    Persisted w cache (persist w cache).1 (persist w cache).2 := by
  rw [persist]
  split
  · next path hpath hdirty =>
      cases hmade : w.makeDirectories path.parent with
      | error e =>
          have hfailed : w.save path [] = .error e := by rw [Workspace.save, hmade]; rfl
          exact .obstructed hpath hdirty hfailed (.refl w)
      | ok made =>
          have hsame := Workspace.sameFiles_of_makeDirectories hmade
          have hsave : ∀ bytes, w.save path bytes = made.write path bytes := by
            intro bytes
            rw [Workspace.save, hmade]
            rfl
          dsimp only
          cases htext : cache.text? with
          | none => exact .unwritable hdirty htext hsame
          | some text =>
              dsimp only
              cases hwrite : made.write path text.toUTF8.toList with
              | error e => exact .obstructed hpath hdirty ((hsave _).trans hwrite) hsame
              | ok w' => exact .written hpath hdirty htext ((hsave _).trans hwrite)
  · next hclean =>
      exact .clean fun path hpath => eq_false_of_ne_true fun hdirty => hclean path hpath hdirty

/-- A cache that is not written changes no file. -/
theorem sameFiles_of_persist {w' : Workspace} {fault : PersistFault}
    (h : persist w cache = (.error fault, w')) : w.SameFiles w' := by
  have hends := cache.persisted w
  rw [h] at hends
  cases hends with
  | obstructed _ _ _ same => exact same
  | unwritable _ _ same => exact same

/-- Where any file can be saved, a cache is written unless it has no text. -/
theorem persist_of_save (hpath : cache.path = some path)
    (hsave : ∀ bytes, ∃ w', w.save path bytes = .ok w') :
    (∃ cache', (persist w cache).1 = .ok cache') ∨
      (persist w cache).1 = .error .unwritable ∧ cache.text? = none := by
  have hends := cache.persisted w
  generalize (persist w cache).1 = r, (persist w cache).2 = w' at hends
  cases hends with
  | clean => exact .inl ⟨_, rfl⟩
  | written => exact .inl ⟨_, rfl⟩
  | unwritable _ noText _ => exact .inr ⟨rfl, noText⟩
  | @obstructed path' bytes e _ path_eq _ failed _ =>
      obtain rfl := Option.some.inj (hpath.symm.trans path_eq)
      obtain ⟨saved, hok⟩ := hsave bytes
      cases failed.symm.trans hok

end ResultCache

end PropSchema
