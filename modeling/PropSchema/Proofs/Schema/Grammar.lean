import PropSchema.Proofs.Schema.Reading
/-!
The grammar of the wire form, told apart from the reader: the fields of each part of it and what
stands in them. The reader accepts exactly the values that the grammar describes and whose indices
all point into the table they come with, and it reads each as the schema that is written as the
value itself, without the fields that the grammar does not know.
-/
namespace PropSchema

namespace Wire

/-- The parts that values of the wire form are made of. -/
inductive Part where
  | text
  | flag
  | index
  | literal
  /-- The name of a record, which may be missing. -/
  | name
  | list (of : Part)
  | propType
  | spec
  | member
  | record
  | component
  | extraction

/-- The kinds of prop types, each with its fields. -/
def variants : List (String × List (String × Part)) :=
  [("any", []), ("void", []), ("string", []), ("number", []), ("boolean", []), ("event", []),
    ("reactElement", []), ("reactNode", []), ("literal", [("value", .literal)]),
    ("union", [("options", .list .propType)]), ("array", [("elementPropType", .propType)]),
    ("tuple", [("elementPropTypes", .list .propType)]), ("ref", [("refIndex", .index)]),
    ("partial", [("refIndex", .index)]),
    ("fn", [("argTypes", .list .spec), ("returnType", .spec)])]

namespace Part

/-- The fields of an object; those of a prop type go by its kind. -/
def fields (part : Part) (j : Json) : Option (List (String × Part)) :=
  match part with
  | .propType => match j.field? "kind" with
    | some (.str kind) => (variants.lookup kind).map (("kind", .text) :: ·)
    | _ => none
  | .spec => some [("propType", .propType), ("isNullable", .flag)]
  | .member => some [("name", .text), ("propType", .propType), ("isNullable", .flag)]
  | .record => some [("name", .name), ("members", .list .member)]
  | .component => some [("name", .text), ("propsRefIndex", .index)]
  | .extraction => some [("components", .list .component), ("refs", .list .record)]
  | _ => none

/-- What stands in a field of an object; a name that is missing is null. -/
def at? (part : Part) (key : String) (j : Json) : Option Json :=
  match part with
  | .name => some ((j.field? key).getD .null)
  | _ => j.field? key

end Part

/-- A value that the grammar describes. Objects may have further fields. -/
inductive Fits : Part → Json → Prop
  | text (s : String) : Fits .text (.str s)
  | flag (b : Bool) : Fits .flag (.bool b)
  | index (n : Int) : Fits .index (.int n)
  | literalText (s : String) : Fits .literal (.str s)
  | literalInteger (n : Int) : Fits .literal (.int n)
  | literalNumber (x : Binary64) : Fits .literal (.float x)
  | literalFlag (b : Bool) : Fits .literal (.bool b)
  | anonymous : Fits .name .null
  | named (s : String) : Fits .name (.str s)
  | list {part : Part} {items : List Json} (fit : ∀ item ∈ items, Fits part item) :
      Fits (.list part) (.arr items)
  | object {part : Part} {j : Json} {fs : List (String × Part)} (fields : part.fields j = some fs)
      (present : ∀ f ∈ fs, ∃ value, f.2.at? f.1 j = some value)
      (fit : ∀ f ∈ fs, ∀ value, f.2.at? f.1 j = some value → Fits f.2 value) : Fits part j

/-- An index that stands somewhere in a value, where the grammar has one. -/
inductive Occurs : Part → Json → Int → Prop
  | here (i : Int) : Occurs .index (.int i) i
  | item {part : Part} {items : List Json} {item : Json} {i : Int} (mem : item ∈ items)
      (inside : Occurs part item i) : Occurs (.list part) (.arr items) i
  | field {part : Part} {j value : Json} {fs : List (String × Part)} {f : String × Part} {i : Int}
      (fields : part.fields j = some fs) (mem : f ∈ fs) (present : f.2.at? f.1 j = some value)
      (inside : Occurs f.2 value i) : Occurs part j i

/-- A value with only the fields that the grammar knows, in its order; a name that is missing is
made null. -/
def trim (part : Part) (j : Json) : Json :=
  match part, j with
  | .list part, .arr items => .arr (items.attach.map fun ⟨item, _⟩ => trim part item)
  | part, j => match part.fields j with
    | none => j
    | some fs => .obj (fs.map fun f => (f.1, match h : j.field? f.1 with
      | none => .null
      | some value =>
        have := sizeOf_field?_lt h
        trim f.2 value))
termination_by sizeOf j

/-- The number of entries in the table of a value. -/
def tableSize (j : Json) : Nat :=
  match j.field? "refs" with
  | some (.arr items) => items.length
  | _ => 0

/-- A value of the wire form whose indices all point into its table. -/
def Matches (j : Json) : Prop :=
  Fits .extraction j ∧ ∀ i, Occurs .extraction j i → 0 ≤ i ∧ i < tableSize j

theorem trim_list (part : Part) (items : List Json) :
    trim (.list part) (.arr items) = .arr (items.map (trim part)) := by
  rw [trim]
  exact congrArg Json.arr List.attach_map_val

theorem trim_leaf {part : Part} {j : Json} (h : part.fields j = none)
    (hlist : ∀ part', part ≠ .list part') : trim part j = j := by
  rw [trim]
  · rw [h]
  · intro part' items hpart
    exact absurd hpart (hlist part')

theorem trim_object {part : Part} {j : Json} {fs : List (String × Part)}
    (h : part.fields j = some fs) :
    trim part j = .obj (fs.map fun f => (f.1, (j.field? f.1).elim .null (trim f.2))) := by
  rw [trim]
  · rw [h]
    dsimp only
    congr 1
    refine List.map_congr_left fun f _ => ?_
    congr 1
    split
    · next hnone => rw [hnone]; rfl
    · next value hsome => rw [hsome]; rfl
  · rintro part' items rfl
    nomatch h

/-- What there is to tell of a value of the wire form: that the grammar describes it, how it is
written without further fields, and which indices stand in it. -/
structure Told (part : Part) (j written : Json) (indices : List Int) : Prop where
  fits : Fits part j
  trimmed : trim part j = written
  occurs : ∀ i, Occurs part j i ↔ i ∈ indices

/-- What there is to tell of the fields of an object. -/
inductive ToldFields (j : Json) : List (String × Part) → List (String × Json) → List Int → Prop
  | nil : ToldFields j [] [] []
  | cons {f : String × Part} {fs : List (String × Part)} {written : Json}
      {entries : List (String × Json)} {indices rest : List Int} {value : Json}
      (present : f.2.at? f.1 j = some value)
      (trimmed : (j.field? f.1).elim .null (trim f.2) = written)
      (told : Told f.2 value written indices) (others : ToldFields j fs entries rest) :
      ToldFields j (f :: fs) ((f.1, written) :: entries) (indices ++ rest)

namespace ToldFields
variable {j : Json} {fs : List (String × Part)} {entries : List (String × Json)}
  {indices rest : List Int}

/-- A field that is there, as all are but names. -/
theorem field {key : String} {part : Part} {value written : Json}
    (present : j.field? key = some value) (told : Told part value written indices)
    (others : ToldFields j fs entries rest) :
    ToldFields j ((key, part) :: fs) ((key, written) :: entries) (indices ++ rest) := by
  have hat : part.at? key j = some value := by
    cases part with
    | name => rw [Part.at?, present]; rfl
    | _ => exact present
  refine .cons hat ?_ told others
  change (j.field? key).elim .null (trim part) = written
  rw [present]
  exact told.trimmed

theorem present (h : ToldFields j fs entries indices) :
    ∀ f ∈ fs, ∃ value, f.2.at? f.1 j = some value := by
  induction h with
  | nil => simp
  | cons hpresent _ _ _ ih => exact List.forall_mem_cons.mpr ⟨⟨_, hpresent⟩, ih⟩

theorem fit (h : ToldFields j fs entries indices) :
    ∀ f ∈ fs, ∀ value, f.2.at? f.1 j = some value → Fits f.2 value := by
  induction h with
  | nil => simp
  | cons hpresent _ told _ ih =>
      refine List.forall_mem_cons.mpr ⟨fun value hvalue => ?_, ih⟩
      cases hpresent.symm.trans hvalue
      exact told.fits

theorem trimmed (h : ToldFields j fs entries indices) :
    fs.map (fun f => (f.1, (j.field? f.1).elim .null (trim f.2))) = entries := by
  induction h with
  | nil => rfl
  | cons _ htrimmed _ _ ih => rw [List.map_cons, htrimmed, ih]

theorem occurs (h : ToldFields j fs entries indices) (i : Int) :
    (∃ f ∈ fs, ∃ value, f.2.at? f.1 j = some value ∧ Occurs f.2 value i) ↔ i ∈ indices := by
  induction h with
  | nil => simp
  | cons hpresent _ told _ ih =>
      rw [List.mem_append, ← ih, ← told.occurs, List.exists_mem_cons_iff, hpresent]
      simp

end ToldFields

namespace Told
variable {part : Part} {j written : Json} {indices : List Int}

/-- A part without fields and items holds no index, unless it is one. -/
theorem leaf (fit : Fits part j) (hfields : part.fields j = none) (hindex : part ≠ .index)
    (hlist : ∀ part', part ≠ .list part') : Told part j j [] := by
  refine ⟨fit, trim_leaf hfields hlist, fun i => ⟨fun h => ?_, nofun⟩⟩
  cases h with
  | here => exact absurd rfl hindex
  | item => exact absurd rfl (hlist _)
  | field fields => nomatch hfields.symm.trans fields

theorem text (s : String) : Told .text (.str s) (.str s) [] := .leaf (.text s) rfl nofun nofun

theorem flag (b : Bool) : Told .flag (.bool b) (.bool b) [] := .leaf (.flag b) rfl nofun nofun

theorem literal (value : LiteralValue) :
    Told .literal (ofLiteral value) (ofLiteral value) [] := by
  refine .leaf ?_ rfl nofun nofun
  cases value with
  | str s => exact .literalText s
  | int n => exact .literalInteger n
  | float x => exact .literalNumber x
  | bool b => exact .literalFlag b

theorem name (name : Option String) :
    Told .name (Json.ofOptionString name) (Json.ofOptionString name) [] := by
  refine .leaf ?_ rfl nofun nofun
  cases name with
  | none => exact .anonymous
  | some s => exact .named s

theorem index (n : Int) : Told .index (.int n) (.int n) [n] := by
  refine ⟨.index n, trim_leaf rfl nofun, fun i => ⟨fun h => ?_, fun h => ?_⟩⟩
  · cases h with
    | here => exact List.mem_singleton_self n
    | field fields => nomatch fields
  · rw [List.mem_singleton.mp h]
    exact .here n

theorem object {fs : List (String × Part)} {entries : List (String × Json)}
    (fields : part.fields j = some fs) (told : ToldFields j fs entries indices) :
    Told part j (.obj entries) indices := by
  refine ⟨.object fields told.present told.fit, ?_, fun i => ?_⟩
  · rw [trim_object fields, told.trimmed]
  · rw [← told.occurs i]
    constructor
    · intro h
      cases h with
      | here | item => nomatch fields
      | field fields' mem present inside =>
          cases fields.symm.trans fields'
          exact ⟨_, mem, _, present, inside⟩
    · rintro ⟨f, mem, value, present, inside⟩
      exact .field fields mem present inside

theorem list {α : Type} {of : α → Json} {indicesOf : α → List Int} {items : List Json}
    {as : List α}
    (told : List.Forall₂ (fun item a => Told part item (of a) (indicesOf a)) items as) :
    Told (.list part) (.arr items) (.arr (as.map of)) (as.flatMap indicesOf) := by
  have hfit : ∀ item ∈ items, Fits part item := by
    intro item hitem
    obtain ⟨a, -, h⟩ := Sequences.exists_of_forall₂ told.flip hitem
    exact h.fits
  have htrimmed : items.map (trim part) = as.map of := by
    induction told with
    | nil => rfl
    | cons h _ ih =>
        rw [List.map_cons, List.map_cons, h.trimmed,
          ih fun item hitem => hfit item (List.mem_cons_of_mem _ hitem)]
  refine ⟨.list hfit, by rw [trim_list, htrimmed], fun i => ⟨fun h => ?_, fun h => ?_⟩⟩
  · cases h with
    | item mem inside =>
        obtain ⟨a, ha, h⟩ := Sequences.exists_of_forall₂ told.flip mem
        exact List.mem_flatMap.mpr ⟨a, ha, (h.occurs i).mp inside⟩
    | field fields => nomatch fields
  · obtain ⟨a, ha, hi⟩ := List.mem_flatMap.mp h
    obtain ⟨item, hitem, h⟩ := Sequences.exists_of_forall₂ told ha
    exact .item hitem ((h.occurs i).mpr hi)

end Told

section Encoded

/-- The fields of a prop type, its kind before those of its variant. -/
theorem fields_of_kind {j : Json} {kind : String} {fs : List (String × Part)}
    (h : j.field? "kind" = some (.str kind)) (hlisted : variants.lookup kind = some fs) :
    Part.propType.fields j = some (("kind", .text) :: fs) := by
  simp [Part.fields, h, hlisted]

/-- What there is to tell of a prop type follows from what there is to tell of its fields. -/
theorem Told.tagged {j : Json} {kind : String} {fs : List (String × Part)}
    {entries : List (String × Json)} {indices : List Int}
    (h : j.field? "kind" = some (.str kind)) (hlisted : variants.lookup kind = some fs)
    (told : ToldFields j fs entries indices) :
    Told .propType j (Wire.tagged kind entries) indices :=
  .object (fields_of_kind h hlisted) (.field h (.text kind) told)

theorem variants_simple {name : String} {t : PropType} (h : (name, t) ∈ PropType.simple) :
    variants.lookup name = some [] ∧ ofPropType t = tagged name [] ∧ t.indices = [] := by
  simp only [PropType.simple, List.mem_cons, List.not_mem_nil, or_false, Prod.mk.injEq] at h
  rcases h with ⟨rfl, rfl⟩ | ⟨rfl, rfl⟩ | ⟨rfl, rfl⟩ | ⟨rfl, rfl⟩ | ⟨rfl, rfl⟩ | ⟨rfl, rfl⟩ |
    ⟨rfl, rfl⟩ | ⟨rfl, rfl⟩ <;> exact ⟨rfl, by rw [ofPropType], by simp [PropType.indices]⟩

theorem told_simple {j : Json} {name : String} {t : PropType} (h : (name, t) ∈ PropType.simple)
    (kind : j.field? "kind" = some (.str name)) : Told .propType j (ofPropType t) t.indices := by
  obtain ⟨hlisted, hwritten, hindices⟩ := variants_simple h
  rw [hwritten, hindices]
  exact .tagged kind hlisted .nil

theorem told_spec {j : Json} {s : PropSpec} (h : EncodesSpec j s)
    (ih : ∀ v, Encodes v s.propType → Told .propType v (ofPropType s.propType) s.propType.indices) :
    Told .spec j (ofSpec s) s.propType.indices := by
  cases h with
  | mk propType encoded isNullable =>
      rw [ofSpec_eq, ← List.append_nil s.propType.indices]
      exact .object rfl (.field propType (ih _ encoded) (.field isNullable (.flag _) .nil))

theorem told_propType {t : PropType} :
    ∀ j, Encodes j t → Told .propType j (ofPropType t) t.indices := by
  induction t using PropType.induct with
  | any | void | string | number | boolean | event | reactElement | reactNode =>
      intro j h
      cases h with
      | simple listed kind => exact told_simple listed kind
  | literal value =>
      intro j h
      cases h with
      | simple listed kind => exact told_simple listed kind
      | literal kind field =>
          rw [ofPropType, PropType.indices]
          exact .tagged kind rfl (.field field (.literal value) .nil)
          -- the equation for forms without indices asks that this is none of the others
          all_goals simp
  | union options ih =>
      intro j h
      cases h with
      | simple listed kind => exact told_simple listed kind
      | union kind field encoded =>
          rw [ofPropType, PropType.indices, ofPropTypes_eq_map, PropType.indicesAll_eq_flatMap,
            ← List.append_nil (options.flatMap _)]
          have hoptions := Sequences.forall₂_and encoded (fun _ _ => trivial) ih
          exact .tagged kind rfl (.field field (.list (hoptions.imp fun _ _ h => h.2.2 _ h.1)) .nil)
  | array element ih =>
      intro j h
      cases h with
      | simple listed kind => exact told_simple listed kind
      | array kind field encoded =>
          rw [ofPropType, PropType.indices, ← List.append_nil element.indices]
          exact .tagged kind rfl (.field field (ih _ encoded) .nil)
  | tuple elements ih =>
      intro j h
      cases h with
      | simple listed kind => exact told_simple listed kind
      | tuple kind field encoded =>
          rw [ofPropType, PropType.indices, ofPropTypes_eq_map, PropType.indicesAll_eq_flatMap,
            ← List.append_nil (elements.flatMap _)]
          have helements := Sequences.forall₂_and encoded (fun _ _ => trivial) ih
          exact .tagged kind rfl
            (.field field (.list (helements.imp fun _ _ h => h.2.2 _ h.1)) .nil)
  | ref index =>
      intro j h
      cases h with
      | simple listed kind => exact told_simple listed kind
      | ref kind field =>
          rw [ofPropType, PropType.indices]
          exact .tagged kind rfl (.field field (.index index) .nil)
  | partialRef index =>
      intro j h
      cases h with
      | simple listed kind => exact told_simple listed kind
      | partialRef kind field =>
          rw [ofPropType, PropType.indices]
          exact .tagged kind rfl (.field field (.index index) .nil)
  | fn args result ihargs ihresult =>
      intro j h
      cases h with
      | simple listed kind => exact told_simple listed kind
      | fn kind argTypes argsEncoded returnType resultEncoded =>
          rw [ofPropType, PropType.indices, ofSpecs_eq_map, PropType.indicesSpecs_eq_flatMap,
            PropType.indicesSpec_eq, ← List.append_nil result.propType.indices]
          have hargs := Sequences.forall₂_and argsEncoded (fun _ _ => trivial) ihargs
          exact .tagged kind rfl (.field argTypes
            (.list (hargs.imp fun _ _ h => told_spec h.1 h.2.2))
            (.field returnType (told_spec resultEncoded ihresult) .nil))

theorem told_member {j : Json} {m : MemberSpec} (h : EncodesMember j m) :
    Told .member j (ofMember m) m.indices := by
  obtain ⟨hname, hspec⟩ := h
  cases hspec with
  | mk propType encoded isNullable =>
      rw [ofMember, MemberSpec.indices, ← List.append_nil m.spec.propType.indices,
        ← List.nil_append (_ ++ [])]
      exact .object rfl (.field hname (.text _) (.field propType (told_propType _ encoded)
        (.field isNullable (.flag _) .nil)))

/-- The name of a record is written also where it was missing. -/
theorem told_record {j : Json} {r : RecordSpec} (h : ReadsRecord j r) :
    Told .record j (ofRecord r) r.indices := by
  obtain ⟨hname, items, hitems, hmembers⟩ := h
  have htrimmed : (j.field? "name").elim .null (trim .name) = Json.ofOptionString r.name := by
    cases hfield : j.field? "name" with
    | none => rw [hfield] at hname; exact hname
    | some value =>
        rw [hfield, Option.getD_some] at hname
        rw [hname]
        exact (Told.name r.name).trimmed
  rw [ofRecord, RecordSpec.indices, ← List.append_nil (r.members.flatMap _),
    ← List.nil_append (_ ++ [])]
  exact .object rfl (.cons (congrArg some hname) htrimmed (.name r.name)
    (.field hitems (.list (hmembers.imp fun _ _ => told_member)) .nil))

theorem told_component {j : Json} {c : ComponentSpec} (h : EncodesComponent j c) :
    Told .component j (ofComponent c) [c.props] :=
  .object rfl (.field h.name (.text _) (.field h.props (.index _) .nil))

theorem told_extraction {j : Json} {x : Extraction} (h : ReadsExtraction j x) :
    Told .extraction j (ofExtraction x) x.indices := by
  obtain ⟨⟨items, hitems, hcomponents⟩, records, hrecords, hrefs⟩ := h
  rw [ofExtraction, Extraction.indices, List.map_eq_flatMap (f := ComponentSpec.props),
    ← List.append_nil (x.refs.flatMap RecordSpec.indices)]
  exact .object rfl (.field hitems (.list (hcomponents.imp fun _ _ => told_component))
    (.field hrecords (.list (hrefs.imp fun _ _ => told_record)) .nil))

end Encoded

section Described

/-- What the reader makes of a value that the grammar describes. -/
def Readable : Part → Json → Prop
  | .text, j => ∃ s, j = .str s
  | .flag, j => ∃ b, j = .bool b
  | .index, j => ∃ n, j = .int n
  | .literal, j => ∃ value, j = ofLiteral value
  | .name, j => ∃ name, j = Json.ofOptionString name
  | .list part, j => ∃ items, j = .arr items ∧ ∀ item ∈ items, Readable part item
  | .propType, j => ∃ t, Encodes j t
  | .spec, j => ∃ s, EncodesSpec j s
  | .member, j => ∃ m, EncodesMember j m
  | .record, j => ∃ r, ReadsRecord j r
  | .component, j => ∃ c, EncodesComponent j c
  | .extraction, j => ∃ x, ReadsExtraction j x

theorem exists_forall₂ {α : Type} {R : Json → α → Prop} {items : List Json}
    (h : ∀ item ∈ items, ∃ a, R item a) : ∃ as, List.Forall₂ R items as := by
  induction items with
  | nil => exact ⟨[], .nil⟩
  | cons item items ih =>
      rw [List.forall_mem_cons] at h
      obtain ⟨a, ha⟩ := h.1
      obtain ⟨as, has⟩ := ih h.2
      exact ⟨a :: as, .cons ha has⟩

/-- The fields of an object are there, and what stands in them is readable. -/
def ReadableFields (j : Json) (fs : List (String × Part)) : Prop :=
  ∀ f ∈ fs, ∃ value, f.2.at? f.1 j = some value ∧ Readable f.2 value

/-- A prop type is readable by the fields of its variant, one case for each kind. -/
theorem readable_propType {j : Json} {fs : List (String × Part)}
    (fields : Part.propType.fields j = some fs) (h : ReadableFields j fs) :
    Readable .propType j := by
  rw [Part.fields] at fields
  split at fields
  case h_2 => nomatch fields
  next kind hkind =>
  obtain ⟨variant, hlisted, rfl⟩ := Option.map_eq_some_iff.mp fields
  have hvariant : ReadableFields j variant := fun f hf => h f (List.mem_cons_of_mem _ hf)
  have hsimple : ∀ t, (kind, t) ∈ PropType.simple → Readable .propType j :=
    fun t ht => ⟨t, .simple ht hkind⟩
  have hmem := Entries.mem_of_lookup hlisted
  simp only [variants, List.mem_cons, List.not_mem_nil, or_false, Prod.mk.injEq] at hmem
  rcases hmem with ⟨rfl, rfl⟩ | ⟨rfl, rfl⟩ | ⟨rfl, rfl⟩ | ⟨rfl, rfl⟩ | ⟨rfl, rfl⟩ | ⟨rfl, rfl⟩ |
    ⟨rfl, rfl⟩ | ⟨rfl, rfl⟩ | ⟨rfl, rfl⟩ | ⟨rfl, rfl⟩ | ⟨rfl, rfl⟩ | ⟨rfl, rfl⟩ | ⟨rfl, rfl⟩ |
    ⟨rfl, rfl⟩ | ⟨rfl, rfl⟩
  · exact hsimple .any (by simp [PropType.simple])
  · exact hsimple .void (by simp [PropType.simple])
  · exact hsimple .string (by simp [PropType.simple])
  · exact hsimple .number (by simp [PropType.simple])
  · exact hsimple .boolean (by simp [PropType.simple])
  · exact hsimple .event (by simp [PropType.simple])
  · exact hsimple .reactElement (by simp [PropType.simple])
  · exact hsimple .reactNode (by simp [PropType.simple])
  · obtain ⟨_, hfield, value, rfl⟩ := hvariant ("value", .literal) (by simp)
    exact ⟨_, .literal hkind hfield⟩
  · obtain ⟨_, hfield, items, rfl, hitems⟩ := hvariant ("options", .list .propType) (by simp)
    obtain ⟨options, hoptions⟩ := exists_forall₂ hitems
    exact ⟨_, .union hkind hfield hoptions⟩
  · obtain ⟨_, hfield, element, helement⟩ := hvariant ("elementPropType", .propType) (by simp)
    exact ⟨_, .array hkind hfield helement⟩
  · obtain ⟨_, hfield, items, rfl, hitems⟩ :=
      hvariant ("elementPropTypes", .list .propType) (by simp)
    obtain ⟨elements, helements⟩ := exists_forall₂ hitems
    exact ⟨_, .tuple hkind hfield helements⟩
  · obtain ⟨_, hfield, n, rfl⟩ := hvariant ("refIndex", .index) (by simp)
    exact ⟨_, .ref hkind hfield⟩
  · obtain ⟨_, hfield, n, rfl⟩ := hvariant ("refIndex", .index) (by simp)
    exact ⟨_, .partialRef hkind hfield⟩
  · obtain ⟨_, hargs, items, rfl, hitems⟩ := hvariant ("argTypes", .list .spec) (by simp)
    obtain ⟨_, hresult, result, hread⟩ := hvariant ("returnType", .spec) (by simp)
    obtain ⟨args, hread'⟩ := exists_forall₂ hitems
    exact ⟨_, .fn hkind hargs hread' hresult hread⟩

theorem readable_object {part : Part} {j : Json} {fs : List (String × Part)}
    (fields : part.fields j = some fs) (h : ReadableFields j fs) : Readable part j := by
  cases part with
  | text | flag | index | literal | name | list => nomatch fields
  | propType => exact readable_propType fields h
  | spec =>
      cases fields
      obtain ⟨_, hpropType, t, ht⟩ := h ("propType", .propType) (by simp)
      obtain ⟨_, hflag, b, rfl⟩ := h ("isNullable", .flag) (by simp)
      exact ⟨⟨t, b⟩, .mk hpropType ht hflag⟩
  | member =>
      cases fields
      obtain ⟨_, hname, s, rfl⟩ := h ("name", .text) (by simp)
      obtain ⟨_, hpropType, t, ht⟩ := h ("propType", .propType) (by simp)
      obtain ⟨_, hflag, b, rfl⟩ := h ("isNullable", .flag) (by simp)
      exact ⟨⟨s, ⟨t, b⟩⟩, hname, .mk hpropType ht hflag⟩
  | record =>
      cases fields
      obtain ⟨_, hname, name, rfl⟩ := h ("name", .name) (by simp)
      obtain ⟨_, hfield, items, rfl, hitems⟩ := h ("members", .list .member) (by simp)
      obtain ⟨members, hmembers⟩ := exists_forall₂ hitems
      exact ⟨⟨name, members⟩, Option.some.inj hname, items, hfield, hmembers⟩
  | component =>
      cases fields
      obtain ⟨_, hname, s, rfl⟩ := h ("name", .text) (by simp)
      obtain ⟨_, hindex, n, rfl⟩ := h ("propsRefIndex", .index) (by simp)
      exact ⟨⟨s, n⟩, hname, hindex⟩
  | extraction =>
      cases fields
      obtain ⟨_, hcomponents, items, rfl, hitems⟩ :=
        h ("components", .list .component) (by simp)
      obtain ⟨_, hrefs, records, rfl, hrecords⟩ := h ("refs", .list .record) (by simp)
      obtain ⟨components, hreadComponents⟩ := exists_forall₂ hitems
      obtain ⟨refs, hreadRefs⟩ := exists_forall₂ hrecords
      exact ⟨⟨components, refs⟩, ⟨items, hcomponents, hreadComponents⟩, records, hrefs, hreadRefs⟩

/-- By induction on how the grammar describes the value. -/
theorem Fits.readable {part : Part} {j : Json} (h : Fits part j) : Readable part j := by
  induction h with
  | text s => exact ⟨s, rfl⟩
  | flag b => exact ⟨b, rfl⟩
  | index n => exact ⟨n, rfl⟩
  | literalText s => exact ⟨.str s, rfl⟩
  | literalInteger n => exact ⟨.int n, rfl⟩
  | literalNumber x => exact ⟨.float x, rfl⟩
  | literalFlag b => exact ⟨.bool b, rfl⟩
  | anonymous => exact ⟨none, rfl⟩
  | named s => exact ⟨some s, rfl⟩
  | list _ ih => exact ⟨_, rfl, ih⟩
  | object fields present _ ih =>
      refine readable_object fields fun f hf => ?_
      obtain ⟨value, hvalue⟩ := present f hf
      exact ⟨value, hvalue, ih f hf value hvalue⟩

end Described

/-- The indices of a value are in its table if those of the extraction are that it has the fields
of. -/
theorem ReadsExtraction.matches_iff {j : Json} {x : Extraction} (h : ReadsExtraction j x) :
    Matches j ↔ x.Valid := by
  have told := told_extraction h
  obtain ⟨-, records, hrecords, hrefs⟩ := h
  have hsize : tableSize j = x.refs.length := by
    rw [tableSize, hrecords]
    exact hrefs.length_eq
  rw [Matches, hsize]
  exact ⟨fun hm i hi => hm.2 i ((told.occurs i).mpr hi),
    fun hv => ⟨told.fits, fun i hi => hv i ((told.occurs i).mp hi)⟩⟩

/-- Whatever value is given: it is read exactly if it is of the wire form and its indices point into
its table. What is read is written as the value without further fields, and is read from that
again. -/
theorem reads_exactly_the_grammar (j : Json) :
    match toExtraction j with
    | .ok x => Matches j ∧ ofExtraction x = trim .extraction j ∧
        toExtraction (ofExtraction x) = .ok x
    | .error _ => ¬ Matches j := by
  cases hread : toExtraction j with
  | ok x =>
      obtain ⟨hfields, hvalid⟩ := toExtraction_eq_ok_iff.mp hread
      exact ⟨hfields.matches_iff.mpr hvalid, (told_extraction hfields).trimmed.symm,
        toExtraction_of_encodes hvalid (encodes_ofExtraction x)⟩
  | error fault =>
      intro hm
      obtain ⟨x, hfields⟩ : ∃ x, ReadsExtraction j x := hm.1.readable
      nomatch hread.symm.trans
        (toExtraction_eq_ok_iff.mpr ⟨hfields, hfields.matches_iff.mp hm⟩)

end Wire

end PropSchema
