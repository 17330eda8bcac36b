import PropSchema.Proofs.Schema.Wire
/-!
The reader takes nothing for a schema but values that have its fields. Together with the reading of
what has the fields, a value is read as a schema exactly if it encodes that schema.
-/
namespace PropSchema
open Sequences (ok_of_bind)

namespace Wire

/-- Readings in a row give what each gives. -/
theorem forall₂_of_mapM {α β : Type} {f : α → Except WireFault β} {as : List α} {bs : List β}
    (h : as.mapM f = .ok bs) : List.Forall₂ (fun a b => f a = .ok b) as bs := by
  induction as generalizing bs with
  | nil =>
      cases h
      exact .nil
  | cons a as ih =>
      rw [List.mapM_cons] at h
      obtain ⟨b, hb, h⟩ := ok_of_bind h
      obtain ⟨rest, hrest, h⟩ := ok_of_bind h
      cases h
      exact .cons hb (ih hrest)

section Fields
variable {j : Json} {key : String}

theorem field_of_require {value : { v : Json // sizeOf v < sizeOf j }}
    (h : require j key = .ok value) : j.field? key = some value.val := by
  rw [require] at h
  split at h
  · cases h
  · next found hfound =>
      cases h
      exact hfound

theorem field_of_requireText {s : String} (h : requireText j key = .ok s) :
    j.field? key = some (.str s) := by
  obtain ⟨⟨value, hlt⟩, hv, h⟩ := ok_of_bind h
  cases value with
  | str s' =>
      cases h
      exact field_of_require hv
  | _ => cases h

theorem field_of_requireInteger {n : Int} (h : requireInteger j key = .ok n) :
    j.field? key = some (.int n) := by
  obtain ⟨⟨value, hlt⟩, hv, h⟩ := ok_of_bind h
  cases value with
  | int n' =>
      cases h
      exact field_of_require hv
  | _ => cases h

theorem field_of_requireFlag {b : Bool} (h : requireFlag j key = .ok b) :
    j.field? key = some (.bool b) := by
  obtain ⟨⟨value, hlt⟩, hv, h⟩ := ok_of_bind h
  cases value with
  | bool b' =>
      cases h
      exact field_of_require hv
  | _ => cases h

theorem field_of_requireList {items : { items : List Json // sizeOf items < sizeOf j }}
    (h : requireList j key = .ok items) : j.field? key = some (.arr items.val) := by
  obtain ⟨⟨value, hlt⟩, hv, h⟩ := ok_of_bind h
  cases value with
  | arr items' =>
      cases h
      exact field_of_require hv
  | _ => cases h

theorem field_of_requireMapping {value : { v : Json // sizeOf v < sizeOf j }}
    (h : requireMapping j key = .ok value) : j.field? key = some value.val := by
  obtain ⟨⟨value', hlt⟩, hv, h⟩ := ok_of_bind h
  cases value' with
  | obj fields =>
      cases h
      exact field_of_require hv
  | _ => cases h

theorem field_of_toLiteral {value : LiteralValue} (h : toLiteral j = .ok value) :
    j.field? "value" = some (ofLiteral value) := by
  rw [toLiteral] at h
  split at h
  case h_5 => cases h
  all_goals
    cases h
    assumption

end Fields

/-- Whatever a value is read as, it encodes. -/
def ReadRightly (j : Json) : Prop := ∀ t, toPropType j = .ok t → Encodes j t

theorem encodesSpec_of_read {j : Json} (hread : ∀ v, sizeOf v < sizeOf j → ReadRightly v)
    {s : PropSpec} (h : toSpec j = .ok s) : EncodesSpec j s := by
  rw [toSpec] at h
  obtain ⟨⟨value, hlt⟩, hvalue, h⟩ := ok_of_bind h
  obtain ⟨t, ht, h⟩ := ok_of_bind h
  obtain ⟨flag, hflag, h⟩ := ok_of_bind h
  cases h
  exact .mk (field_of_requireMapping hvalue) (hread value hlt t ht) (field_of_requireFlag hflag)

theorem encodes_of_reads {items : List Json} (hread : ∀ v ∈ items, ReadRightly v)
    {ts : List PropType} (h : toPropTypes items = .ok ts) : List.Forall₂ Encodes items ts := by
  induction items generalizing ts with
  | nil =>
      rw [toPropTypes] at h
      cases h
      exact .nil
  | cons item items ih =>
      rw [toPropTypes] at h
      obtain ⟨t, ht, h⟩ := ok_of_bind h
      obtain ⟨rest, hrest, h⟩ := ok_of_bind h
      cases h
      rw [List.forall_mem_cons] at hread
      exact .cons (hread.1 t ht) (ih hread.2 hrest)

theorem encodesSpecs_of_reads {items : List Json}
    (hread : ∀ item ∈ items, ∀ v, sizeOf v < sizeOf item → ReadRightly v) {specs : List PropSpec}
    (h : toSpecs items = .ok specs) : List.Forall₂ EncodesSpec items specs := by
  induction items generalizing specs with
  | nil =>
      rw [toSpecs] at h
      cases h
      exact .nil
  | cons item items ih =>
      rw [toSpecs] at h
      obtain ⟨s, hs, h⟩ := ok_of_bind h
      obtain ⟨rest, hrest, h⟩ := ok_of_bind h
      cases h
      rw [List.forall_mem_cons] at hread
      exact .cons (encodesSpec_of_read hread.1 hs) (ih hread.2 hrest)

/-- By induction on the size of the value, whose parts are read before it. -/
theorem readRightly (j : Json) : ReadRightly j := by
  induction hsize : sizeOf j using Nat.strong_induction_on generalizing j with
  | h size ih =>
  subst hsize
  have hread : ∀ v, sizeOf v < sizeOf j → ReadRightly v := fun v hv => ih _ hv v rfl
  have hitems : ∀ items : List Json, sizeOf items < sizeOf j → ∀ v ∈ items, ReadRightly v := by
    intro items hlt v hv
    exact hread v ((List.sizeOf_lt_of_mem hv).trans hlt)
  intro t h
  rw [toPropType] at h
  obtain ⟨kind, hkind, h⟩ := ok_of_bind h
  have hkind := field_of_requireText hkind
  split at h
  · next simple hsimple =>
      cases h
      exact .simple (Entries.mem_of_lookup hsimple) hkind
  · split at h
    · obtain ⟨value, hvalue, h⟩ := ok_of_bind h
      cases h
      exact .literal hkind (field_of_toLiteral hvalue)
    · obtain ⟨⟨items, hlt⟩, hfield, h⟩ := ok_of_bind h
      obtain ⟨options, hoptions, h⟩ := ok_of_bind h
      cases h
      exact .union hkind (field_of_requireList hfield)
        (encodes_of_reads (hitems items hlt) hoptions)
    · obtain ⟨⟨value, hlt⟩, hfield, h⟩ := ok_of_bind h
      obtain ⟨element, helement, h⟩ := ok_of_bind h
      cases h
      exact .array hkind (field_of_requireMapping hfield) (hread value hlt element helement)
    · obtain ⟨⟨items, hlt⟩, hfield, h⟩ := ok_of_bind h
      obtain ⟨elements, helements, h⟩ := ok_of_bind h
      cases h
      exact .tuple hkind (field_of_requireList hfield)
        (encodes_of_reads (hitems items hlt) helements)
    · obtain ⟨index, hindex, h⟩ := ok_of_bind h
      cases h
      exact .ref hkind (field_of_requireInteger hindex)
    · obtain ⟨index, hindex, h⟩ := ok_of_bind h
      cases h
      exact .partialRef hkind (field_of_requireInteger hindex)
    · obtain ⟨⟨items, hlt⟩, hargs, h⟩ := ok_of_bind h
      obtain ⟨args, hreads, h⟩ := ok_of_bind h
      obtain ⟨⟨value, hlt'⟩, hresult, h⟩ := ok_of_bind h
      obtain ⟨result, hread', h⟩ := ok_of_bind h
      cases h
      refine .fn hkind (field_of_requireList hargs) (encodesSpecs_of_reads ?_ hreads)
        (field_of_requireMapping hresult) (encodesSpec_of_read ?_ hread')
      · intro item hitem v hv
        exact hread v (hv.trans ((List.sizeOf_lt_of_mem hitem).trans hlt))
      · intro v hv
        exact hread v (hv.trans hlt')
    · cases h

/-- A value is read as a prop type exactly if it has its fields. -/
theorem toPropType_eq_ok_iff {j : Json} {t : PropType} : toPropType j = .ok t ↔ Encodes j t :=
  ⟨readRightly j t, isRead t j⟩

theorem toMember_eq_ok_iff {j : Json} {m : MemberSpec} :
    toMember j = .ok m ↔ EncodesMember j m := by
  refine ⟨fun h => ?_, toMember_of_encodes⟩
  rw [toMember] at h
  obtain ⟨name, hname, h⟩ := ok_of_bind h
  obtain ⟨⟨value, hlt⟩, hvalue, h⟩ := ok_of_bind h
  obtain ⟨t, ht, h⟩ := ok_of_bind h
  obtain ⟨flag, hflag, h⟩ := ok_of_bind h
  cases h
  exact ⟨field_of_requireText hname, .mk (field_of_requireMapping hvalue)
    (toPropType_eq_ok_iff.mp ht) (field_of_requireFlag hflag)⟩

theorem toComponent_eq_ok_iff {j : Json} {c : ComponentSpec} :
    toComponent j = .ok c ↔ EncodesComponent j c := by
  refine ⟨fun h => ?_, toComponent_of_encodes⟩
  rw [toComponent] at h
  obtain ⟨name, hname, h⟩ := ok_of_bind h
  obtain ⟨props, hprops, h⟩ := ok_of_bind h
  cases h
  exact ⟨field_of_requireText hname, field_of_requireInteger hprops⟩

/-- A value that has the fields of a record, where the name of one that has none may be absent. -/
structure ReadsRecord (j : Json) (r : RecordSpec) : Prop where
  name : (j.field? "name").getD .null = Json.ofOptionString r.name
  members : ∃ items, j.field? "members" = some (.arr items) ∧
    List.Forall₂ EncodesMember items r.members

theorem toRecordName_eq_ok_iff {value? : Option Json} {name : Option String} :
    toRecordName value? = .ok name ↔ value?.getD .null = Json.ofOptionString name := by
  rcases value? with _ | value
  · cases name <;> simp [toRecordName, Json.ofOptionString]
  · cases value <;> cases name <;> simp [toRecordName, Json.ofOptionString]

theorem toRecord_eq_ok_iff {j : Json} {r : RecordSpec} :
    toRecord j = .ok r ↔ ReadsRecord j r := by
  constructor
  · intro h
    cases j with
    | obj fields =>
        rw [toRecord] at h
        obtain ⟨name, hname, h⟩ := ok_of_bind h
        obtain ⟨⟨items, hlt⟩, hitems, h⟩ := ok_of_bind h
        obtain ⟨members, hmembers, h⟩ := ok_of_bind h
        cases h
        exact ⟨toRecordName_eq_ok_iff.mp hname, items, field_of_requireList hitems,
          (forall₂_of_mapM hmembers).imp fun _ _ => toMember_eq_ok_iff.mp⟩
    | _ => cases h
  · rintro ⟨hname, items, hitems, hmembers⟩
    obtain ⟨fields, rfl⟩ := exists_obj hitems
    obtain ⟨hlt, hlist⟩ := requireList_eq hitems
    rw [toRecord, toRecordName_eq_ok_iff.mpr hname, hlist]
    simp only [bind, Except.bind, mapM_of_forall₂ hmembers fun _ _ => toMember_of_encodes]
    rfl

/-- A value that has the fields of an extraction, whose records may leave out their names. -/
structure ReadsExtraction (j : Json) (x : Extraction) : Prop where
  components : ∃ items, j.field? "components" = some (.arr items) ∧
    List.Forall₂ EncodesComponent items x.components
  refs : ∃ items, j.field? "refs" = some (.arr items) ∧ List.Forall₂ ReadsRecord items x.refs

/-- A value is read as an extraction exactly if it has its fields and no index leads out of it. -/
theorem toExtraction_eq_ok_iff {j : Json} {x : Extraction} :
    toExtraction j = .ok x ↔ ReadsExtraction j x ∧ x.Valid := by
  constructor
  · intro h
    cases j with
    | obj fields =>
        rw [toExtraction] at h
        obtain ⟨⟨items, hlt⟩, hitems, h⟩ := ok_of_bind h
        obtain ⟨components, hcomponents, h⟩ := ok_of_bind h
        obtain ⟨⟨records, hlt'⟩, hrecords, h⟩ := ok_of_bind h
        obtain ⟨refs, hrefs, h⟩ := ok_of_bind h
        dsimp only at h
        split at h
        · cases h
        · next hvalid =>
            cases h
            refine ⟨⟨⟨items, field_of_requireList hitems, ?_⟩,
              ⟨records, field_of_requireList hrecords, ?_⟩⟩,
              (Extraction.dangling?_eq_none_iff _).mp hvalid⟩
            · exact (forall₂_of_mapM hcomponents).imp fun _ _ => toComponent_eq_ok_iff.mp
            · exact (forall₂_of_mapM hrefs).imp fun _ _ => toRecord_eq_ok_iff.mp
    | _ => cases h
  · rintro ⟨⟨⟨items, hitems, hcomponents⟩, ⟨records, hrecords, hrefs⟩⟩, hvalid⟩
    obtain ⟨fields, rfl⟩ := exists_obj hitems
    obtain ⟨hlt, hlist⟩ := requireList_eq hitems
    obtain ⟨hlt', hlist'⟩ := requireList_eq hrecords
    rw [toExtraction, hlist]
    simp only [bind, Except.bind, hlist',
      mapM_of_forall₂ hcomponents fun _ _ => toComponent_of_encodes,
      mapM_of_forall₂ hrefs fun _ _ => toRecord_eq_ok_iff.mpr,
      (Extraction.dangling?_eq_none_iff _).mpr hvalid]
    rfl

end Wire

end PropSchema
