import PropSchema.Proofs.Json.RoundTrip
import PropSchema.Proofs.Schema.Forms
import PropSchema.Proofs.Sequences
import PropSchema.Schema.Wire
/-!
The wire form as a relation between JSON values and schemas: a value has the fields of a schema, in
any order. What is written has them, the reader needs no more, and sorting fields keeps them.
-/
namespace PropSchema

namespace Wire

mutual

/-- A value that has the fields of a prop type. -/
inductive Encodes : Json → PropType → Prop
  | simple {j : Json} {name : String} {t : PropType} (listed : (name, t) ∈ PropType.simple)
      (kind : j.field? "kind" = some (.str name)) : Encodes j t
  | literal {j : Json} {value : LiteralValue} (kind : j.field? "kind" = some (.str "literal"))
      (field : j.field? "value" = some (ofLiteral value)) : Encodes j (.literal value)
  | union {j : Json} {items : List Json} {options : List PropType}
      (kind : j.field? "kind" = some (.str "union"))
      (field : j.field? "options" = some (.arr items))
      (encoded : List.Forall₂ Encodes items options) : Encodes j (.union options)
  | array {j value : Json} {element : PropType} (kind : j.field? "kind" = some (.str "array"))
      (field : j.field? "elementPropType" = some value) (encoded : Encodes value element) :
      Encodes j (.array element)
  | tuple {j : Json} {items : List Json} {elements : List PropType}
      (kind : j.field? "kind" = some (.str "tuple"))
      (field : j.field? "elementPropTypes" = some (.arr items))
      (encoded : List.Forall₂ Encodes items elements) : Encodes j (.tuple elements)
  | ref {j : Json} {index : Int} (kind : j.field? "kind" = some (.str "ref"))
      (field : j.field? "refIndex" = some (.int index)) : Encodes j (.ref index)
  | partialRef {j : Json} {index : Int} (kind : j.field? "kind" = some (.str "partial"))
      (field : j.field? "refIndex" = some (.int index)) : Encodes j (.partialRef index)
  | fn {j value : Json} {items : List Json} {args : List PropSpec} {result : PropSpec}
      (kind : j.field? "kind" = some (.str "fn"))
      (argTypes : j.field? "argTypes" = some (.arr items))
      (argsEncoded : List.Forall₂ EncodesSpec items args)
      (returnType : j.field? "returnType" = some value)
      (resultEncoded : EncodesSpec value result) : Encodes j (.fn args result)

/-- A value that has the fields of a prop type with its nullability. -/
inductive EncodesSpec : Json → PropSpec → Prop
  | mk {j value : Json} {s : PropSpec} (propType : j.field? "propType" = some value)
      (encoded : Encodes value s.propType)
      (isNullable : j.field? "isNullable" = some (.bool s.isNullable)) : EncodesSpec j s

end

/-- A value that has the fields of a member. -/
structure EncodesMember (j : Json) (m : MemberSpec) : Prop where
  name : j.field? "name" = some (.str m.name)
  spec : EncodesSpec j m.spec

/-- A value that has the fields of a record. -/
structure EncodesRecord (j : Json) (r : RecordSpec) : Prop where
  name : j.field? "name" = some (Json.ofOptionString r.name)
  members : ∃ items, j.field? "members" = some (.arr items) ∧
    List.Forall₂ EncodesMember items r.members

/-- A value that has the fields of a component. -/
structure EncodesComponent (j : Json) (c : ComponentSpec) : Prop where
  name : j.field? "name" = some (.str c.name)
  props : j.field? "propsRefIndex" = some (.int c.props)

/-- A value that has the fields of an extraction. -/
structure EncodesExtraction (j : Json) (x : Extraction) : Prop where
  components : ∃ items, j.field? "components" = some (.arr items) ∧
    List.Forall₂ EncodesComponent items x.components
  refs : ∃ items, j.field? "refs" = some (.arr items) ∧ List.Forall₂ EncodesRecord items x.refs

section Reading
variable {j value : Json} {key : String}

/-- Only objects have fields. -/
theorem exists_obj (h : j.field? key = some value) : ∃ fields, j = .obj fields := by
  cases j with
  | obj fields => exact ⟨fields, rfl⟩
  | _ => nomatch h

theorem require_eq (h : j.field? key = some value) :
    require j key = .ok ⟨value, sizeOf_field?_lt h⟩ := by
  rw [require]
  split
  · next hnone => nomatch h.symm.trans hnone
  · next found hsome =>
      cases h.symm.trans hsome
      rfl

theorem requireText_eq {s : String} (h : j.field? key = some (.str s)) :
    requireText j key = .ok s := by
  rw [requireText, require_eq h]
  rfl

theorem requireInteger_eq {n : Int} (h : j.field? key = some (.int n)) :
    requireInteger j key = .ok n := by
  rw [requireInteger, require_eq h]
  rfl

theorem requireFlag_eq {b : Bool} (h : j.field? key = some (.bool b)) :
    requireFlag j key = .ok b := by
  rw [requireFlag, require_eq h]
  rfl

theorem requireList_eq {items : List Json} (h : j.field? key = some (.arr items)) :
    ∃ hlt, requireList j key = .ok ⟨items, hlt⟩ := by
  rw [requireList, require_eq h]
  exact ⟨_, rfl⟩

theorem requireMapping_eq {fields : List (String × Json)} (h : j.field? key = some (.obj fields)) :
    ∃ hlt, requireMapping j key = .ok ⟨.obj fields, hlt⟩ := by
  rw [requireMapping, require_eq h]
  exact ⟨_, rfl⟩

end Reading

/-- A prop type has a kind, so only objects encode one. -/
theorem Encodes.exists_obj {j : Json} {t : PropType} (h : Encodes j t) :
    ∃ fields, j = .obj fields := by
  cases h <;> exact Wire.exists_obj ‹j.field? "kind" = _›

theorem EncodesSpec.exists_obj {j : Json} {s : PropSpec} (h : EncodesSpec j s) :
    ∃ fields, j = .obj fields := by
  cases h with
  | mk propType _ _ => exact Wire.exists_obj propType

/-- A prop type is read from any value that encodes it. -/
def IsRead (t : PropType) : Prop := ∀ j, Encodes j t → toPropType j = .ok t

theorem toSpec_of_encodes {j : Json} {s : PropSpec} (hread : IsRead s.propType)
    (h : EncodesSpec j s) : toSpec j = .ok s := by
  cases h with
  | @mk _ value _ propType encoded isNullable =>
      obtain ⟨fields, rfl⟩ := encoded.exists_obj
      obtain ⟨hlt, hmapping⟩ := requireMapping_eq propType
      rw [toSpec, hmapping]
      simp only [bind, Except.bind, hread _ encoded, requireFlag_eq isNullable]
      rfl

theorem toPropTypes_of_encodes {items : List Json} {ts : List PropType}
    (h : List.Forall₂ Encodes items ts) (hread : ∀ t ∈ ts, IsRead t) :
    toPropTypes items = .ok ts := by
  induction h with
  | nil => rw [toPropTypes]; rfl
  | cons hj _ ih =>
      rw [toPropTypes, hread _ List.mem_cons_self _ hj,
        ih fun t ht => hread t (List.mem_cons_of_mem _ ht)]
      rfl

theorem toSpecs_of_encodes {items : List Json} {specs : List PropSpec}
    (h : List.Forall₂ EncodesSpec items specs) (hread : ∀ s ∈ specs, IsRead s.propType) :
    toSpecs items = .ok specs := by
  induction h with
  | nil => rw [toSpecs]; rfl
  | cons hj _ ih =>
      rw [toSpecs, toSpec_of_encodes (hread _ List.mem_cons_self) hj,
        ih fun s hs => hread s (List.mem_cons_of_mem _ hs)]
      rfl

/-- A variant without payload is read by its name alone. -/
theorem toPropType_simple {j : Json} {name : String} {t : PropType}
    (listed : (name, t) ∈ PropType.simple) (kind : j.field? "kind" = some (.str name)) :
    toPropType j = .ok t := by
  have hlookup : PropType.simple.lookup name = some t := by
    simp only [PropType.simple, List.mem_cons, List.not_mem_nil, or_false, Prod.mk.injEq] at listed
    rcases listed with ⟨rfl, rfl⟩ | ⟨rfl, rfl⟩ | ⟨rfl, rfl⟩ | ⟨rfl, rfl⟩ | ⟨rfl, rfl⟩ | ⟨rfl, rfl⟩ |
      ⟨rfl, rfl⟩ | ⟨rfl, rfl⟩ <;> rfl
  rw [toPropType, requireText_eq kind]
  simp only [bind, Except.bind, hlookup]
  rfl

/-- Every prop type is read from any value that encodes it. -/
theorem isRead (t : PropType) : IsRead t := by
  induction t using PropType.induct with
  | any | void | string | number | boolean | event | reactElement | reactNode =>
      intro j h
      cases h with
      | simple listed kind => exact toPropType_simple listed kind
  | literal value =>
      intro j h
      cases h with
      | simple listed kind => exact toPropType_simple listed kind
      | literal kind field =>
          have hvalue : toLiteral j = .ok value := by
            rw [toLiteral, field]
            cases value <;> rfl
          rw [toPropType, requireText_eq kind]
          simp only [bind, Except.bind, PropType.simple, List.lookup_cons, hvalue]
          rfl
  | union options ih =>
      intro j h
      cases h with
      | simple listed kind => exact toPropType_simple listed kind
      | union kind field encoded =>
          obtain ⟨hlt, hlist⟩ := requireList_eq field
          rw [toPropType, requireText_eq kind]
          simp only [bind, Except.bind, PropType.simple, List.lookup_cons, hlist,
            toPropTypes_of_encodes encoded ih]
          rfl
  | array element ih =>
      intro j h
      cases h with
      | simple listed kind => exact toPropType_simple listed kind
      | array kind field encoded =>
          obtain ⟨fields, rfl⟩ := encoded.exists_obj
          obtain ⟨hlt, hmapping⟩ := requireMapping_eq field
          rw [toPropType, requireText_eq kind]
          simp only [bind, Except.bind, PropType.simple, List.lookup_cons, hmapping, ih _ encoded]
          rfl
  | tuple elements ih =>
      intro j h
      cases h with
      | simple listed kind => exact toPropType_simple listed kind
      | tuple kind field encoded =>
          obtain ⟨hlt, hlist⟩ := requireList_eq field
          rw [toPropType, requireText_eq kind]
          simp only [bind, Except.bind, PropType.simple, List.lookup_cons, hlist,
            toPropTypes_of_encodes encoded ih]
          rfl
  | ref index =>
      intro j h
      cases h with
      | simple listed kind => exact toPropType_simple listed kind
      | ref kind field =>
          rw [toPropType, requireText_eq kind]
          simp only [bind, Except.bind, PropType.simple, List.lookup_cons, requireInteger_eq field]
          rfl
  | partialRef index =>
      intro j h
      cases h with
      | simple listed kind => exact toPropType_simple listed kind
      | partialRef kind field =>
          rw [toPropType, requireText_eq kind]
          simp only [bind, Except.bind, PropType.simple, List.lookup_cons, requireInteger_eq field]
          rfl
  | fn args result ihargs ihresult =>
      intro j h
      cases h with
      | simple listed kind => exact toPropType_simple listed kind
      | fn kind argTypes argsEncoded returnType resultEncoded =>
          obtain ⟨fields, rfl⟩ := resultEncoded.exists_obj
          obtain ⟨hlt, hlist⟩ := requireList_eq argTypes
          obtain ⟨hlt', hmapping⟩ := requireMapping_eq returnType
          rw [toPropType, requireText_eq kind]
          simp only [bind, Except.bind, PropType.simple, List.lookup_cons, hlist, hmapping,
            toSpecs_of_encodes argsEncoded ihargs, toSpec_of_encodes ihresult resultEncoded]
          rfl

theorem mapM_of_forall₂ {ε α β : Type} {f : α → Except ε β} {R : α → β → Prop}
    {as : List α} {bs : List β} (h : List.Forall₂ R as bs)
    (hstep : ∀ a b, R a b → f a = .ok b) : as.mapM f = .ok bs := by
  induction h with
  | nil => rfl
  | cons hab _ ih =>
      rw [List.mapM_cons, hstep _ _ hab, ih]
      rfl

theorem toMember_of_encodes {j : Json} {m : MemberSpec} (h : EncodesMember j m) :
    toMember j = .ok m := by
  obtain ⟨hname, hspec⟩ := h
  cases hspec with
  | mk propType encoded isNullable =>
      obtain ⟨fields, rfl⟩ := encoded.exists_obj
      obtain ⟨hlt, hmapping⟩ := requireMapping_eq propType
      rw [toMember, requireText_eq hname]
      simp only [bind, Except.bind, hmapping, isRead _ _ encoded, requireFlag_eq isNullable]
      rfl

theorem toRecord_of_encodes {j : Json} {r : RecordSpec} (h : EncodesRecord j r) :
    toRecord j = .ok r := by
  obtain ⟨hname, items, hmembers, hall⟩ := h
  have htext : toRecordName (some (Json.ofOptionString r.name)) = .ok r.name := by
    cases r.name <;> rfl
  obtain ⟨fields, rfl⟩ := exists_obj hname
  obtain ⟨hlt, hlist⟩ := requireList_eq hmembers
  rw [toRecord, hname, htext]
  simp only [bind, Except.bind, hlist, mapM_of_forall₂ hall fun _ _ => toMember_of_encodes]
  rfl

theorem toComponent_of_encodes {j : Json} {c : ComponentSpec} (h : EncodesComponent j c) :
    toComponent j = .ok c := by
  rw [toComponent, requireText_eq h.name]
  simp only [bind, Except.bind, requireInteger_eq h.props]
  rfl

/-- From a value that encodes an extraction nothing else is read. -/
theorem toExtraction_eq {j : Json} {x : Extraction} (h : EncodesExtraction j x) :
    toExtraction j = match x.dangling? with
      | some index => .error (.dangling index)
      | none => .ok x := by
  obtain ⟨⟨components, hcomponents, hallComponents⟩, records, hrefs, hallRecords⟩ := h
  obtain ⟨fields, rfl⟩ := exists_obj hcomponents
  obtain ⟨hlt, hlist⟩ := requireList_eq hcomponents
  obtain ⟨hlt', hlist'⟩ := requireList_eq hrefs
  rw [toExtraction, hlist]
  simp only [bind, Except.bind, hlist',
    mapM_of_forall₂ hallComponents fun _ _ => toComponent_of_encodes,
    mapM_of_forall₂ hallRecords fun _ _ => toRecord_of_encodes]
  rfl

/-- A valid extraction is read from any value that encodes it. -/
theorem toExtraction_of_encodes {j : Json} {x : Extraction} (hvalid : x.Valid)
    (h : EncodesExtraction j x) : toExtraction j = .ok x := by
  rw [toExtraction_eq h, (x.dangling?_eq_none_iff).mpr hvalid]

theorem eq_of_toExtraction {j : Json} {x y : Extraction} (h : EncodesExtraction j x)
    (hy : toExtraction j = .ok y) : y = x := by
  rw [toExtraction_eq h] at hy
  split at hy
  · nomatch hy
  · exact (Except.ok.inj hy).symm

section Writing

theorem ofPropTypes_eq_map (ts : List PropType) : ofPropTypes ts = ts.map ofPropType := by
  induction ts with
  | nil => rfl
  | cons t ts ih => rw [ofPropTypes, ih, List.map_cons]

theorem ofSpecs_eq_map (specs : List PropSpec) : ofSpecs specs = specs.map ofSpec := by
  induction specs with
  | nil => rfl
  | cons s specs ih => rw [ofSpecs, ih, List.map_cons]

theorem ofSpec_eq (s : PropSpec) : ofSpec s =
    .obj [("propType", ofPropType s.propType), ("isNullable", .bool s.isNullable)] := by
  cases s
  rw [ofSpec]

theorem encodesSpec_of {s : PropSpec} (h : Encodes (ofPropType s.propType) s.propType) :
    EncodesSpec (ofSpec s) s := by
  rw [ofSpec_eq]
  exact .mk rfl h rfl

theorem forall₂_map {α β : Type} {R : β → α → Prop} {f : α → β} {as : List α}
    (h : ∀ a ∈ as, R (f a) a) : List.Forall₂ R (as.map f) as :=
  List.forall₂_map_left_iff.mpr (List.forall₂_same.mpr h)

theorem encodes_ofPropType (t : PropType) : Encodes (ofPropType t) t := by
  induction t using PropType.induct with
  | any | void | string | number | boolean | event | reactElement | reactNode =>
      rw [ofPropType]
      exact .simple (by simp [PropType.simple]) rfl
  | literal value =>
      rw [ofPropType]
      exact .literal rfl rfl
  | union options ih =>
      rw [ofPropType, ofPropTypes_eq_map]
      exact .union rfl rfl (forall₂_map ih)
  | array element ih =>
      rw [ofPropType]
      exact .array rfl rfl ih
  | tuple elements ih =>
      rw [ofPropType, ofPropTypes_eq_map]
      exact .tuple rfl rfl (forall₂_map ih)
  | ref index =>
      rw [ofPropType]
      exact .ref rfl rfl
  | partialRef index =>
      rw [ofPropType]
      exact .partialRef rfl rfl
  | fn args result ihargs ihresult =>
      rw [ofPropType, ofSpecs_eq_map]
      exact .fn rfl rfl (forall₂_map fun s hs => encodesSpec_of (ihargs s hs)) rfl
        (encodesSpec_of ihresult)

theorem encodes_ofMember (m : MemberSpec) : EncodesMember (ofMember m) m :=
  ⟨rfl, .mk rfl (encodes_ofPropType m.spec.propType) rfl⟩

theorem encodes_ofRecord (r : RecordSpec) : EncodesRecord (ofRecord r) r :=
  ⟨rfl, _, rfl, forall₂_map fun m _ => encodes_ofMember m⟩

theorem encodes_ofComponent (c : ComponentSpec) : EncodesComponent (ofComponent c) c := ⟨rfl, rfl⟩

/-- What is written for an extraction encodes it. -/
theorem encodes_ofExtraction (x : Extraction) : EncodesExtraction (ofExtraction x) x :=
  ⟨⟨_, rfl, forall₂_map fun c _ => encodes_ofComponent c⟩,
    _, rfl, forall₂_map fun r _ => encodes_ofRecord r⟩

end Writing

section Names
open Json (Distinct)

theorem distinct_map {α : Type} {f : α → Json} {as : List α} (h : ∀ a ∈ as, Distinct (f a)) :
    Distinct (.arr (as.map f)) := by
  refine .arr fun item hitem => ?_
  obtain ⟨a, ha, rfl⟩ := List.mem_map.mp hitem
  exact h a ha

theorem distinct_ofSpec {s : PropSpec} (h : Distinct (ofPropType s.propType)) :
    Distinct (ofSpec s) := by
  rw [ofSpec_eq]
  exact .obj (by simp [Entries.keys]) (by simp [h, Distinct.bool])

theorem distinct_ofPropType (t : PropType) : Distinct (ofPropType t) := by
  induction t using PropType.induct with
  | any | void | string | number | boolean | event | reactElement | reactNode =>
      rw [ofPropType, tagged]
      exact .obj (by simp [Entries.keys]) (by simp [Distinct.str])
  | literal value =>
      rw [ofPropType, tagged]
      refine .obj (by simp [Entries.keys]) ?_
      cases value <;> simp [ofLiteral, Distinct.str, Distinct.int, Distinct.float, Distinct.bool]
  | union options ih =>
      rw [ofPropType, tagged, ofPropTypes_eq_map]
      exact .obj (by simp [Entries.keys]) (by simp [Distinct.str, distinct_map ih])
  | array element ih =>
      rw [ofPropType, tagged]
      exact .obj (by simp [Entries.keys]) (by simp [Distinct.str, ih])
  | tuple elements ih =>
      rw [ofPropType, tagged, ofPropTypes_eq_map]
      exact .obj (by simp [Entries.keys]) (by simp [Distinct.str, distinct_map ih])
  | ref index | partialRef index =>
      rw [ofPropType, tagged]
      exact .obj (by simp [Entries.keys]) (by simp [Distinct.str, Distinct.int])
  | fn args result ihargs ihresult =>
      rw [ofPropType, tagged, ofSpecs_eq_map]
      have hargs := distinct_map fun s hs => distinct_ofSpec (ihargs s hs)
      exact .obj (by simp [Entries.keys]) (by simp [Distinct.str, hargs, distinct_ofSpec ihresult])

theorem distinct_ofMember (m : MemberSpec) : Distinct (ofMember m) :=
  .obj (by simp [Entries.keys]) (by simp [Distinct.str, Distinct.bool, distinct_ofPropType])

theorem distinct_ofRecord (r : RecordSpec) : Distinct (ofRecord r) := by
  have hname : Distinct (Json.ofOptionString r.name) := by
    cases r.name with
    | none => exact .null
    | some s => exact .str s
  have hmembers := distinct_map fun m (_ : m ∈ r.members) => distinct_ofMember m
  exact .obj (by simp [Entries.keys]) (by simp [hname, hmembers])

theorem distinct_ofComponent (c : ComponentSpec) : Distinct (ofComponent c) :=
  .obj (by simp [Entries.keys]) (by simp [Distinct.str, Distinct.int])

/-- What is written for an extraction names no field twice. -/
theorem distinct_ofExtraction (x : Extraction) : Distinct (ofExtraction x) := by
  have hcomponents := distinct_map fun c (_ : c ∈ x.components) => distinct_ofComponent c
  have hrefs := distinct_map fun r (_ : r ∈ x.refs) => distinct_ofRecord r
  exact .obj (by simp [Entries.keys]) (by simp [hcomponents, hrefs])

end Names

end Wire

end PropSchema
