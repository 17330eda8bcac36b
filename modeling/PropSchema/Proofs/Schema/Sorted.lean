import PropSchema.Proofs.Json.Sorted
import PropSchema.Proofs.Schema.Wire
/-!
Sorting the fields of a value keeps the schema that the value encodes.
-/
namespace PropSchema.Wire
open Json (Distinct)

theorem field_sorted {j value : Json} {name : String} (h : Distinct j)
    (hf : j.field? name = some value) : j.sorted.field? name = some value.sorted := by
  rw [h.field?_sorted, hf]
  rfl

theorem items_sorted {j : Json} {items : List Json} {name : String} (h : Distinct j)
    (hf : j.field? name = some (.arr items)) :
    j.sorted.field? name = some (.arr (items.map Json.sorted)) := by
  rw [field_sorted h hf, Json.sorted_arr]

/-- Values that encode one by one still do when each is sorted. -/
theorem forall₂_sorted {α : Type} {R : Json → α → Prop} {items : List Json} {as : List α}
    (hitems : Distinct (.arr items)) (h : List.Forall₂ R items as)
    (hsorted : ∀ a ∈ as, ∀ j, Distinct j → R j a → R j.sorted a) :
    List.Forall₂ R (items.map Json.sorted) as := by
  induction h with
  | nil => exact .nil
  | cons hja _ ih =>
      have htail : ∀ items j, Distinct (.arr (j :: items)) → Distinct (.arr items) :=
        fun items j h => .arr fun k hk => h.item (List.mem_cons_of_mem j hk)
      exact .cons (hsorted _ List.mem_cons_self _ (hitems.item List.mem_cons_self) hja)
        (ih (htail _ _ hitems) fun a ha => hsorted a (List.mem_cons_of_mem _ ha))

theorem EncodesSpec.sorted {j : Json} {s : PropSpec} (hj : Distinct j) (h : EncodesSpec j s)
    (hsorted : ∀ j, Distinct j → Encodes j s.propType → Encodes j.sorted s.propType) :
    EncodesSpec j.sorted s := by
  cases h with
  | mk propType encoded isNullable =>
      exact .mk (field_sorted hj propType) (hsorted _ (hj.field propType) encoded)
        (field_sorted hj isNullable)

theorem Encodes.sorted {t : PropType} : ∀ j, Distinct j → Encodes j t → Encodes j.sorted t := by
  induction t using PropType.induct with
  | any | void | string | number | boolean | event | reactElement | reactNode =>
      intro j hj h
      cases h with
      | simple listed kind => exact .simple listed (field_sorted hj kind)
  | literal value =>
      intro j hj h
      cases h with
      | simple listed kind => exact .simple listed (field_sorted hj kind)
      | literal kind field =>
          refine .literal (field_sorted hj kind) ?_
          rw [field_sorted hj field]
          cases value <;> rfl
  | union options ih =>
      intro j hj h
      cases h with
      | simple listed kind => exact .simple listed (field_sorted hj kind)
      | union kind field encoded =>
          exact .union (field_sorted hj kind) (items_sorted hj field)
            (forall₂_sorted (hj.field field) encoded ih)
  | array element ih =>
      intro j hj h
      cases h with
      | simple listed kind => exact .simple listed (field_sorted hj kind)
      | array kind field encoded =>
          exact .array (field_sorted hj kind) (field_sorted hj field)
            (ih _ (hj.field field) encoded)
  | tuple elements ih =>
      intro j hj h
      cases h with
      | simple listed kind => exact .simple listed (field_sorted hj kind)
      | tuple kind field encoded =>
          exact .tuple (field_sorted hj kind) (items_sorted hj field)
            (forall₂_sorted (hj.field field) encoded ih)
  | ref index =>
      intro j hj h
      cases h with
      | simple listed kind => exact .simple listed (field_sorted hj kind)
      | ref kind field => exact .ref (field_sorted hj kind) (field_sorted hj field)
  | partialRef index =>
      intro j hj h
      cases h with
      | simple listed kind => exact .simple listed (field_sorted hj kind)
      | partialRef kind field => exact .partialRef (field_sorted hj kind) (field_sorted hj field)
  | fn args result ihargs ihresult =>
      intro j hj h
      cases h with
      | simple listed kind => exact .simple listed (field_sorted hj kind)
      | fn kind argTypes argsEncoded returnType resultEncoded =>
          exact .fn (field_sorted hj kind) (items_sorted hj argTypes)
            (forall₂_sorted (hj.field argTypes) argsEncoded fun s hs j hj h =>
              h.sorted hj (ihargs s hs))
            (field_sorted hj returnType)
            (resultEncoded.sorted (hj.field returnType) ihresult)

theorem EncodesMember.sorted {m : MemberSpec} (j : Json) (hj : Distinct j)
    (h : EncodesMember j m) : EncodesMember j.sorted m :=
  ⟨field_sorted hj h.name, h.spec.sorted hj Encodes.sorted⟩

theorem EncodesRecord.sorted {r : RecordSpec} (j : Json) (hj : Distinct j)
    (h : EncodesRecord j r) : EncodesRecord j.sorted r := by
  obtain ⟨items, hfield, hall⟩ := h.members
  refine ⟨?_, _, items_sorted hj hfield,
    forall₂_sorted (hj.field hfield) hall fun m _ => EncodesMember.sorted⟩
  rw [field_sorted hj h.name]
  cases r.name <;> rfl

theorem EncodesComponent.sorted {c : ComponentSpec} (j : Json) (hj : Distinct j)
    (h : EncodesComponent j c) : EncodesComponent j.sorted c :=
  ⟨field_sorted hj h.name, field_sorted hj h.props⟩

theorem EncodesExtraction.sorted {x : Extraction} {j : Json} (hj : Distinct j)
    (h : EncodesExtraction j x) : EncodesExtraction j.sorted x := by
  obtain ⟨⟨components, hcomponents, hallComponents⟩, records, hrefs, hallRecords⟩ := h
  exact ⟨⟨_, items_sorted hj hcomponents,
      forall₂_sorted (hj.field hcomponents) hallComponents fun c _ => EncodesComponent.sorted⟩,
    _, items_sorted hj hrefs,
      forall₂_sorted (hj.field hrefs) hallRecords fun r _ => EncodesRecord.sorted⟩

end PropSchema.Wire
