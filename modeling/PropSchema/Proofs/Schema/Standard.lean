import PropSchema.Proofs.Json.Standard
import PropSchema.Proofs.Schema.Wire
/-!
Extractions as standard JSON text. The only numbers of the wire form that a standard text may have no
place for are the literals of prop types.
-/
namespace PropSchema

/-- Whether a literal has a text in standard JSON. -/
def LiteralValue.isFinite : LiteralValue → Bool
  | .float x => x.isFinite
  | _ => true

namespace Wire
open Json (Finite)

theorem finite_map {α : Type} {f : α → Json} {as : List α} (h : ∀ a ∈ as, Finite (f a)) :
    Finite (.arr (as.map f)) := by
  refine .arr fun item hitem => ?_
  obtain ⟨a, ha, rfl⟩ := List.mem_map.mp hitem
  exact h a ha

theorem finite_tagged {kind : String} {fields : List (String × Json)}
    (h : ∀ field ∈ fields, Finite field.2) : Finite (tagged kind fields) :=
  .obj (List.forall_mem_cons.mpr ⟨.str kind, h⟩)

theorem finite_literal {value : LiteralValue} (h : value.isFinite = true) :
    Finite (ofPropType (.literal value)) := by
  rw [ofPropType]
  refine finite_tagged (List.forall_mem_singleton.mpr ?_)
  cases value with
  | str s => exact .str s
  | int n => exact .int n
  | float x => exact .float h
  | bool b => exact .bool b

theorem finite_index (i : Int) :
    Finite (ofPropType (.ref i)) ∧ Finite (ofPropType (.partialRef i)) := by
  rw [ofPropType, ofPropType]
  exact ⟨finite_tagged (List.forall_mem_singleton.mpr (.int i)),
    finite_tagged (List.forall_mem_singleton.mpr (.int i))⟩

theorem finite_simple {t : PropType} (h : t ∈ PropType.simple.map Prod.snd) :
    Finite (ofPropType t) := by
  obtain ⟨name, hmem⟩ : ∃ name, (name, t) ∈ PropType.simple := by simpa using h
  have hfields : ∀ kind, Finite (tagged kind []) := fun _ => finite_tagged nofun
  simp only [PropType.simple, List.mem_cons, Prod.mk.injEq, List.not_mem_nil, or_false] at hmem
  rcases hmem with ⟨-, rfl⟩ | ⟨-, rfl⟩ | ⟨-, rfl⟩ | ⟨-, rfl⟩ | ⟨-, rfl⟩ | ⟨-, rfl⟩ | ⟨-, rfl⟩ |
    ⟨-, rfl⟩ <;> (rw [ofPropType]; exact hfields _)

theorem finite_ofSpec {s : PropSpec} (h : Finite (ofPropType s.propType)) : Finite (ofSpec s) := by
  rw [ofSpec_eq]
  exact .obj (List.forall_mem_cons.mpr ⟨h, List.forall_mem_singleton.mpr (.bool _)⟩)

/-- A prop type that takes parts has no numbers of its own. -/
theorem heritable_finite : PropType.Heritable fun t => Finite (ofPropType t) where
  any := finite_simple (by simp [PropType.simple])
  union h := by
    rw [ofPropType, ofPropTypes_eq_map]
    exact finite_tagged (List.forall_mem_singleton.mpr (finite_map h))
  array h := by
    rw [ofPropType]
    exact finite_tagged (List.forall_mem_singleton.mpr h)
  tuple h := by
    rw [ofPropType, ofPropTypes_eq_map]
    exact finite_tagged (List.forall_mem_singleton.mpr (finite_map h))
  fn hargs hresult := by
    rw [ofPropType, ofSpecs_eq_map]
    exact finite_tagged (List.forall_mem_cons.mpr
      ⟨finite_map fun s hs => finite_ofSpec (hargs s hs),
        List.forall_mem_singleton.mpr (finite_ofSpec hresult)⟩)

theorem finite_ofRecord {record : RecordSpec}
    (h : ∀ m ∈ record.members, Finite (ofPropType m.spec.propType)) : Finite (ofRecord record) := by
  have hname : Finite (Json.ofOptionString record.name) := by
    cases record.name with
    | none => exact .null
    | some s => exact .str s
  have hmember : ∀ m ∈ record.members, Finite (ofMember m) := fun m hm =>
    .obj (List.forall_mem_cons.mpr ⟨.str m.name, List.forall_mem_cons.mpr
      ⟨h m hm, List.forall_mem_singleton.mpr (.bool _)⟩⟩)
  exact .obj (List.forall_mem_cons.mpr ⟨hname, List.forall_mem_singleton.mpr (finite_map hmember)⟩)

/-- The numbers of the wire form are those of the types of members. -/
theorem finite_ofExtraction {x : Extraction} (h : ∀ record ∈ x.refs, ∀ m ∈ record.members,
    Finite (ofPropType m.spec.propType)) : Finite (ofExtraction x) := by
  have hcomponents : Finite (.arr (x.components.map ofComponent)) := finite_map fun c _ =>
    .obj (List.forall_mem_cons.mpr ⟨.str c.name, List.forall_mem_singleton.mpr (.int _)⟩)
  have hrefs : Finite (.arr (x.refs.map ofRecord)) := finite_map fun record hrecord =>
    finite_ofRecord (h record hrecord)
  exact .obj (List.forall_mem_cons.mpr ⟨hcomponents, List.forall_mem_singleton.mpr hrefs⟩)

end Wire

end PropSchema
