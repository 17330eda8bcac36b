import PropSchema.Schema.Extraction
/-!
Prop types by their forms. The parts of a prop type stand in lists and behind nullability, so
induction over prop types is stated once, and what is defined part by part is told as a map.
-/
namespace PropSchema

namespace PropType

/-- Induction over a prop type, which holds of all parts that a list of them has. -/
@[elab_as_elim]
theorem induct {motive : PropType → Prop} (any : motive .any) (void : motive .void)
    (string : motive .string) (number : motive .number) (boolean : motive .boolean)
    (event : motive .event) (reactElement : motive .reactElement)
    (reactNode : motive .reactNode) (literal : ∀ value, motive (.literal value))
    (union : ∀ options, (∀ t ∈ options, motive t) → motive (.union options))
    (array : ∀ element, motive element → motive (.array element))
    (tuple : ∀ elements, (∀ t ∈ elements, motive t) → motive (.tuple elements))
    (ref : ∀ index, motive (.ref index)) (partialRef : ∀ index, motive (.partialRef index))
    (fn : ∀ args result, (∀ s ∈ args, motive s.propType) → motive result.propType →
      motive (.fn args result)) (t : PropType) : motive t :=
  PropType.rec (motive_1 := motive) (motive_2 := fun ts => ∀ t ∈ ts, motive t)
    (motive_3 := fun specs => ∀ s ∈ specs, motive s.propType)
    (motive_4 := fun s => motive s.propType)
    any void string number boolean event reactElement reactNode literal union array tuple ref
    partialRef fn (fun _ h => nomatch h)
    (fun _ _ ht hts _ h => (List.mem_cons.mp h).elim (fun e => e ▸ ht) (hts _))
    (fun _ h => nomatch h)
    (fun _ _ hs hss _ h => (List.mem_cons.mp h).elim (fun e => e ▸ hs) (hss _))
    (fun _ _ h => h) t

/-- What holds of a prop type that takes parts if it holds of all of them. -/
structure Heritable (P : PropType → Prop) : Prop where
  any : P .any
  union : ∀ {options}, (∀ t ∈ options, P t) → P (.union options)
  array : ∀ {element}, P element → P (.array element)
  tuple : ∀ {elements}, (∀ t ∈ elements, P t) → P (.tuple elements)
  fn : ∀ {args result}, (∀ s ∈ args, P s.propType) → P result.propType → P (.fn args result)

theorem indicesAll_eq_flatMap (ts : List PropType) : indicesAll ts = ts.flatMap indices := by
  induction ts with
  | nil => rfl
  | cons t ts ih => rw [indicesAll, ih, List.flatMap_cons]

theorem mem_indicesAll {ts : List PropType} {i : Int} :
    i ∈ indicesAll ts ↔ ∃ t ∈ ts, i ∈ t.indices := by
  rw [indicesAll_eq_flatMap, List.mem_flatMap]

theorem eq_nil_of_indicesAll {ts : List PropType} (h : indicesAll ts = []) :
    ∀ t ∈ ts, t.indices = [] := by
  rw [indicesAll_eq_flatMap, List.flatMap_eq_nil_iff] at h
  exact h

theorem indicesSpec_eq (s : PropSpec) : indicesSpec s = s.propType.indices := by
  cases s
  rw [indicesSpec]

theorem indicesSpecs_eq_flatMap (specs : List PropSpec) :
    indicesSpecs specs = specs.flatMap fun s => s.propType.indices := by
  induction specs with
  | nil => rfl
  | cons s specs ih => rw [indicesSpecs, ih, List.flatMap_cons, indicesSpec_eq]

theorem mem_indicesSpecs {specs : List PropSpec} {i : Int} :
    i ∈ indicesSpecs specs ↔ ∃ s ∈ specs, i ∈ s.propType.indices := by
  rw [indicesSpecs_eq_flatMap, List.mem_flatMap]

theorem shiftAll_eq_map (offset : Int) (ts : List PropType) :
    shiftAll offset ts = ts.map (shift offset) := by
  induction ts with
  | nil => rfl
  | cons t ts ih => rw [shiftAll, ih, List.map_cons]

theorem shiftSpec_eq (offset : Int) (s : PropSpec) : shiftSpec offset s = s.shift offset := by
  cases s
  rw [shiftSpec, Spec.shift]

theorem shiftSpecs_eq_map (offset : Int) (specs : List PropSpec) :
    shiftSpecs offset specs = specs.map (Spec.shift offset) := by
  induction specs with
  | nil => rfl
  | cons s specs ih => rw [shiftSpecs, ih, shiftSpec_eq, List.map_cons]

end PropType

end PropSchema
