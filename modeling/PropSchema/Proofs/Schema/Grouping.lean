import PropSchema.Proofs.Schema.Merge
/-!
Shifting and merging as algebra. Shifts of prop types add up and move the indices where they stand,
so outcomes are a monoid under merging and a batch of them may be merged in any grouping. Nothing
here asks that the indices point into their tables.
-/
namespace PropSchema

namespace PropType
variable (t : PropType) (j k : Int)

theorem shift_zero : t.shift 0 = t := by
  induction t using PropType.induct with
  | union ts ih | tuple ts ih => rw [shift, shiftAll_eq_map, List.map_congr_left ih, List.map_id']
  | array t ih => rw [shift, ih]
  | ref index | partialRef index => rw [shift, Int.add_zero]
  | fn args result iha ihr =>
      have hargs : args.map (Spec.shift 0) = args :=
        (List.map_congr_left fun s hs => by rw [Spec.shift, iha s hs]).trans (List.map_id' args)
      rw [shift, shiftSpecs_eq_map, shiftSpec_eq, hargs, Spec.shift, ihr]
  | _ => rfl

theorem shift_shift : (t.shift j).shift k = t.shift (j + k) := by
  induction t using PropType.induct with
  | union ts ih | tuple ts ih =>
      simp only [shift, shiftAll_eq_map, List.map_map]
      exact congrArg _ (List.map_congr_left ih)
  | array t ih => simp only [shift, ih]
  | ref index | partialRef index => simp only [shift, Int.add_assoc]
  | fn args result iha ihr =>
      simp only [shift, shiftSpecs_eq_map, shiftSpec_eq, List.map_map, Spec.shift, ihr]
      refine congrArg (PropType.fn · _) (List.map_congr_left fun s hs => ?_)
      simp only [Function.comp_apply, Spec.shift, iha s hs]
  | _ => rfl

end PropType

namespace Spec
variable (s : PropSpec) (j k : Int)

theorem shift_zero : s.shift 0 = s := by rw [shift, PropType.shift_zero]

theorem shift_shift : (s.shift j).shift k = s.shift (j + k) := by
  simp only [shift, PropType.shift_shift]

theorem indices_shift :
    PropType.indicesSpec (s.shift k) = (PropType.indicesSpec s).map (· + k) := by
  rw [PropType.indicesSpec_eq, PropType.indicesSpec_eq, shift, PropType.indices_shift]

end Spec

namespace RecordSpec
variable (e : RecordSpec) (j k : Int)

theorem shift_zero : e.shift 0 = e := by
  have hmembers : e.members.map (MemberSpec.shift 0) = e.members :=
    (List.map_congr_left fun m _ => by rw [MemberSpec.shift, Spec.shift_zero]).trans
      (List.map_id' e.members)
  rw [shift, hmembers]

theorem shift_shift : (e.shift j).shift k = e.shift (j + k) := by
  simp only [shift, List.map_map]
  refine congrArg _ (List.map_congr_left fun m _ => ?_)
  simp only [Function.comp_apply, MemberSpec.shift, Spec.shift_shift]

end RecordSpec

namespace ComponentSpec
variable (c : ComponentSpec) (j k : Int)

theorem shift_zero : c.shift 0 = c := by rw [shift, Int.add_zero]

theorem shift_shift : (c.shift j).shift k = c.shift (j + k) := by
  simp only [shift, Int.add_assoc]

end ComponentSpec

namespace Extraction
variable (x y z : Extraction) (j k : Int)

theorem shift_zero : x.shift 0 = x := by
  have hcomponents : x.components.map (ComponentSpec.shift 0) = x.components :=
    (List.map_congr_left fun c _ => c.shift_zero).trans (List.map_id' _)
  have hrefs : x.refs.map (RecordSpec.shift 0) = x.refs :=
    (List.map_congr_left fun e _ => e.shift_zero).trans (List.map_id' _)
  rw [shift, hcomponents, hrefs]

theorem shift_shift : (x.shift j).shift k = x.shift (j + k) := by
  simp only [shift, List.map_map]
  refine congrArg₂ _ (List.map_congr_left fun c _ => ?_) (List.map_congr_left fun e _ => ?_)
  · exact c.shift_shift j k
  · exact e.shift_shift j k

theorem length_refs_shift : (x.shift k).refs.length = x.refs.length := by
  rw [shift, List.length_map]

theorem length_refs_merge : (x.merge y).refs.length = x.refs.length + y.refs.length := by
  rw [merge, List.length_append, length_refs_shift]

theorem merge_empty : x.merge empty = x := by
  simp only [merge, shift, empty, List.map_nil, List.append_nil]

theorem empty_merge : empty.merge x = x := by
  have hmoved : x.shift empty.refs.length = x := x.shift_zero
  rw [merge, hmoved]
  rfl

theorem merge_assoc : (x.merge y).merge z = x.merge (y.merge z) := by
  -- what is third is moved past both tables at once, or past one after the other
  have hthird : z.shift (x.merge y).refs.length =
      (z.shift y.refs.length).shift x.refs.length := by
    rw [shift_shift, length_refs_merge, Int.natCast_add, Int.add_comm]
  calc (x.merge y).merge z
      = ⟨(x.merge y).components ++ ((z.shift y.refs.length).shift x.refs.length).components,
          (x.merge y).refs ++ ((z.shift y.refs.length).shift x.refs.length).refs⟩ := by
        rw [merge, hthird]
    _ = x.merge (y.merge z) := by
        simp only [merge, shift, List.map_append, List.append_assoc]

end Extraction

/-- A way to merge a batch of outcomes two by two. -/
inductive Grouping where
  | none
  | one (outcome : Extraction)
  | both (earlier later : Grouping)

namespace Grouping

/-- The batch, from first to last. -/
def outcomes : Grouping → List Extraction
  | .none => []
  | .one x => [x]
  | .both g h => g.outcomes ++ h.outcomes

/-- What comes out when every two groups are merged. -/
def merged : Grouping → Extraction
  | .none => .empty
  | .one x => x
  | .both g h => g.merged.merge h.merged

/-- Merging on from an outcome is merging with what the rest gives. -/
theorem foldl_merge (x : Extraction) (xs : List Extraction) :
    xs.foldl Extraction.merge x = x.merge (xs.foldl Extraction.merge .empty) := by
  induction xs generalizing x with
  | nil => exact x.merge_empty.symm
  | cons y ys ih =>
      rw [List.foldl_cons, List.foldl_cons, ih (x.merge y), Extraction.empty_merge, ih y,
        Extraction.merge_assoc]

theorem merged_eq_foldl (g : Grouping) :
    g.merged = g.outcomes.foldl Extraction.merge .empty := by
  induction g with
  | none => rfl
  | one x => exact x.empty_merge.symm
  | both g h ihg ihh => rw [merged, outcomes, List.foldl_append, foldl_merge, ← ihg, ← ihh]

end Grouping

/-- Shifting acts as the integers add, and moves the indices where they stand. -/
structure IsShift {α : Type} (shift : Int → α → α) (indices : α → List Int) : Prop where
  zero : ∀ x, shift 0 x = x
  add : ∀ x j k, shift k (shift j x) = shift (j + k) x
  indices : ∀ x k, indices (shift k x) = (indices x).map (· + k)

theorem PropType.isShift : IsShift PropType.shift PropType.indices where
  zero := shift_zero
  add := shift_shift
  indices t _ := t.indices_shift

theorem Spec.isShift : IsShift Spec.shift PropType.indicesSpec where
  zero := shift_zero
  add := shift_shift
  indices := indices_shift

theorem RecordSpec.isShift : IsShift RecordSpec.shift RecordSpec.indices where
  zero := shift_zero
  add := shift_shift
  indices e _ := e.indices_shift

/-- Merging is a monoid over the actions that shift its parts, so only the order of a batch shows
in what it is merged to. -/
theorem merging_laws :
    (∀ a b c : Extraction, (a.merge b).merge c = a.merge (b.merge c)) ∧
    (∀ a : Extraction, Extraction.empty.merge a = a ∧ a.merge .empty = a) ∧
    IsShift PropType.shift PropType.indices ∧ IsShift Spec.shift PropType.indicesSpec ∧
    IsShift RecordSpec.shift RecordSpec.indices ∧
    ∀ g : Grouping, g.merged = g.outcomes.foldl Extraction.merge .empty :=
  ⟨Extraction.merge_assoc, fun a => ⟨a.empty_merge, a.merge_empty⟩, PropType.isShift,
    Spec.isShift, RecordSpec.isShift, Grouping.merged_eq_foldl⟩

end PropSchema
