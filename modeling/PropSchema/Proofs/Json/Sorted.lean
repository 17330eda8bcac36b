import PropSchema.Proofs.Json.RoundTrip
import PropSchema.Proofs.Sequences
/-!
Sorted objects. A value without repeated field names has the same fields after sorting, and none
twice, and sorting it again changes nothing. It has a text if it had one before.
-/
namespace PropSchema.Json

theorem sortedItems_eq_map (items : List Json) : sortedItems items = items.map sorted := by
  induction items with
  | nil => rfl
  | cons item items ih => rw [sortedItems, ih, List.map_cons]

theorem sortedFields_eq_map (fields : List (String × Json)) :
    sortedFields fields = fields.map fun field => (field.1, sorted field.2) := by
  induction fields with
  | nil => rfl
  | cons field fields ih => rw [sortedFields, ih, List.map_cons]

theorem sorted_arr (items : List Json) : (arr items).sorted = .arr (items.map sorted) := by
  rw [sorted, sortedItems_eq_map]

/-- The fields of an object with their values sorted, in the order of their names. -/
def ordered (fields : List (String × Json)) : List (String × Json) :=
  (fields.map fun field => (field.1, sorted field.2)).mergeSort fun a b => Text.le a.1 b.1

theorem sorted_obj (fields : List (String × Json)) : (obj fields).sorted = .obj (ordered fields) := by
  rw [sorted, sortedFields_eq_map]
  rfl

theorem ordered_perm (fields : List (String × Json)) :
    (ordered fields).Perm (fields.map fun field => (field.1, sorted field.2)) :=
  List.mergeSort_perm _ _

theorem keys_map_sorted (fields : List (String × Json)) :
    Entries.keys (fields.map fun field => (field.1, sorted field.2)) = Entries.keys fields := by
  rw [Entries.keys, List.map_map]
  rfl

theorem nodup_ordered {fields : List (String × Json)} (h : (Entries.keys fields).Nodup) :
    (Entries.keys (ordered fields)).Nodup := by
  refine ((ordered_perm fields).map Prod.fst).nodup_iff.mpr ?_
  change (Entries.keys _).Nodup
  rw [keys_map_sorted]
  exact h

theorem lookup_ordered {fields : List (String × Json)} (h : (Entries.keys fields).Nodup)
    (name : String) : (ordered fields).lookup name = (fields.lookup name).map sorted := by
  rw [Entries.lookup_perm (ordered_perm fields) (nodup_ordered h)]
  exact Entries.lookup_map sorted name fields

theorem pairwise_ordered (fields : List (String × Json)) :
    (ordered fields).Pairwise fun a b => Text.le a.1 b.1 :=
  (Sequences.pairwise_mergeSort Prod.fst _).imp Sequences.textLe_iff.mpr

namespace Distinct

theorem sorted {j : Json} (h : Distinct j) : Distinct j.sorted := by
  induction h with
  | null => exact .null
  | bool b => exact .bool b
  | int n => exact .int n
  | float x => exact .float x
  | str s => exact .str s
  | arr _ ih =>
      rw [sorted_arr]
      refine .arr fun item hitem => ?_
      obtain ⟨item, hmem, rfl⟩ := List.mem_map.mp hitem
      exact ih item hmem
  | obj names _ ih =>
      rw [sorted_obj]
      refine .obj (nodup_ordered names) fun field hfield => ?_
      obtain ⟨field, hmem, rfl⟩ := List.mem_map.mp ((ordered_perm _).mem_iff.mp hfield)
      exact ih field hmem

/-- What is sorted stays as it is. -/
theorem sorted_sorted {j : Json} (h : Distinct j) : j.sorted.sorted = j.sorted := by
  induction h with
  | arr _ ih =>
      rw [sorted_arr, sorted_arr, List.map_map]
      exact congrArg _ (List.map_congr_left ih)
  | @obj fields _ _ ih =>
      rw [sorted_obj, sorted_obj, ordered]
      congr 1
      have hfields : ∀ field ∈ ordered fields, (field.1, field.2.sorted) = field := by
        intro field hfield
        obtain ⟨field, hmem, rfl⟩ := List.mem_map.mp ((ordered_perm _).mem_iff.mp hfield)
        exact congrArg _ (ih field hmem)
      rw [List.map_congr_left hfields, List.map_id']
      exact List.mergeSort_of_pairwise (pairwise_ordered _)
  | _ => rfl

theorem isWritable_sorted {j : Json} (h : Distinct j) : j.sorted.isWritable = j.isWritable := by
  induction h with
  | arr _ ih =>
      rw [Bool.eq_iff_iff, sorted_arr, isWritable, isWritable, areWritable_iff, areWritable_iff,
        List.forall_mem_map]
      exact forall₂_congr fun item hitem => by rw [ih item hitem]
  | @obj fields _ _ ih =>
      have hmem : ∀ field, field ∈ ordered fields ↔ _ := fun _ => (ordered_perm fields).mem_iff
      rw [Bool.eq_iff_iff, sorted_obj, isWritable, isWritable, fieldsWritable_iff,
        fieldsWritable_iff]
      simp only [hmem, List.forall_mem_map]
      exact forall₂_congr fun field hfield => by rw [ih field hfield]
  | _ => rfl

theorem renderSorted_eq {j : Json} (h : Distinct j) (indent : Option Nat) :
    j.renderSorted indent = j.sorted.render indent := by
  rw [renderSorted, render, h.isWritable_sorted]

theorem field?_sorted {j : Json} (h : Distinct j) (name : String) :
    j.sorted.field? name = (j.field? name).map Json.sorted := by
  cases h with
  | obj names _ =>
      rw [sorted_obj]
      exact lookup_ordered names name
  | arr _ => rw [sorted_arr]; rfl
  | _ => rfl

theorem field {j value : Json} {name : String} (h : Distinct j) (hf : j.field? name = some value) :
    Distinct value := by
  cases h with
  | obj _ all => exact all _ (Entries.mem_of_lookup hf)
  | _ => nomatch hf

theorem item {items : List Json} (h : Distinct (.arr items)) {j : Json} (hj : j ∈ items) :
    Distinct j := by
  cases h with
  | arr all => exact all j hj

end Distinct

end PropSchema.Json
