import Mathlib.Logic.Relation
import PropSchema.Proofs.Classify.Correspondence
/-!
Outcomes that are merged. The tables stand one after the other, the indices of each shifted past the
tables before it. Written out to any depth, a component has the schema that it has in its own
outcome, and no index leads from an entry of one outcome to an entry of another.
-/
namespace PropSchema

/-- A schema whose references are written out, with entries in the place of their indices. -/
inductive SchemaTree where
  /-- A variant that contains no other. -/
  | plain (type : PropType)
  | union (options : List SchemaTree)
  | array (element : SchemaTree)
  | tuple (elements : List SchemaTree)
  | ref (entry : SchemaTree)
  | partialRef (entry : SchemaTree)
  | fn (args : List (Spec SchemaTree)) (result : Spec SchemaTree)
  | record (name : Option String) (members : List (String × Spec SchemaTree))
  /-- An index without an entry. -/
  | missing
  /-- Where the depth is used up. -/
  | cut

namespace PropType

mutual

/-- The tree of a prop type, given those of the entries of its table. -/
def tree (entry : Int → SchemaTree) : PropType → SchemaTree
  | .union options => .union (treeAll entry options)
  | .array element => .array (tree entry element)
  | .tuple elements => .tuple (treeAll entry elements)
  | .ref index => .ref (entry index)
  | .partialRef index => .partialRef (entry index)
  | .fn args result => .fn (treeSpecs entry args) (treeSpec entry result)
  | t => .plain t

def treeAll (entry : Int → SchemaTree) : List PropType → List SchemaTree
  | [] => []
  | t :: ts => tree entry t :: treeAll entry ts

def treeSpec (entry : Int → SchemaTree) : Spec PropType → Spec SchemaTree
  | ⟨t, n⟩ => ⟨tree entry t, n⟩

def treeSpecs (entry : Int → SchemaTree) : List (Spec PropType) → List (Spec SchemaTree)
  | [] => []
  | s :: ss => treeSpec entry s :: treeSpecs entry ss

end

variable {entry entry' : Int → SchemaTree} {offset : Int}

theorem treeAll_eq_map (ts : List PropType) : treeAll entry ts = ts.map (tree entry) := by
  induction ts with
  | nil => rfl
  | cons t ts ih => rw [treeAll, ih, List.map_cons]

theorem treeSpec_eq (s : PropSpec) : treeSpec entry s = ⟨s.propType.tree entry, s.isNullable⟩ := by
  cases s
  rw [treeSpec]

theorem treeSpecs_eq_map (specs : List PropSpec) :
    treeSpecs entry specs = specs.map (treeSpec entry) := by
  induction specs with
  | nil => rfl
  | cons s specs ih => rw [treeSpecs, ih, List.map_cons]

/-- Only the entries that a prop type points at show in its tree. -/
theorem tree_congr {t : PropType} (h : ∀ i ∈ t.indices, entry i = entry' i) :
    t.tree entry = t.tree entry' := by
  induction t using PropType.induct with
  | union ts ih | tuple ts ih =>
      simp only [indices, mem_indicesAll] at h
      simp only [tree, treeAll_eq_map]
      refine congrArg _ (List.map_congr_left fun t ht => ih t ht fun i hi => h i ⟨t, ht, hi⟩)
  | array t ih =>
      simp only [tree]
      exact congrArg _ (ih h)
  | ref index | partialRef index =>
      simp only [tree]
      exact congrArg _ (h index (List.mem_singleton_self index))
  | fn args result iha ihr =>
      simp only [indices, List.mem_append, mem_indicesSpecs, indicesSpec_eq] at h
      simp only [tree, treeSpecs_eq_map, treeSpec_eq]
      have hargs : args.map (treeSpec entry) = args.map (treeSpec entry') := by
        refine List.map_congr_left fun s hs => ?_
        rw [treeSpec_eq, treeSpec_eq, iha s hs fun i hi => h i (.inl ⟨s, hs, hi⟩)]
      rw [hargs, ihr fun i hi => h i (.inr hi)]
  | _ => rfl

/-- A shifted prop type shows the entries that stand so much further on. -/
theorem tree_shift (t : PropType) :
    (t.shift offset).tree entry = t.tree fun i => entry (i + offset) := by
  induction t using PropType.induct with
  | union ts ih | tuple ts ih =>
      simp only [shift, tree, shiftAll_eq_map, treeAll_eq_map, List.map_map]
      exact congrArg _ (List.map_congr_left ih)
  | array t ih => simp only [shift, tree, ih]
  | fn args result iha ihr =>
      simp only [shift, tree, shiftSpecs_eq_map, shiftSpec_eq, treeSpecs_eq_map, treeSpec_eq,
        List.map_map, Spec.shift, ihr]
      refine congrArg (SchemaTree.fn · _) (List.map_congr_left fun s hs => ?_)
      simp only [Function.comp_apply, Spec.shift, treeSpec_eq, iha s hs]
  | _ => rfl

theorem indices_shift (t : PropType) : (t.shift offset).indices = t.indices.map (· + offset) := by
  induction t using PropType.induct with
  | union ts ih | tuple ts ih =>
      simp only [shift, indices, shiftAll_eq_map, indicesAll_eq_flatMap, List.flatMap_map,
        List.map_flatMap]
      exact List.flatMap_congr ih
  | array t ih => simp only [shift, indices, ih]
  | fn args result iha ihr =>
      simp only [shift, indices, shiftSpecs_eq_map, shiftSpec_eq, indicesSpecs_eq_flatMap,
        indicesSpec_eq, List.flatMap_map, List.map_flatMap, List.map_append, Spec.shift, ihr]
      exact congrArg (· ++ _) (List.flatMap_congr iha)
  | _ => rfl

end PropType

namespace RecordSpec

/-- The tree of an entry, given those of the entries that it points at. -/
def tree (entry : Int → SchemaTree) (e : RecordSpec) : SchemaTree :=
  .record e.name (e.members.map fun m => (m.name, ⟨m.spec.propType.tree entry, m.spec.isNullable⟩))

variable {entry entry' : Int → SchemaTree} {offset : Int}

theorem tree_congr {e : RecordSpec} (h : ∀ i ∈ e.indices, entry i = entry' i) :
    e.tree entry = e.tree entry' := by
  refine congrArg _ (List.map_congr_left fun m hm => ?_)
  have htree : m.spec.propType.tree entry = m.spec.propType.tree entry' :=
    PropType.tree_congr fun i hi => h i (List.mem_flatMap.mpr ⟨m, hm, hi⟩)
  rw [htree]

theorem tree_shift (e : RecordSpec) :
    (e.shift offset).tree entry = e.tree fun i => entry (i + offset) := by
  simp only [tree, shift, List.map_map]
  refine congrArg _ (List.map_congr_left fun m _ => ?_)
  simp only [Function.comp_apply, MemberSpec.shift, Spec.shift, PropType.tree_shift]

theorem indices_shift (e : RecordSpec) : (e.shift offset).indices = e.indices.map (· + offset) := by
  simp only [indices, shift, List.flatMap_map, List.map_flatMap]
  exact List.flatMap_congr fun m _ => PropType.indices_shift m.spec.propType

end RecordSpec

/-- The tree of the entry at an index, down to a depth. -/
def entryTree (refs : List RecordSpec) : Nat → Int → SchemaTree
  | 0, _ => .cut
  | depth + 1, index =>
    match recordAt? refs index with
    | none => .missing
    | some e => e.tree (entryTree refs depth)

/-- An index in an entry of a table that leads to another index. -/
def PointsAt (refs : List RecordSpec) (i j : Int) : Prop :=
  ∃ e, recordAt? refs i = some e ∧ j ∈ e.indices

/-- The indices of so many entries from a place on. -/
def InBlock (start size : Nat) (i : Int) : Prop := (start : Int) ≤ i ∧ i < start + size

section Tables
variable {refs more : List RecordSpec} {i j : Int}

theorem recordAt?_append_left (hi : i < refs.length) :
    recordAt? (refs ++ more) i = recordAt? refs i := by
  unfold recordAt?
  split
  · exact List.getElem?_append_left (by omega)
  · rfl

theorem recordAt?_append_right (hi : 0 ≤ i) :
    recordAt? (refs ++ more) (i + refs.length) = recordAt? more i := by
  unfold recordAt?
  rw [if_pos hi, if_pos (by omega), List.getElem?_append_right (by omega)]
  congr 1
  omega

theorem recordAt?_map (f : RecordSpec → RecordSpec) :
    recordAt? (refs.map f) i = (recordAt? refs i).map f := by
  unfold recordAt?
  split
  · exact List.getElem?_map
  · rfl

/-- Every index in a table is one of its own. -/
def TableClosed (refs : List RecordSpec) : Prop :=
  ∀ i j, PointsAt refs i j → InBlock 0 refs.length j

theorem TableClosed.entryTree_append (h : TableClosed refs) (more : List RecordSpec) (depth : Nat)
    (hi : i < refs.length) : entryTree (refs ++ more) depth i = entryTree refs depth i := by
  induction depth generalizing i with
  | zero => rfl
  | succ depth ih =>
      rw [entryTree, entryTree, recordAt?_append_left hi]
      cases he : recordAt? refs i with
      | none => rfl
      | some e =>
          refine RecordSpec.tree_congr fun j hj => ih ?_
          have hblock := h i j ⟨e, he, hj⟩
          unfold InBlock at hblock
          omega

theorem TableClosed.entryTree_shift (h : TableClosed more) (refs : List RecordSpec) (depth : Nat)
    (hi : 0 ≤ i) :
    entryTree (refs ++ more.map (RecordSpec.shift refs.length)) depth (i + refs.length) =
      entryTree more depth i := by
  induction depth generalizing i with
  | zero => rfl
  | succ depth ih =>
      rw [entryTree, entryTree, recordAt?_append_right hi, recordAt?_map]
      cases he : recordAt? more i with
      | none => rfl
      | some e =>
          refine (RecordSpec.tree_shift e).trans (RecordSpec.tree_congr fun j hj => ih ?_)
          exact (h i j ⟨e, he, hj⟩).1

theorem mem_of_recordAt? {e : RecordSpec} (h : recordAt? refs i = some e) : e ∈ refs := by
  unfold recordAt? at h
  split at h
  · exact List.mem_of_getElem? h
  · cases h

theorem pointsAt_of_append (hi : i < refs.length) (h : PointsAt (refs ++ more) i j) :
    PointsAt refs i j := by
  obtain ⟨e, he, hj⟩ := h
  exact ⟨e, recordAt?_append_left hi ▸ he, hj⟩

/-- A table that is put behind another one keeps to itself. -/
theorem TableClosed.inBlock_of_shift (h : TableClosed more)
    (hi : InBlock refs.length more.length i)
    (hij : PointsAt (refs ++ more.map (RecordSpec.shift refs.length)) i j) :
    InBlock refs.length more.length j := by
  unfold InBlock at hi
  obtain ⟨e, he, hj⟩ := hij
  obtain ⟨k, rfl⟩ : ∃ k, i = k + refs.length := ⟨i - refs.length, by omega⟩
  rw [recordAt?_append_right (by omega), recordAt?_map] at he
  obtain ⟨e', he', rfl⟩ := Option.map_eq_some_iff.mp he
  rw [RecordSpec.indices_shift] at hj
  obtain ⟨j', hj', rfl⟩ := List.mem_map.mp hj
  have hblock := h k j' ⟨e', he', hj'⟩
  unfold InBlock at hblock ⊢
  omega

end Tables

namespace Extraction
variable {x y : Extraction} {xs : List Extraction}

/-- The components by name, each with the tree of its props down to a depth. -/
def trees (depth : Nat) (x : Extraction) : List (String × SchemaTree) :=
  x.components.map fun c => (c.name, entryTree x.refs depth c.props)

theorem mem_indices {i : Int} :
    i ∈ x.indices ↔ (∃ c ∈ x.components, c.props = i) ∨ ∃ e ∈ x.refs, i ∈ e.indices := by
  simp only [indices, List.mem_append, List.mem_map, List.mem_flatMap]

theorem Valid.closed (h : x.Valid) : TableClosed x.refs := by
  rintro i j ⟨e, he, hj⟩
  have hlt := h j (mem_indices.mpr (.inr ⟨e, mem_of_recordAt? he, hj⟩))
  unfold InBlock
  omega

theorem Valid.merge (hx : x.Valid) (hy : y.Valid) : (x.merge y).Valid := by
  intro i hi
  have hlen : (x.merge y).refs.length = x.refs.length + y.refs.length := by
    simp [Extraction.merge, Extraction.shift]
  rw [hlen]
  -- an index of the first is in the first table, one of the second is shifted with its own
  have hfirst : i ∈ x.indices → 0 ≤ i ∧ i < ((x.refs.length + y.refs.length : Nat) : Int) := by
    intro h
    have := hx i h
    omega
  have hsecond : ∀ j ∈ y.indices, j + x.refs.length = i →
      0 ≤ i ∧ i < ((x.refs.length + y.refs.length : Nat) : Int) := by
    intro j h hji
    have := hy j h
    omega
  rcases mem_indices.mp hi with ⟨c, hc, rfl⟩ | ⟨e, he, hie⟩
  · rcases List.mem_append.mp hc with hc | hc
    · exact hfirst (mem_indices.mpr (.inl ⟨c, hc, rfl⟩))
    · obtain ⟨c', hc', rfl⟩ := List.mem_map.mp hc
      exact hsecond c'.props (mem_indices.mpr (.inl ⟨c', hc', rfl⟩)) rfl
  · rcases List.mem_append.mp he with he | he
    · exact hfirst (mem_indices.mpr (.inr ⟨e, he, hie⟩))
    · obtain ⟨e', he', rfl⟩ := List.mem_map.mp he
      rw [RecordSpec.indices_shift] at hie
      obtain ⟨j, hj, hji⟩ := List.mem_map.mp hie
      exact hsecond j (mem_indices.mpr (.inr ⟨e', he', hj⟩)) hji

theorem trees_merge (hx : x.Valid) (hy : y.Valid) (depth : Nat) :
    (x.merge y).trees depth = x.trees depth ++ y.trees depth := by
  have hprops : ∀ {z : Extraction}, z.Valid →
      ∀ c ∈ z.components, 0 ≤ c.props ∧ c.props < z.refs.length :=
    fun hz c hc => hz c.props (mem_indices.mpr (.inl ⟨c, hc, rfl⟩))
  simp only [trees, Extraction.merge, Extraction.shift, List.map_append, List.map_map]
  refine congrArg₂ _ (List.map_congr_left fun c hc => ?_) (List.map_congr_left fun c hc => ?_)
  · rw [hx.closed.entryTree_append _ depth (hprops hx c hc).2]
  · simp only [Function.comp_apply, ComponentSpec.shift]
    rw [hy.closed.entryTree_shift x.refs depth (hprops hy c hc).1]

/-- The entries of several tables together. -/
def tableSize (xs : List Extraction) : Nat := (xs.map fun x => x.refs.length).sum

/-- The components of several outcomes together. -/
def componentCount (xs : List Extraction) : Nat := (xs.map fun x => x.components.length).sum

/-- What an outcome has from those that are merged into it. -/
structure MergedFrom (m : Extraction) (xs : List Extraction) : Prop where
  valid : m.Valid
  size : m.refs.length = tableSize xs
  /-- The components are those of the parts in their order, each with its own tree to any depth. -/
  trees : ∀ depth, m.trees depth = xs.flatMap (trees depth)
  /-- The components of a part stand together, and their props are in the block of its entries. -/
  placed : ∀ before x after, xs = before ++ x :: after → ∃ earlier later,
    m.components = earlier ++ x.components.map (ComponentSpec.shift (tableSize before)) ++ later ∧
      earlier.length = componentCount before
  /-- What a part's entries lead to, however far it is followed, is in the block of its entries. -/
  apart : ∀ before x after, xs = before ++ x :: after → ∀ i j,
    InBlock (tableSize before) x.refs.length i → Relation.ReflTransGen (PointsAt m.refs) i j →
      InBlock (tableSize before) x.refs.length j

theorem tableSize_append (xs ys : List Extraction) :
    tableSize (xs ++ ys) = tableSize xs + tableSize ys := by
  simp only [tableSize, List.map_append, List.sum_append]

theorem tableSize_cons (x : Extraction) (xs : List Extraction) :
    tableSize (x :: xs) = x.refs.length + tableSize xs := by
  simp only [tableSize, List.map_cons, List.sum_cons]

namespace MergedFrom
variable {m : Extraction}

theorem nil : MergedFrom empty [] where
  valid := by decide
  size := rfl
  trees _ := rfl
  placed before x after h := by simp at h
  apart before x after h := by simp at h

theorem componentCount_eq (h : MergedFrom m xs) : m.components.length = componentCount xs := by
  have hlen := congrArg List.length (h.trees 0)
  simpa [Extraction.trees, List.length_flatMap, componentCount] using hlen

/-- A block of a part is within the table of all. -/
theorem block_le (h : MergedFrom m xs) {before after : List Extraction}
    (hs : xs = before ++ x :: after)
    {i : Int} (hi : InBlock (tableSize before) x.refs.length i) : i < m.refs.length := by
  rw [h.size, hs, tableSize_append, tableSize_cons]
  unfold InBlock at hi
  omega

theorem refs_merge : (m.merge x).refs = m.refs ++ x.refs.map (RecordSpec.shift m.refs.length) := rfl

theorem components_merge : (m.merge x).components =
    m.components ++ x.components.map (ComponentSpec.shift m.refs.length) := rfl

/-- One more outcome goes behind all others. -/
theorem merge (h : MergedFrom m xs) (hx : x.Valid) : MergedFrom (m.merge x) (xs ++ [x]) where
  valid := h.valid.merge hx
  size := by
    rw [refs_merge, List.length_append, List.length_map, h.size, tableSize_append, tableSize_cons]
    rfl
  trees depth := by
    rw [trees_merge h.valid hx, h.trees, List.flatMap_append, List.flatMap_singleton]
  placed before y after hs := by
    rcases List.eq_nil_or_concat after with rfl | ⟨after, z, rfl⟩
    · obtain ⟨rfl, hy⟩ := List.append_inj' hs rfl
      cases hy
      refine ⟨m.components, [], ?_, h.componentCount_eq⟩
      rw [components_merge, h.size, List.append_nil]
    · rw [List.concat_eq_append, ← List.cons_append, ← List.append_assoc] at hs
      obtain ⟨hs, hz⟩ := List.append_inj' hs rfl
      obtain ⟨earlier, later, hm, hlen⟩ := h.placed before y after hs
      refine ⟨earlier, later ++ x.components.map (ComponentSpec.shift m.refs.length), ?_, hlen⟩
      rw [components_merge, hm, List.append_assoc]
  apart before y after hs i j hi hij := by
    -- one step from a block stays in it, whether the block was there before or is the new one
    have hstep : ∀ k l, InBlock (tableSize before) y.refs.length k → PointsAt (m.merge x).refs k l →
        InBlock (tableSize before) y.refs.length l := by
      intro k l hk hkl
      rcases List.eq_nil_or_concat after with rfl | ⟨after, z, rfl⟩
      · obtain ⟨rfl, hy⟩ := List.append_inj' hs rfl
        cases hy
        rw [← h.size] at hk ⊢
        exact hx.closed.inBlock_of_shift hk hkl
      · rw [List.concat_eq_append, ← List.cons_append, ← List.append_assoc] at hs
        obtain ⟨hs, hz⟩ := List.append_inj' hs rfl
        exact h.apart before y after hs k l hk (.single (pointsAt_of_append (h.block_le hs hk) hkl))
    induction hij with
    | refl => exact hi
    | tail _ hkl ih => exact hstep _ _ ih hkl

end MergedFrom

/-- Outcomes that are merged one after the other keep what they say. -/
theorem merged_from_valid (xs : List Extraction) (h : ∀ x ∈ xs, x.Valid) :
    MergedFrom (xs.foldl Extraction.merge empty) xs := by
  induction xs using List.reverseRecOn with
  | nil => exact .nil
  | append_singleton xs x ih =>
      rw [List.foldl_append]
      exact (ih fun y hy => h y (List.mem_append_left _ hy)).merge
        (h x (List.mem_append_right _ (List.mem_singleton_self x)))

/-- A record that leads to itself and to an anonymous one through all that may stand between. -/
def linked : Extraction := ⟨[⟨"Tree", 0⟩],
  [⟨some "Node", [⟨"next", ⟨.union [.array (.tuple [.ref 0, .string]), .partialRef 1], true⟩⟩,
    ⟨"visit", ⟨.fn [⟨.partialRef 0, true⟩] ⟨.array (.ref 1), false⟩, false⟩⟩]⟩, ⟨none, []⟩]⟩

def single : Extraction := ⟨[⟨"Flag", 0⟩], [⟨none, [⟨"on", ⟨.boolean, false⟩⟩]⟩]⟩

theorem merged_from_linked : (∀ x ∈ [linked, single, linked], x.Valid) ∧
    ([linked, single, linked].foldl Extraction.merge empty).components =
      [⟨"Tree", 0⟩, ⟨"Flag", 2⟩, ⟨"Tree", 3⟩] ∧
    MergedFrom ([linked, single, linked].foldl Extraction.merge empty) [linked, single, linked] :=
  ⟨by decide, by decide, merged_from_valid [linked, single, linked] (by decide)⟩

end Extraction

end PropSchema
