import PropSchema.Proofs.Classify.Growth
/-!
What a pass is asked for, one request after the other, on one context. Every request keeps what is
there, and after a record that could not be classified no request brings the table to an outcome.
-/
namespace PropSchema

/-- What a pass is asked for: the schema of a type, the slot of a record, the slot of a component's
props, or the component that a class declares. -/
inductive Request where
  | spec (id : NodeId)
  | slot (id : NodeId)
  | props (id : NodeId)
  | component (id : NodeId)

inductive Answer where
  | spec (spec : PropSpec)
  | slot (slot : Nat)
  | component (component : Option ComponentSpec)

namespace Request

def run (r : ComponentRules) (g : TypeGraph) : Request → Pass Answer
  | .spec id => do pure (.spec (← Classify.spec r.toRules g (.node id)))
  | .slot id => do pure (.slot (← Classify.slot r.toRules g (.node id)))
  | .props id => do pure (.slot (← Classify.propsSlot r.toRules g (.node id)))
  | .component id => do pure (.component (← Components.ofClass r g id))

/-- Whether a request is for a record, which gets a slot. -/
def forRecord : Request → Bool
  | .spec _ => false
  | _ => true

/-- The context that a request leaves, also if it fails. -/
def after (r : ComponentRules) (g : TypeGraph) (c : Context) (q : Request) : Context :=
  ((q.run r g).run c).2

/-- The context that requests leave, one after the other, those that fail included. -/
def afterAll (r : ComponentRules) (g : TypeGraph) (c : Context) (qs : List Request) : Context :=
  qs.foldl (after r g) c

variable (r : ComponentRules) (g : TypeGraph)

theorem run_extending (q : Request) : (q.run r g).Extending := by
  cases q with
  | spec id => exact .bind (Classify.spec_extending _ _ _) fun _ => .pure _
  | slot id => exact .bind (Classify.slot_extending _ _ _) fun _ => .pure _
  | props id => exact .bind (Classify.propsSlot_extending _ _ _) fun _ => .pure _
  | component id => exact .bind (Components.ofClass_extending _ _ _) fun _ => .pure _

theorem extends_after (c : Context) (q : Request) : c.Extends (after r g c q) :=
  run_extending r g q c

theorem extends_afterAll (c : Context) (qs : List Request) : c.Extends (afterAll r g c qs) := by
  induction qs generalizing c with
  | nil => exact .refl c
  | cons q qs ih => exact (extends_after r g c q).trans (ih (after r g c q))

variable {r g}

/-- A request for a record that fails leaves the first slot empty that it has made. -/
theorem leaves_empty {q : Request} (hq : q.forRecord) {c c' : Context} {fault : PassFault}
    (h : (q.run r g).run c = (.error fault, c')) : c'.slots[c.slots.length]? = some none := by
  cases q with
  | spec id => cases hq
  | slot id =>
      obtain hf | ⟨_, _, -, h₁⟩ := Pass.error_of_bind h
      · exact Classify.slot_leaves_empty hf
      · cases h₁
  | props id =>
      obtain hf | ⟨_, _, -, h₁⟩ := Pass.error_of_bind h
      · exact Classify.slot_leaves_empty hf
      · cases h₁
  | component id =>
      obtain hf | ⟨_, _, -, h₁⟩ := Pass.error_of_bind h
      · exact Components.ofClass_leaves_empty hf
      · cases h₁

end Request

namespace Context

theorem mem_unfinished {c : Context} {slot : Nat} (h : c.slots[slot]? = some none) :
    slot ∈ c.unfinished := by
  obtain ⟨hlt, hget⟩ := List.getElem?_eq_some_iff.mp h
  simp [unfinished, hlt, hget]

/-- A table with an empty slot has no outcome. -/
theorem result_of_unfinished {c : Context} (h : c.unfinished ≠ [])
    (components : List ComponentSpec) :
    c.result components = .error (.unfinished c.unfinished) := by
  unfold result
  split
  · contradiction
  · rfl

/-- A table without empty slot is frozen as it is, if its indices are valid. -/
theorem result_of_filled {c : Context} (h : c.unfinished = []) (components : List ComponentSpec) :
    c.result components =
      match (⟨components, c.slots.filterMap id⟩ : Extraction).dangling? with
        | some index => .error (.dangling index)
        | none => .ok ⟨components, c.slots.filterMap id⟩ := by
  unfold result
  split
  · rfl
  · contradiction

theorem eq_of_result {c : Context} {components : List ComponentSpec} {x : Extraction}
    (h : c.result components = .ok x) : x = ⟨components, c.slots.filterMap id⟩ := by
  by_cases hu : c.unfinished = []
  · rw [result_of_filled hu] at h
    split at h
    · cases h
    · cases h
      rfl
  · rw [result_of_unfinished hu] at h
    cases h

theorem valid_of_result {c : Context} {components : List ComponentSpec} {x : Extraction}
    (h : c.result components = .ok x) : x.Valid := by
  by_cases hu : c.unfinished = []
  · rw [result_of_filled hu] at h
    split at h
    · cases h
    · next hnone =>
        cases h
        exact (Extraction.dangling?_eq_none_iff _).mp hnone
  · rw [result_of_unfinished hu] at h
    cases h

end Context

namespace Request

/-- Every request, whether it fails or not, keeps the slots, the memo and the owners. Once a request
for a record has failed, no table that later requests leave has an outcome, for the slot that the
failure left empty is among those that were never completed. -/
theorem keeps_all_and_publishes_no_part (r : ComponentRules) (g : TypeGraph) (c : Context)
    (q : Request) :
    c.Extends (after r g c q) ∧
      ∀ fault, q.forRecord → ((q.run r g).run c).1 = .error fault →
        ∀ later components, ∃ slots, c.slots.length ∈ slots ∧
          (afterAll r g (after r g c q) later).result components = .error (.unfinished slots) := by
  refine ⟨extends_after r g c q, ?_⟩
  intro fault hq hf later components
  have hrun : (q.run r g).run c = (.error fault, after r g c q) := Prod.ext hf rfl
  have hnone := leaves_empty hq hrun
  have hlater := extends_afterAll r g (after r g c q) later
  obtain ⟨hlt, -⟩ := List.getElem?_eq_some_iff.mp hnone
  have hopen : (afterAll r g (after r g c q) later).slots[c.slots.length]? = some none := by
    rw [hlater.slot_eq hlt, hnone]
  have hmem := Context.mem_unfinished hopen
  exact ⟨_, hmem, Context.result_of_unfinished (List.ne_nil_of_mem hmem) components⟩

/-- A record with a member without structure and a member that leads back to it, and a record with
a member of that type. -/
def brokenGraph : TypeGraph :=
  ⟨TypeGraph.initial.nodes ++ #[
    ⟨.record ⟨some "Broken", [⟨"x", some 12, false, none⟩, ⟨"self", some 11, false, none⟩], none,
      [], []⟩, none⟩,
    ⟨.unresolved "?" none, none⟩,
    ⟨.record ⟨some "User", [⟨"of", some 11, false, none⟩], none, [], []⟩, none⟩]⟩

def strictRules : ComponentRules := ⟨⟨Registry.builtin, .strict⟩, Components.defaultMarkers⟩

/-- The record fails, later it has a slot all the same, and the record that uses it is filled, but
there is no outcome. -/
theorem broken_record_is_never_published :
    ((run strictRules brokenGraph (.slot 11)).run .fresh).1 =
        .error (.unclassifiable "?" none none) ∧
      (((run strictRules brokenGraph (.slot 11)).run
        (after strictRules brokenGraph .fresh (.slot 11))).1 matches .ok (.slot 0)) ∧
      (((run strictRules brokenGraph (.slot 13)).run
        (after strictRules brokenGraph .fresh (.slot 11))).1 matches .ok (.slot 1)) ∧
      ∀ components, ∃ slots, 0 ∈ slots ∧
        (afterAll strictRules brokenGraph (after strictRules brokenGraph .fresh (.slot 11))
          [.slot 11, .slot 13]).result components = .error (.unfinished slots) := by
  have hfails : ((run strictRules brokenGraph (.slot 11)).run .fresh).1 =
      .error (.unclassifiable "?" none none) := by rfl
  refine ⟨hfails, by rfl, by rfl, ?_⟩
  exact (keeps_all_and_publishes_no_part strictRules brokenGraph .fresh (.slot 11)).2 _ rfl hfails
    [.slot 11, .slot 13]

end Request

end PropSchema
