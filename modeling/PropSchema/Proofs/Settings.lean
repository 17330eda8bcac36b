import PropSchema.Proofs.Classify.Relocation
import PropSchema.Proofs.Json.Sorted
import PropSchema.Settings
/-!
What the essence of settings tells. Settings whose essences have one text find components by rules
that agree, whatever the order in which they list their markers and symbols.
-/
namespace PropSchema

namespace Registry

/-- What names are known as, given the kinds that users add. -/
def reading (kinds : List (String × String)) (name : String) : Option PropType :=
  match kinds.lookup name with
  | some kind => PropType.simple.lookup kind
  | none => builtin.lookup name

theorem lookup_of_ofKind {kind : String} {t : PropType} (h : PropType.ofKind kind = .ok t) :
    PropType.simple.lookup kind = some t := by
  rw [PropType.ofKind] at h
  cases hlookup : PropType.simple.lookup kind with
  | none => rw [hlookup] at h; nomatch h
  | some found => rw [hlookup] at h; exact congrArg some (Except.ok.inj h)

/-- The kinds added last count, and the built-in names below them. -/
theorem lookup_extend {extra : List (String × String)} {registry : Registry}
    (h : extend extra = .ok registry) (name : String) :
    registry.lookup name = reading (Entries.ofPairs extra) name := by
  have hfold : ∀ (kinds : List (String × String)) (before : Registry),
      (∀ name, before.lookup name = reading kinds name) →
      extra.foldlM (fun registry pair => do
        pure (Entries.put pair.1 (← PropType.ofKind pair.2) registry)) before = .ok registry →
      ∀ name, registry.lookup name =
        reading (extra.foldl (fun kinds pair => Entries.put pair.1 pair.2 kinds) kinds) name := by
    clear h name
    induction extra with
    | nil =>
        intro kinds before hbefore h
        cases h
        exact hbefore
    | cons pair extra ih =>
        intro kinds before hbefore h
        obtain ⟨added, kind⟩ := pair
        rw [List.foldlM_cons] at h
        dsimp only at h
        cases hkind : PropType.ofKind kind with
        | error e => rw [hkind] at h; cases h
        | ok t =>
            rw [hkind] at h
            refine ih _ _ (fun name => ?_) h
            by_cases hname : name = added
            · rw [hname, Entries.lookup_put_self, reading, Entries.lookup_put_self]
              exact (lookup_of_ofKind hkind).symm
            · rw [Entries.lookup_put_of_ne hname, hbefore, reading, reading,
                Entries.lookup_put_of_ne hname]
  exact hfold [] builtin (fun _ => rfl) h name

end Registry

namespace Settings
open Json (Distinct)

/-- The settings that change outcomes, as a text. -/
def essenceText (s : Settings) : String := s.essence.sorted.text none

/-- There are no integers among the settings. -/
theorem essence_isWritable (s : Settings) : s.essence.isWritable = true := by
  refine Json.fieldsWritable_iff.mpr (List.forall_mem_cons.mpr ⟨rfl, List.forall_mem_cons.mpr
    ⟨Json.areWritable_iff.mpr fun item hitem => ?_, List.forall_mem_singleton.mpr
      (Json.fieldsWritable_iff.mpr fun field hfield => ?_)⟩⟩)
  · obtain ⟨marker, -, rfl⟩ := List.mem_map.mp hitem
    rfl
  · rw [Entries.ofPairs_map Json.str] at hfield
    obtain ⟨entry, -, rfl⟩ := List.mem_map.mp hfield
    rfl

theorem distinct_essence (s : Settings) : Distinct s.essence := by
  have hnames : ["error_policy", "component_markers", "known_symbols"].Nodup := by decide
  refine .obj hnames (List.forall_mem_cons.mpr ⟨.str _, List.forall_mem_cons.mpr
    ⟨.arr fun item hitem => ?_, List.forall_mem_singleton.mpr
      (.obj (Entries.nodup_ofPairs _) fun field hfield => ?_)⟩⟩)
  · obtain ⟨marker, -, rfl⟩ := List.mem_map.mp hitem
    exact .str marker
  · rw [Entries.ofPairs_map Json.str] at hfield
    obtain ⟨entry, -, rfl⟩ := List.mem_map.mp hfield
    exact .str entry.2

theorem render_essence (s : Settings) : s.essence.sorted.render none = some s.essenceText :=
  Json.render_eq_some_iff.mpr
    ⟨s.distinct_essence.isWritable_sorted.trans s.essence_isWritable, rfl⟩

variable {s s' : Settings}

/-- What each field of the essence is, after sorting. -/
theorem field_eq (h : s.essenceText = s'.essenceText) (name : String) :
    (s.essence.field? name).map Json.sorted = (s'.essence.field? name).map Json.sorted := by
  have hread := s.distinct_essence.sorted.read_render s.render_essence
  rw [h, s'.distinct_essence.sorted.read_render s'.render_essence] at hread
  rw [← s.distinct_essence.field?_sorted, ← s'.distinct_essence.field?_sorted,
    Except.ok.inj hread]

theorem policy_eq (h : s.essenceText = s'.essenceText) : s.policy = s'.policy := by
  have hname : s.policy.name = s'.policy.name :=
    Json.str.inj (Option.some.inj (field_eq h "error_policy"))
  revert hname
  cases s.policy <;> cases s'.policy <;> decide

theorem contains_eq (h : s.essenceText = s'.essenceText) (name : String) :
    s.markers.contains name = s'.markers.contains name := by
  have hsorted : ∀ markers : List String,
      (Json.arr (markers.map .str)).sorted = .arr (markers.map .str) := by
    intro markers
    rw [Json.sorted_arr, List.map_map]
    exact congrArg _ (List.map_congr_left fun _ _ => rfl)
  have hfield := Option.some.inj (field_eq h "component_markers")
  rw [hsorted, hsorted] at hfield
  have hsort : Text.sort s.markers = Text.sort s'.markers :=
    List.map_injective_iff.mpr (fun _ _ => Json.str.inj) (Json.arr.inj hfield)
  have hmem : ∀ markers : List String, name ∈ markers ↔ name ∈ Text.sort markers := fun markers =>
    (List.mergeSort_perm markers Text.le).mem_iff.symm
  rw [Bool.eq_iff_iff, List.contains_iff_mem, List.contains_iff_mem, hmem, hsort, ← hmem]

theorem lookup_known_eq (h : s.essenceText = s'.essenceText) (name : String) :
    (Entries.ofPairs s.known).lookup name = (Entries.ofPairs s'.known).lookup name := by
  have hlookup : ∀ known : List (String × String),
      (Json.ordered (Entries.ofPairs (known.map fun pair => (pair.1, Json.str pair.2)))).lookup
          name = ((Entries.ofPairs known).lookup name).map Json.str := by
    intro known
    rw [Json.lookup_ordered (Entries.nodup_ofPairs _), Entries.ofPairs_map Json.str,
      Entries.lookup_map, Option.map_map]
    rfl
  have hfield := Option.some.inj (field_eq h "known_symbols")
  rw [Json.sorted_obj, Json.sorted_obj] at hfield
  have heq := congrArg (List.lookup name) (Json.obj.inj hfield)
  rw [hlookup, hlookup] at heq
  exact Option.map_injective (fun _ _ => Json.str.inj) heq

/-- Settings with one essence find components by rules that agree. -/
theorem rules_agree (h : s.essenceText = s'.essenceText) {r r' : ComponentRules}
    (hr : s.rules = .ok r) (hr' : s'.rules = .ok r') : r.Agree r' := by
  have hrules : ∀ {s : Settings} {r : ComponentRules}, s.rules = .ok r →
      ∃ registry, Registry.extend s.known = .ok registry ∧
        r = { registry := registry, policy := s.policy, markers := s.markers } := by
    intro s r hr
    rw [rules] at hr
    cases hregistry : Registry.extend s.known with
    | error e => rw [hregistry] at hr; nomatch hr
    | ok registry =>
        rw [hregistry] at hr
        exact ⟨registry, rfl, (Except.ok.inj hr).symm⟩
  obtain ⟨registry, hregistry, rfl⟩ := hrules hr
  obtain ⟨registry', hregistry', rfl⟩ := hrules hr'
  refine ⟨⟨fun symbol => ?_, policy_eq h⟩, contains_eq h⟩
  cases symbol with
  | none => rfl
  | some symbol =>
      change registry.lookup symbol = registry'.lookup symbol
      rw [Registry.lookup_extend hregistry, Registry.lookup_extend hregistry', Registry.reading,
        Registry.reading, lookup_known_eq h]

end Settings

end PropSchema
