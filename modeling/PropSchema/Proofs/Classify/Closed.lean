import PropSchema.Proofs.Classify.Table
import PropSchema.Proofs.Entries
import PropSchema.Proofs.Schema.Forms
/-!
A pass whose requests succeed leaves a closed table: every slot is filled, the memo numbers the
slots one to one, and every index in the table or in an answer is the number of a slot. The outcome
of such a pass always exists, and it is valid.
-/
namespace PropSchema

namespace Registry

/-- The known symbols stand for prop types that point at no record. -/
def Plain (registry : Registry) : Prop :=
  ∀ name t, registry.lookup name = some t → t.indices = []

/-- The known symbols stand for prop types without payload. -/
def Simple (registry : Registry) : Prop :=
  ∀ name t, registry.lookup name = some t → t ∈ PropType.simple.map Prod.snd

theorem Simple.plain {registry : Registry} (h : registry.Simple) : registry.Plain := by
  have hsimple : ∀ entry ∈ PropType.simple, entry.2.indices = [] := by decide
  intro name t hl
  obtain ⟨entry, hentry, rfl⟩ := List.mem_map.mp (h name t hl)
  exact hsimple entry hentry

theorem simple_builtin : builtin.Simple := by
  intro name t h
  obtain hmem | hmem := List.mem_append.mp (Entries.mem_of_lookup h)
  · obtain ⟨_, -, heq⟩ := List.mem_map.mp hmem
    cases heq
    simp [PropType.simple]
  · simp only [List.mem_cons, Prod.mk.injEq, List.not_mem_nil, or_false] at hmem
    rcases hmem with ⟨-, rfl⟩ | ⟨-, rfl⟩ | ⟨-, rfl⟩ | ⟨-, rfl⟩ | ⟨-, rfl⟩ | ⟨-, rfl⟩ <;>
      simp [PropType.simple]

theorem plain_builtin : builtin.Plain := simple_builtin.plain

theorem simple_of_kind {kind : String} {t : PropType} (h : PropType.ofKind kind = .ok t) :
    t ∈ PropType.simple.map Prod.snd := by
  unfold PropType.ofKind at h
  cases hl : PropType.simple.lookup kind with
  | none =>
      rw [hl] at h
      cases h
  | some t' =>
      rw [hl] at h
      cases h
      exact List.mem_map_of_mem (f := Prod.snd) (Entries.mem_of_lookup hl)

theorem Simple.put {registry : Registry} (h : registry.Simple) {t : PropType}
    (ht : t ∈ PropType.simple.map Prod.snd) (name : String) :
    Registry.Simple (Entries.put name t registry) := by
  intro other t' hl
  by_cases hn : other = name
  · subst hn
    rw [Entries.lookup_put_self] at hl
    cases hl
    exact ht
  · rw [Entries.lookup_put_of_ne hn] at hl
    exact h other t' hl

theorem Simple.extended {registry registry' : Registry} (h : registry.Simple)
    {extra : List (String × String)}
    (he : (extra.foldlM (fun registry (name, kind) => do
      pure (Entries.put name (← PropType.ofKind kind) registry)) registry :
        Except UnknownKind Registry) = .ok registry') : registry'.Simple := by
  induction extra generalizing registry with
  | nil =>
      cases he
      exact h
  | cons entry extra ih =>
      obtain ⟨name, kind⟩ := entry
      rw [List.foldlM_cons] at he
      cases hk : PropType.ofKind kind with
      | error fault =>
          simp only [hk] at he
          cases he
      | ok t =>
          simp only [hk] at he
          exact ih (h.put (simple_of_kind hk) name) he

/-- Whatever names and kinds are put on top of the built-in ones, the registry is simple. -/
theorem simple_of_extend {extra : List (String × String)} {registry : Registry}
    (h : extend extra = .ok registry) : registry.Simple :=
  simple_builtin.extended h

/-- Whatever names and kinds are put on top of the built-in ones, the registry is plain. -/
theorem plain_of_extend {extra : List (String × String)} {registry : Registry}
    (h : extend extra = .ok registry) : registry.Plain :=
  (simple_of_extend h).plain

theorem Plain.found {registry : Registry} (h : registry.Plain) {symbol : Option String}
    {t : PropType} (hf : registry.find? symbol = some t) : t.indices = [] := by
  cases symbol with
  | none => cases hf
  | some name => exact h name t hf

end Registry

/-- What needs no further type is a literal of the graph, or it takes no parts. -/
theorem TypeGraph.plain_cases {g : TypeGraph} {use : TypeUse} {t : PropType}
    (h : g.makeup use = .plain t) :
    t ∈ PropType.simple.map Prod.snd ∨
      ∃ id value, g.form id = .literal value ∧ t = .literal value := by
  unfold TypeGraph.makeup at h
  cases use with
  | union leaves =>
      cases hs : g.shape (.union leaves) <;> simp only [hs] at h <;> cases h <;>
        exact .inl (by simp [PropType.simple])
  | node id =>
      cases hs : g.shape (.node id)
      case void | string | number | boolean | any =>
        simp only [hs] at h
        cases h
        exact .inl (by simp [PropType.simple])
      case union | object =>
        simp only [hs] at h
        cases h
      all_goals
        simp only [hs, TypeGraph.formMakeup] at h
        cases hf : g.form id <;> simp only [hf] at h
        case function f => cases hsig : g.signature? id <;> simp [hsig] at h
        case literal value =>
          cases h
          exact .inr ⟨id, value, hf, rfl⟩
        all_goals cases h

namespace Classify
variable {r : Rules} {g : TypeGraph} {slots : TypeIdentity → Option Nat}

/-- An index is the slot of some type. -/
def IsSlot (slots : TypeIdentity → Option Nat) (i : Int) : Prop :=
  ∃ identity, ∃ slot : Nat, slots identity = some slot ∧ i = slot

section Holds
variable {P : PropType → Prop} (hP : PropType.Heritable P)
  (hslots : ∀ i, IsSlot slots i → P (.ref i) ∧ P (.partialRef i))
include hP hslots

theorem makeupBy_holds {read : TypeUse → Option PropSpec}
    (hread : ∀ use s, read use = some s → P s.propType) {m : Makeup}
    (hm : ∀ t, m = .plain t → P t) {t : PropType} (h : makeupBy r g slots read m = some t) : P t := by
  have hlist : ∀ {ids : List NodeId} {ts : List PropType},
      List.Forall₂ (TypeRead read) ids ts → ∀ t ∈ ts, P t := by
    intro ids ts hts t ht
    obtain ⟨id, -, s, hs, rfl⟩ := Sequences.exists_of_forall₂ hts ht
    exact hread _ _ hs
  rw [makeupBy_eq_some_iff] at h
  cases h with
  | plain type => exact hm t rfl
  | union ho => exact hP.union (hlist ho)
  | tuple ht => exact hP.tuple (hlist ht)
  | array hs => exact hP.array (hread _ _ hs)
  | function ha hresult =>
      refine hP.fn (fun arg harg => ?_) (hread _ _ hresult)
      obtain ⟨p, -, hp⟩ := Sequences.exists_of_forall₂ ha harg
      exact hread _ _ hp
  | record hs => exact (hslots _ ⟨_, _, hs, rfl⟩).1
  | partialRecord hs => exact (hslots _ ⟨_, _, hs, rfl⟩).2
  | unknown id _ => exact hP.any

/-- A reading is made of known types, literals of the graph, slots and types without parts. -/
theorem reading_holds (hknown : ∀ name t, r.registry.lookup name = some t → P t)
    (hsimple : ∀ entry ∈ PropType.simple, P entry.2)
    (hliteral : ∀ id value, g.form id = .literal value → P (.literal value))
    {use : TypeUse} {s : PropSpec} (h : reading r g slots use = some s) : P s.propType := by
  refine reading_induction (motive := fun _ s => P s.propType) ?_ h
  intro read hread use s hs
  obtain ⟨t, ht, he⟩ := Option.bind_eq_some_iff.mp hs
  cases he
  cases hk : r.registry.find? (g.symbolOf (g.stripped use)) with
  | some known =>
      simp only [hk] at ht
      cases ht
      obtain ⟨name, -, hname⟩ := Option.bind_eq_some_iff.mp hk
      exact hknown name t hname
  | none =>
      simp only [hk] at ht
      refine makeupBy_holds hP hslots hread (fun t hplain => ?_) ht
      obtain hmem | ⟨id, value, hform, rfl⟩ := g.plain_cases hplain
      · obtain ⟨entry, hentry, rfl⟩ := List.mem_map.mp hmem
        exact hsimple entry hentry
      · exact hliteral id value hform

end Holds

/-- A reading makes up no index: each one in it is the slot of some type. -/
theorem reading_indices (hr : r.registry.Plain) {use : TypeUse} {s : PropSpec}
    (h : reading r g slots use = some s) : ∀ i ∈ s.propType.indices, IsSlot slots i := by
  have hnone : ∀ {t : PropType}, t.indices = [] → ∀ i ∈ t.indices, IsSlot slots i := by
    intro t ht i hi
    rw [ht] at hi
    cases hi
  have hheritable : PropType.Heritable fun t => ∀ i ∈ t.indices, IsSlot slots i := by
    refine ⟨hnone rfl, fun hts i hi => ?_, id, fun hts i hi => ?_, fun hargs hresult i hi => ?_⟩
    · obtain ⟨t, ht, hit⟩ := PropType.mem_indicesAll.mp hi
      exact hts t ht i hit
    · obtain ⟨t, ht, hit⟩ := PropType.mem_indicesAll.mp hi
      exact hts t ht i hit
    · obtain hi | hi := List.mem_append.mp hi
      · obtain ⟨arg, harg, hia⟩ := PropType.mem_indicesSpecs.mp hi
        exact hargs arg harg i hia
      · rw [PropType.indicesSpec_eq] at hi
        exact hresult i hi
  have hslots : ∀ i, IsSlot slots i → (∀ j ∈ (PropType.ref i).indices, IsSlot slots j) ∧
      ∀ j ∈ (PropType.partialRef i).indices, IsSlot slots j :=
    fun i hi => ⟨List.forall_mem_singleton.mpr hi, List.forall_mem_singleton.mpr hi⟩
  have hsimple : ∀ entry ∈ PropType.simple, entry.2.indices = [] := by decide
  exact reading_holds hheritable hslots (fun name t hl => hnone (hr name t hl))
    (fun entry hentry => hnone (hsimple entry hentry)) (fun _ _ _ => hnone rfl) h

end Classify

namespace Context

/-- An index is the number of a slot. -/
def Has (c : Context) (i : Int) : Prop := 0 ≤ i ∧ i < c.slots.length

/-- A table that nothing is missing from and whose indices do not lead out of it. -/
structure Closed (c : Context) : Prop where
  filled : ∀ {slot}, slot < c.slots.length → ∃ record, c.slots[slot]? = some (some record)
  injective : ∀ {first second slot}, c.lookup first = some slot → c.lookup second = some slot →
    first = second
  numbers : ∀ slot, slot < c.slots.length ↔ ∃ identity, c.lookup identity = some slot
  indices : ∀ {slot : Nat} {record}, c.slots[slot]? = some (some record) →
    ∀ i ∈ record.indices, c.Has i

theorem has_of_isSlot {c : Context} (hc : c.Numbered) {i : Int}
    (h : Classify.IsSlot c.lookup i) : c.Has i := by
  obtain ⟨identity, slot, hs, rfl⟩ := h
  have hlt := hc.lookup_lt hs
  exact ⟨by omega, by omega⟩

theorem indices_of_describes {r : Rules} {g : TypeGraph} (hr : r.registry.Plain) {c : Context}
    {identity : TypeIdentity} {record : RecordSpec}
    (h : Classify.Describes r g c.lookup identity record) :
    ∀ i ∈ record.indices, Classify.IsSlot c.lookup i := by
  intro i hi
  obtain ⟨m, hm, hi⟩ := List.mem_flatMap.mp hi
  obtain ⟨p, -, -, hspec⟩ := Sequences.exists_of_forall₂ h.members hm
  obtain ⟨use, -, hread⟩ := Option.bind_eq_some_iff.mp hspec
  exact Classify.reading_indices hr hread i hi

/-- Steps that succeed make a closed table of a fresh one. -/
theorem Advances.closed {r : Rules} {g : TypeGraph} (hr : r.registry.Plain) {c : Context}
    (h : fresh.Advances r g c) : c.Closed := by
  have hnum := h.numbered numbered_fresh
  obtain ⟨records, hs⟩ := h.filled
  have hs' : c.slots = records.map some := hs
  refine ⟨?_, hnum.lookup_injective, ?_, ?_⟩
  · intro slot hlt
    rw [hs', List.length_map] at hlt
    exact ⟨records[slot], by simp [hs', hlt]⟩
  · intro slot
    constructor
    · exact hnum.exists_lookup
    · rintro ⟨identity, hl⟩
      exact hnum.lookup_lt hl
  · intro slot record hrec i hi
    obtain ⟨hlt, -⟩ := List.getElem?_eq_some_iff.mp hrec
    obtain ⟨identity, hl⟩ := hnum.exists_lookup hlt
    obtain ⟨record', hrec', hd⟩ := Classify.faithful_of_advances h identity slot hl
    rw [hrec] at hrec'
    cases hrec'
    exact has_of_isSlot hnum (indices_of_describes hr hd i hi)

theorem Closed.unfinished_eq {c : Context} (h : c.Closed) : c.unfinished = [] := by
  refine List.filter_eq_nil_iff.mpr ?_
  intro slot hs
  obtain ⟨record, hrec⟩ := h.filled (List.mem_range.mp hs)
  simp [hrec]

/-- A closed table has an outcome, if the components have their props in it. -/
theorem Closed.result {c : Context} (h : c.Closed) {components : List ComponentSpec}
    (hk : ∀ k ∈ components, c.Has k.props) :
    ∃ x, c.result components = .ok x ∧ x.Valid := by
  have hlen : (c.slots.filterMap id).length = c.slots.length := by
    rw [List.length_filterMap_eq_countP, List.countP_eq_length]
    intro entry he
    obtain ⟨slot, hlt, rfl⟩ := List.mem_iff_getElem.mp he
    obtain ⟨record, hrec⟩ := h.filled hlt
    rw [List.getElem?_eq_getElem hlt, Option.some_inj] at hrec
    rw [hrec]
    rfl
  have hvalid : (⟨components, c.slots.filterMap id⟩ : Extraction).Valid := by
    intro i hi
    change 0 ≤ i ∧ i < ((c.slots.filterMap id).length : Int)
    rw [hlen]
    obtain hi | hi := List.mem_append.mp hi
    · obtain ⟨k, hmem, rfl⟩ := List.mem_map.mp hi
      exact hk k hmem
    · obtain ⟨record, hrec, hi⟩ := List.mem_flatMap.mp hi
      obtain ⟨entry, hentry, he⟩ := List.mem_filterMap.mp hrec
      obtain ⟨slot, hlt, rfl⟩ := List.mem_iff_getElem.mp hentry
      have hslot : c.slots[slot]? = some (some record) := by
        rw [List.getElem?_eq_getElem hlt]
        exact congrArg some he
      exact h.indices hslot i hi
  refine ⟨_, ?_, hvalid⟩
  rw [result_of_filled h.unfinished_eq, (Extraction.dangling?_eq_none_iff _).mpr hvalid]

end Context

namespace Components

/-- A search in a closed table fails only if the search of its classes does. -/
theorem classes_of_find_error {r : ComponentRules} {g : TypeGraph}
    (hr : r.registry.Plain) {c c' : Context} (hc : Context.fresh.Advances r.toRules g c)
    {declarations : List NodeId} {fault : PassFault}
    (h : (find r g declarations).run c = (.error fault, c')) :
    ((distinctClasses g declarations).mapM (ofClass r g)).run c = (.error fault, c') := by
  obtain hf | ⟨found, c₁, hf, hfinish⟩ := Pass.error_of_bind h
  · exact hf
  · obtain ⟨hadv, hanswers⟩ := Pass.Tells.mapM (ofClass_tells r g) Answers.lasts
      (distinctClasses g declarations) hf
    have hreached := hc.trans hadv
    have hhas : ∀ k ∈ found.filterMap id, c₁.Has k.props := by
      intro k hk
      obtain ⟨entry, hentry, he⟩ := List.mem_filterMap.mp hk
      obtain ⟨a, -, hanswer⟩ := Sequences.exists_of_forall₂ hanswers hentry
      obtain ⟨-, _, _, _, slot, -, -, hprops, hslot⟩ := hanswer.declared k (by simpa using he)
      obtain ⟨identity, hl⟩ := hslot.exists_lookup
      exact Context.has_of_isSlot (hreached.numbered Context.numbered_fresh)
        ⟨identity, slot, hl, hprops⟩
    obtain ⟨x, hx, -⟩ := (hreached.closed hr).result hhas
    cases hx.symm.trans (Prod.mk.inj ((run_finish found c₁).symm.trans hfinish)).1

end Components

/-- The indices that an answer gives out. -/
def Answer.indices (answer : Answer) : List Int :=
  match answer with
  | .spec s => s.propType.indices
  | .slot number => [(number : Int)]
  | .component none => []
  | .component (some k) => [k.props]

namespace Request

/-- The contexts that requests lead to from a fresh one if all of them succeed, and the answers. -/
inductive Reached (r : ComponentRules) (g : TypeGraph) : List Answer → Context → Prop
  | fresh : Reached r g [] .fresh
  | next {answers : List Answer} {c c' : Context} {q : Request} {a : Answer}
      (before : Reached r g answers c) (answered : (q.run r g).run c = (.ok a, c')) :
      Reached r g (answers ++ [a]) c'

variable {r : ComponentRules} {g : TypeGraph}

/-- A request that succeeds goes on from what is there. -/
theorem run_advances {q : Request} {a : Answer} {c c' : Context}
    (h : (q.run r g).run c = (.ok a, c')) : c.Advances r.toRules g c' := by
  cases q with
  | spec id =>
      obtain ⟨s, c₁, hs, h⟩ := Pass.ok_of_bind h
      cases h
      exact (Classify.spec_tells _ _ _ hs).1
  | slot id =>
      obtain ⟨slot, c₁, hs, h⟩ := Pass.ok_of_bind h
      cases h
      exact (Classify.slot_tells _ _ _ hs).1
  | props id =>
      obtain ⟨slot, c₁, hs, h⟩ := Pass.ok_of_bind h
      cases h
      exact (Classify.propsSlot_tells _ _ _ hs).1
  | component id =>
      obtain ⟨found, c₁, hf, h⟩ := Pass.ok_of_bind h
      cases h
      exact (Components.ofClass_tells _ _ _ hf).1

theorem Reached.advances {answers : List Answer} {c : Context} (h : Reached r g answers c) :
    Context.fresh.Advances r.toRules g c := by
  induction h with
  | fresh => exact .refl _
  | next _ answered ih => exact ih.trans (run_advances answered)

/-- The indices that a request answers with are slots. -/
theorem run_tells (hr : r.registry.Plain) (q : Request) :
    (q.run r g).Tells r.toRules g fun a c => ∀ i ∈ a.indices, Classify.IsSlot c.lookup i := by
  intro c a c' h
  refine ⟨run_advances h, ?_⟩
  cases q with
  | spec id =>
      obtain ⟨s, c₁, hs, h⟩ := Pass.ok_of_bind h
      cases h
      exact Classify.reading_indices hr (Classify.spec_tells _ _ _ hs).2
  | slot id =>
      obtain ⟨slot, c₁, hs, h⟩ := Pass.ok_of_bind h
      cases h
      have hslot := (Classify.slot_tells _ _ _ hs).2
      intro i hi
      exact ⟨_, slot, hslot, List.mem_singleton.mp hi⟩
  | props id =>
      obtain ⟨slot, c₁, hs, h⟩ := Pass.ok_of_bind h
      cases h
      obtain ⟨identity, hl⟩ := (Classify.propsSlot_tells _ _ _ hs).2.exists_lookup
      intro i hi
      exact ⟨identity, slot, hl, List.mem_singleton.mp hi⟩
  | component id =>
      obtain ⟨found, c₁, hf, h⟩ := Pass.ok_of_bind h
      cases h
      have hanswers := (Components.ofClass_tells _ _ _ hf).2
      intro i hi
      cases found with
      | none => cases hi
      | some k =>
          obtain ⟨-, _, _, _, slot, -, -, hprops, hslot⟩ :=
            hanswers.declared k rfl
          obtain ⟨identity, hl⟩ := hslot.exists_lookup
          exact ⟨identity, slot, hl, (List.mem_singleton.mp hi).trans hprops⟩

/-- What requests that all succeed have made: the invariant of a run. -/
theorem Reached.invariant (hr : r.registry.Plain) {answers : List Answer} {c : Context}
    (h : Reached r g answers c) :
    Context.fresh.Advances r.toRules g c ∧
      ∀ a ∈ answers, ∀ i ∈ a.indices, Classify.IsSlot c.lookup i := by
  refine ⟨h.advances, ?_⟩
  induction h with
  | fresh => simp
  | next before answered ih =>
      obtain ⟨hstep, hlast⟩ := run_tells hr _ answered
      intro a ha i hi
      obtain ha | ha := List.mem_append.mp ha
      · obtain ⟨identity, slot, hl, he⟩ := ih a ha i hi
        exact ⟨identity, slot, hstep.kept hl, he⟩
      · cases List.mem_singleton.mp ha
        exact hlast i hi

/-- Whenever all requests so far have succeeded, the table is closed and all indices given out are
in it, the components that were found have a valid outcome, and a further request that succeeds
changes neither a filled slot nor an entry of the memo. -/
theorem reached_table_is_closed (hr : r.registry.Plain) {answers : List Answer} {c : Context}
    (h : Reached r g answers c) :
    c.Closed ∧ (∀ a ∈ answers, ∀ i ∈ a.indices, c.Has i) ∧
      (∀ components, (∀ k ∈ components, Answer.component (some k) ∈ answers) →
        ∃ x, c.result components = .ok x ∧ x.Valid) ∧
      ∀ q a c', (run r g q).run c = (.ok a, c') → c.Extends c' := by
  obtain ⟨hadv, hall⟩ := h.invariant hr
  have hclosed := hadv.closed hr
  have hnum := hadv.numbered Context.numbered_fresh
  have hhas : ∀ a ∈ answers, ∀ i ∈ a.indices, c.Has i := fun a ha i hi =>
    Context.has_of_isSlot hnum (hall a ha i hi)
  refine ⟨hclosed, hhas, ?_, ?_⟩
  · intro components hk
    refine hclosed.result ?_
    intro k hmem
    exact hhas _ (hk k hmem) _ (List.mem_singleton.mpr rfl)
  · intro q a c' hrun
    have hext := extends_after r g c q
    rw [after, hrun] at hext
    exact hext

open Components in
/-- A component and then a type whose record it has already reached. -/
theorem looped_table_is_closed :
    ∃ c, Reached lenientRules loopedGraph
        [.component (some ⟨"Tree", 0⟩), .spec ⟨.ref 0, true⟩] c ∧ c.Closed ∧
      ∃ x, c.result [⟨"Tree", 0⟩] = .ok x ∧ x.Valid := by
  have hfirst : (run lenientRules loopedGraph (.component 15)).run .fresh =
      (.ok (.component (some ⟨"Tree", 0⟩)),
        after lenientRules loopedGraph .fresh (.component 15)) := by rfl
  have hsecond : (run lenientRules loopedGraph (.spec 12)).run
        (after lenientRules loopedGraph .fresh (.component 15)) =
      (.ok (.spec ⟨.ref 0, true⟩),
        afterAll lenientRules loopedGraph .fresh [.component 15, .spec 12]) := by rfl
  have hreached : Reached lenientRules loopedGraph
      [.component (some ⟨"Tree", 0⟩), .spec ⟨.ref 0, true⟩]
      (afterAll lenientRules loopedGraph .fresh [.component 15, .spec 12]) :=
    .next (.next .fresh hfirst) hsecond
  obtain ⟨hclosed, -, hresult, -⟩ := reached_table_is_closed Registry.plain_builtin hreached
  exact ⟨_, hreached, hclosed, hresult [⟨"Tree", 0⟩] (by simp)⟩

/-- A component with one prop, of a type that is known by its symbol. -/
def widgetGraph : TypeGraph :=
  ⟨TypeGraph.initial.nodes ++ #[
    ⟨.unresolved "Widget" (some "Widget"), none⟩,
    ⟨.record ⟨some "Props", [⟨"icon", some 11, false, none⟩], none, [], []⟩, none⟩,
    ⟨.record ⟨some "Component", [], some "React.Component", [12], []⟩, none⟩,
    ⟨.classDeclaration "Toolbar" [13], none⟩]⟩

/-- A known symbol that stands for a reference brings an index of no table with it. -/
def referringRules : ComponentRules :=
  ⟨⟨[("Widget", .ref 7)], .lenient⟩, Components.defaultMarkers⟩

/-- With a registry whose schemas refer to slots, a component that was found has no outcome. -/
theorem not_closed_with_reference :
    ¬ ∀ (r : ComponentRules) (g : TypeGraph) (answers : List Answer) (c : Context),
      Reached r g answers c → ∀ components,
        (∀ k ∈ components, Answer.component (some k) ∈ answers) →
          ∃ x, c.result components = .ok x ∧ x.Valid := by
  intro h
  have hfound : (run referringRules widgetGraph (.component 14)).run .fresh =
      (.ok (.component (some ⟨"Toolbar", 0⟩)),
        after referringRules widgetGraph .fresh (.component 14)) := by with_unfolding_all rfl
  have hrefused : (after referringRules widgetGraph .fresh (.component 14)).result
      [⟨"Toolbar", 0⟩] = .error (.dangling ⟨7, 1⟩) := by with_unfolding_all rfl
  obtain ⟨x, hx, -⟩ := h _ _ _ _ (.next .fresh hfound) [⟨"Toolbar", 0⟩] (by simp)
  rw [hrefused] at hx
  cases hx

end Request

end PropSchema
