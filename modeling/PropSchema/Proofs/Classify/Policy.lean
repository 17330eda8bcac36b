import PropSchema.Proofs.Classify.Table
/-!
The strict policy refines the lenient one. Both policies take the same steps up to the first type
that no rule fits; there the strict one stops with a failure of the type. So what a strict pass
returns a lenient pass returns too, and leaves the same context. A failure that is not one of a type
comes up under both policies alike, or the strict one has stopped before.
-/
namespace PropSchema

namespace PassFault

/-- A union names its owner in a failure, and changes nothing of its kind. -/
@[simp] theorem isClassification_inUnion (owner : Option String) (fault : PassFault) :
    (fault.inUnion owner).isClassification = fault.isClassification := by
  cases fault <;> rfl

end PassFault

namespace Pass
variable {α β : Type}

/-- How a strict step may end beside a lenient one. -/
inductive Ends : Except PassFault α × Context → Except PassFault α × Context → Prop
  | returned (a : α) (c : Context) : Ends (.ok a, c) (.ok a, c)
  | stopped {fault : PassFault} (h : fault.IsLimit) (c : Context) :
      Ends (.error fault, c) (.error fault, c)
  | refused {fault : PassFault} (h : fault.isClassification) (c : Context)
      (lenient : Except PassFault α × Context) : Ends (.error fault, c) lenient

/-- A step that goes by a policy, and that from every context ends under the strict one as it may
beside the lenient one. -/
def Refines (step : ErrorPolicy → Pass α) : Prop :=
  ∀ c : Context, Ends ((step .strict).run c) ((step .lenient).run c)

namespace Refines

theorem pure (a : α) : Refines fun _ => Pure.pure a := fun c => .returned a c

theorem note (n : Note) : Refines fun _ => Pass.note n := fun _ => .returned () _

theorem tooDeep : Refines fun _ => (throw .tooDeep : Pass α) := fun c => .stopped (.inl rfl) c

theorem written (text? : Option String) : Refines fun _ => Pass.written text? := by
  cases text? with
  | none => exact fun c => .stopped (.inr rfl) c
  | some text => exact pure text

/-- A step that the strict policy refuses for a type may do anything under the lenient one. -/
theorem refused {step : ErrorPolicy → Pass α} {fault : PassFault} (hs : step .strict = throw fault)
    (h : fault.isClassification) : Refines step := by
  intro c
  rw [hs]
  exact .refused h c _

/-- What two steps are put together with that end beside each other ends so as well. -/
theorem congruence :
    Congruence fun m m' => ∀ c : Context, Ends (m.run c) (m'.run c) where
  pure a c := .returned a c
  bind {_ _ m m' _ _} hm hf c := by
    have h := hm c
    rw [run_bind, run_bind]
    generalize m.run c = strict at h ⊢
    generalize m'.run c = lenient at h ⊢
    cases h with
    | returned a c' => exact hf a c'
    | stopped h c' => exact .stopped h c'
    | refused h c' => exact .refused h c' _
  within {_} name m m' hm c := by
    have h := hm { c with owners := name :: c.owners }
    rw [run_within, run_within]
    generalize m.run { c with owners := name :: c.owners } = strict at h ⊢
    generalize m'.run { c with owners := name :: c.owners } = lenient at h ⊢
    cases h with
    | returned a c' => exact .returned a _
    | stopped h c' => exact .stopped h _
    | refused h c' => exact .refused h _ _
  unionMember {_ m m'} hm c := by
    have h := hm c
    generalize hs : m.run c = strict at h
    generalize hl : m'.run c = lenient at h
    cases h with
    | returned a c' =>
        rw [run_unionMember_ok hs, run_unionMember_ok hl]
        exact .returned a c'
    | stopped h c' =>
        rw [run_unionMember_error hs, run_unionMember_error hl, h.inUnion_eq]
        exact .stopped h c'
    | @refused fault h c' =>
        rw [run_unionMember_error hs]
        exact .refused (by rw [PassFault.isClassification_inUnion, h]) c' _

theorem bind {step : ErrorPolicy → Pass α} {next : ErrorPolicy → α → Pass β} (hm : Refines step)
    (hn : ∀ a, Refines fun policy => next policy a) :
    Refines fun policy => step policy >>= next policy :=
  congruence.bind hm hn

theorem mapM {f : ErrorPolicy → α → Pass β} (hf : ∀ a, Refines fun policy => f policy a)
    (as : List α) : Refines fun policy => as.mapM (f policy) :=
  congruence.mapM _ _ hf as

end Refines

/-- What the strict policy promises of a step beside the lenient one, for a step that goes by a
policy and starts in one context. The faults that the two may share are not failures of types. -/
structure StrictRefines (step : ErrorPolicy → Pass α) (shared : PassFault → Prop) (c : Context) :
    Prop where
  returns : ∀ a c', (step .strict).run c = (.ok a, c') → (step .lenient).run c = (.ok a, c')
  raises : ∀ fault c', (step .lenient).run c = (.error fault, c') →
    (∃ fault' c'', (step .strict).run c = (.error fault', c'') ∧ fault'.isClassification) ∨
      (step .strict).run c = (.error fault, c') ∧ ¬ fault.isClassification ∧ shared fault

theorem Refines.strictRefines {step : ErrorPolicy → Pass α} (h : Refines step) (c : Context) :
    StrictRefines step PassFault.IsLimit c := by
  have hc := h c
  generalize hs : (step .strict).run c = strict at hc
  generalize hl : (step .lenient).run c = lenient at hc
  cases hc with
  | returned a c' =>
      refine ⟨fun b c'' hb => ?_, fun fault c'' hf => ?_⟩
      · rw [hl, ← hs, hb]
      · cases hl.symm.trans hf
  | stopped hlimit c' =>
      refine ⟨fun b c'' hb => ?_, fun fault c'' hf => .inr ?_⟩
      · cases hs.symm.trans hb
      · cases hl.symm.trans hf
        exact ⟨hs, hlimit.not_isClassification, hlimit⟩
  | refused hfault c' =>
      refine ⟨fun b c'' hb => ?_, fun fault c'' hf => .inl ⟨_, _, hs, hfault⟩⟩
      cases hs.symm.trans hb

end Pass

namespace Classify

open Pass
variable {registry : Registry} {g : TypeGraph} {depth : Nat}

/-- The one place where the policies part. -/
theorem unknownTo_refines (registry : Registry) (g : TypeGraph) (id : NodeId) :
    Refines fun policy => unknownTo ⟨registry, policy⟩ g id :=
  .bind (.written _) fun _ => .refused (by rfl) (by rfl)

/-- The members of a record are classified alike, so the same record goes into the same slot. -/
theorem slotTo_refines
    (hmember : ∀ p, Refines fun policy => memberTo ⟨registry, policy⟩ g depth p) (use : TypeUse) :
    Refines fun policy => slotTo ⟨registry, policy⟩ g (depth + 1) use := by
  intro c
  rw [slotTo_run, slotTo_run]
  cases hk : c.lookup (use.identity c) with
  | some slot => exact .returned slot c
  | none =>
      have hmembers : Refines fun policy =>
          membersTo ⟨registry, policy⟩ g depth use c.slots.length :=
        .bind (.written _) fun _ => .bind (.note _) fun _ => .mapM hmember _
      have h := hmembers (c.reserve (use.identity c)).2
      have hempty := (membersTo_extending (extendingTo ⟨registry, .strict⟩ g depth).2.2.2 use
        c.slots.length (c.reserve (use.identity c)).2).reserved
      generalize hs : (membersTo ⟨registry, .strict⟩ g depth use c.slots.length).run
        (c.reserve (use.identity c)).2 = strict at h hempty
      generalize hl : (membersTo ⟨registry, .lenient⟩ g depth use c.slots.length).run
        (c.reserve (use.identity c)).2 = lenient at h
      cases h with
      | returned members c' =>
          simp only [entryTo_of_ok hs hempty, entryTo_of_ok hl hempty]
          exact .returned _ _
      | stopped h c' =>
          simp only [entryTo_of_error hs, entryTo_of_error hl]
          exact .stopped h c'
      | refused h c' =>
          simp only [entryTo_of_error hs]
          exact .refused h c' _

/-- However deep it goes, strict classification refines lenient classification. -/
theorem refinesTo (registry : Registry) (g : TypeGraph) (depth : Nat) :
    (∀ use, Refines fun policy => specTo ⟨registry, policy⟩ g depth use) ∧
      (∀ use, Refines fun policy => propTypeTo ⟨registry, policy⟩ g depth use) ∧
      (∀ use, Refines fun policy => slotTo ⟨registry, policy⟩ g depth use) ∧
      ∀ p, Refines fun policy => memberTo ⟨registry, policy⟩ g depth p := by
  obtain ⟨hspec, hprop, hslot, hmember⟩ := congrTo Refines.congruence ⟨registry, .strict⟩
    ⟨registry, .lenient⟩ g rfl Refines.tooDeep (unknownTo_refines registry g) (fun _ => True)
    (fun _ _ _ c => .refused rfl c _) (fun _ h => slotTo_refines fun p => h p trivial) depth
  exact ⟨hspec, hprop, hslot, fun p => hmember p trivial⟩

theorem spec_refines (registry : Registry) (g : TypeGraph) (use : TypeUse) :
    Refines fun policy => spec ⟨registry, policy⟩ g use :=
  (refinesTo registry g _).1 use

theorem slot_refines (registry : Registry) (g : TypeGraph) (use : TypeUse) :
    Refines fun policy => slot ⟨registry, policy⟩ g use :=
  (refinesTo registry g _).2.2.1 use

theorem propsSlot_refines (registry : Registry) (g : TypeGraph) (use : TypeUse) :
    Refines fun policy => propsSlot ⟨registry, policy⟩ g use :=
  slot_refines registry g _

end Classify

/-- Slots that were filled since leave the same ones unfinished. -/
theorem Context.Advances.unfinished_eq {r : Rules} {g : TypeGraph} {c c' : Context}
    (h : c.Advances r g c') : c'.unfinished = c.unfinished := by
  obtain ⟨records, hs⟩ := h.filled
  have hold : ∀ i ∈ List.range c.slots.length,
      ((c.slots ++ records.map some).getD i none).isNone = (c.slots.getD i none).isNone := by
    intro i hi
    have hlt : i < c.slots.length := List.mem_range.mp hi
    rw [List.getD_eq_getElem?_getD, List.getElem?_append_left hlt, ← List.getD_eq_getElem?_getD]
  have hnew : ∀ i ∈ (List.range records.length).map (c.slots.length + ·),
      ¬ ((c.slots ++ records.map some).getD i none).isNone := by
    intro i hi
    obtain ⟨j, hj, rfl⟩ := List.mem_map.mp hi
    have hlt : j < records.length := List.mem_range.mp hj
    simp [hlt]
  unfold Context.unfinished
  rw [hs, List.length_append, List.length_map, List.range_add, List.filter_append,
    List.filter_congr hold, List.filter_eq_nil_iff.mpr hnew, List.append_nil]

namespace Components

open Pass
variable {registry : Registry} {markers : List String} {g : TypeGraph}

theorem ofClass_refines (registry : Registry) (markers : List String) (g : TypeGraph)
    (id : NodeId) : Refines fun policy => ofClass ⟨⟨registry, policy⟩, markers⟩ g id := by
  unfold ofClass
  dsimp only
  cases (g.bases id).find? (derives g markers) with
  | none => exact .pure none
  | some base =>
      cases hargs : g.arguments base with
      | nil => simpa only [hargs] using .bind (.note _) fun _ => .pure _
      | cons props rest =>
          simpa only [hargs] using .bind (Classify.propsSlot_refines registry g _) fun _ =>
            .bind (.note _) fun _ => .pure _

/-- The faults that a search for components may end in under both policies: those of the depth,
those of a type that has to be reported and has no text, and those of the table, for a slot that was
open before the search or an index that leads nowhere. -/
inductive SharedFault (c : Context) : PassFault → Prop
  | limit {fault : PassFault} (h : fault.IsLimit) : SharedFault c fault
  | unfinished (h : c.unfinished ≠ []) : SharedFault c (.unfinished c.unfinished)
  | dangling (h : c.unfinished = []) (index : DanglingIndex) : SharedFault c (.dangling index)

theorem sharedFault_of_result {r : Rules} {c c' : Context} (h : c.Advances r g c')
    {components : List ComponentSpec} {fault : PassFault}
    (hf : c'.result components = .error fault) :
    SharedFault c fault ∧ ¬ fault.isClassification := by
  by_cases hu : c.unfinished = []
  · rw [Context.result_of_filled (h.unfinished_eq.trans hu)] at hf
    split at hf
    · cases hf
      exact ⟨.dangling hu _, Bool.false_ne_true⟩
    · cases hf
  · have hu' : c'.unfinished ≠ [] := by rwa [h.unfinished_eq]
    rw [Context.result_of_unfinished hu', h.unfinished_eq] at hf
    cases hf
    exact ⟨.unfinished hu, Bool.false_ne_true⟩

/-- The classes are searched alike, and then both policies hand over the same table. -/
theorem find_strictRefines (registry : Registry) (markers : List String) (g : TypeGraph)
    (declarations : List NodeId) (c : Context) :
    StrictRefines (fun policy => find ⟨⟨registry, policy⟩, markers⟩ g declarations)
      (SharedFault c) c := by
  let classes := fun policy : ErrorPolicy =>
    (distinctClasses g declarations).mapM (ofClass ⟨⟨registry, policy⟩, markers⟩ g)
  have hclasses : Refines classes := .mapM (ofClass_refines registry markers g) _
  have hfind : ∀ policy, find ⟨⟨registry, policy⟩, markers⟩ g declarations =
    classes policy >>= finish := fun _ => rfl
  have h := hclasses c
  generalize hs : (classes .strict).run c = strict at h
  generalize hl : (classes .lenient).run c = lenient at h
  cases h with
  | returned found c' =>
      have hadv := (Tells.mapM (ofClass_tells _ g) Answers.lasts _ hs).1
      have hstrict := (run_bind_ok hs finish).trans (run_finish found c')
      have hlenient := (run_bind_ok hl finish).trans (run_finish found c')
      refine ⟨fun x c'' hx => ?_, fun fault c'' hf => .inr ?_⟩
      · rw [hfind, hlenient, ← hstrict, ← hfind, hx]
      · rw [hfind, hlenient] at hf
        obtain ⟨hresult, rfl⟩ := Prod.mk.inj hf
        obtain ⟨hshared, hkind⟩ := sharedFault_of_result hadv hresult
        refine ⟨?_, hkind, hshared⟩
        rw [hfind, hstrict, hresult]
  | stopped hlimit c' =>
      refine ⟨fun x c'' hx => ?_, fun fault c'' hf => .inr ?_⟩
      · rw [hfind, run_bind_error hs] at hx
        cases hx
      · rw [hfind, run_bind_error hl] at hf
        cases hf
        exact ⟨run_bind_error hs _, hlimit.not_isClassification, .limit hlimit⟩
  | @refused fault' hfault c' =>
      refine ⟨fun x c'' hx => ?_, fun fault c'' hf => .inl ⟨fault', c', ?_, hfault⟩⟩
      · rw [hfind, run_bind_error hs] at hx
        cases hx
      · exact run_bind_error hs _

end Components

open Pass in
/-- For every registry, graph and context, and whatever type or classes are asked for: what a strict
pass returns a lenient pass returns, with the same context after it; and where a lenient pass fails,
a strict pass fails for a type, or in the very same way, for a fault that is not one of a type. -/
theorem Classify.strict_refines_lenient (registry : Registry) (markers : List String)
    (g : TypeGraph) (c : Context) :
    (∀ use, StrictRefines (fun policy => spec ⟨registry, policy⟩ g use) PassFault.IsLimit c) ∧
      (∀ use, StrictRefines (fun policy => slot ⟨registry, policy⟩ g use) PassFault.IsLimit c) ∧
      (∀ use, StrictRefines (fun policy => propsSlot ⟨registry, policy⟩ g use)
        PassFault.IsLimit c) ∧
      ∀ declarations, StrictRefines
        (fun policy => Components.find ⟨⟨registry, policy⟩, markers⟩ g declarations)
        (Components.SharedFault c) c :=
  ⟨fun use => (spec_refines registry g use).strictRefines c,
    fun use => (slot_refines registry g use).strictRefines c,
    fun use => (propsSlot_refines registry g use).strictRefines c,
    fun declarations => Components.find_strictRefines registry markers g declarations c⟩

namespace Components

/-- A record with a property of which nothing is known. -/
def untypedGraph : TypeGraph :=
  ⟨TypeGraph.initial.nodes ++ #[
    ⟨.record ⟨some "Untyped", [⟨"x", none, false, none⟩], none, [], []⟩, none⟩]⟩

/-- A record that could not be classified has left its slot open. A search in that context fails
under both policies, and not for a type. -/
theorem open_slot_fails_alike :
    ¬ Pass.StrictRefines
      (fun policy => find ⟨⟨Registry.builtin, policy⟩, defaultMarkers⟩ untypedGraph [])
      (fun _ => False) (Request.after lenientRules untypedGraph .fresh (.slot 11)) := by
  intro h
  obtain ⟨fault, c, hs, hfault⟩ | ⟨-, -, h⟩ := h.raises (.unfinished [0]) _ rfl
  · have hrun := congrArg Prod.fst hs
    cases hrun
    cases hfault
  · exact h

end Components

end PropSchema
