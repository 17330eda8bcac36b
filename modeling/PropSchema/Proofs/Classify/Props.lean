import PropSchema.Proofs.Components.Correspondence
/-!
The props of a node. Once a node has been asked for as props, it has its index for good, unless
stripping its nullability leaves a union of several types: such a union is made anew each time, and
each time it is told apart from the unions made before.
-/
namespace PropSchema

/-- What holds of a context goes on to hold whatever is noted, whatever member is classified,
whatever is put into slots, and whenever a type without a slot gets one. -/
structure Context.Stable (I : Context → Prop) : Prop where
  course : ∀ {c} owners notes, I c → I { c with owners, notes }
  fill : ∀ {c} place entry, I c → I { c with slots := c.slots.set place entry }
  reserve : ∀ {c} (use : TypeUse), I c → c.lookup (use.identity c) = none →
    I (c.reserve (use.identity c)).2

/-- A step after which holds what held before it, however it ends. -/
def Pass.Keeps {α : Type} (I : Context → Prop) (m : Pass α) : Prop := ∀ c, I c → I (m.run c).2

namespace Pass.Keeps
variable {α β : Type} {I : Context → Prop}

theorem pure (a : α) : (Pure.pure a : Pass α).Keeps I := fun _ h => h

theorem throw (fault : PassFault) : (MonadExcept.throw fault : Pass α).Keeps I := fun _ h => h

theorem written (text? : Option String) : (Pass.written text?).Keeps I := by
  cases text? with
  | none => exact throw _
  | some text => exact pure text

theorem note (hcourse : ∀ {c : Context} owners notes, I c → I { c with owners, notes }) (n : Note) :
    (Pass.note n).Keeps I :=
  fun c h => hcourse c.owners (n :: c.notes) h

theorem bind {m : Pass α} {f : α → Pass β} (hm : m.Keeps I) (hf : ∀ a, (f a).Keeps I) :
    (m >>= f).Keeps I := by
  intro c hc
  have h := hm c hc
  rcases hr : m.run c with ⟨outcome, c'⟩
  rw [hr] at h
  cases outcome with
  | ok a =>
      rw [run_bind_ok hr]
      exact hf a c' h
  | error fault =>
      rw [run_bind_error hr]
      exact h

theorem mapM {f : α → Pass β} (hf : ∀ a, (f a).Keeps I) (as : List α) : (as.mapM f).Keeps I := by
  induction as with
  | nil => exact pure []
  | cons a as ih =>
      rw [List.mapM_cons]
      exact (hf a).bind fun b => ih.bind fun bs => pure (b :: bs)

/-- Each of several steps that succeed one after another succeeds somewhere on their way. -/
theorem exists_run {f : α → Pass β} (hf : ∀ a, (f a).Keeps I) {as : List α} {bs : List β}
    {c c' : Context} (hc : I c) (hrun : (as.mapM f).run c = (.ok bs, c')) :
    ∀ a ∈ as, ∃ c₀ b c₁, I c₀ ∧ (f a).run c₀ = (.ok b, c₁) := by
  induction as generalizing c c' bs with
  | nil => exact nofun
  | cons a as ih =>
      rw [List.mapM_cons] at hrun
      obtain ⟨b, c₁, hb, hrun⟩ := ok_of_bind hrun
      obtain ⟨bs, c₂, hbs, -⟩ := ok_of_bind hrun
      have hc₁ : I c₁ := by
        have hkept := hf a c hc
        rwa [hb] at hkept
      exact List.forall_mem_cons.mpr ⟨⟨c, b, c₁, hc, hb⟩, ih hc₁ hbs⟩

theorem within (hcourse : ∀ {c : Context} owners notes, I c → I { c with owners, notes })
    (name : String) {step : Pass α} (h : step.Keeps I) : (Pass.within name step).Keeps I := by
  intro c hc
  rw [run_within]
  have hafter := h _ (hcourse (name :: c.owners) c.notes hc)
  exact hcourse _ _ hafter

theorem unionMember {step : Pass α} (h : step.Keeps I) : (Pass.unionMember step).Keeps I := by
  intro c hc
  rw [run_unionMember_snd]
  exact h c hc

theorem congruence (hcourse : ∀ {c : Context} owners notes, I c → I { c with owners, notes }) :
    Congruence fun m _ => m.Keeps I :=
  ⟨pure, bind, fun name _ _ => within hcourse name, unionMember⟩

theorem patch (hI : Context.Stable I) (index : Int) (record : RecordSpec) :
    (Pass.patch index record).Keeps I := by
  intro c hc
  cases hp : c.patch index record with
  | error fault =>
      rw [run_patch_error hp]
      exact hc
  | ok c' =>
      rw [run_patch_ok hp]
      unfold Context.patch at hp
      split at hp
      · cases hp
      · split at hp
        · cases hp
          exact hI.fill _ _ hc
        · cases hp

end Pass.Keeps

namespace Classify
variable {r : Rules} {g : TypeGraph} {I : Context → Prop} {depth : Nat}

theorem unknownTo_keeps (hcourse : ∀ {c : Context} owners notes, I c → I { c with owners, notes })
    (id : NodeId) : (unknownTo r g id).Keeps I := by
  unfold unknownTo
  refine .bind (.written _) fun _ => ?_
  cases r.policy with
  | strict => exact .throw _
  | lenient => exact .bind (.note hcourse _) fun _ => .pure _

theorem slotTo_keeps (hI : Context.Stable I) (h : ∀ p, (memberTo r g depth p).Keeps I)
    (use : TypeUse) : (slotTo r g (depth + 1) use).Keeps I := by
  intro c hc
  rw [slotTo_run]
  cases hk : c.lookup (use.identity c) with
  | some slot => exact hc
  | none =>
      have hentry : (entryTo r g depth use c.slots.length).Keeps I :=
        .bind (.bind (.written _) fun _ => .bind (.note hI.course _) fun _ => .mapM h _) fun _ =>
          .bind (.patch hI _ _) fun _ => .pure _
      exact hentry _ (hI.reserve use hc hk)

/-- However deep it goes, classification keeps what slots of records keep. -/
theorem keepsTo (hcourse : ∀ {c : Context} owners notes, I c → I { c with owners, notes })
    (hslots : ∀ depth, (∀ p, (memberTo r g depth p).Keeps I) →
      ∀ use, (slotTo r g (depth + 1) use).Keeps I) (depth : Nat) :
    (∀ use, (specTo r g depth use).Keeps I) ∧ (∀ use, (propTypeTo r g depth use).Keeps I) ∧
      (∀ use, (slotTo r g depth use).Keeps I) ∧ ∀ p, (memberTo r g depth p).Keeps I := by
  obtain ⟨hspec, hprop, hslot, hmember⟩ := congrTo (Pass.Keeps.congruence hcourse) r r g rfl (.throw _)
    (unknownTo_keeps hcourse) (fun _ => True) (fun _ _ _ => .throw _)
    (fun depth h => hslots depth fun p => h p trivial) depth
  exact ⟨hspec, hprop, hslot, fun p => hmember p trivial⟩

end Classify

namespace Request
variable {r : ComponentRules} {g : TypeGraph} {I : Context → Prop}
  (hcourse : ∀ {c : Context} owners notes, I c → I { c with owners, notes })
  (hslots : ∀ depth, (∀ p, (Classify.memberTo r.toRules g depth p).Keeps I) →
    ∀ use, (Classify.slotTo r.toRules g (depth + 1) use).Keeps I)
include hcourse hslots

theorem ofClass_keeps (id : NodeId) : (Components.ofClass r g id).Keeps I := by
  have hslot : ∀ use, (Classify.slot r.toRules g use).Keeps I :=
    (Classify.keepsTo hcourse hslots _).2.2.1
  unfold Components.ofClass
  dsimp only
  split
  · exact .pure _
  · split
    · exact .bind (.note hcourse _) fun _ => .pure _
    · exact .bind (hslot _) fun _ => .bind (.note hcourse _) fun _ => .pure _

theorem run_keeps (q : Request) : (q.run r g).Keeps I := by
  have hspec : ∀ use, (Classify.spec r.toRules g use).Keeps I :=
    (Classify.keepsTo hcourse hslots _).1
  have hslot : ∀ use, (Classify.slot r.toRules g use).Keeps I :=
    (Classify.keepsTo hcourse hslots _).2.2.1
  cases q with
  | spec id => exact .bind (hspec _) fun _ => .pure _
  | slot id => exact .bind (hslot _) fun _ => .pure _
  | props id => exact .bind (hslot _) fun _ => .pure _
  | component id => exact .bind (ofClass_keeps hcourse hslots id) fun _ => .pure _

theorem afterAll_keeps {c : Context} (hc : I c) (qs : List Request) : I (afterAll r g c qs) := by
  induction qs generalizing c with
  | nil => exact hc
  | cons q qs ih => exact ih (run_keeps hcourse hslots q c hc)

end Request

namespace Context

/-- Unions made on the way are known by slots that there are. -/
def Passed (c : Context) : Prop := ∀ made slot, (.passing made, slot) ∈ c.memo → made < c.slots.length

theorem stable_passed : Stable Passed where
  course _ _ h := h
  fill place entry h := by
    intro made slot hm
    rw [List.length_set]
    exact h made slot hm
  reserve := by
    intro c use h hnew made slot hm
    have hlength : (c.reserve (use.identity c)).2.slots.length = c.slots.length + 1 := by
      simp [Context.reserve]
    rw [hlength]
    obtain heq | hm := List.mem_cons.mp hm
    · have hmade := congrArg Prod.fst heq
      cases use with
      | node id => cases hmade
      | union leaves =>
          cases hmade
          exact Nat.lt_succ_self _
    · exact Nat.lt_succ_of_lt (h made slot hm)

/-- A union made on the way is new to the memo. -/
theorem Passed.lookup_new {c : Context} (h : c.Passed) :
    c.lookup (.passing c.slots.length) = none := by
  cases hl : c.lookup (.passing c.slots.length) with
  | none => rfl
  | some slot => exact absurd (h _ _ (mem_memo_of_lookup hl)) (Nat.lt_irrefl _)

end Context

namespace TypeGraph

/-- A union with a leaf that stands for no value and with several that do not. -/
def KeepsSeveral (g : TypeGraph) (id : NodeId) : Prop :=
  ∃ members, g.form id = .union members ∧ (g.leaves members).any g.isNullish ∧
    2 ≤ ((g.leaves members).filter fun leaf => !g.isNullish leaf).length

variable {g : TypeGraph} {id : NodeId}

theorem form_of_members? {members : List NodeId} (h : g.members? (.node id) = some members) :
    g.form id = .union members := by
  simp only [members?] at h
  split at h
  · cases h
    assumption
  · cases h

/-- Stripping leads to a node unless several types are left of a nullable union. -/
theorem stripped_of_not_keepsSeveral (h : ¬ g.KeepsSeveral id) :
    ∃ m, g.stripped (.node id) = .node m := by
  unfold stripped
  split
  · next hnullable =>
      unfold nonNullable
      split
      · exact ⟨id, rfl⟩
      · next members hm =>
          split
          · exact ⟨id, rfl⟩
          · next leaf hleaf => exact ⟨leaf, rfl⟩
          · next hnil hone =>
              have hform : g.form id = .union members := form_of_members? hm
              simp only [isNullable, unionLeaves?, hm, Option.map_some, Bool.and_eq_true]
                at hnullable
              refine absurd ⟨members, hform, hnullable.1, ?_⟩ h
              rcases hl : (g.leaves members).filter fun leaf => !g.isNullish leaf with
                _ | ⟨first, _ | ⟨second, rest⟩⟩
              · exact absurd hl hnil
              · exact absurd hl (hone first)
              · simp
  · exact ⟨id, rfl⟩

theorem stripped_of_keepsSeveral (h : g.KeepsSeveral id) :
    ∃ leaves, g.stripped (.node id) = .union leaves := by
  obtain ⟨members, hform, hany, hlength⟩ := h
  have hm : g.members? (.node id) = some members := by rw [members?, hform]
  have hall : (g.leaves members).all g.isNullish = false := by
    obtain ⟨leaf, hleaf⟩ := List.exists_mem_of_length_pos (Nat.lt_of_lt_of_le (by decide) hlength)
    rw [List.mem_filter] at hleaf
    exact List.all_eq_false.mpr ⟨leaf, hleaf.1, by simpa using hleaf.2⟩
  have hnullable : g.isNullable (.node id) = true := by
    simp [isNullable, unionLeaves?, hm, hany, hall]
  -- a union that is flat and has no nullish leaf is not nullable
  have hne : (g.leaves members).filter (fun leaf => !g.isNullish leaf) ≠ members := by
    intro heq
    have hmembers : ∀ m ∈ members, m ∈ g.leaves members ∧ g.isNullish m = false := by
      intro m hm
      rw [← heq, List.mem_filter] at hm
      simpa using hm
    obtain ⟨leaf, hleaf, hnullish⟩ := List.any_eq_true.mp hany
    have hin : leaf ∈ members := by
      refine forall_leavesTo (P := (· ∈ members)) ?_ (fun m hm => hm) leaf hleaf
      intro other inner hinner ho
      exact absurd hinner (ne_union_of_mem_leavesTo (hmembers other ho).1 inner)
    simp [(hmembers leaf hin).2] at hnullish
  rw [stripped, if_pos hnullable, nonNullable]
  simp only [hm]
  split
  · next hl => simp [hl] at hlength
  · next leaf hl => simp [hl] at hlength
  · exact ⟨_, if_neg hne⟩

end TypeGraph

namespace Classify
variable {r : Rules} {g : TypeGraph}

theorem propsSlot_eq (r : Rules) (g : TypeGraph) (use : TypeUse) :
    propsSlot r g use = slot r g (g.stripped use) := rfl

/-- A node that has a slot is known by it. -/
theorem slot_again {m : NodeId} {c : Context} {i : Nat} (h : c.lookup (.node m) = some i) :
    (slot r g (.node m)).run c = (.ok i, c) := by
  obtain ⟨depth, hd⟩ := Nat.exists_eq_succ_of_ne_zero (classifyDepth_pos g).ne'
  rw [slot, hd, slotTo_run]
  have hl : c.lookup (TypeUse.identity (.node m) c) = some i := h
  rw [hl]

/-- A union made on the way gets a slot only if its leaves have texts. -/
theorem isSome_render_of_slot {leaves : List NodeId} {c c' : Context} {i : Nat} (h : c.Passed)
    (hrun : (slot r g (.union leaves)).run c = (.ok i, c')) :
    (g.render (.union leaves)).isSome := by
  obtain ⟨depth, hd⟩ := Nat.exists_eq_succ_of_ne_zero (classifyDepth_pos g).ne'
  have hl : c.lookup (TypeUse.identity (.union leaves) c) = none := h.lookup_new
  rw [slot, hd, slotTo_run, hl] at hrun
  obtain ⟨members, c₁, hmembers, -⟩ := Pass.ok_of_bind hrun
  obtain ⟨title, c₂, htitle, -⟩ := Pass.ok_of_bind hmembers
  exact Option.isSome_iff_exists.mpr ⟨title, (Pass.ok_of_written htitle).1⟩

/-- A union made on the way is entered without name and members, if its leaves have texts. -/
theorem slot_union {leaves : List NodeId} {c : Context} (h : c.Passed)
    (hwritten : (g.render (.union leaves)).isSome) :
    ∃ notes, (slot r g (.union leaves)).run c = (.ok c.slots.length,
      { c with slots := c.slots ++ [some ⟨none, []⟩],
               memo := (.passing c.slots.length, c.slots.length) :: c.memo, notes }) := by
  obtain ⟨depth, hd⟩ := Nat.exists_eq_succ_of_ne_zero (classifyDepth_pos g).ne'
  have hl : c.lookup (TypeUse.identity (.union leaves) c) = none := h.lookup_new
  rw [slot, hd, slotTo_run, hl]
  obtain ⟨title, hrender⟩ := Option.isSome_iff_exists.mp hwritten
  have htitle : slotTitle g (.union leaves) = some title := hrender
  have hmembers : ∀ c' : Context, (membersTo r g depth (.union leaves) c.slots.length).run c' =
      (.ok [], { c' with notes := .reserved c.slots.length title :: c'.notes }) :=
    fun c' => membersTo_of_title htitle _ c'
  refine ⟨.reserved c.slots.length title :: c.notes, ?_⟩
  dsimp only
  rw [entryTo_of_ok (hmembers _) (by simp [Context.reserve])]
  simp [Context.reserve, TypeUse.identity, TypeGraph.declaredNameOf]

end Classify

namespace Request
open TypeGraph Classify
variable (r : ComponentRules) (g : TypeGraph)

/-- A node that has got an index as props keeps it: whatever is asked for in between, and whether or
not that fails, asking again gives the index and leaves the context as it is. So the index of a
component is a matter of the node that its class has for props. The only exception are nullable
unions that keep several types, and they are always one: each time they are asked for, the table
gets one more entry, without name and without members, and the answer is its index, if only what the
union keeps has a text to be reported with. -/
theorem props_keep_their_index :
    (∀ n, ¬ g.KeepsSeveral n → ∀ c i c',
      (propsSlot r.toRules g (.node n)).run c = (.ok i, c') → ∀ later,
        (propsSlot r.toRules g (.node n)).run (afterAll r g c' later) =
          (.ok i, afterAll r g c' later)) ∧
    (∀ declarations c x c', (Components.find r g declarations).run c = (.ok x, c') →
      ∃ (found : List (Option ComponentSpec)) (index : NodeId → Nat),
        x.components = found.filterMap id ∧
        List.Forall₂ (fun a k? => ∀ n, Components.propsOf? r g a = some n → ¬ g.KeepsSeveral n →
          k? = some ⟨Components.declarationName g a, index n⟩)
          (Components.distinctClasses g declarations) found) ∧
    ∀ n, g.KeepsSeveral n → (g.render (g.stripped (.node n))).isSome → ∀ earlier, ∃ notes,
      (propsSlot r.toRules g (.node n)).run (afterAll r g .fresh earlier) =
        (.ok (afterAll r g .fresh earlier).slots.length,
          { slots := (afterAll r g .fresh earlier).slots ++ [some ⟨none, []⟩],
            memo := (.passing (afterAll r g .fresh earlier).slots.length,
              (afterAll r g .fresh earlier).slots.length) :: (afterAll r g .fresh earlier).memo,
            owners := (afterAll r g .fresh earlier).owners, notes }) := by
  refine ⟨?_, ?_, ?_⟩
  · intro n hn c i c' hr later
    obtain ⟨m, hm⟩ := stripped_of_not_keepsSeveral hn
    obtain ⟨-, hslot⟩ := propsSlot_tells _ _ _ hr
    rw [hm] at hslot
    rw [propsSlot_eq, hm]
    exact slot_again ((extends_afterAll r g c' later).kept hslot)
  · intro declarations c x c' hr
    obtain ⟨-, found, hres, hall⟩ := Components.find_tells r g declarations hr
    refine ⟨found, fun n => (c'.lookup ((g.stripped (.node n)).identity c')).getD 0, ?_,
      hall.imp fun a k? hanswers n hprops hn => ?_⟩
    · rw [Context.eq_of_result hres]
    · obtain ⟨m, hm⟩ := stripped_of_not_keepsSeveral hn
      cases k? with
      | none => exact absurd (hprops.symm.trans (hanswers.missing rfl)) (by simp)
      | some k =>
          obtain ⟨props, slot, hprops', hk, hslot⟩ := (hanswers.declared k rfl).exists_props
          obtain rfl : n = props := Option.some.inj (hprops.symm.trans hprops')
          rw [hm] at hslot
          have hl : c'.lookup (TypeUse.identity (.node m) c') = some slot := hslot
          have hname := (hanswers.declared k rfl).1
          obtain ⟨name, index⟩ := k
          simp only [hm, hl, Option.getD_some] at hname hk ⊢
          rw [hname, hk]
  · intro n hn hwritten earlier
    obtain ⟨leaves, hleaves⟩ := stripped_of_keepsSeveral hn
    rw [hleaves] at hwritten
    rw [propsSlot_eq, hleaves]
    have hfresh : Context.fresh.Passed := by simp [Context.Passed, Context.fresh]
    exact slot_union (afterAll_keeps (I := Context.Passed) Context.stable_passed.course
      (fun _ => slotTo_keeps Context.stable_passed) hfresh earlier) hwritten

/-- Two records, a nullable union of both, a nullable union of one of them, and two components with
the union of both for props. -/
def pairGraph : TypeGraph :=
  ⟨TypeGraph.initial.nodes ++ #[
    ⟨.record ⟨some "A", [⟨"a", some stringId, false, none⟩], none, [], []⟩, none⟩,
    ⟨.record ⟨some "B", [⟨"b", some numberId, false, none⟩], none, [], []⟩, none⟩,
    ⟨.union [11, 12, nullId], none⟩,
    ⟨.union [11, nullId], none⟩,
    ⟨.record ⟨some "Component", [], some "React.Component", [13], []⟩, none⟩,
    ⟨.classDeclaration "X" [15], none⟩,
    ⟨.classDeclaration "Y" [15], none⟩]⟩

open Components in
/-- The record that is left of the one union is asked for again after both components were. -/
theorem single_record_keeps_its_index : ¬ pairGraph.KeepsSeveral 14 ∧ pairGraph.KeepsSeveral 13 ∧
    ∃ c, (propsSlot lenientRules.toRules pairGraph (.node 14)).run .fresh = (.ok 0, c) ∧
      ((propsSlot lenientRules.toRules pairGraph (.node 14)).run
        (afterAll lenientRules pairGraph c [.component 16, .component 17])).1 = .ok 0 := by
  have hsingle : ¬ pairGraph.KeepsSeveral 14 := by
    rintro ⟨members, hform, -, hlength⟩
    cases hform
    exact absurd hlength (by decide)
  have hrun : (propsSlot lenientRules.toRules pairGraph (.node 14)).run .fresh =
      (.ok 0, ((propsSlot lenientRules.toRules pairGraph (.node 14)).run .fresh).2) := by rfl
  refine ⟨hsingle, ⟨[11, 12, nullId], rfl, by decide, by decide⟩, _, hrun, ?_⟩
  rw [(props_keep_their_index lenientRules pairGraph).1 14 hsingle _ _ _ hrun]

open Components in
/-- Not every node keeps the index that it got as props, and not all components with one node for
props have one index: the union of both records is asked for twice and gets two. -/
theorem union_props_get_a_second_index :
    (¬ ∀ (r : ComponentRules) (g : TypeGraph) (n : NodeId) (c : Context) (i : Nat) (c' : Context),
      (propsSlot r.toRules g (.node n)).run c = (.ok i, c') → ∀ later,
        ((propsSlot r.toRules g (.node n)).run (afterAll r g c' later)).1 = .ok i) ∧
    ((find lenientRules pairGraph [16, 17]).run .fresh).1 =
      .ok ⟨[⟨"X", 0⟩, ⟨"Y", 1⟩], [⟨none, []⟩, ⟨none, []⟩]⟩ := by
  refine ⟨fun h => ?_, by rfl⟩
  have hagain := h lenientRules pairGraph 13 .fresh 0 _ (by rfl) []
  have hsecond : ((propsSlot lenientRules.toRules pairGraph (.node 13)).run
      (afterAll lenientRules pairGraph
        ((propsSlot lenientRules.toRules pairGraph (.node 13)).run .fresh).2 [])).1 = .ok 1 := by
    rfl
  exact absurd (Except.ok.inj (hsecond.symm.trans hagain)) (by decide)

end Request

end PropSchema
