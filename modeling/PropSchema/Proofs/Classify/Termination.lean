import Mathlib.Tactic.Ring
import PropSchema.Proofs.Classify.Table
import PropSchema.Proofs.TypeGraph.Heights
/-!
Classification comes to an end. Between two records it only goes down, and no record is entered
twice. The depth to which classification is followed is therefore never reached, and no greater
depth leads to anything else.
-/
namespace PropSchema

/-- The number of nodes of a graph that have no slot. -/
def Context.remaining (c : Context) (g : TypeGraph) : Nat :=
  ((Finset.range g.size).filter fun id => c.lookup (.node id) = none).card

namespace Context
variable {g : TypeGraph} {c c' : Context}

theorem remaining_le (c : Context) (g : TypeGraph) : c.remaining g ≤ g.size := by
  have hle := Finset.card_filter_le (Finset.range g.size) fun id => c.lookup (.node id) = none
  rwa [Finset.card_range] at hle

theorem Extends.remaining_le (h : c.Extends c') : c'.remaining g ≤ c.remaining g := by
  refine Finset.card_le_card fun id hid => ?_
  rw [Finset.mem_filter] at hid ⊢
  refine ⟨hid.1, ?_⟩
  cases hl : c.lookup (.node id) with
  | none => rfl
  | some slot => exact absurd (hid.2.symm.trans (h.kept hl)) (by simp)

theorem remaining_reserve_lt {id : NodeId} (hid : id < g.size) (h : c.lookup (.node id) = none) :
    (c.reserve (.node id)).2.remaining g < c.remaining g := by
  refine Finset.card_lt_card (Finset.ssubset_iff_of_subset ?_ |>.mpr ⟨id, ?_, ?_⟩)
  · intro other ho
    rw [Finset.mem_filter, lookup_reserve] at ho
    rw [Finset.mem_filter]
    split at ho
    · exact absurd ho.2 (by simp)
    · exact ho
  · rw [Finset.mem_filter, Finset.mem_range]
    exact ⟨hid, h⟩
  · rw [Finset.mem_filter, lookup_reserve, if_pos rfl]
    simp

end Context

/-- Steps to growing depths that all come to the same from a depth on, which is never too small,
in contexts where no more than so many nodes have no slot. -/
def Pass.Settles {α : Type} (g : TypeGraph) (remaining depth : Nat) (m : Nat → Pass α) : Prop :=
  ∀ c : Context, c.remaining g ≤ remaining → ∃ outcome : Except PassFault α × Context,
    outcome.1 ≠ .error .tooDeep ∧ ∀ deeper, depth ≤ deeper → (m deeper).run c = outcome

namespace Pass.Settles
variable {α β : Type} {g : TypeGraph} {remaining depth : Nat}

theorem mono {m : Nat → Pass α} (h : Settles g remaining depth m) {depth' : Nat}
    (hdepth : depth ≤ depth') : Settles g remaining depth' m := by
  intro c hc
  obtain ⟨outcome, hne, hrun⟩ := h c hc
  exact ⟨outcome, hne, fun deeper hd => hrun deeper (Nat.le_trans hdepth hd)⟩

/-- A step that does not depend on the depth. -/
theorem const {m : Pass α} (h : ∀ c, (m.run c).1 ≠ .error .tooDeep) :
    Settles g remaining depth fun _ => m :=
  fun c _ => ⟨m.run c, h c, fun _ _ => rfl⟩

theorem pure (a : α) : Settles g remaining depth fun _ => (Pure.pure a : Pass α) :=
  const fun c => by simp

theorem written (text? : Option String) :
    Settles g remaining depth fun _ => Pass.written text? := by
  cases text? with
  | none => exact const fun c h => nomatch h
  | some text => exact pure text

theorem bind {m : Nat → Pass α} {f : Nat → α → Pass β} (hext : ∀ d, (m d).Extending)
    (hm : Settles g remaining depth m) (hf : ∀ a, Settles g remaining depth fun d => f d a) :
    Settles g remaining depth fun d => m d >>= f d := by
  intro c hc
  obtain ⟨⟨outcome, c₁⟩, hne, hrun⟩ := hm c hc
  cases outcome with
  | error fault =>
      exact ⟨(.error fault, c₁), by simpa using hne, fun d hd => run_bind_error (hrun d hd) _⟩
  | ok a =>
      have hc₁ : c₁.remaining g ≤ remaining := by
        have hle := (hext depth c).remaining_le (g := g)
        rw [hrun depth (Nat.le_refl _)] at hle
        exact Nat.le_trans hle hc
      obtain ⟨outcome, hne, hrun'⟩ := hf a c₁ hc₁
      refine ⟨outcome, hne, fun d hd => ?_⟩
      rw [run_bind_ok (hrun d hd), hrun' d hd]

theorem mapM {f : Nat → α → Pass β} (hext : ∀ d a, (f d a).Extending) {as : List α}
    (hf : ∀ a ∈ as, Settles g remaining depth fun d => f d a) :
    Settles g remaining depth fun d => as.mapM (f d) := by
  induction as with
  | nil => exact pure []
  | cons a as ih =>
      rw [List.forall_mem_cons] at hf
      simp only [List.mapM_cons]
      exact bind (fun d => hext d a) hf.1 fun b =>
        bind (fun d => .mapM (hext d) as) (ih hf.2) fun bs => pure (b :: bs)

theorem within {m : Nat → Pass α} (name : String) (h : Settles g remaining depth m) :
    Settles g remaining depth fun d => Pass.within name (m d) := by
  intro c hc
  obtain ⟨outcome, hne, hrun⟩ := h { c with owners := name :: c.owners } hc
  refine ⟨(outcome.1, { outcome.2 with owners := outcome.2.owners.tail }), hne, fun d hd => ?_⟩
  rw [run_within, hrun d hd]

theorem unionMember {m : Nat → Pass α} (h : Settles g remaining depth m) :
    Settles g remaining depth fun d => Pass.unionMember (m d) := by
  intro c hc
  obtain ⟨⟨outcome, c₁⟩, hne, hrun⟩ := h c hc
  cases outcome with
  | ok a => exact ⟨_, by simp, fun d hd => run_unionMember_ok (hrun d hd)⟩
  | error fault =>
      refine ⟨_, fun h => hne ?_, fun d hd => run_unionMember_error (hrun d hd)⟩
      exact congrArg _ (PassFault.IsLimit.eq_of_inUnion (.inl rfl) (Except.error.inj h))

/-- One step more than what settles. -/
theorem succ {m m' : Nat → Pass α} (hsucc : ∀ d, m (d + 1) = m' d)
    (h : Settles g remaining depth m') : Settles g remaining (depth + 1) m := by
  intro c hc
  obtain ⟨outcome, hne, hrun⟩ := h c hc
  refine ⟨outcome, hne, fun deeper hd => ?_⟩
  cases deeper with
  | zero => exact absurd hd (Nat.not_succ_le_zero depth)
  | succ d =>
      rw [hsucc]
      exact hrun d (Nat.le_of_succ_le_succ hd)

end Pass.Settles

namespace TypeGraph

/-- What classification goes on to from a type without leaving it by a property. The bound of a
type parameter stands for it where a function must be given it. -/
def entered (g : TypeGraph) (id : NodeId) : List NodeId :=
  match g.form id with
  | .union members => members
  | .array element => [element]
  | .tuple elements => elements
  | .function f => f.result :: f.parameters.flatMap fun p =>
      p.type :: if p.optional then [] else (g.constraint? p.type).toList
  | _ => []

def Enters (g : TypeGraph) (a b : NodeId) : Prop := b ∈ g.entered a

/-- Heights of nodes that get smaller wherever classification goes on. -/
structure Heights (g : TypeGraph) (height : NodeId → Nat) : Prop where
  le : ∀ id, height id ≤ g.size
  lt : ∀ {a b}, g.Enters a b → height b < height a
  undefined : height undefinedId = 0

end TypeGraph

/-- The leaves of a union made on the way are lower than the union. -/
def TypeUse.Ranked (height : NodeId → Nat) (rank : Nat) : TypeUse → Prop
  | .node id => 2 * height id ≤ rank
  | .union leaves => ∀ leaf ∈ leaves, 2 * height leaf < rank

/-- What a schema is made from, below a rank. Records are not entered. -/
def Makeup.Below (g : TypeGraph) (height : NodeId → Nat) (rank : Nat) : Makeup → Prop
  | .union leaves => ∀ leaf ∈ leaves, 2 * height leaf < rank
  | .tuple elements => ∀ e ∈ elements, 2 * height e < rank
  | .array element => 2 * height element < rank
  | .function signature => 2 * height signature.result < rank ∧
      ∀ p ∈ signature.parameters, ∃ smaller < rank,
        (Classify.parameterUse g p.2).Ranked height smaller
  | _ => True

theorem Makeup.Below.mono {g : TypeGraph} {height : NodeId → Nat} {m : Makeup} {rank rank' : Nat} (h : m.Below g height rank)
    (hle : rank ≤ rank') : m.Below g height rank' := by
  cases m with
  | union leaves => exact fun leaf hl => Nat.lt_of_lt_of_le (h leaf hl) hle
  | tuple elements => exact fun e he => Nat.lt_of_lt_of_le (h e he) hle
  | array element => exact Nat.lt_of_lt_of_le h hle
  | function signature =>
      refine ⟨Nat.lt_of_lt_of_le h.1 hle, fun p hp => ?_⟩
      obtain ⟨smaller, hs, hp⟩ := h.2 p hp
      exact ⟨smaller, Nat.lt_of_lt_of_le hs hle, hp⟩
  | _ => trivial

namespace TypeGraph
variable {g : TypeGraph} {height : NodeId → Nat}

theorem ranked_size (hh : g.Heights height) (use : TypeUse) :
    use.Ranked height (2 * g.size + 1) := by
  cases use with
  | node id =>
      have hle := hh.le id
      exact Nat.le_succ_of_le (Nat.mul_le_mul_left 2 hle)
  | union leaves =>
      intro leaf _
      have hle := hh.le leaf
      omega

theorem height_leaves_le (hh : g.Heights height) {members : List NodeId} (bound : Nat)
    (h : ∀ m ∈ members, height m ≤ bound) : ∀ leaf ∈ g.leaves members, height leaf ≤ bound := by
  refine forall_leavesTo (P := fun id => height id ≤ bound) ?_ h
  intro id inner hform hid m hm
  have hlt := hh.lt (show g.Enters id m by simpa [Enters, entered, hform] using hm)
  omega

/-- The leaves of a union are lower than the union. -/
theorem ranked_leaves (hh : g.Heights height) {use : TypeUse} {rank : Nat}
    (hu : use.Ranked height rank) {members : List NodeId} (hm : g.members? use = some members) :
    ∀ leaf ∈ g.leaves members, 2 * height leaf < rank := by
  cases use with
  | union leaves =>
      cases hm
      cases rank with
      | zero =>
          obtain rfl : members = [] := List.eq_nil_iff_forall_not_mem.mpr fun m hm =>
            Nat.not_lt_zero _ (hu m hm)
          simp [leaves, leavesTo, depth]
      | succ rank =>
          intro leaf hleaf
          have hle := height_leaves_le hh (rank / 2)
            (fun m hm => by have := hu m hm; omega) leaf hleaf
          omega
  | node id =>
      have hform : g.form id = .union members := by
        simp only [members?] at hm
        split at hm
        · cases hm
          assumption
        · cases hm
      have hlt : ∀ m ∈ members, height m < height id := fun m hm =>
        hh.lt (show g.Enters id m by simpa [Enters, entered, hform] using hm)
      have hid : 2 * height id ≤ rank := hu
      intro leaf hleaf
      obtain ⟨m, hm⟩ : ∃ m, m ∈ members := by
        cases members with
        | nil => simp [leaves, leavesTo, depth] at hleaf
        | cons m ms => exact ⟨m, List.mem_cons_self⟩
      have hpos := hlt m hm
      have hle := height_leaves_le hh (height id - 1)
        (fun m hm => by have := hlt m hm; omega) leaf hleaf
      omega

theorem ranked_stripped (hh : g.Heights height) {use : TypeUse} {rank : Nat}
    (hu : use.Ranked height rank) : (g.stripped use).Ranked height rank := by
  unfold stripped nonNullable
  split
  · split
    · exact hu
    · next members hm =>
        have hleaves := ranked_leaves hh hu hm
        have hremaining : ∀ leaf ∈ (g.leaves members).filter fun leaf => !g.isNullish leaf,
            2 * height leaf < rank := fun leaf hl => hleaves leaf (List.mem_of_mem_filter hl)
        split
        · exact hu
        · next leaf hl => exact Nat.le_of_lt (hremaining leaf (by simp [hl]))
        · split
          · exact hu
          · exact hremaining
  · exact hu

theorem leaves_of_unionUse {members leaves : List NodeId}
    (h : g.unionUse members = .union leaves) : g.leaves members = leaves := by
  unfold unionUse TypeUse.ofLeaves at h
  split at h
  · cases h
  · cases h
    rfl

/-- An optional type is undefined itself, or a union. -/
theorem eq_undefined_of_unionUse (hundefined : g.form undefinedId = .primitive "undefined")
    {type leaf : NodeId} (h : g.unionUse [type, undefinedId] = .node leaf) :
    leaf = undefinedId := by
  have hmem : undefinedId ∈ g.leaves [type, undefinedId] := by
    simp only [leaves, depth, leavesTo, List.foldl_cons, List.foldl_nil, hundefined]
    exact mem_addMissing.mpr (.inr (List.mem_singleton.mpr rfl))
  unfold unionUse TypeUse.ofLeaves at h
  split at h
  · next other hl =>
      cases h
      rw [hl] at hmem
      exact (List.mem_singleton.mp hmem).symm
  · cases h

/-- What a function asks for its parameters is lower than the function. -/
theorem parameterUse_ranked (hundefined : g.form undefinedId = .primitive "undefined")
    (hh : g.Heights height) {id : NodeId} {f : FunctionType} (hform : g.form id = .function f)
    {p : Parameter} (hp : p ∈ f.parameters) : ∃ smaller < 2 * height id,
      (Classify.parameterUse g (g.optionalUse p.type p.optional)).Ranked height smaller := by
  have hentered : ∀ {b}, b = p.type ∨ p.optional = false ∧ g.constraint? p.type = some b →
      height b < height id := by
    intro b hb
    refine hh.lt (show b ∈ g.entered id from ?_)
    rw [entered, hform]
    refine List.mem_cons_of_mem _ (List.mem_flatMap.mpr ⟨p, hp, ?_⟩)
    obtain rfl | ⟨ho, hb⟩ := hb
    · exact List.mem_cons_self
    · simp [ho, hb]
  have htype : height p.type < height id := hentered (.inl rfl)
  cases ho : p.optional with
  | false =>
      change ∃ smaller < 2 * height id,
        (Classify.parameterUse g (.node p.type)).Ranked height smaller
      cases hc : g.constraint? p.type with
      | none =>
          refine ⟨2 * height p.type, by omega, ?_⟩
          simp [Classify.parameterUse, hc, TypeUse.Ranked]
      | some bound =>
          have hbound := hentered (.inr ⟨ho, hc⟩)
          refine ⟨2 * height bound, by omega, ?_⟩
          simp [Classify.parameterUse, hc, TypeUse.Ranked]
  | true =>
      change ∃ smaller < 2 * height id,
        (Classify.parameterUse g (g.unionUse [p.type, undefinedId])).Ranked height smaller
      cases hu : g.unionUse [p.type, undefinedId] with
      | node leaf =>
          obtain rfl := eq_undefined_of_unionUse hundefined hu
          have hc : g.constraint? undefinedId = none := by rw [constraint?, hundefined]
          refine ⟨0, by omega, ?_⟩
          simp [Classify.parameterUse, hc, TypeUse.Ranked, hh.undefined]
      | union leaves =>
          refine ⟨2 * height id - 1, by omega, fun leaf hleaf => ?_⟩
          have hmembers : ∀ m ∈ [p.type, undefinedId], height m ≤ height id - 1 := by
            simp [hh.undefined]
            omega
          have hle := height_leaves_le hh _ hmembers leaf (leaves_of_unionUse hu ▸ hleaf)
          omega

theorem below_formMakeup (hundefined : g.form undefinedId = .primitive "undefined")
    (hh : g.Heights height) (id : NodeId) : (g.formMakeup id).Below g height (2 * height id) := by
  have hentered : ∀ {b}, b ∈ g.entered id → 2 * height b < 2 * height id := fun hb =>
    Nat.mul_lt_mul_of_pos_left (hh.lt hb) (by decide)
  unfold formMakeup
  split
  case h_2 elements hform =>
    exact fun e he => hentered (by rw [entered, hform]; exact he)
  case h_3 element hform => exact hentered (by rw [entered, hform]; exact List.mem_cons_self)
  case h_5 f hform =>
    have hsig : g.signature? id = some
        ⟨f.parameters.map fun p => (p.name, g.optionalUse p.type p.optional), f.result⟩ := by
      rw [signature?, hform]
    rw [hsig]
    refine ⟨hentered (by rw [entered, hform]; exact List.mem_cons_self), fun p hp => ?_⟩
    obtain ⟨q, hq, rfl⟩ := List.mem_map.mp hp
    exact parameterUse_ranked hundefined hh hform hq
  all_goals trivial

theorem below_makeup (hundefined : g.form undefinedId = .primitive "undefined")
    (hh : g.Heights height) {use : TypeUse} {rank : Nat} (hu : use.Ranked height rank) :
    (g.makeup use).Below g height rank := by
  have hleaves : ∀ leaf ∈ (g.unionLeaves? use).getD [], 2 * height leaf < rank := by
    unfold unionLeaves?
    cases hm : g.members? use with
    | none => simp
    | some members => exact ranked_leaves hh hu hm
  unfold makeup
  cases use with
  | union leaves =>
      cases g.shape (.union leaves) with
      | union => exact hleaves
      | _ => trivial
  | node id =>
      have hform := (below_formMakeup hundefined hh id).mono (show 2 * height id ≤ rank from hu)
      cases g.shape (.node id) with
      | union => exact hleaves
      | void | string | number | boolean | any | object => trivial
      | _ => exact hform

end TypeGraph

namespace Classify
open TypeGraph
variable {r : Rules} {g : TypeGraph} {height : NodeId → Nat} {remaining depth : Nat}

theorem unknownTo_settles (id : NodeId) :
    Pass.Settles g remaining depth fun _ => unknownTo r g id := by
  unfold unknownTo
  refine .bind (fun _ => .written _) (.written _) fun _ => .const fun c => ?_
  cases r.policy with
  | strict => simp
  | lenient => rw [Pass.run_bind_ok (Pass.run_note _ c)]; simp

/-- A prop type settles as its parts do, and records as their slots do. -/
theorem makeupTo_settles {m : Makeup} {rank : Nat} (hm : m.Below g height rank)
    (hspec : ∀ use smaller, smaller < rank → use.Ranked height smaller →
      Pass.Settles g remaining depth fun d => specTo r g d use)
    (hslot : ∀ use, Pass.Settles g remaining depth fun d => slotTo r g d use) :
    Pass.Settles g remaining depth fun d => makeupTo r g d m := by
  have hext : ∀ use d, (specTo r g d use).Extending := fun use d => (extendingTo r g d).1 use
  have hslotext : ∀ use d, (slotTo r g d use).Extending := fun use d =>
    (extendingTo r g d).2.2.1 use
  have htype : ∀ id, 2 * height id < rank → Pass.Settles g remaining depth fun d =>
      (do pure (← specTo r g d (.node id)).propType : Pass PropType) := fun id hid =>
    .bind (hext _) (hspec _ _ hid (Nat.le_refl _)) fun _ => .pure _
  cases m with
  | plain type => exact .pure _
  | union leaves =>
      exact .bind (fun d => .mapM (fun _ => .unionMember (.bind (hext _ d) fun _ => .pure _)) _)
        (.mapM (fun d _ => .unionMember (.bind (hext _ d) fun _ => .pure _))
          fun leaf hl => .unionMember (htype leaf (hm leaf hl)))
        fun _ => .pure _
  | tuple elements =>
      exact .bind (fun d => .mapM (fun _ => .bind (hext _ d) fun _ => .pure _) _)
        (.mapM (fun d _ => .bind (hext _ d) fun _ => .pure _) fun e he => htype e (hm e he))
        fun _ => .pure _
  | array element =>
      exact .bind (hext _) (hspec _ _ hm (Nat.le_refl _)) fun _ => .pure _
  | function signature =>
      refine .bind (fun d => .mapM (fun _ => hext _ d) _) (.mapM (fun d _ => hext _ d) ?_)
        fun _ => .bind (hext _) (hspec _ _ hm.1 (Nat.le_refl _)) fun _ => .pure _
      intro p hp
      obtain ⟨smaller, hs, hranked⟩ := hm.2 p hp
      exact hspec _ smaller hs hranked
  | record use => exact .bind (hslotext _) (hslot use) fun _ => .pure _
  | partialRecord target => exact .bind (hslotext _) (hslot (.node target)) fun _ => .pure _
  | unknown id => exact unknownTo_settles id

/-- Between records, classification goes down two steps for each rank. -/
theorem specTo_settles (hundefined : g.form undefinedId = .primitive "undefined")
    (hh : g.Heights height)
    (hslot : ∀ use, Pass.Settles g remaining depth fun d => slotTo r g d use) {rank : Nat} :
    ∀ use : TypeUse, use.Ranked height rank →
      Pass.Settles g remaining (depth + 2 * rank + 2) fun d => specTo r g d use := by
  induction rank using Nat.strongRecOn with
  | ind rank ih =>
      intro use hu
      have hstripped := ranked_stripped hh hu
      have hmakeup : Pass.Settles g remaining (depth + 2 * rank) fun d =>
          makeupTo r g d (g.makeup (g.stripped use)) := by
        refine makeupTo_settles (below_makeup hundefined hh hstripped) ?_
          fun use => (hslot use).mono (by omega)
        exact fun use smaller hs hu => (ih smaller hs use hu).mono (by omega)
      have hprop : Pass.Settles g remaining (depth + 2 * rank + 1) fun d =>
          propTypeTo r g d (g.stripped use) :=
        .succ (fun d => propTypeTo_succ r g d _) hmakeup
      refine .succ (fun d => specTo_succ r g d use) (.bind ?_ ?_ fun _ => .pure _)
      · intro d
        split
        · exact .pure _
        · exact (extendingTo r g d).2.1 _
      · split
        · exact .pure _
        · exact hprop

theorem memberTo_settles (hundefined : g.form undefinedId = .primitive "undefined")
    (hh : g.Heights height)
    (hslot : ∀ use, Pass.Settles g remaining depth fun d => slotTo r g d use) (p : Property) :
    Pass.Settles g remaining (depth + 4 * g.size + 5) fun d => memberTo r g d p := by
  cases hp : g.propertyUse? p with
  | none =>
      refine .succ (fun d => by rw [memberTo, hp]) (.within p.name (.const ?_))
      exact fun c => by rw [Pass.run_throw]; simp
  | some use =>
      have hspec := specTo_settles hundefined hh hslot use (ranked_size hh use)
      refine .succ (fun d => by rw [memberTo, hp]) (.within p.name ?_)
      exact .bind (fun d => (extendingTo r g d).1 use) (hspec.mono (by omega)) fun _ => .pure _

theorem entryTo_settles {use : TypeUse} {slot : Nat}
    (hmember : ∀ p ∈ g.propertiesOf use,
      Pass.Settles g remaining depth fun d => memberTo r g d p) :
    Pass.Settles g remaining depth fun d => entryTo r g d use slot := by
  have hext : ∀ p d, (memberTo r g d p).Extending := fun p d => (extendingTo r g d).2.2.2 p
  refine .bind (fun d => membersTo_extending (fun p => hext p d) use slot) ?_ fun members =>
    .const fun c => ?_
  · exact .bind (fun _ => .written _) (.written _) fun _ =>
      .bind (fun _ => .note _) (.const fun c => by simp) fun _ => .mapM (fun d p => hext p d) hmember
  · cases hc : c.patch slot ⟨g.declaredNameOf use, members⟩ with
    | ok c' =>
        rw [Pass.run_bind_ok (Pass.run_patch_ok hc)]
        simp
    | error fault =>
        rw [Pass.run_bind_error (Pass.run_patch_error hc)]
        exact fun h => Pass.not_isLimit_of_patch hc (.inl (Except.error.inj h))

/-- A record settles as its members do once it has its slot. -/
theorem slotTo_settles (use : TypeUse)
    (hmember : ∀ fewer < remaining, ∀ p, Pass.Settles g fewer depth fun d => memberTo r g d p) :
    Pass.Settles g remaining (depth + 1) fun d => slotTo r g d use := by
  intro c hc
  suffices h : ∃ outcome : Except PassFault Nat × Context, outcome.1 ≠ .error .tooDeep ∧
      ∀ d, depth ≤ d → (slotTo r g (d + 1) use).run c = outcome by
    obtain ⟨outcome, hne, hrun⟩ := h
    refine ⟨outcome, hne, fun deeper hd => ?_⟩
    cases deeper with
    | zero => exact absurd hd (Nat.not_succ_le_zero depth)
    | succ d => exact hrun d (Nat.le_of_succ_le_succ hd)
  simp only [slotTo_run]
  cases hk : c.lookup (use.identity c) with
  | some slot => exact ⟨(.ok slot, c), by simp, fun _ _ => rfl⟩
  | none =>
      refine entryTo_settles (fun p hp => ?_) _ (Nat.le_refl _)
      -- only a node of the graph has properties, and it has its slot now
      refine hmember _ (Nat.lt_of_lt_of_le ?_ hc) p
      cases use with
      | union leaves => cases hp
      | node id =>
          refine Context.remaining_reserve_lt (Nat.lt_of_not_le fun hge => ?_) hk
          have hp : p ∈ g.properties id := hp
          simp [properties, TypeGraph.depth, propertiesTo, form_of_size_le hge] at hp

/-- With fewer records left to enter, a slot settles sooner. -/
theorem slotTo_settles_of_heights (hundefined : g.form undefinedId = .primitive "undefined")
    (hh : g.Heights height) (use : TypeUse) :
    Pass.Settles g remaining (remaining * (4 * g.size + 6) + 1) fun d => slotTo r g d use := by
  induction remaining using Nat.strongRecOn generalizing use with
  | ind remaining ih =>
      refine slotTo_settles use fun fewer hfewer p => ?_
      refine (memberTo_settles hundefined hh (ih fewer hfewer) p).mono ?_
      have hmul : (fewer + 1) * (4 * g.size + 6) ≤ remaining * (4 * g.size + 6) :=
        Nat.mul_le_mul_right _ hfewer
      rw [Nat.succ_mul] at hmul
      omega

/-- The depth of a graph with heights is enough for everything that is asked in it. -/
theorem settles_of_heights (hundefined : g.form undefinedId = .primitive "undefined")
    (hh : g.Heights height) (use : TypeUse) :
    (Pass.Settles g g.size g.classifyDepth fun d => specTo r g d use) ∧
      Pass.Settles g g.size g.classifyDepth fun d => slotTo r g d use := by
  have hslot : ∀ use, Pass.Settles g g.size (g.size * (4 * g.size + 6) + 1) fun d =>
      slotTo r g d use := slotTo_settles_of_heights hundefined hh
  have hsquare : 6 * (g.size + 2) * (g.size + 2) =
      g.size * (4 * g.size + 6) + 2 * (g.size * g.size) + 18 * g.size + 24 := by ring
  refine ⟨(specTo_settles hundefined hh hslot use (ranked_size hh use)).mono ?_,
    (hslot use).mono ?_⟩
  · rw [classifyDepth, hsquare]
    omega
  · rw [classifyDepth, hsquare]
    omega

/-- A step that settles by a depth has its outcome at that depth. -/
theorem run_eq_of_settles {α : Type} {m : Nat → Pass α} (h : Pass.Settles g g.size depth m)
    (c : Context) : ((m depth).run c).1 ≠ .error .tooDeep ∧
      ∀ deeper, depth ≤ deeper → (m deeper).run c = (m depth).run c := by
  obtain ⟨outcome, hne, hrun⟩ := h c (c.remaining_le g)
  rw [hrun depth (Nat.le_refl depth)]
  exact ⟨hne, hrun⟩

end Classify

namespace TypeGraph

/-- Where types hold each other, heights are had unless a type holds itself. -/
theorem enters_nests {g : TypeGraph} {a b : NodeId} (h : g.Enters a b) :
    Relation.TransGen g.Nests a b := by
  unfold Enters entered at h
  split at h
  case h_4 f hform =>
    obtain rfl | h := List.mem_cons.mp h
    · exact .single (nests_of_part hform List.mem_cons_self)
    · obtain ⟨p, hp, hb⟩ := List.mem_flatMap.mp h
      have hparam : g.Nests a p.type :=
        nests_of_part hform (List.mem_cons_of_mem _ (List.mem_map_of_mem hp))
      obtain rfl | hb := List.mem_cons.mp hb
      · exact .single hparam
      · split at hb
        · cases hb
        · exact .tail (.single hparam) (nests_of_constraint (Option.mem_toList.mp hb))
  case h_1 members hform => exact .single (nests_of_part hform h)
  case h_2 element hform => exact .single (nests_of_part hform h)
  case h_3 elements hform => exact .single (nests_of_part hform h)
  case h_5 => cases h

theorem enters_lt_size {g : TypeGraph} {a b : NodeId} (h : g.Enters a b) : a < g.size := by
  obtain ⟨c, hac, -⟩ := Relation.TransGen.head'_iff.mp (enters_nests h)
  exact hac.lt_size

/-- A graph in which classification goes round in no circle has heights. -/
theorem heights_of_acyclic {g : TypeGraph} (hundefined : g.form undefinedId = .primitive "undefined")
    (hacyclic : ∀ id, ¬ Relation.TransGen g.Enters id id) :
    g.Heights (height g.size g.Enters) where
  le _ := height_le
  lt h := height_lt enters_lt_size (hacyclic _) h
  undefined := height_eq_zero fun b hb => by simp [Enters, entered, hundefined] at hb

end TypeGraph

namespace Classify
open TypeGraph

/-- If no type holds itself but through a property, a graph has the depth for all its types. -/
theorem settles_of_acyclic (r : Rules) {g : TypeGraph} (hg : g.HasPrimitives)
    (hacyclic : ∀ id, ¬ Relation.TransGen g.Nests id id) (use : TypeUse) :
    (Pass.Settles g g.size g.classifyDepth fun d => specTo r g d use) ∧
      Pass.Settles g g.size g.classifyDepth fun d => slotTo r g d use :=
  settles_of_heights hg.undefined (heights_of_acyclic hg.undefined fun id h =>
    hacyclic id (Relation.TransGen.closed (fun _ _ => enters_nests) _ _ h)) use

/-- If no type holds itself but through a property, classification comes to an end for every type,
with a result or with a failure other than that of depth, in every context and by all rules; to
follow the types further would change nothing. -/
theorem finishes_of_acyclic {g : TypeGraph} (hg : g.HasPrimitives)
    (hacyclic : ∀ id, ¬ Relation.TransGen g.Nests id id) :
    g.Settled ∧ ∀ (r : Rules) (use : TypeUse) (c : Context),
      (∀ depth, g.classifyDepth ≤ depth →
        (specTo r g depth use).run c = (spec r g use).run c ∧
        (slotTo r g depth use).run c = (slot r g use).run c ∧
        (slotTo r g depth (g.stripped use)).run c = (propsSlot r g use).run c) ∧
      ((spec r g use).run c).1 ≠ .error .tooDeep ∧ ((slot r g use).run c).1 ≠ .error .tooDeep ∧
        ((propsSlot r g use).run c).1 ≠ .error .tooDeep := by
  constructor
  · exact settled_of_heights (fun h => height_lt Nests.lt_size (hacyclic _) h) fun _ => height_le
  · intro r use c
    have hsettles := settles_of_acyclic r hg hacyclic
    obtain ⟨hspec, hdeeper⟩ := run_eq_of_settles (hsettles use).1 c
    obtain ⟨hslot, hdeeper'⟩ := run_eq_of_settles (hsettles use).2 c
    obtain ⟨hprops, hdeeper''⟩ := run_eq_of_settles (hsettles (g.stripped use)).2 c
    exact ⟨fun depth hd => ⟨hdeeper depth hd, hdeeper' depth hd, hdeeper'' depth hd⟩,
      hspec, hslot, hprops⟩

open Components in
/-- The record of the graph leads to itself by three properties, and by nothing else. -/
theorem looped_graph_finishes : loopedGraph.HasPrimitives ∧
    (∀ id, ¬ Relation.TransGen loopedGraph.Nests id id) ∧ loopedGraph.Settled ∧
    ∀ c, (slotTo lenientRules.toRules loopedGraph 5000 (.node 11)).run c =
      (slot lenientRules.toRules loopedGraph (.node 11)).run c := by
  have hprimitives : loopedGraph.HasPrimitives := hasPrimitives_append _
  have hnested : ∀ a < loopedGraph.size, ∀ b ∈ loopedGraph.nested a, b < a := by decide
  have hlower : ∀ {a b}, loopedGraph.Nests a b → b < a := fun hab =>
    hnested _ (Nests.lt_size hab) _ hab
  have hacyclic : ∀ id, ¬ Relation.TransGen loopedGraph.Nests id id := fun id h =>
    Nat.lt_irrefl id (lt_of_transGen hlower h)
  obtain ⟨hsettled, hall⟩ := finishes_of_acyclic hprimitives hacyclic
  exact ⟨hprimitives, hacyclic, hsettled, fun c =>
    ((hall lenientRules.toRules (.node 11) c).1 5000 (by decide)).2.1⟩

end Classify

end PropSchema
