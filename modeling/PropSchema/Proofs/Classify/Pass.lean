import Mathlib.Data.List.Nodup
import PropSchema.Components
/-!
How the steps of a pass move its context. No step takes back a slot or an entry of the memo, filled
or not, and each leaves the owners as it found them; the memo numbers the slots. The laws are stated
for single steps here and carried through sequences of steps.
-/
namespace PropSchema

namespace PassFault

/-- What ends a pass by any policy: types that go too deep, or one without a text to be reported
with. -/
def IsLimit (fault : PassFault) : Prop := fault = .tooDeep ∨ fault = .unwritable

namespace IsLimit
variable {fault limit : PassFault}

theorem inUnion_eq (h : limit.IsLimit) (owner : Option String) : limit.inUnion owner = limit := by
  rcases h with rfl | rfl <;> rfl

theorem not_isClassification (h : limit.IsLimit) : ¬ limit.isClassification := by
  rcases h with rfl | rfl <;> decide

/-- No union makes a limit of another failure. -/
theorem eq_of_inUnion (h : limit.IsLimit) {owner : Option String}
    (heq : fault.inUnion owner = limit) : fault = limit := by
  rcases h with rfl | rfl <;> cases fault <;> first | exact heq | cases heq

end IsLimit

end PassFault

namespace Pass
variable {α β : Type}

@[simp] theorem run_pure (a : α) (c : Context) : (pure a : Pass α).run c = (.ok a, c) := rfl

@[simp] theorem run_throw (fault : PassFault) (c : Context) :
    (throw fault : Pass α).run c = (.error fault, c) := rfl

@[simp] theorem run_note (n : Note) (c : Context) :
    (note n).run c = (.ok (), { c with notes := n :: c.notes }) := rfl

@[simp] theorem run_reserve (identity : TypeIdentity) (c : Context) :
    (reserve identity).run c = (.ok (c.reserve identity).1, (c.reserve identity).2) := rfl

theorem run_bind (m : Pass α) (f : α → Pass β) (c : Context) :
    (m >>= f).run c = match m.run c with
      | (.ok a, c') => (f a).run c'
      | (.error fault, c') => (.error fault, c') := by
  change ExceptT.bindCont f (m.run c).1 (m.run c).2 = _
  rcases m.run c with ⟨outcome, c'⟩
  cases outcome <;> rfl

theorem run_bind_ok {m : Pass α} {c c' : Context} {a : α} (h : m.run c = (.ok a, c'))
    (f : α → Pass β) : (m >>= f).run c = (f a).run c' := by
  rw [run_bind, h]

theorem run_bind_error {m : Pass α} {c c' : Context} {fault : PassFault}
    (h : m.run c = (.error fault, c')) (f : α → Pass β) :
    (m >>= f).run c = (.error fault, c') := by
  rw [run_bind, h]

/-- A sequence of two steps succeeds by the success of both. -/
theorem ok_of_bind {m : Pass α} {f : α → Pass β} {c c'' : Context} {b : β}
    (h : (m >>= f).run c = (.ok b, c'')) :
    ∃ a c', m.run c = (.ok a, c') ∧ (f a).run c' = (.ok b, c'') := by
  rw [run_bind] at h
  rcases hm : m.run c with ⟨outcome, c'⟩
  rw [hm] at h
  cases outcome with
  | ok a => exact ⟨a, c', rfl, h⟩
  | error fault => cases h

/-- A sequence of two steps fails by the first, or by the second after the first. -/
theorem error_of_bind {m : Pass α} {f : α → Pass β} {c c'' : Context} {fault : PassFault}
    (h : (m >>= f).run c = (.error fault, c'')) :
    m.run c = (.error fault, c'') ∨
      ∃ a c', m.run c = (.ok a, c') ∧ (f a).run c' = (.error fault, c'') := by
  rw [run_bind] at h
  rcases hm : m.run c with ⟨outcome, c'⟩
  rw [hm] at h
  cases outcome with
  | ok a => exact .inr ⟨a, c', rfl, h⟩
  | error fault' =>
      cases h
      exact .inl rfl

/-- Steps one after another fail where the first of them does that fails. -/
theorem split_of_mapM_error {f : α → Pass β} {as : List α} {c c' : Context} {fault : PassFault}
    (h : (as.mapM f).run c = (.error fault, c')) :
    ∃ before a after bs c₁, as = before ++ a :: after ∧ (before.mapM f).run c = (.ok bs, c₁) ∧
      (f a).run c₁ = (.error fault, c') := by
  induction as generalizing c with
  | nil => cases h
  | cons a as ih =>
      rw [List.mapM_cons] at h
      obtain ha | ⟨b, c₁, hb, h⟩ := error_of_bind h
      · exact ⟨[], a, as, [], c, rfl, rfl, ha⟩
      · obtain hrest | ⟨bs, c₂, -, h⟩ := error_of_bind h
        · obtain ⟨before, a', after, bs, c₂, rfl, hbefore, ha'⟩ := ih hrest
          refine ⟨a :: before, a', after, b :: bs, c₂, rfl, ?_, ha'⟩
          rw [List.mapM_cons, run_bind_ok hb, run_bind_ok hbefore]
          rfl
        · cases h

theorem run_within (name : String) (step : Pass α) (c : Context) :
    (within name step).run c =
      ((step.run { c with owners := name :: c.owners }).1,
        { (step.run { c with owners := name :: c.owners }).2 with
          owners := (step.run { c with owners := name :: c.owners }).2.owners.tail }) := rfl

theorem run_unionMember_ok {step : Pass α} {c c' : Context} {a : α}
    (h : step.run c = (.ok a, c')) : (unionMember step).run c = (.ok a, c') := by
  change unionMember step c = _
  rw [unionMember, h]

theorem run_unionMember_error {step : Pass α} {c c' : Context} {fault : PassFault}
    (h : step.run c = (.error fault, c')) :
    (unionMember step).run c = (.error (fault.inUnion c'.owner?), c') := by
  change unionMember step c = _
  rw [unionMember, h]

/-- A text that is needed is there after all, and nothing has changed. -/
theorem ok_of_written {text? : Option String} {text : String} {c c' : Context}
    (h : (written text?).run c = (.ok text, c')) : text? = some text ∧ c' = c := by
  cases text? with
  | none => cases h
  | some text' =>
      cases h
      exact ⟨rfl, rfl⟩

/-- A member of a union passes its success on. -/
theorem ok_of_unionMember {step : Pass α} {c c' : Context} {a : α}
    (h : (unionMember step).run c = (.ok a, c')) : step.run c = (.ok a, c') := by
  rcases hs : step.run c with ⟨outcome, after⟩
  cases outcome with
  | ok b => rw [← h, run_unionMember_ok hs]
  | error fault =>
      rw [run_unionMember_error hs] at h
      cases h

theorem run_unionMember_snd (step : Pass α) (c : Context) :
    ((unionMember step).run c).2 = (step.run c).2 := by
  rcases hs : step.run c with ⟨outcome, after⟩
  cases outcome with
  | ok a => rw [run_unionMember_ok hs]
  | error fault => rw [run_unionMember_error hs]

/-- A slot that cannot be filled is no limit of the pass. -/
theorem not_isLimit_of_patch {c : Context} {index : Int} {record : RecordSpec} {fault : PassFault}
    (h : c.patch index record = .error fault) : ¬ fault.IsLimit := by
  unfold Context.patch at h
  split at h
  · cases h
    exact nofun
  · split at h <;> cases h
    exact nofun

theorem run_patch_ok {c c' : Context} {index : Int} {record : RecordSpec}
    (h : c.patch index record = .ok c') : (patch index record).run c = (.ok (), c') := by
  rw [patch, run_bind_ok (by rfl), h]
  rfl

theorem run_patch_error {c : Context} {index : Int} {record : RecordSpec} {fault : PassFault}
    (h : c.patch index record = .error fault) :
    (patch index record).run c = (.error fault, c) := by
  rw [patch, run_bind_ok (by rfl), h]
  rfl

end Pass

namespace Context

/-- The memo numbers the slots: each slot is known under one identity, the latest first. -/
structure Numbered (c : Context) : Prop where
  slots : c.memo.map Prod.snd = (List.range c.slots.length).reverse
  identities : (c.memo.map Prod.fst).Nodup

theorem numbered_fresh : fresh.Numbered := ⟨rfl, .nil⟩

theorem mem_memo_of_lookup {c : Context} {identity : TypeIdentity} {slot : Nat}
    (h : c.lookup identity = some slot) : (identity, slot) ∈ c.memo := by
  obtain ⟨l₁, l₂, hm, -⟩ := List.lookup_eq_some_iff.mp h
  rw [hm]
  simp

theorem Numbered.lookup_of_mem {c : Context} (hc : c.Numbered) {identity : TypeIdentity}
    {slot : Nat} (h : (identity, slot) ∈ c.memo) : c.lookup identity = some slot := by
  obtain ⟨before, after, hm⟩ := List.append_of_mem h
  have hk := hc.identities
  rw [hm, List.map_append, List.nodup_append] at hk
  refine List.lookup_eq_some_iff.mpr ⟨before, after, hm, ?_⟩
  intro entry he
  have hne := hk.2.2 entry.1 (List.mem_map_of_mem he) identity (by simp)
  simpa using Ne.symm hne

theorem Numbered.lookup_lt {c : Context} (hc : c.Numbered) {identity : TypeIdentity} {slot : Nat}
    (h : c.lookup identity = some slot) : slot < c.slots.length := by
  have hs : slot ∈ c.memo.map Prod.snd := List.mem_map_of_mem (f := Prod.snd) (mem_memo_of_lookup h)
  rw [hc.slots] at hs
  simpa using hs

/-- No two identities share a slot. -/
theorem Numbered.lookup_injective {c : Context} (hc : c.Numbered) {first second : TypeIdentity}
    {slot : Nat} (h₁ : c.lookup first = some slot) (h₂ : c.lookup second = some slot) :
    first = second := by
  have hn : (c.memo.map Prod.snd).Nodup := by
    rw [hc.slots]
    exact List.nodup_reverse.mpr List.nodup_range
  have he := List.inj_on_of_nodup_map hn (mem_memo_of_lookup h₁) (mem_memo_of_lookup h₂) rfl
  exact congrArg Prod.fst he

/-- Every slot is known under some identity. -/
theorem Numbered.exists_lookup {c : Context} (hc : c.Numbered) {slot : Nat}
    (h : slot < c.slots.length) : ∃ identity, c.lookup identity = some slot := by
  have hs : slot ∈ c.memo.map Prod.snd := by
    rw [hc.slots]
    simpa using h
  obtain ⟨entry, he, hslot⟩ := List.mem_map.mp hs
  subst hslot
  exact ⟨entry.1, hc.lookup_of_mem he⟩

/-- What every step keeps, whether it succeeds or fails. -/
structure Extends (c c' : Context) : Prop where
  slots : c.slots <+: c'.slots
  kept : ∀ {identity slot}, c.lookup identity = some slot → c'.lookup identity = some slot
  owners : c'.owners = c.owners
  numbered : c.Numbered → c'.Numbered

namespace Extends

theorem refl (c : Context) : c.Extends c := ⟨List.prefix_rfl, id, rfl, id⟩

theorem trans {c c' c'' : Context} (h : c.Extends c') (h' : c'.Extends c'') : c.Extends c'' :=
  ⟨h.slots.trans h'.slots, fun hs => h'.kept (h.kept hs), h'.owners.trans h.owners,
    fun hc => h'.numbered (h.numbered hc)⟩

/-- A slot that is there stays as it is, filled or not. -/
theorem slot_eq {c c' : Context} (h : c.Extends c') {slot : Nat} (hs : slot < c.slots.length) :
    c'.slots[slot]? = c.slots[slot]? := by
  obtain ⟨rest, hr⟩ := h.slots
  rw [← hr, List.getElem?_append_left hs]

theorem filled {c c' : Context} (h : c.Extends c') {slot : Nat} {record : RecordSpec}
    (hs : c.slots[slot]? = some (some record)) : c'.slots[slot]? = some (some record) := by
  obtain ⟨hlt, -⟩ := List.getElem?_eq_some_iff.mp hs
  rw [h.slot_eq hlt, hs]

end Extends

/-- What is kept with one more owner is kept without it. -/
theorem Extends.pop {c c' : Context} {name : String}
    (h : ({ c with owners := name :: c.owners } : Context).Extends c') :
    c.Extends { c' with owners := c'.owners.tail } := by
  refine ⟨h.slots, h.kept, ?_, fun hc => ?_⟩
  · rw [h.owners, List.tail_cons]
  · have hn := h.numbered ⟨hc.slots, hc.identities⟩
    exact ⟨hn.slots, hn.identities⟩

@[simp] theorem lookup_notes (c : Context) (notes : List Note) (identity : TypeIdentity) :
    ({ c with notes } : Context).lookup identity = c.lookup identity := rfl

theorem extends_notes (c : Context) (notes : List Note) : c.Extends { c with notes } :=
  ⟨List.prefix_rfl, id, rfl, fun hc => ⟨hc.slots, hc.identities⟩⟩

theorem lookup_reserve (c : Context) (identity other : TypeIdentity) :
    (c.reserve identity).2.lookup other =
      if other = identity then some c.slots.length else c.lookup other := by
  by_cases h : other = identity
  · subst h
    simp [reserve, lookup]
  · have hb : (other == identity) = false := beq_false_of_ne h
    simp [reserve, lookup, List.lookup_cons, h, hb]

theorem not_mem_keys_of_lookup {c : Context} {identity : TypeIdentity}
    (h : c.lookup identity = none) : identity ∉ c.memo.map Prod.fst := by
  intro hm
  obtain ⟨entry, he, hid⟩ := List.mem_map.mp hm
  have := List.lookup_eq_none_iff.mp h entry he
  simp [hid] at this

/-- A slot is reserved for what has none. -/
theorem extends_reserve {c : Context} {identity : TypeIdentity} (h : c.lookup identity = none) :
    c.Extends (c.reserve identity).2 := by
  refine ⟨⟨[none], rfl⟩, ?_, rfl, ?_⟩
  · intro other slot hs
    have hne : other ≠ identity := by
      rintro rfl
      rw [h] at hs
      cases hs
    rw [lookup_reserve, if_neg hne]
    exact hs
  · intro hc
    refine ⟨?_, ?_⟩
    · simp [reserve, hc.slots, List.range_succ]
    · exact List.nodup_cons.mpr ⟨not_mem_keys_of_lookup h, hc.identities⟩

@[simp] theorem place?_ofNat {c : Context} {slot : Nat} (h : slot < c.slots.length) :
    c.place? (slot : Int) = some slot := by
  have h' : (0 : Int) ≤ slot ∧ (slot : Int) < c.slots.length := by omega
  simp [place?, h]

/-- A reserved slot is filled once. -/
theorem patch_of_empty {c : Context} {slot : Nat} (h : c.slots[slot]? = some none)
    (record : RecordSpec) :
    c.patch slot record = .ok { c with slots := c.slots.set slot (some record) } := by
  obtain ⟨hlt, -⟩ := List.getElem?_eq_some_iff.mp h
  simp [patch, place?_ofNat hlt, h]

/-- What is put into a later slot leaves the earlier ones alone. -/
theorem Extends.set {c c' : Context} (h : c.Extends c') {slot : Nat}
    (hs : c.slots.length ≤ slot) (entry : Option RecordSpec) :
    c.Extends { c' with slots := c'.slots.set slot entry } := by
  refine ⟨?_, h.kept, h.owners, fun hc => ?_⟩
  · obtain ⟨rest, hr⟩ := h.slots
    refine ⟨rest.set (slot - c.slots.length) entry, ?_⟩
    rw [← hr, List.set_append_right _ _ hs]
  · have hn := h.numbered hc
    exact ⟨by simpa using hn.slots, hn.identities⟩

/-- A reserved slot is empty as long as nothing but steps that keep it come after. -/
theorem Extends.reserved {c c' : Context} {identity : TypeIdentity}
    (h : (c.reserve identity).2.Extends c') : c'.slots[c.slots.length]? = some none := by
  have hlt : c.slots.length < (c.reserve identity).2.slots.length := by simp [reserve]
  rw [h.slot_eq hlt]
  simp [reserve]

end Context

theorem Pass.run_patch_of_empty {c : Context} {slot : Nat} (h : c.slots[slot]? = some none)
    (record : RecordSpec) :
    (Pass.patch slot record).run c =
      (.ok (), { c with slots := c.slots.set slot (some record) }) :=
  Pass.run_patch_ok (Context.patch_of_empty h record)

/-- A relation between steps that the combinators of classification carry from their parts over to
the whole. A property of single steps is the relation that looks at the first of two. -/
structure Pass.Congruence (R : ∀ {α : Type}, Pass α → Pass α → Prop) : Prop where
  pure : ∀ {α : Type} (a : α), R (Pure.pure a : Pass α) (Pure.pure a)
  bind : ∀ {α β : Type} {m m' : Pass α} {f f' : α → Pass β},
    R m m' → (∀ a, R (f a) (f' a)) → R (m >>= f) (m' >>= f')
  within : ∀ {α : Type} (name : String) {m m' : Pass α},
    R m m' → R (Pass.within name m) (Pass.within name m')
  unionMember : ∀ {α : Type} {m m' : Pass α}, R m m' → R (Pass.unionMember m) (Pass.unionMember m')

theorem Pass.Congruence.mapM {R : ∀ {α : Type}, Pass α → Pass α → Prop} (h : Pass.Congruence R)
    {α β : Type} (f f' : α → Pass β) (hf : ∀ a, R (f a) (f' a)) (as : List α) :
    R (as.mapM f) (as.mapM f') := by
  induction as with
  | nil => exact h.pure []
  | cons a as ih =>
      rw [List.mapM_cons, List.mapM_cons]
      exact h.bind (hf a) fun b => h.bind ih fun bs => h.pure (b :: bs)

theorem Pass.Congruence.written {R : ∀ {α : Type}, Pass α → Pass α → Prop}
    (h : Pass.Congruence R) (hnone : R (throw .unwritable : Pass String) (throw .unwritable))
    (text? : Option String) : R (Pass.written text?) (Pass.written text?) := by
  cases text? with
  | none => exact hnone
  | some text => exact h.pure text

/-- A step that takes nothing back, wherever it starts and however it ends. -/
def Pass.Extending {α : Type} (m : Pass α) : Prop := ∀ c : Context, c.Extends (m.run c).2

namespace Pass.Extending
variable {α β : Type}

theorem pure (a : α) : (Pure.pure a : Pass α).Extending := fun c => .refl c

theorem throw (fault : PassFault) : (MonadExcept.throw fault : Pass α).Extending :=
  fun c => .refl c

theorem note (n : Note) : (Pass.note n).Extending := fun c => c.extends_notes _

theorem bind {m : Pass α} {f : α → Pass β} (hm : m.Extending) (hf : ∀ a, (f a).Extending) :
    (m >>= f).Extending := by
  intro c
  have h := hm c
  rcases hr : m.run c with ⟨outcome, c'⟩
  rw [hr] at h
  cases outcome with
  | ok a =>
      rw [run_bind_ok hr]
      exact h.trans (hf a c')
  | error fault =>
      rw [run_bind_error hr]
      exact h

/-- The owner of a member is taken off again, also after a failure. -/
theorem within (name : String) {step : Pass α} (h : step.Extending) :
    (Pass.within name step).Extending := by
  intro c
  rw [run_within]
  exact (h { c with owners := name :: c.owners }).pop

theorem unionMember {step : Pass α} (h : step.Extending) :
    (Pass.unionMember step).Extending := by
  intro c
  rw [run_unionMember_snd]
  exact h c

theorem congruence : Congruence fun m _ => m.Extending :=
  ⟨pure, bind, fun name _ _ => within name, unionMember⟩

theorem mapM {f : α → Pass β} (hf : ∀ a, (f a).Extending) (as : List α) :
    (as.mapM f).Extending :=
  congruence.mapM f f hf as

theorem written (text? : Option String) : (Pass.written text?).Extending :=
  congruence.written (.throw _) text?

end Pass.Extending

end PropSchema
