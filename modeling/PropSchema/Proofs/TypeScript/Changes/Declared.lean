import PropSchema.Proofs.Entries
import PropSchema.Proofs.TypeScript.Changes
import PropSchema.Proofs.TypeScript.Inherited
/-!
Declared types, and with them all types and all lookups, as runs of changes. The record of an
instance is made when its type parameters are bound, and it grows while its members are resolved.
-/
namespace PropSchema.TypeScript

open Resolve Scope

variable {sc : Scope} {P : String → Prop} {resolve : Resolver} {bindings : Bindings}
  {bound : List String} {key : Instance} {named : Named} {r r₁ r₂ : Resolution}

/-- The record of an instance has been made since a resolution, as the first of its new nodes. -/
structure Growing (sc : Scope) (P : String → Prop) (key : Instance) (r r₁ : Resolution) :
    Prop where
  run : Run sc P r r₁
  known : r₁.Known
  made : (key, r.graph.size) ∈ r₁.instances

namespace Growing

theorem start (hknown : r.Known) (hkey : P key.1) (hf : sc.find? key.1 = some named)
    (hrecord : named.isRecord) (hfirst : r.instances.lookup key = none ∨ ¬ sc.Apart key)
    (location : Location) :
    Growing sc P key r { r with
      graph := (r.graph.push (emptyRecord key.1 key.2) (some location)).2
      instances := (key, r.graph.size) :: r.instances } := by
  have hsize := size_push r.graph (emptyRecord key.1 key.2) (some location)
  have hknown' := hknown.push (emptyRecord key.1 key.2) (by nofun) (some location)
  refine ⟨.change (.declare location hkey hf hrecord hfirst), ⟨hknown'.primitives, hknown'.unions,
    ?_, hknown'.framework, hknown'.partials, hknown'.classes⟩, List.mem_cons_self⟩
  rw [List.forall_mem_cons]
  exact ⟨hsize ▸ Nat.lt_succ_self _, hknown'.instances⟩

theorem size (h : Growing sc P key r r₁) : r.graph.size < r₁.graph.size :=
  h.known.instances _ h.made

theorem step {α : Type} {m : Resolve α} {Q : Nat → α → Prop} {a : α} (h : Growing sc P key r r₁)
    (hm : Steps (Run sc P) r.graph.size m Q) (hrun : m r₁ = some (a, r₂)) :
    Growing sc P key r r₂ ∧ Q r₂.graph.size a := by
  obtain ⟨hstep, hknown, hQ⟩ := hm r₁ a r₂ (Nat.le_of_lt h.size) h.known hrun
  exact ⟨⟨h.run.trans hstep, hknown, hstep.instances_subset h.made⟩, hQ⟩

/-- The record gets bases, and properties that are declared or come from another record. -/
theorem modify (h : Growing sc P key r r₁) (change : RecordType → RecordType)
    (hchange : ∀ record, ∃ properties bases, change record = { record with properties, bases } ∧
      ∀ p ∈ properties, p ∈ record.properties ∨ p.declaration.isSome ∨
        ∃ other source, r₁.graph.form other = .record source ∧ p ∈ source.properties) :
    Growing sc P key r { r₁ with graph := r₁.graph.modifyRecord r.graph.size change } := by
  unfold TypeGraph.modifyRecord
  split
  · next record hform =>
      obtain ⟨properties, bases, he, hdeclared⟩ := hchange record
      rw [he]
      refine ⟨h.run.tail (.extend (Nat.le_refl _) hform fun p hp => ?_),
        h.known.setForm h.size (by nofun), h.made⟩
      obtain hold | hp := hdeclared p hp
      · exact .inr ⟨_, record, hform, hold⟩
      · exact hp
  · exact h

theorem addNew (h : Growing sc P key r r₁) {ps : List Property}
    (hps : ∀ p ∈ ps, p.declaration.isSome ∨
      ∃ other source, r₁.graph.form other = .record source ∧ p ∈ source.properties) :
    Growing sc P key r { r₁ with graph := r₁.graph.modifyRecord r.graph.size (withNew · ps) } :=
  h.modify _ fun _ => ⟨_, _, rfl, fun _ hp => (mem_of_foldl_new hp).imp_right (hps _)⟩

theorem add (h : Growing sc P key r r₁) {ps : List Property}
    (hps : ∀ p ∈ ps, p.declaration.isSome) :
    Growing sc P key r { r₁ with graph := r₁.graph.modifyRecord r.graph.size fun record =>
      { record with properties := record.properties ++ ps } } :=
  h.modify _ fun _ => ⟨_, _, rfl, fun _ hp => (List.mem_append.mp hp).imp_right fun hp =>
    .inl (hps _ hp)⟩

/-- A loop over steps that the record grows by. -/
theorem each {ι : Type} {xs : List ι} {f : ι → Resolve PUnit} {u : PUnit}
    (h : Growing sc P key r r₁)
    (hf : ∀ x ∈ xs, ∀ {r₁ r₂ u}, Growing sc P key r r₁ → f x r₁ = some (u, r₂) →
      Growing sc P key r r₂)
    (hrun : forM xs f r₁ = some (u, r₂)) : Growing sc P key r r₂ := by
  induction xs generalizing r₁ with
  | nil =>
      cases hrun
      exact h
  | cons x xs ih =>
      rw [List.forM_cons] at hrun
      rw [List.forall_mem_cons] at hf
      obtain ⟨⟨_, r₃⟩, hx, hrun⟩ := Option.bind_eq_some_iff.mp hrun
      exact ih (hf.1 h hx) hf.2 hrun

section Parts
variable (hr : ResolverSteps sc (Run sc) resolve) (hP : sc.Closed P)
  (hs : Ready r.graph.size bindings bound)
include hr hP hs

theorem addMembers (h : Growing sc P key r r₁) {d : InterfaceDecl} {u : PUnit}
    (hm : ∀ m ∈ mentionsOfMembers bound d.members, P m.1)
    (hrun : sc.addMembers resolve bindings r.graph.size d r₁ = some (u, r₂)) :
    Growing sc P key r r₂ := by
  obtain ⟨⟨ps, r₃⟩, hmembers, hrun⟩ := Option.bind_eq_some_iff.mp hrun
  cases hrun
  obtain ⟨h₃, hps⟩ := h.step (Steps.members (Run.relation sc P) hr hP hs hm) hmembers
  exact h₃.addNew fun p hp => .inl (hps p hp)

theorem addParent (h : Growing sc P key r r₁) {type : TypeExpr} {u : PUnit}
    (hm : ∀ m ∈ type.mentions bound, P m.1)
    (hrun : addParent resolve bindings r.graph.size type r₁ = some (u, r₂)) :
    Growing sc P key r r₂ := by
  obtain ⟨base, r₃, hresolve, hcases⟩ := addParent_cases hrun
  obtain ⟨h₃, -⟩ := h.step (hr hP hs hm) hresolve
  have h₄ : Growing sc P key r
      { r₃ with graph := r₃.graph.modifyRecord r.graph.size (withBase · base) } :=
    h₃.modify _ fun _ => ⟨_, _, rfl, fun _ hp => .inl hp⟩
  obtain ⟨x, hform, rfl⟩ | ⟨-, rfl⟩ := hcases
  · exact h₄.addNew fun p hp => .inr ⟨base, x, hform, hp⟩
  · exact h₄

theorem addField (h : Growing sc P key r r₁) {f : Field} {u : PUnit}
    (hm : ∀ m ∈ mentionsOfOptional bound f.typeExpr, P m.1)
    (hrun : sc.addField resolve bindings r.graph.size f r₁ = some (u, r₂)) :
    Growing sc P key r r₂ := by
  unfold Scope.addField at hrun
  split at hrun
  · obtain ⟨⟨p, r₃⟩, hproperty, hrun⟩ := Option.bind_eq_some_iff.mp hrun
    cases hrun
    obtain ⟨h₃, hp⟩ := h.step (Steps.property (Run.relation sc P) hr hP hs hm) hproperty
    refine h₃.add fun q hq => ?_
    rw [List.mem_singleton.mp hq]
    exact hp
  · cases hrun
    exact h

end Parts

section Made
variable (hr : ResolverSteps sc (Run sc) resolve) (hP : sc.Closed P) (hkey : P key.1)
  (hknown : r.Known) (hfirst : r.instances.lookup key = none ∨ ¬ sc.Apart key) {id : NodeId}
include hr hP hkey hknown hfirst

theorem interfaceType {first : InterfaceDecl} {more : List InterfaceDecl}
    (hf : sc.find? key.1 = some (.interfaces first more))
    (hs : Ready r.graph.size bindings (Named.bound (.interfaces first more)))
    (hrun : sc.interfaceType resolve bindings key first more r = some (id, r₂)) :
    Growing sc P key r r₂ ∧ id = r.graph.size := by
  have hm := hP.of_mentions hkey hf
  rw [Named.mentions, List.forall_mem_append] at hm
  rw [interfaceType_eq] at hrun
  obtain ⟨⟨_, r₃⟩, hown, hrun⟩ := Option.bind_eq_some_iff.mp hrun
  obtain ⟨⟨_, r₄⟩, hparents, hrun⟩ := Option.bind_eq_some_iff.mp hrun
  cases hrun
  rw [← Sequences.forM_flatMap] at hparents
  have h₃ := (start hknown hkey hf rfl hfirst (sc.location first.place)).each
    (fun d hd {_ _ _} h hrun => h.addMembers hr hP hs
      (fun m hmem => hm.1 m (List.mem_flatMap.mpr ⟨d, hd, hmem⟩)) hrun) hown
  refine ⟨h₃.each (fun type htype {_ _ _} h hrun => ?_) hparents, rfl⟩
  obtain ⟨d, hd, htype⟩ := List.mem_flatMap.mp htype
  exact h.addParent hr hP hs (fun m hmem =>
    hm.2 m (List.mem_flatMap.mpr ⟨d, hd, mentions_subset_types htype hmem⟩)) hrun

theorem classType {first : ClassSite} {more : List ClassSite}
    (hf : sc.find? key.1 = some (.classes first more))
    (hs : Ready r.graph.size bindings (Named.bound (.classes first more)))
    (hrun : sc.classType resolve bindings key first.decl r = some (id, r₂)) :
    Growing sc P key r r₂ ∧ id = r.graph.size := by
  have hm := hP.of_mentions hkey hf
  rw [Named.mentions, List.forall_mem_append] at hm
  rw [classType_eq] at hrun
  obtain ⟨⟨bases, r₃⟩, hbases, hrun⟩ := Option.bind_eq_some_iff.mp hrun
  obtain ⟨⟨_, r₄⟩, hfields, hrun⟩ := Option.bind_eq_some_iff.mp hrun
  cases hrun
  have hheritage : Steps (Run sc P) r.graph.size
      (first.decl.heritage.mapM (sc.baseType resolve bindings)) fun _ _ => True := by
    refine Steps.mapM_of_true (Run.relation sc P) fun h hh _ hle => ?_
    exact (Steps.baseType (Run.relation sc P) hr hP (hs.mono hle) fun m hmem =>
      hm.1 m (List.mem_flatMap.mpr ⟨h, hh, hmem⟩)).imp fun _ _ _ => trivial
  obtain ⟨h₃, -⟩ := (start hknown hkey hf rfl hfirst (sc.location first.decl.place)).step
    hheritage hbases
  have h₄ := h₃.modify ({ · with bases }) fun record =>
    ⟨record.properties, bases, rfl, fun _ hp => .inl hp⟩
  exact ⟨h₄.each (fun f hfield {_ _ _} h hrun => h.addField hr hP hs
    (fun m hmem => hm.2 m (List.mem_flatMap.mpr ⟨f, hfield, hmem⟩)) hrun) hfields, rfl⟩

theorem objectType {first : AliasDecl} {more : List AliasDecl}
    (hf : sc.find? key.1 = some (.aliases first more))
    (hrecord : (Named.aliases first more).isRecord)
    (hs : Ready r.graph.size bindings (Named.bound (.aliases first more)))
    (hrun : sc.aliasType resolve bindings key first r = some (id, r₂)) :
    Growing sc P key r r₂ ∧ id = r.graph.size := by
  obtain ⟨members, place, hvalue⟩ := Named.isRecord_aliases.mp hrecord
  have hm := hP.of_mentions hkey hf
  simp only [Named.mentions, hvalue] at hm
  simp only [Scope.aliasType, hvalue] at hrun
  obtain ⟨⟨properties, r₃⟩, hmembers, hrun⟩ := Option.bind_eq_some_iff.mp hrun
  cases hrun
  obtain ⟨h₃, hps⟩ := (start hknown hkey hf hrecord hfirst (sc.location first.place)).step
    (Steps.members (Run.relation sc P) hr hP hs hm) hmembers
  exact ⟨h₃.add hps, rfl⟩

end Made

end Growing

namespace Run
variable {id : NodeId}

theorem params {size : Nat} (hr : ResolverSteps sc (Run sc) resolve) (hP : sc.Closed P)
    (ha : ∀ id ∈ key.2, id < size)
    (hm : ∀ m ∈ mentionsOfUnbound [] key.2.length named.typeParams, P m.1) :
    Steps (Run sc P) size (sc.bindTypeParams resolve [] named.typeParams key.2)
      fun size bindings => Ready size bindings named.bound := by
  have hbound := Steps.bindTypeParams (relation sc P) hr hP .nil ha hm
  rw [List.append_nil] at hbound
  exact hbound

section Declared
variable (hr : ResolverSteps sc (Run sc) resolve) (hP : sc.Closed P) (hkey : P key.1)
  (hf : sc.find? key.1 = some named) (ha : ∀ id ∈ key.2, id < r.graph.size) (hknown : r.Known)
include hr hP hkey hf ha hknown

/-- A record that is made once its type parameters are bound. -/
theorem record {make : Bindings → Resolve NodeId} (hnone : r.instances.lookup key = none)
    (hmake : ∀ {r₁ bindings}, Ready r₁.graph.size bindings named.bound → r₁.Known →
      r₁.instances.lookup key = none ∨ ¬ sc.Apart key → make bindings r₁ = some (id, r₂) →
      Growing sc P key r₁ r₂ ∧ id = r₁.graph.size)
    (hrun : (sc.bindTypeParams resolve [] named.typeParams key.2 >>= make) r = some (id, r₂)) :
    Run sc P r r₂ ∧ r₂.Known ∧ (key, id) ∈ r₂.instances := by
  obtain ⟨⟨bindings, r₁⟩, hbind, hrun⟩ := Option.bind_eq_some_iff.mp hrun
  -- what the parameters need does not lead to the instance itself, if they stay apart from it
  let Needed : String → Prop := fun n =>
    P n ∧ ∃ m ∈ mentionsOfUnbound [] key.2.length named.typeParams, sc.LeadsTo m.1 n
  have hneeded : sc.Closed Needed := by
    rintro n m ⟨hn, first, hfirst, hleads⟩ hnm
    exact ⟨hP _ _ hn hnm, first, hfirst, hleads.tail hnm⟩
  have hmentions : ∀ m ∈ mentionsOfUnbound [] key.2.length named.typeParams, Needed m.1 :=
    fun m hm => ⟨hP.of_needed hkey hf key.2.length m (List.mem_append_left _ hm), m, hm, .refl⟩
  obtain ⟨hbinding, hknown₁, hs⟩ :=
    params hr hneeded ha hmentions r bindings r₁ (Nat.le_refl _) hknown hbind
  have hfirst : r₁.instances.lookup key = none ∨ ¬ sc.Apart key := by
    by_cases hapart : sc.Apart key
    · refine .inl ((hbinding.lookup_eq ?_).trans hnone)
      rintro ⟨-, m, hm, hleads⟩
      exact hapart named hf m hm hleads
    · exact .inr hapart
  obtain ⟨h₂, rfl⟩ := hmake hs hknown₁ hfirst hrun
  exact ⟨(hbinding.mono fun _ hn => hn.1).trans h₂.run, h₂.known, h₂.made⟩

/-- What a declared record is resolved to is remembered as its instance. -/
theorem declaredRecord (hrecord : named.isRecord)
    (hrun : sc.declaredType resolve key named r = some (id, r₂)) :
    Run sc P r r₂ ∧ r₂.Known ∧ (key, id) ∈ r₂.instances := by
  cases hnone : r.instances.lookup key with
  | some known =>
      rw [declaredType_of_known hnone] at hrun
      cases hrun
      exact ⟨.refl, hknown, Entries.mem_of_lookup hnone⟩
  | none =>
      rw [Scope.declaredType, get_bind, hnone] at hrun
      cases named with
      | interfaces first more =>
          exact record hr hP hkey hf ha hknown hnone (fun hs hknown hfirst hrun =>
            Growing.interfaceType hr hP hkey hknown hfirst hf hs hrun) hrun
      | aliases first more =>
          exact record hr hP hkey hf ha hknown hnone (fun hs hknown hfirst hrun =>
            Growing.objectType hr hP hkey hknown hfirst hf hrecord hs hrun) hrun
      | classes first more =>
          exact record hr hP hkey hf ha hknown hnone (fun hs hknown hfirst hrun =>
            Growing.classType hr hP hkey hknown hfirst hf hs hrun) hrun
      | enums first more => cases hrecord

end Declared

theorem declaredType {size : Nat} (hr : ResolverSteps sc (Run sc) resolve) (hP : sc.Closed P)
    (hkey : P key.1) (hf : sc.find? key.1 = some named) (ha : ∀ id ∈ key.2, id < size) :
    Steps (Run sc P) size (sc.declaredType resolve key named) Present := by
  have hR := relation sc P
  by_cases hrecord : named.isRecord
  · intro r id r' hsize hknown hrun
    have ha' : ∀ id ∈ key.2, id < r.graph.size := fun id hid => Nat.lt_of_lt_of_le (ha id hid) hsize
    obtain ⟨hstep, hknown', hmade⟩ := declaredRecord hr hP hkey hf ha' hknown hrecord hrun
    exact ⟨hstep, hknown', hknown'.instances _ hmade⟩
  · refine .of_get fun r hsize hknown => ?_
    cases hl : r.instances.lookup key with
    | some id => exact .present hR (lt_of_lookup hknown.instances hl)
    | none =>
        have ha' : ∀ id ∈ key.2, id < r.graph.size :=
          fun id hid => Nat.lt_of_lt_of_le (ha id hid) hsize
        cases named with
        | interfaces first more => exact absurd rfl hrecord
        | aliases first more =>
            have hm := hP.of_needed hkey hf key.2.length
            exact .bind hR (params hr hP ha' fun m h => hm m (List.mem_append_left _ h))
              fun _ _ _ hs =>
                .valueType hR hr hP hs hkey hf hrecord (hP.of_mentions hkey hf)
        | classes first more => exact absurd rfl hrecord
        | enums first more =>
            refine .bind hR (.enumType hR first more) fun size' id _ hid => ?_
            exact .bind hR (.remember hR hid hkey hf hrecord) fun _ _ hle _ =>
              .present hR (Nat.lt_of_lt_of_le hid hle)

end Run

/-- Resolution to any depth is a run of changes. -/
theorem resolveTo_runs (sc : Scope) (depth : Nat) :
    ResolverSteps sc (Run sc) (sc.resolveTo depth) := by
  induction depth with
  | zero =>
      intro P size bindings bound type hP hs hm r id r' hsize hknown hrun
      cases hrun
  | succ depth ih =>
      intro P size bindings bound type hP hs hm
      exact Steps.typeOf (Run.relation sc P) ih hP hs
        (fun hkey hf ha => Run.declaredType ih hP hkey hf ha) hm

/-- All lookups together are a run from the beginning. -/
theorem Source.Reached.run {src : Source} {r : Resolution} (h : src.Reached r) :
    Run src.scope (fun _ => True) .initial r ∧ r.Known := by
  have hR := Run.relation src.scope fun _ => True
  have hr : ResolverSteps src.scope (Run src.scope) src.resolve :=
    resolveTo_runs src.scope src.depth
  induction h with
  | initial => exact ⟨.refl, .initial⟩
  | typeNamed before known found ih =>
      obtain ⟨hrun, hknown, -⟩ := Steps.typeNamed hR (fun _ => trivial) known
        (fun named hf => Run.declaredType hr (fun _ _ _ _ => trivial) trivial hf known)
        _ _ _ (Nat.le_refl _) ih.2 found
      exact ⟨ih.1.trans hrun, hknown⟩
  | exportedClasses before found ih =>
      obtain ⟨hrun, hknown, -⟩ :=
        Steps.exportedClasses hR hr (fun _ => trivial) _ _ _ (Nat.le_refl _) ih.2 found
      exact ⟨ih.1.trans hrun, hknown⟩

end PropSchema.TypeScript
