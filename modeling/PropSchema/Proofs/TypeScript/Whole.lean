import PropSchema.Proofs.TypeScript.Construction
import PropSchema.Proofs.TypeScript.Records
import PropSchema.Proofs.TypeScript.Steps.Types
/-!
Declared types, and with them all types: every interface that becomes known while a type is resolved
is whole afterwards.
-/
namespace PropSchema.TypeScript

open Resolve Scope

/-- A record with bases and with what is copied from them, base by base. -/
def inherited (record : RecordType) (parts : List (NodeId × List Property)) : RecordType :=
  withNew { record with bases := record.bases ++ parts.map Prod.fst } (parts.flatMap Prod.snd)

theorem inherited_nil (record : RecordType) : inherited record [] = record := by
  simp [inherited]

theorem inherited_single (record : RecordType) (base : NodeId) (part : List Property) :
    inherited record [(base, part)] = withNew (withBase record base) part := by
  simp [inherited, withBase]

theorem inherited_append (record : RecordType) (parts parts' : List (NodeId × List Property)) :
    inherited (inherited record parts) parts' = inherited record (parts ++ parts') := by
  simp [inherited, withNew]

theorem grown_withNew (record : RecordType) (ps : List Property) :
    Grown record (withNew record ps) :=
  ⟨rfl, properties_kept record ps, rfl, rfl, List.prefix_refl _⟩

theorem grown_withBase (record : RecordType) (base : NodeId) :
    Grown record (withBase record base) :=
  ⟨rfl, List.prefix_refl _, rfl, rfl, List.prefix_append _ _⟩

theorem grown_withProperties (record : RecordType) (ps : List Property) :
    Grown record { record with properties := record.properties ++ ps } :=
  ⟨rfl, List.prefix_append _ _, rfl, rfl, List.prefix_refl _⟩

section Interface
variable {sc : Scope} {resolve : Resolver} {bindings : Bindings} {r r' : Resolution}

/-- A loop of steps whose results are not kept. -/
theorem forM_eq_mapM {α β : Type} {f : α → Resolve PUnit} {g : α → Resolve β}
    (h : ∀ x, f x = g x >>= fun _ => pure ⟨⟩) (xs : List α) :
    forM xs f = xs.mapM g >>= fun _ => pure ⟨⟩ := by
  induction xs with
  | nil => rfl
  | cons x xs ih => simp only [List.forM_cons, List.mapM_cons, h, ih, bind_assoc, pure_bind]

/-- An interface is made as its parts tell. -/
theorem interfaceType_eq_interfaceParts (key : Instance) (first : InterfaceDecl)
    (more : List InterfaceDecl) :
    sc.interfaceType resolve bindings key first more =
      sc.interfaceParts resolve bindings key first more >>= fun told => pure told.1 := by
  have hown : ∀ id d, sc.addMembers resolve bindings id d =
      sc.ownPart resolve bindings id d >>= fun _ => pure ⟨⟩ := by
    intro id d
    simp only [addMembers, ownPart, bind_assoc, pure_bind, bind_pure_unit]
  have hbase : ∀ id parent, addParent resolve bindings id parent =
      basePart resolve bindings id parent >>= fun _ => pure ⟨⟩ := by
    intro id parent
    simp only [addParent, basePart, bind_assoc]
    refine bind_congr fun base => bind_congr fun _ => bind_congr fun r => ?_
    cases r.graph.form base <;> simp only [bind_assoc, pure_bind, bind_pure_unit]
  rw [interfaceType_eq, interfaceParts]
  simp only [bind_assoc, pure_bind]
  refine bind_congr fun id => ?_
  rw [← Sequences.forM_flatMap, forM_eq_mapM (hown id), forM_eq_mapM (hbase id)]
  simp only [bind_assoc, pure_bind]

/-- What a base has when it is resolved is copied, if it is a record. -/
theorem basePart_cases {id : NodeId} {parent : TypeExpr} {part : NodeId × List Property}
    (h : basePart resolve bindings id parent r = some (part, r')) :
    ∃ r₁, resolve bindings parent r = some (part.1, r₁) ∧
      ((∃ x : RecordType,
          (r₁.graph.modifyRecord id (withBase · part.1)).form part.1 = .record x ∧
          part.2 = x.properties ∧ r' = { r₁ with
            graph := (r₁.graph.modifyRecord id (withBase · part.1)).modifyRecord id
              (withNew · x.properties) }) ∨
        ((∀ x, (r₁.graph.modifyRecord id (withBase · part.1)).form part.1 ≠ .record x) ∧
          part.2 = [] ∧
          r' = { r₁ with graph := r₁.graph.modifyRecord id (withBase · part.1) })) := by
  obtain ⟨⟨base, r₁⟩, hresolve, h⟩ := Option.bind_eq_some_iff.mp h
  dsimp only at h
  rw [modifyRecord_bind, get_bind] at h
  cases hform : (r₁.graph.modifyRecord id (withBase · base)).form base with
  | record x =>
      rw [hform] at h
      cases h
      exact ⟨r₁, hresolve, .inl ⟨x, hform, rfl, rfl⟩⟩
  | _ =>
      rw [hform] at h
      cases h
      exact ⟨r₁, hresolve, .inr ⟨by simp [hform], rfl, rfl⟩⟩

end Interface

variable {sc : Scope} {P : String → Prop} {size : Nat} {resolve : Resolver} {bindings : Bindings}
  {bound : List String} {key : Instance} {r r₁ r₂ : Resolution} {record : RecordType}

namespace Building

/-- The members of all declarations of an interface, one declaration after another. -/
theorem ownParts (hr : ResolverSteps sc (Progress sc) resolve) (hP : sc.Closed P)
    (hs : Ready r.graph.size bindings bound) {decls : List InterfaceDecl}
    (hm : ∀ d ∈ decls, ∀ m ∈ mentionsOfMembers bound d.members, P m.1 ∧ sc.LeadsTo key.1 m.1)
    (h : Building sc P key r r₁ record) {own : List (List Property)}
    (hrun : decls.mapM (sc.ownPart resolve bindings r.graph.size) r₁ = some (own, r₂)) :
    Building sc P key r r₂ (withNew record own.flatten) := by
  induction decls generalizing r₁ record own with
  | nil =>
      cases hrun
      exact h
  | cons d ds ih =>
      rw [List.mapM_cons] at hrun
      rw [List.forall_mem_cons] at hm
      obtain ⟨⟨ps, r₃⟩, hd, hrun⟩ := Option.bind_eq_some_iff.mp hrun
      obtain ⟨⟨rest, r₄⟩, hrest, hrun⟩ := Option.bind_eq_some_iff.mp hrun
      cases hrun
      obtain ⟨⟨ps', r₄⟩, hmembers, hd⟩ := Option.bind_eq_some_iff.mp hd
      cases hd
      have hsteps := Steps.members (Progress.relation sc _) hr (hP.inside key.1) hs hm.1
      obtain ⟨h₄, -, -⟩ := h.grow hsteps hmembers
      have h₃ : Building sc P key r _ (withNew record ps) :=
        h₄.modify (withNew · ps) (grown_withNew record ps)
      have h₂ := ih hm.2 h₃ hrest
      rw [withNew_append] at h₂
      exact h₂

/-- One of the types that an interface extends: what is copied is what it has at the time. -/
theorem basePart (hr : ResolverSteps sc (Progress sc) resolve) (hP : sc.Closed P)
    (hs : Ready r.graph.size bindings bound) {type : TypeExpr}
    (hm : ∀ m ∈ type.mentions bound, P m.1 ∧ sc.LeadsTo key.1 m.1)
    (h : Building sc P key r r₁ record) {part : NodeId × List Property}
    (hrun : TypeScript.basePart resolve bindings r.graph.size type r₁ = some (part, r₂)) :
    Building sc P key r r₂ (inherited record [part]) ∧
      Inherits sc r₂.graph key.1 part.1 part.2 ∧ Later sc key.1 r₁.graph r₂.graph := by
  obtain ⟨r₃, hresolve, hcases⟩ := basePart_cases hrun
  obtain ⟨base, copied⟩ := part
  obtain ⟨h₃, hlater, hbase⟩ := h.grow (hr (hP.inside key.1) hs hm) hresolve
  have h₄ : Building sc P key r _ (withBase record base) :=
    h₃.modify (withBase · base) (grown_withBase record base)
  have hlater₄ := h₃.later (withBase · base) (grown_withBase record base) .refl
  -- the base may be under construction itself, then only what it has by now is copied
  have hcopied : ∀ {g : TypeGraph} {part : List Property},
      (r₃.graph.modifyRecord r.graph.size (withBase · base)).fields base = part →
      Later sc key.1 (r₃.graph.modifyRecord r.graph.size (withBase · base)) g →
      Inherits sc g key.1 base part ∧ Later sc key.1 r₁.graph g := by
    rintro g part rfl hlater'
    have hknown := Nat.lt_of_lt_of_le hbase hlater₄.size
    have hinherits : Inherits sc _ key.1 base _ := ⟨hknown, List.prefix_refl _, .inl rfl⟩
    exact ⟨hinherits.later hlater', hlater.trans (hlater₄.trans hlater')⟩
  rw [inherited_single]
  obtain ⟨x, hform, rfl, rfl⟩ | ⟨hform, rfl, rfl⟩ := hcases
  · have hfields := TypeGraph.fields_of_record hform
    have hgrown := grown_withNew (withBase record base) x.properties
    exact ⟨h₄.modify (withNew · x.properties) hgrown,
      hcopied hfields (h₄.later (withNew · x.properties) hgrown .refl)⟩
  · exact ⟨h₄, hcopied (fields_eq_nil hform) (.refl _ _ _)⟩

theorem baseParts (hr : ResolverSteps sc (Progress sc) resolve) (hP : sc.Closed P)
    (hs : Ready r.graph.size bindings bound) {types : List TypeExpr}
    (hm : ∀ type ∈ types, ∀ m ∈ type.mentions bound, P m.1 ∧ sc.LeadsTo key.1 m.1)
    (h : Building sc P key r r₁ record) {parts : List (NodeId × List Property)}
    (hrun : types.mapM (TypeScript.basePart resolve bindings r.graph.size) r₁ = some (parts, r₂)) :
    Building sc P key r r₂ (inherited record parts) ∧
      (∀ part ∈ parts, Inherits sc r₂.graph key.1 part.1 part.2) ∧
      Later sc key.1 r₁.graph r₂.graph := by
  induction types generalizing r₁ record parts with
  | nil =>
      cases hrun
      exact ⟨(inherited_nil record).symm ▸ h, nofun, .refl _ _ _⟩
  | cons type types ih =>
      rw [List.mapM_cons] at hrun
      rw [List.forall_mem_cons] at hm
      obtain ⟨⟨part, r₃⟩, hparent, hrun⟩ := Option.bind_eq_some_iff.mp hrun
      obtain ⟨⟨rest, r₄⟩, hrest, hrun⟩ := Option.bind_eq_some_iff.mp hrun
      cases hrun
      obtain ⟨h₃, hinherits, hlater₃⟩ := h.basePart hr hP hs hm.1 hparent
      obtain ⟨h₂, hparts, hlater₂⟩ := ih hm.2 h₃ hrest
      rw [inherited_append] at h₂
      refine ⟨h₂, ?_, hlater₃.trans hlater₂⟩
      -- what is copied from this base stays a part of it while the other bases are resolved
      rw [List.forall_mem_cons]
      exact ⟨hinherits.later hlater₂, hparts⟩

/-- The fields of a class that are open to all. -/
theorem fields (hr : ResolverSteps sc (Progress sc) resolve) (hP : sc.Closed P)
    (hs : Ready r.graph.size bindings bound) {fs : List Field}
    (hm : ∀ f ∈ fs, ∀ m ∈ mentionsOfOptional bound f.typeExpr, P m.1 ∧ sc.LeadsTo key.1 m.1)
    (h : Building sc P key r r₁ record) {u : PUnit}
    (hrun : forM fs (sc.addField resolve bindings r.graph.size) r₁ = some (u, r₂)) :
    ∃ record', Building sc P key r r₂ record' := by
  induction fs generalizing r₁ record with
  | nil =>
      cases hrun
      exact ⟨record, h⟩
  | cons f fs ih =>
      rw [List.forM_cons] at hrun
      rw [List.forall_mem_cons] at hm
      obtain ⟨⟨_, r₃⟩, hf, hrun⟩ := Option.bind_eq_some_iff.mp hrun
      unfold Scope.addField at hf
      by_cases hopen : (!f.isStatic && !f.hidden) = true
      · rw [if_pos hopen] at hf
        obtain ⟨⟨p, r₄⟩, hproperty, hf⟩ := Option.bind_eq_some_iff.mp hf
        cases hf
        obtain ⟨h₄, -, -⟩ :=
          h.grow (Steps.property (Progress.relation sc _) hr (hP.inside key.1) hs hm.1) hproperty
        exact ih hm.2 (h₄.modify (fun record =>
          { record with properties := record.properties ++ [p] }) (grown_withProperties _ _)) hrun
      · rw [if_neg hopen] at hf
        cases hf
        exact ih hm.2 h hrun

end Building

namespace Progress

section Declared
variable (hP : sc.Closed P) (hkey : P key.1)
include hP hkey

/-- An interface is whole once it is resolved. -/
theorem interfaceType {depth : Nat} (hr : ResolverSteps sc (Progress sc) (sc.resolveTo depth))
    {first : InterfaceDecl} {more : List InterfaceDecl} {before : Resolution} {id : NodeId}
    (hf : sc.find? key.1 = some (.interfaces first more)) (hbefore : before.Known)
    (hmissing : before.instances.lookup key = none)
    (hbinds : sc.bindTypeParams (sc.resolveTo depth) [] first.typeParams key.2 before =
      some (bindings, r)) (hknown : r.Known)
    (hs : Ready r.graph.size bindings (Named.bound (.interfaces first more)))
    (hrun : sc.interfaceType (sc.resolveTo depth) bindings key first more r = some (id, r₂)) :
    Progress sc P r r₂ ∧ r₂.Known ∧ id < r₂.graph.size := by
  have hm := (hP.inside key.1).of_mentions ⟨hkey, .refl⟩ hf
  rw [Named.mentions, List.forall_mem_append] at hm
  rw [interfaceType_eq_interfaceParts] at hrun
  obtain ⟨⟨⟨made, own, parts⟩, r₃⟩, hmaking, hrun⟩ := Option.bind_eq_some_iff.mp hrun
  cases hrun
  have hresolves := hmaking
  obtain ⟨⟨_, r₄⟩, hown, hmaking⟩ := Option.bind_eq_some_iff.mp hmaking
  obtain ⟨⟨_, r₅⟩, hparents, hmaking⟩ := Option.bind_eq_some_iff.mp hmaking
  cases hmaking
  have h₁ : Building sc P key r _ _ := .start hknown (some (sc.location first.place))
  have h₂ := h₁.ownParts hr hP hs
    (fun d hd m h => hm.1 m (List.mem_flatMap.mpr ⟨d, hd, h⟩)) hown
  have hextended : ∀ type ∈ (first :: more).flatMap InterfaceDecl.parents,
      ∀ m ∈ type.mentions (Named.bound (.interfaces first more)), P m.1 ∧ sc.LeadsTo key.1 m.1 := by
    intro type htype m h
    obtain ⟨d, hd, htype⟩ := List.mem_flatMap.mp htype
    exact hm.2 m (List.mem_flatMap.mpr ⟨d, hd, mentions_subset_types htype h⟩)
  obtain ⟨h₃, hparts, -⟩ := h₂.baseParts hr hP hs hextended hparents
  refine ⟨h₃.progress hkey fun hf' => ?_, h₃.known, h₃.size⟩
  -- the two lookups of the name give the same declarations
  cases hf.symm.trans hf'
  refine ⟨⟨depth, before, r, _, bindings, _, _, hbefore, hmissing, hbinds, hresolves⟩, .refl _,
    h₃.form.trans ?_, hparts⟩
  simp [Making.record, inherited, withNew, firstOfEachName]

theorem classType (hr : ResolverSteps sc (Progress sc) resolve) {first : ClassSite} {more : List ClassSite}
    (hf : sc.find? key.1 = some (.classes first more))
    (hs : Ready size bindings (Named.bound (.classes first more))) :
    Steps (Progress sc P) size (sc.classType resolve bindings key first.decl) Present := by
  have hm := (hP.inside key.1).of_mentions ⟨hkey, .refl⟩ hf
  rw [Named.mentions, List.forall_mem_append] at hm
  rw [classType_eq]
  intro r id r' hsize hknown hrun
  obtain ⟨⟨bases, r₂⟩, hbases, hrun⟩ := Option.bind_eq_some_iff.mp hrun
  obtain ⟨⟨_, r₄⟩, hfields, hrun⟩ := Option.bind_eq_some_iff.mp hrun
  cases hrun
  have h₁ : Building sc P key r _ _ := .start hknown (some (sc.location first.decl.place))
  have hheritage : ∀ h ∈ first.decl.heritage, ∀ size', r.graph.size ≤ size' →
      Steps (Progress sc _) size' (sc.baseType resolve bindings h) Present := fun h hh size' hle =>
    Steps.baseType (relation sc _) hr (hP.inside key.1) ((hs.mono hsize).mono hle) fun m hm' =>
      hm.1 m (List.mem_flatMap.mpr ⟨h, hh, hm'⟩)
  obtain ⟨h₂, -, -⟩ :=
    h₁.grow (Steps.mapM (Progress.relation sc _) (S := Present)
      (fun hle hid => Nat.lt_of_lt_of_le hid hle) hheritage) hbases
  have h₃ := h₂.modify ({ · with bases })
    ⟨rfl, List.prefix_refl _, rfl, rfl, List.nil_prefix⟩
  obtain ⟨record, h₄⟩ := h₃.fields hr hP (hs.mono hsize)
    (fun f hf m h => hm.2 m (List.mem_flatMap.mpr ⟨f, hf, h⟩)) hfields
  refine ⟨h₄.progress hkey fun hf' => ?_, h₄.known, h₄.size⟩
  cases hf.symm.trans hf'

/-- An alias of an object type is a record. -/
theorem objectType (hr : ResolverSteps sc (Progress sc) resolve) {first : AliasDecl} {more : List AliasDecl}
    (hf : sc.find? key.1 = some (.aliases first more))
    (hrecord : (Named.aliases first more).isRecord)
    (hs : Ready size bindings (Named.bound (.aliases first more))) :
    Steps (Progress sc P) size (sc.aliasType resolve bindings key first) Present := by
  obtain ⟨members, place, hvalue⟩ := Named.isRecord_aliases.mp hrecord
  have hm := (hP.inside key.1).of_mentions ⟨hkey, .refl⟩ hf
  simp only [Named.mentions, hvalue] at hm
  simp only [Scope.aliasType, hvalue]
  intro r id r' hsize hknown hrun
  obtain ⟨⟨properties, r₂⟩, hmembers, hrun⟩ := Option.bind_eq_some_iff.mp hrun
  cases hrun
  have h₁ : Building sc P key r _ _ := .start hknown (some (sc.location first.place))
  obtain ⟨h₂, -, -⟩ :=
    h₁.grow (Steps.members (Progress.relation sc _) hr (hP.inside key.1) (hs.mono hsize) hm) hmembers
  have h₃ := h₂.modify (fun record => { record with properties := record.properties ++ properties })
    (grown_withProperties _ _)
  refine ⟨h₃.progress hkey fun hf' => ?_, h₃.known, h₃.size⟩
  cases hf.symm.trans hf'

theorem declaredType {depth : Nat}
    (hr : ResolverSteps sc (Progress sc) (sc.resolveTo depth)) {named : Named}
    (hf : sc.find? key.1 = some named) (ha : ∀ id ∈ key.2, id < size) :
    Steps (Progress sc P) size (sc.declaredType (sc.resolveTo depth) key named) Present := by
  have hR := relation sc P
  intro r id r' hsize hknown hrun
  rw [Scope.declaredType, get_bind] at hrun
  cases hl : r.instances.lookup key with
  | some found =>
      rw [hl] at hrun
      exact Steps.present hR (lt_of_lookup hknown.instances hl) r id r' (Nat.le_refl _) hknown hrun
  | none =>
      rw [hl] at hrun
      have ha' : ∀ id ∈ key.2, id < r.graph.size :=
        fun id hid => Nat.lt_of_lt_of_le (ha id hid) hsize
      have hbind : ∀ params : List (TypeParam TypeExpr), params = named.typeParams →
          Steps (Progress sc P) r.graph.size
            (sc.bindTypeParams (sc.resolveTo depth) [] params key.2)
            fun size' bindings => Ready size' bindings named.bound := by
        rintro params rfl
        have hbound := Steps.bindTypeParams hR hr hP .nil ha' fun m hm =>
          hP.of_needed hkey hf key.2.length m (List.mem_append_left _ hm)
        rw [List.append_nil] at hbound
        exact hbound
      cases named with
      | interfaces first more =>
          obtain ⟨⟨bindings, r₁⟩, hbinds, hrun⟩ := Option.bind_eq_some_iff.mp hrun
          obtain ⟨hbound, hknown₁, hs⟩ :=
            hbind _ rfl r bindings r₁ (Nat.le_refl _) hknown hbinds
          obtain ⟨hmade, hknown', hid⟩ :=
            interfaceType hP hkey hr hf hknown hl hbinds hknown₁ hs hrun
          exact ⟨hbound.trans hmade hknown₁, hknown', hid⟩
      | aliases first more =>
          refine Steps.bind hR (hbind _ rfl) (fun _ _ _ hs => ?_) r id r' (Nat.le_refl _) hknown hrun
          by_cases hrecord : (Named.aliases first more).isRecord
          · exact objectType hP hkey hr hf hrecord hs
          · exact .valueType hR hr hP hs hkey hf hrecord (hP.of_mentions hkey hf)
      | classes first more =>
          exact Steps.bind hR (hbind _ rfl) (fun _ _ _ hs => classType hP hkey hr hf hs) r id r'
            (Nat.le_refl _) hknown hrun
      | enums first more =>
          refine Steps.bind hR (.enumType hR first more) (fun size' id _ hid => ?_) r id r'
            (Nat.le_refl _) hknown hrun
          exact .bind hR (.remember hR hid hkey hf Bool.false_ne_true) fun _ _ hle _ =>
            .present hR (Nat.lt_of_lt_of_le hid hle)

end Declared

end Progress

/-- Resolution to any depth makes whole what a type mentions. -/
theorem resolveTo_progresses (sc : Scope) (depth : Nat) :
    ResolverSteps sc (Progress sc) (sc.resolveTo depth) := by
  induction depth with
  | zero =>
      intro P size bindings bound type hP hs hm r id r' hsize hknown hrun
      cases hrun
  | succ depth ih =>
      intro P size bindings bound type hP hs hm
      exact Steps.typeOf (Progress.relation sc P) ih hP hs
        (fun hkey hf ha => Progress.declaredType hP hkey ih hf ha) hm

end PropSchema.TypeScript
