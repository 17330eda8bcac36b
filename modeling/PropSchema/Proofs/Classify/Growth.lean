import Mathlib.Tactic.Positivity
import PropSchema.Proofs.Classify.Pass
/-!
Classification only adds. Whatever is classified, and whether it succeeds or fails, the slots that
were there stay as they were, the memo keeps its entries and the owners are restored. A slot that a
failed record has reserved stays empty for good.
-/
namespace PropSchema

/-- What the schema of a type is made from, once its shape is known. -/
inductive Makeup where
  | plain (type : PropType)
  | union (leaves : List NodeId)
  | tuple (elements : List NodeId)
  | array (element : NodeId)
  | function (signature : Signature)
  | record (use : TypeUse)
  | partialRecord (target : NodeId)
  | unknown (id : NodeId)

namespace TypeGraph

/-- The makeup of a node by its form alone. -/
def formMakeup (g : TypeGraph) (id : NodeId) : Makeup :=
  match g.form id with
  | .literal value => .plain (.literal value)
  | .tuple elements => .tuple elements
  | .array element => .array element
  | .partialOf target => .partialRecord target
  | .function _ => match g.signature? id with
    | none => .unknown id
    | some signature => .function signature
  | _ => .unknown id

/-- The makeup of a type by its shape. -/
def makeup (g : TypeGraph) (use : TypeUse) : Makeup :=
  match g.shape use, use with
  | .void, _ => .plain .void
  | .string, _ => .plain .string
  | .number, _ => .plain .number
  | .boolean, _ => .plain .boolean
  | .any, _ => .plain .any
  | .union, use => .union ((g.unionLeaves? use).getD [])
  | .object, use => .record use
  | _, .union _ => .plain .any
  | _, .node id => g.formMakeup id

/-- A union made on the way is void or a union. -/
theorem shape_union (g : TypeGraph) (leaves : List NodeId) :
    g.shape (.union leaves) = .void ∨ g.shape (.union leaves) = .union := by
  unfold shape
  split
  · exact .inl rfl
  · exact .inr rfl

/-- A type without its nullability. -/
def stripped (g : TypeGraph) (use : TypeUse) : TypeUse :=
  if g.isNullable use then g.nonNullable use else use

end TypeGraph

/-- What the memo would know a use by. -/
def TypeUse.identity (use : TypeUse) (c : Context) : TypeIdentity :=
  match use with
  | .node id => .node id
  | .union _ => .passing c.slots.length

namespace Classify
variable (r : Rules) (g : TypeGraph)

theorem specTo_succ (depth : Nat) (use : TypeUse) :
    specTo r g (depth + 1) use =
      (match r.registry.find? (g.symbolOf (g.stripped use)) with
        | some known => pure known
        | none => propTypeTo r g depth (g.stripped use)) >>= fun propType =>
          pure ⟨propType, g.isNullable use && !propType.isVoid⟩ := by
  rw [specTo]
  change (match r.registry.find? (g.symbolOf (g.stripped use)) with
    | some known => _
    | none => _) = _
  cases r.registry.find? (g.symbolOf (g.stripped use)) <;> rfl

/-- To no depth, nothing is classified. -/
theorem tooDeepTo : (∀ use, specTo r g 0 use = throw .tooDeep) ∧
    (∀ use, propTypeTo r g 0 use = throw .tooDeep) ∧ (∀ use, slotTo r g 0 use = throw .tooDeep) ∧
      ∀ p, memberTo r g 0 p = throw .tooDeep :=
  ⟨fun _ => by rw [specTo], fun _ => by rw [propTypeTo], fun _ => by rw [slotTo],
    fun _ => by rw [memberTo]⟩

/-- The prop type of a makeup. -/
def makeupTo (depth : Nat) : Makeup → Pass PropType
  | .plain type => pure type
  | .union leaves => do
    let options ← leaves.mapM fun leaf =>
      Pass.unionMember (do pure (← specTo r g depth (.node leaf)).propType)
    pure (.union options)
  | .tuple elements => do
    let elements ← elements.mapM fun e => do pure (← specTo r g depth (.node e)).propType
    pure (.tuple elements)
  | .array element => do pure (.array (← specTo r g depth (.node element)).propType)
  | .function signature => do
    let args ← signature.parameters.mapM fun (_, use) => specTo r g depth (parameterUse g use)
    pure (.fn args (← specTo r g depth (.node signature.result)))
  | .record use => do pure (.ref (← slotTo r g depth use))
  | .partialRecord target => do pure (.partialRef (← slotTo r g depth (.node target)))
  | .unknown id => unknownTo r g id

theorem propTypeTo_succ (depth : Nat) (use : TypeUse) :
    propTypeTo r g (depth + 1) use = makeupTo r g depth (g.makeup use) := by
  unfold propTypeTo TypeGraph.makeup
  cases use with
  | union leaves => cases g.shape (.union leaves) <;> rfl
  | node id =>
      cases g.shape (.node id)
      case void | string | number | boolean | any | union | object => rfl
      all_goals
        dsimp only [TypeGraph.formMakeup]
        cases g.form id
        case function f => cases g.signature? id <;> rfl
        all_goals rfl

/-- The members of a record that has got its slot. -/
def membersTo (depth : Nat) (use : TypeUse) (slot : Nat) : Pass (List MemberSpec) := do
  Pass.note (.reserved slot (← Pass.written (slotTitle g use)))
  (g.propertiesOf use).mapM fun p => memberTo r g depth p

/-- The entry of a record, made from its members and put into its slot. -/
def entryTo (depth : Nat) (use : TypeUse) (slot : Nat) : Pass Nat := do
  let members ← membersTo r g depth use slot
  Pass.patch slot ⟨g.declaredNameOf use, members⟩
  pure slot

theorem slotTo_run (depth : Nat) (use : TypeUse) (c : Context) :
    (slotTo r g (depth + 1) use).run c = match c.lookup (use.identity c) with
      | some slot => (.ok slot, c)
      | none => (entryTo r g depth use c.slots.length).run (c.reserve (use.identity c)).2 := by
  have hentry : ∀ slot, entryTo r g depth use slot = (do
      Pass.note (.reserved slot (← Pass.written (slotTitle g use)))
      let members ← (g.propertiesOf use).mapM fun p => memberTo r g depth p
      Pass.patch slot ⟨g.declaredNameOf use, members⟩
      pure slot) := by
    intro slot
    simp only [entryTo, membersTo, bind_assoc]
  rw [hentry, slotTo]
  change ExceptT.run (match c.lookup (use.identity c) with
    | some slot => (pure slot : Pass Nat)
    | none => _) c = _
  cases c.lookup (use.identity c) <;> rfl

section Congruence
variable {R : ∀ {α : Type}, Pass α → Pass α → Prop} (hR : Pass.Congruence R) {r r' : Rules}
  {g : TypeGraph} {depth depth' : Nat}
include hR

theorem makeupTo_congr (hunknown : ∀ id, R (unknownTo r g id) (unknownTo r' g id))
    (hspec : ∀ use, R (specTo r g depth use) (specTo r' g depth' use))
    (hslot : ∀ use, R (slotTo r g depth use) (slotTo r' g depth' use)) (m : Makeup) :
    R (makeupTo r g depth m) (makeupTo r' g depth' m) := by
  have htype : ∀ id, R (do pure (← specTo r g depth (.node id)).propType : Pass PropType)
      (do pure (← specTo r' g depth' (.node id)).propType) :=
    fun id => hR.bind (hspec _) fun _ => hR.pure _
  cases m with
  | plain type => exact hR.pure type
  | union leaves =>
      exact hR.bind (hR.mapM _ _ (fun leaf => hR.unionMember (htype leaf)) _) fun _ => hR.pure _
  | tuple elements => exact hR.bind (hR.mapM _ _ htype _) fun _ => hR.pure _
  | array element => exact hR.bind (hspec _) fun _ => hR.pure _
  | function signature =>
      exact hR.bind (hR.mapM _ _ (fun _ => hspec _) _) fun _ =>
        hR.bind (hspec _) fun _ => hR.pure _
  | record use => exact hR.bind (hslot _) fun _ => hR.pure _
  | partialRecord target => exact hR.bind (hslot _) fun _ => hR.pure _
  | unknown id => exact hunknown id

theorem specTo_congr (hregistry : r'.registry = r.registry)
    (hprop : ∀ use, R (propTypeTo r g depth use) (propTypeTo r' g depth' use)) (use : TypeUse) :
    R (specTo r g (depth + 1) use) (specTo r' g (depth' + 1) use) := by
  rw [specTo_succ, specTo_succ, hregistry]
  refine hR.bind ?_ fun _ => hR.pure _
  cases r.registry.find? (g.symbolOf (g.stripped use)) with
  | some known => exact hR.pure known
  | none => exact hprop _

theorem propTypeTo_congr (hunknown : ∀ id, R (unknownTo r g id) (unknownTo r' g id))
    (hspec : ∀ use, R (specTo r g depth use) (specTo r' g depth' use))
    (hslot : ∀ use, R (slotTo r g depth use) (slotTo r' g depth' use)) (use : TypeUse) :
    R (propTypeTo r g (depth + 1) use) (propTypeTo r' g (depth' + 1) use) := by
  rw [propTypeTo_succ, propTypeTo_succ]
  exact makeupTo_congr hR hunknown hspec hslot _

theorem memberTo_congr (hspec : ∀ use, R (specTo r g depth use) (specTo r' g depth' use))
    {p : Property} (hmissing : g.propertyUse? p = none →
      R (throw (.missingType p.name) : Pass MemberSpec) (throw (.missingType p.name))) :
    R (memberTo r g (depth + 1) p) (memberTo r' g (depth' + 1) p) := by
  rw [memberTo, memberTo]
  refine hR.within p.name ?_
  cases huse : g.propertyUse? p with
  | none => exact hmissing huse
  | some use => exact hR.bind (hspec use) fun _ => hR.pure _

variable (r r' g) in
/-- To any depth, classification by two rules with one registry goes as a relation has it if their
faults and the slots of records do. Members of records may be ones of which something is known. -/
theorem congrTo (hregistry : r'.registry = r.registry)
    (htooDeep : ∀ {α : Type}, R (throw .tooDeep : Pass α) (throw .tooDeep))
    (hunknown : ∀ id, R (unknownTo r g id) (unknownTo r' g id)) (known : Property → Prop)
    (hmissing : ∀ p, known p → g.propertyUse? p = none →
      R (throw (.missingType p.name) : Pass MemberSpec) (throw (.missingType p.name)))
    (hslots : ∀ depth, (∀ p, known p → R (memberTo r g depth p) (memberTo r' g depth p)) →
      ∀ use, R (slotTo r g (depth + 1) use) (slotTo r' g (depth + 1) use)) (depth : Nat) :
    (∀ use, R (specTo r g depth use) (specTo r' g depth use)) ∧
      (∀ use, R (propTypeTo r g depth use) (propTypeTo r' g depth use)) ∧
      (∀ use, R (slotTo r g depth use) (slotTo r' g depth use)) ∧
      ∀ p, known p → R (memberTo r g depth p) (memberTo r' g depth p) := by
  induction depth with
  | zero =>
      obtain ⟨hspec, hprop, hslot, hmember⟩ := tooDeepTo r g
      obtain ⟨hspec', hprop', hslot', hmember'⟩ := tooDeepTo r' g
      simp only [hspec, hprop, hslot, hmember, hspec', hprop', hslot', hmember']
      exact ⟨fun _ => htooDeep, fun _ => htooDeep, fun _ => htooDeep, fun _ _ => htooDeep⟩
  | succ depth ih =>
      obtain ⟨hspec, hprop, hslot, hmember⟩ := ih
      exact ⟨specTo_congr hR hregistry hprop, propTypeTo_congr hR hunknown hspec hslot,
        hslots depth hmember, fun p hp => memberTo_congr hR hspec (hmissing p hp)⟩

end Congruence

variable {r g} {depth : Nat}

/-- A record whose title is reported goes on to its members. -/
theorem membersTo_of_title {use : TypeUse} {title : String} (h : slotTitle g use = some title)
    (slot : Nat) (c : Context) : (membersTo r g depth use slot).run c =
      ((g.propertiesOf use).mapM (memberTo r g depth)).run
        { c with notes := .reserved slot title :: c.notes } := by
  rw [membersTo, h]
  rfl

/-- A record without a title comes to nothing. -/
theorem membersTo_of_no_title {use : TypeUse} (h : slotTitle g use = none) (slot : Nat)
    (c : Context) : (membersTo r g depth use slot).run c = (.error .unwritable, c) := by
  rw [membersTo, h]
  rfl

theorem entryTo_of_error {use : TypeUse} {slot : Nat} {c c' : Context} {fault : PassFault}
    (h : (membersTo r g depth use slot).run c = (.error fault, c')) :
    (entryTo r g depth use slot).run c = (.error fault, c') :=
  Pass.run_bind_error h _

/-- Once its members are known, a record is put into the slot that waits for it. -/
theorem entryTo_of_ok {use : TypeUse} {slot : Nat} {c c' : Context} {members : List MemberSpec}
    (h : (membersTo r g depth use slot).run c = (.ok members, c'))
    (hs : c'.slots[slot]? = some none) :
    (entryTo r g depth use slot).run c = (.ok slot,
      { c' with slots := c'.slots.set slot (some ⟨g.declaredNameOf use, members⟩) }) := by
  rw [entryTo, Pass.run_bind_ok h, Pass.run_bind_ok (Pass.run_patch_of_empty hs _)]
  rfl

/-- A type that no rule fits is taken for anything, if its text can be reported. -/
theorem ok_of_unknownTo {id : NodeId} {type : PropType} {c c' : Context}
    (h : (unknownTo r g id).run c = (.ok type, c')) :
    r.policy = .lenient ∧ type = .any ∧ ∃ text,
      g.render (.node id) = some text ∧ c' = { c with notes := .fellBack text :: c.notes } := by
  obtain ⟨text, c₁, hwritten, htaken⟩ := Pass.ok_of_bind h
  obtain ⟨htext, rfl⟩ := Pass.ok_of_written hwritten
  cases hpolicy : r.policy with
  | strict =>
      rw [hpolicy] at htaken
      cases htaken
  | lenient =>
      rw [hpolicy] at htaken
      cases htaken
      exact ⟨rfl, rfl, text, htext, rfl⟩

theorem unknownTo_extending (id : NodeId) : (unknownTo r g id).Extending := by
  unfold unknownTo
  refine .bind (.written _) fun _ => ?_
  cases r.policy with
  | strict => exact .throw _
  | lenient => exact .bind (.note _) fun _ => .pure _

theorem membersTo_extending (h : ∀ p, (memberTo r g depth p).Extending) (use : TypeUse)
    (slot : Nat) : (membersTo r g depth use slot).Extending :=
  .bind (.written _) fun _ => .bind (.note _) fun _ => .mapM h _

theorem slotTo_extending (h : ∀ p, (memberTo r g depth p).Extending) (use : TypeUse) :
    (slotTo r g (depth + 1) use).Extending := by
  intro c
  rw [slotTo_run]
  cases hk : c.lookup (use.identity c) with
  | some slot => exact .refl c
  | none =>
      have hm := membersTo_extending h use c.slots.length (c.reserve (use.identity c)).2
      have hc := (Context.extends_reserve hk).trans hm
      have hs := hm.reserved
      rcases hr : (membersTo r g depth use c.slots.length).run
        (c.reserve (use.identity c)).2 with ⟨outcome, c'⟩
      rw [hr] at hc hs
      cases outcome with
      | error fault =>
          simp only [entryTo_of_error hr]
          exact hc
      | ok members =>
          simp only [entryTo_of_ok hr hs]
          exact hc.set (Nat.le_refl _) _

/-- However deep it goes, classification takes nothing back. -/
theorem extendingTo (r : Rules) (g : TypeGraph) (depth : Nat) :
    (∀ use, (specTo r g depth use).Extending) ∧ (∀ use, (propTypeTo r g depth use).Extending) ∧
      (∀ use, (slotTo r g depth use).Extending) ∧ ∀ p, (memberTo r g depth p).Extending := by
  obtain ⟨hspec, hprop, hslot, hmember⟩ := congrTo Pass.Extending.congruence r r g rfl (.throw _)
    unknownTo_extending (fun _ => True) (fun _ _ _ => .throw _)
    (fun _ h => slotTo_extending fun p => h p trivial) depth
  exact ⟨hspec, hprop, hslot, fun p => hmember p trivial⟩

theorem spec_extending (r : Rules) (g : TypeGraph) (use : TypeUse) : (spec r g use).Extending :=
  (extendingTo r g _).1 use

theorem slot_extending (r : Rules) (g : TypeGraph) (use : TypeUse) : (slot r g use).Extending :=
  (extendingTo r g _).2.2.1 use

theorem propsSlot_extending (r : Rules) (g : TypeGraph) (use : TypeUse) :
    (propsSlot r g use).Extending :=
  slot_extending r g _

theorem classifyDepth_pos (g : TypeGraph) : 0 < g.classifyDepth := by
  unfold TypeGraph.classifyDepth
  positivity

/-- A record that could not be classified leaves the slot empty that it was given. -/
theorem slotTo_leaves_empty {use : TypeUse} {c c' : Context} {fault : PassFault}
    (h : (slotTo r g (depth + 1) use).run c = (.error fault, c')) :
    c'.slots[c.slots.length]? = some none := by
  rw [slotTo_run] at h
  cases hk : c.lookup (use.identity c) with
  | some slot =>
      rw [hk] at h
      cases h
  | none =>
      rw [hk] at h
      have hm := membersTo_extending (extendingTo r g depth).2.2.2 use c.slots.length
        (c.reserve (use.identity c)).2
      have hs := hm.reserved
      rcases hr : (membersTo r g depth use c.slots.length).run
        (c.reserve (use.identity c)).2 with ⟨outcome, c''⟩
      rw [hr] at hs
      cases outcome with
      | error fault' =>
          simp only [entryTo_of_error hr] at h
          cases h
          exact hs
      | ok members =>
          simp only [entryTo_of_ok hr hs] at h
          cases h

theorem slot_leaves_empty {use : TypeUse} {c c' : Context} {fault : PassFault}
    (h : (slot r g use).run c = (.error fault, c')) : c'.slots[c.slots.length]? = some none := by
  obtain ⟨depth, hd⟩ := Nat.exists_eq_succ_of_ne_zero (classifyDepth_pos g).ne'
  rw [slot, hd] at h
  exact slotTo_leaves_empty h

end Classify

namespace Components

theorem ofClass_extending (r : ComponentRules) (g : TypeGraph) (id : NodeId) :
    (ofClass r g id).Extending := by
  unfold ofClass
  dsimp only
  split
  · exact .pure _
  · split
    · exact .bind (.note _) fun _ => .pure _
    · exact .bind (Classify.propsSlot_extending _ _ _) fun _ => .bind (.note _) fun _ => .pure _

/-- A class fails as a component only if its props do. -/
theorem ofClass_leaves_empty {r : ComponentRules} {g : TypeGraph} {id : NodeId} {c c' : Context}
    {fault : PassFault} (h : (ofClass r g id).run c = (.error fault, c')) :
    c'.slots[c.slots.length]? = some none := by
  unfold ofClass at h
  dsimp only at h
  split at h
  · cases h
  · split at h
    · cases h
    · obtain hf | ⟨slot, c₁, -, h₁⟩ := Pass.error_of_bind h
      · exact Classify.slot_leaves_empty hf
      · cases h₁

/-- The table with the components that have been found, if it is complete. -/
def finish (found : List (Option ComponentSpec)) : Pass Extraction := do
  match (← get).result (found.filterMap id) with
  | .ok x => pure x
  | .error fault => throw fault

/-- A table that is not finished is no limit of the pass. -/
theorem not_isLimit_of_result {c : Context} {components : List ComponentSpec} {fault : PassFault}
    (h : c.result components = .error fault) : ¬ fault.IsLimit := by
  unfold Context.result at h
  split at h
  · dsimp only at h
    split at h <;> cases h
    exact nofun
  · cases h
    exact nofun

theorem run_finish (found : List (Option ComponentSpec)) (c : Context) :
    (finish found).run c = (c.result (found.filterMap id), c) := by
  rw [finish, Pass.run_bind_ok (by rfl)]
  cases c.result (found.filterMap id) <;> rfl

theorem find_eq (r : ComponentRules) (g : TypeGraph) (declarations : List NodeId) :
    find r g declarations = (distinctClasses g declarations).mapM (ofClass r g) >>= finish := rfl

end Components

end PropSchema
