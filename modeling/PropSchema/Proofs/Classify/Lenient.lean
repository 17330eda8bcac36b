import PropSchema.Proofs.Classify.Refusal
import PropSchema.Proofs.Classify.Termination
/-!
Lenient classification. If the properties of records say where they are declared, it fails for depth
alone, or for a literal that is too long to be reported. If moreover types are made of earlier ones,
it does not fail for depth, unless a function has a parameter that stands for the bound of its type
and that bound leads back to the function. Where classification goes round in such a loop, no depth
is enough.
-/
namespace PropSchema

/-- A step that fails for depth wherever it starts. -/
def Pass.TooDeep {α : Type} (m : Pass α) : Prop := ∀ c, (m.run c).1 = .error .tooDeep

namespace Pass.TooDeep
variable {α β : Type}

theorem throw : (throw .tooDeep : Pass α).TooDeep := fun _ => rfl

theorem bind {m : Pass α} (h : m.TooDeep) (f : α → Pass β) : (m >>= f).TooDeep := by
  intro c
  rcases hm : m.run c with ⟨outcome, c'⟩
  obtain rfl : outcome = .error .tooDeep := (congrArg Prod.fst hm).symm.trans (h c)
  rw [Pass.run_bind_error hm]

theorem mapM_cons {f : α → Pass β} {a : α} (h : (f a).TooDeep) (as : List α) :
    ((a :: as).mapM f).TooDeep := by
  rw [List.mapM_cons]
  exact h.bind _

theorem within {m : Pass α} (h : m.TooDeep) (name : String) : (Pass.within name m).TooDeep :=
  fun c => h { c with owners := name :: c.owners }

end Pass.TooDeep

namespace TypeGraph
variable {g : TypeGraph}

/-- The properties of all records say where they are declared. -/
def Declared (g : TypeGraph) : Prop :=
  ∀ {id record}, g.form id = .record record → ∀ p ∈ record.properties, p.declaration.isSome

/-- What is derived from such properties is declared as well. -/
theorem Declared.propertiesTo (h : g.Declared) (depth : Nat) (id : NodeId) :
    ∀ p ∈ g.propertiesTo depth id, p.declaration.isSome := by
  induction depth generalizing id with
  | zero => exact nofun
  | succ depth ih =>
      intro p hp
      rw [TypeGraph.propertiesTo] at hp
      split at hp
      · next record hform => exact h hform p hp
      · next target hform =>
          obtain ⟨q, hq, rfl⟩ := List.mem_map.mp hp
          exact ih target q hq
      · next members hform =>
          obtain ⟨m, hm, hp⟩ := List.mem_flatMap.mp (mem_of_firstOfEachName hp)
          exact ih m p hp
      · cases hp

theorem Declared.propertiesOf (h : g.Declared) (use : TypeUse) :
    ∀ p ∈ g.propertiesOf use, p.declaration.isSome := by
  cases use with
  | node id => exact h.propertiesTo g.depth id
  | union leaves => exact nofun

/-- A function is given something for a parameter that stands for the bound of its type. -/
def Bounds (g : TypeGraph) (a b : NodeId) : Prop :=
  ∃ f, g.form a = .function f ∧
    ∃ p ∈ f.parameters, p.optional = false ∧ g.constraint? p.type = some b

/-- A bound that stands for a parameter leads back to the function without a record between. -/
def BoundLoop (g : TypeGraph) : Prop :=
  ∃ a b, g.Bounds a b ∧ Relation.ReflTransGen g.Enters b a

section Acyclic
variable (hparts : ∀ {a b}, b ∈ (g.form a).parts → b < a)
include hparts

/-- Only by a bound does classification go on to a later type. -/
theorem lt_or_bounds_of_enters {a b : NodeId} (h : g.Enters a b) : b < a ∨ g.Bounds a b := by
  have hpart : ∀ {form}, g.form a = form → b ∈ form.parts → b < a := by
    rintro form rfl hb
    exact hparts hb
  unfold Enters entered at h
  split at h
  case h_4 f hform =>
    obtain rfl | h := List.mem_cons.mp h
    · exact .inl (hpart hform List.mem_cons_self)
    · obtain ⟨p, hp, hb⟩ := List.mem_flatMap.mp h
      obtain rfl | hb := List.mem_cons.mp hb
      · exact .inl (hpart hform (List.mem_cons_of_mem _ (List.mem_map_of_mem hp)))
      · cases hoptional : p.optional with
        | true => simp [hoptional] at hb
        | false =>
            simp only [hoptional, Bool.false_eq_true, if_false, Option.mem_toList] at hb
            exact .inr ⟨f, hform, p, hp, hoptional, hb⟩
  case h_1 members hform => exact .inl (hpart hform h)
  case h_2 element hform => exact .inl (hpart hform h)
  case h_3 elements hform => exact .inl (hpart hform h)
  case h_5 => cases h

theorem lt_or_bounds_of_transGen {a c : NodeId} (h : Relation.TransGen g.Enters a c) :
    c < a ∨ ∃ f b, Relation.ReflTransGen g.Enters a f ∧ g.Bounds f b ∧
      Relation.ReflTransGen g.Enters b c := by
  induction h with
  | single hab =>
      obtain hlt | hbound := lt_or_bounds_of_enters hparts hab
      · exact .inl hlt
      · exact .inr ⟨_, _, .refl, hbound, .refl⟩
  | tail hab hbc ih =>
      obtain hlt | ⟨f, b, haf, hbound, hb⟩ := ih
      · obtain hlt' | hbound := lt_or_bounds_of_enters hparts hbc
        · exact .inl (Nat.lt_trans hlt' hlt)
        · exact .inr ⟨_, _, hab.to_reflTransGen, hbound, .refl⟩
      · exact .inr ⟨f, b, haf, hbound, hb.tail hbc⟩

/-- A type that classification comes back to lies on a way from a bound to its function. -/
theorem acyclic_of_not_boundLoop (h : ¬ g.BoundLoop) (a : NodeId) :
    ¬ Relation.TransGen g.Enters a a := by
  intro ha
  obtain hlt | ⟨f, b, haf, hbound, hba⟩ := lt_or_bounds_of_transGen hparts ha
  · exact Nat.lt_irrefl a hlt
  · exact h ⟨f, b, hbound, hba.trans haf⟩

end Acyclic

end TypeGraph

namespace Classify

open TypeGraph
variable {r : Rules} {g : TypeGraph} {depth : Nat}

section Lenient

/-- What lenient classification fails by: depth, or a text that a literal is too long for. -/
def LenientFault (g : TypeGraph) (fault : PassFault) : Prop :=
  fault = .tooDeep ∨ fault = .unwritable ∧ ∃ id, g.TooLong id

theorem LenientFault.isLimit {fault : PassFault} (h : LenientFault g fault) : fault.IsLimit :=
  h.imp_right And.left

theorem lenientFault_of_render {use : TypeUse} (hnone : g.render use = none) :
    LenientFault g .unwritable := by
  refine .inr ⟨rfl, ?_⟩
  cases use with
  | node id => exact (render_node_eq_none_iff.mp hnone).exists_tooLong
  | union leaves =>
      obtain ⟨leaf, -, htextless⟩ := render_union_eq_none_iff.mp hnone
      exact htextless.exists_tooLong

theorem lenientFault_of_slotTitle {use : TypeUse} (hnone : slotTitle g use = none) :
    LenientFault g .unwritable := by
  rw [slotTitle] at hnone
  split at hnone
  · cases hnone
  · exact lenientFault_of_render hnone

theorem unknownTo_lenient (hpolicy : r.policy = .lenient) (id : NodeId) :
    (unknownTo r g id).FailsBy (LenientFault g) := by
  rw [unknownTo, hpolicy]
  exact .bind (.written lenientFault_of_render) fun _ => .bind (.note _) fun _ => .pure _

/-- A property that is declared has a type, or else it may be anything. -/
theorem propertyUse?_ne_none {p : Property} (hp : p.declaration.isSome) :
    g.propertyUse? p ≠ none := by
  unfold propertyUse?
  cases p.type? with
  | some id => simp
  | none => simp [hp]

/-- Lenient classification fails for depth or for a literal that is too long, however deep it goes. -/
theorem lenientTo (hpolicy : r.policy = .lenient) (hg : g.Declared) (depth : Nat) :
    (∀ use, (specTo r g depth use).FailsBy (LenientFault g)) ∧
      (∀ use, (propTypeTo r g depth use).FailsBy (LenientFault g)) ∧
      (∀ use, (slotTo r g depth use).FailsBy (LenientFault g)) ∧
        ∀ p : Property, p.declaration.isSome → (memberTo r g depth p).FailsBy (LenientFault g) := by
  refine congrTo (Pass.FailsBy.congruence fun _ => LenientFault.isLimit) r r g rfl
    (.throw (.inl rfl)) (unknownTo_lenient hpolicy) (fun p => p.declaration.isSome)
    (fun p hp h => absurd h (propertyUse?_ne_none hp)) (fun depth hmember use => ?_) depth
  exact slotTo_failsBy lenientFault_of_slotTitle fun p hp => hmember p (hg.propertiesOf use p hp)

end Lenient

/-- Without a loop through a bound, the props of a component are not too deep. -/
theorem propsSlot_not_tooDeep (hundefined : g.form undefinedId = .primitive "undefined")
    (hparts : ∀ {a b}, b ∈ (g.form a).parts → b < a) (hloop : ¬ g.BoundLoop) (use : TypeUse)
    {c c' : Context} : (propsSlot r g use).run c ≠ (.error .tooDeep, c') := by
  intro hrun
  have hh := heights_of_acyclic hundefined (acyclic_of_not_boundLoop hparts hloop)
  refine (run_eq_of_settles (settles_of_heights (r := r) hundefined hh (g.stripped use)).2 c).1 ?_
  exact congrArg Prod.fst hrun

section Rounds

/-- The type that classification goes on to first from an array or a function. -/
def onward? (g : TypeGraph) (id : NodeId) : Option NodeId :=
  match g.makeup (.node id) with
  | .array element => some element
  | .function ⟨(_, use) :: _, _⟩ => match parameterUse g use with
    | .node b => some b
    | .union _ => none
  | _ => none

/-- Classification goes from each of these types to another one, and none has a symbol. -/
def GoesRound (g : TypeGraph) (ids : List NodeId) : Prop :=
  ∀ id ∈ ids, g.symbol id = none ∧ g.isNullable (.node id) = false ∧
    ∃ next ∈ ids, onward? g id = some next

instance (g : TypeGraph) (ids : List NodeId) : Decidable (GoesRound g ids) := by
  unfold GoesRound
  infer_instance

theorem makeupTo_tooDeep {id next : NodeId} (h : onward? g id = some next)
    (hnext : (specTo r g depth (.node next)).TooDeep) :
    (makeupTo r g depth (g.makeup (.node id))).TooDeep := by
  unfold onward? at h
  split at h
  · next element hmakeup =>
      cases h
      rw [hmakeup]
      exact hnext.bind _
  · next name use rest result hmakeup =>
      split at h
      · next b huse =>
          cases h
          rw [hmakeup]
          refine .bind (.mapM_cons ?_ rest) _
          dsimp only
          rw [huse]
          exact hnext
      · cases h
  · cases h

variable {ids : List NodeId} (h : GoesRound g ids)
include h

/-- However deep it is followed, a type that classification goes round in has no schema. -/
theorem specTo_tooDeep {id : NodeId} (hid : id ∈ ids) (depth : Nat) :
    (specTo r g depth (.node id)).TooDeep := by
  induction depth using Nat.strongRecOn generalizing id with
  | ind depth ih =>
      obtain ⟨hsymbol, hnullable, next, hnext, honward⟩ := h id hid
      cases depth with
      | zero =>
          rw [specTo]
          exact .throw
      | succ depth =>
          have hstripped : g.stripped (.node id) = .node id := if_neg (by simp [hnullable])
          have hunknown : r.registry.find? (g.symbolOf (.node id)) = none := by
            rw [symbolOf, hsymbol]
            rfl
          rw [specTo_succ, hstripped, hunknown]
          refine .bind ?_ _
          cases depth with
          | zero =>
              rw [propTypeTo]
              exact .throw
          | succ depth =>
              rw [propTypeTo_succ]
              exact makeupTo_tooDeep honward (ih depth (by omega) hnext)

theorem memberTo_tooDeep {id : NodeId} (hid : id ∈ ids) {p : Property}
    (hp : g.propertyUse? p = some (.node id)) (depth : Nat) : (memberTo r g depth p).TooDeep := by
  cases depth with
  | zero =>
      rw [memberTo]
      exact .throw
  | succ depth =>
      rw [memberTo, hp]
      exact .within (.bind (specTo_tooDeep h hid depth) _) p.name

/-- A new record that can be reported has no slot if its first member leads to such a type. -/
theorem slotTo_tooDeep {id : NodeId} (hid : id ∈ ids) {p : Property}
    (hp : g.propertyUse? p = some (.node id)) {use : TypeUse} {rest : List Property}
    (huse : g.propertiesOf use = p :: rest) {title : String} (htitle : slotTitle g use = some title)
    {c : Context} (hc : c.lookup (use.identity c) = none) (depth : Nat) :
    ((slotTo r g depth use).run c).1 = .error .tooDeep := by
  cases depth with
  | zero =>
      rw [slotTo]
      rfl
  | succ depth =>
      have hmembers : (entryTo r g depth use c.slots.length).TooDeep := by
        refine .bind (fun c => ?_) _
        rw [membersTo_of_title htitle, huse]
        exact Pass.TooDeep.mapM_cons (memberTo_tooDeep h hid hp depth) rest _
      rw [slotTo_run, hc]
      exact hmembers _

end Rounds

end Classify

namespace Components

open TypeGraph
variable {r : ComponentRules} {g : TypeGraph}

/-- A class fails as a component only where its props do. -/
theorem props_of_ofClass {id : NodeId} {c c' : Context} {fault : PassFault}
    (h : (ofClass r g id).run c = (.error fault, c')) :
    ∃ use, (Classify.propsSlot r.toRules g use).run c = (.error fault, c') := by
  unfold ofClass at h
  dsimp only at h
  split at h
  · cases h
  · split at h
    · cases h
    · next props rest hargs =>
        obtain hf | ⟨slot, c₁, -, h⟩ := Pass.error_of_bind h
        · exact ⟨.node props, hf⟩
        · cases h

/-- The components of a lenient search make up a valid table, unless it is refused: for depth, if a
bound leads back to its function, or for the want of a text, if a literal is too long. -/
theorem find_lenient (hpolicy : r.policy = .lenient) (hr : r.registry.Plain) (hg : g.Declared)
    (hundefined : g.form undefinedId = .primitive "undefined")
    (hparts : ∀ {a b}, b ∈ (g.form a).parts → b < a) {declarations : List NodeId}
    {outcome : Except PassFault Extraction} {c : Context}
    (hfind : (find r g declarations).run .fresh = (outcome, c)) :
    (∃ x, outcome = .ok x ∧ x.Valid) ∨ outcome = .error .tooDeep ∧ g.BoundLoop ∨
      outcome = .error .unwritable ∧ ∃ id, g.TooLong id := by
  cases outcome with
  | ok x =>
      obtain ⟨-, found, hresult, -⟩ := find_tells r g declarations hfind
      exact .inl ⟨x, rfl, Context.valid_of_result hresult⟩
  | error fault =>
      obtain ⟨_, id, _, _, c₁, -, -, hclass⟩ :=
        Pass.split_of_mapM_error (classes_of_find_error hr (.refl _) hfind)
      obtain ⟨use, hprops⟩ := props_of_ofClass hclass
      obtain rfl | ⟨rfl, hlong⟩ :=
        (Classify.lenientTo hpolicy hg g.classifyDepth).2.2.1 _ _ _ _ hprops
      · refine .inr (.inl ⟨rfl, ?_⟩)
        by_contra hloop
        exact Classify.propsSlot_not_tooDeep hundefined hparts hloop use hprops
      · exact .inr (.inr ⟨rfl, hlong⟩)

end Components

end PropSchema
