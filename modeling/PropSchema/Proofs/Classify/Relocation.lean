import PropSchema.Proofs.Classify.Growth
import PropSchema.Proofs.TypeGraph.Relocation
/-!
Classification of types that are said to stand elsewhere, by rules that say the same. The outcome is
the same, and so is the table; only a fault tells where its type stands.
-/
namespace PropSchema
variable (f : Location → Location)

namespace PassFault

def relocate : PassFault → PassFault
  | .unclassifiable text symbol location => .unclassifiable text symbol (location.map f)
  | .unionMember property cause => .unionMember property (relocate cause)
  | fault => fault

theorem relocate_inUnion (owner : Option String) (fault : PassFault) :
    (fault.inUnion owner).relocate f = (fault.relocate f).inUnion owner := by
  cases fault <;> rfl

end PassFault

namespace Pass
variable {α β : Type}

/-- A step whose faults are said to stand elsewhere. -/
def relocate (m : Pass α) : Pass α := fun c =>
  ((m.run c).1.mapError (PassFault.relocate f), (m.run c).2)

theorem run_relocate (m : Pass α) (c : Context) :
    (m.relocate f).run c = ((m.run c).1.mapError (PassFault.relocate f), (m.run c).2) := rfl

@[simp] theorem relocate_pure (a : α) : (pure a : Pass α).relocate f = pure a := rfl

@[simp] theorem relocate_note (n : Note) : (note n).relocate f = note n := rfl

@[simp] theorem relocate_written (text? : Option String) :
    (written text?).relocate f = written text? := by
  cases text? <;> rfl

@[simp] theorem relocate_bind (m : Pass α) (k : α → Pass β) :
    (m >>= k).relocate f = m.relocate f >>= fun a => (k a).relocate f := by
  funext c
  change ((m >>= k).relocate f).run c = (m.relocate f >>= fun a => (k a).relocate f).run c
  rw [run_relocate, run_bind, run_bind, run_relocate]
  rcases m.run c with ⟨outcome, c'⟩
  cases outcome <;> rfl

@[simp] theorem relocate_mapM (k : α → Pass β) (as : List α) :
    (as.mapM k).relocate f = as.mapM fun a => (k a).relocate f := by
  induction as with
  | nil => rfl
  | cons a as ih => simp only [List.mapM_cons, relocate_bind, relocate_pure, ih]

@[simp] theorem relocate_patch (index : Int) (record : RecordSpec) :
    (patch index record).relocate f = patch index record := by
  funext c
  change (((patch index record).run c).1.mapError _, ((patch index record).run c).2) =
    (patch index record).run c
  cases hp : c.patch index record with
  | ok c' => rw [run_patch_ok hp, Except.mapError]
  | error fault =>
      rw [run_patch_error hp]
      unfold Context.patch at hp
      split at hp
      · cases hp
        rfl
      · split at hp <;> cases hp
        rfl

@[simp] theorem relocate_within (name : String) (m : Pass α) :
    (within name m).relocate f = within name (m.relocate f) := rfl

@[simp] theorem relocate_unionMember (m : Pass α) :
    (unionMember m).relocate f = unionMember (m.relocate f) := by
  funext c
  change ((unionMember m).relocate f).run c = (unionMember (m.relocate f)).run c
  rw [run_relocate]
  rcases hm : m.run c with ⟨outcome, c'⟩
  cases outcome with
  | ok a =>
      have hrelocated : (m.relocate f).run c = (.ok a, c') := by rw [run_relocate, hm]; rfl
      rw [run_unionMember_ok hm, run_unionMember_ok hrelocated]
      rfl
  | error fault =>
      have hrelocated : (m.relocate f).run c = (.error (fault.relocate f), c') := by
        rw [run_relocate, hm]
        rfl
      rw [run_unionMember_error hm, run_unionMember_error hrelocated]
      exact congrArg (fun e => (Except.error e, c')) (PassFault.relocate_inUnion f _ fault)

end Pass

/-- Rules by which every type has the same schema. -/
structure Rules.Agree (r r' : Rules) : Prop where
  known : ∀ symbol, r.registry.find? symbol = r'.registry.find? symbol
  policy : r.policy = r'.policy

namespace Classify
variable {r r' : Rules} (h : r.Agree r') (g : TypeGraph)
include h

theorem unknownTo_relocate (id : NodeId) :
    unknownTo r' (g.relocate f) id = (unknownTo r g id).relocate f := by
  rw [unknownTo, unknownTo, ← h.policy, TypeGraph.render_relocate, TypeGraph.shortName_relocate,
    TypeGraph.location_relocate, Pass.relocate_bind, Pass.relocate_written]
  refine congrArg (_ >>= ·) (funext fun text => ?_)
  cases r.policy <;> rfl

omit h in
theorem formMakeup_relocate (id : NodeId) :
    (g.relocate f).formMakeup id = g.formMakeup id := by
  unfold TypeGraph.formMakeup
  rw [TypeGraph.form_relocate, TypeGraph.signature?_relocate]
  cases g.form id <;> rfl

omit h in
theorem makeup_relocate (use : TypeUse) : (g.relocate f).makeup use = g.makeup use := by
  simp only [TypeGraph.makeup, TypeGraph.shape_relocate, TypeGraph.unionLeaves?_relocate,
    formMakeup_relocate]

/-- What classification to a depth makes of types, wherever they are said to stand. -/
structure RelocatesTo (r r' : Rules) (g : TypeGraph) (depth : Nat) : Prop where
  spec : ∀ use, specTo r' (g.relocate f) depth use = (specTo r g depth use).relocate f
  propType : ∀ use, propTypeTo r' (g.relocate f) depth use = (propTypeTo r g depth use).relocate f
  slot : ∀ use, slotTo r' (g.relocate f) depth use = (slotTo r g depth use).relocate f
  member : ∀ p, memberTo r' (g.relocate f) depth (p.relocate f) = (memberTo r g depth p).relocate f

variable {f g} {depth : Nat}

theorem specTo_relocate (ih : RelocatesTo f r r' g depth) (use : TypeUse) :
    specTo r' (g.relocate f) (depth + 1) use = (specTo r g (depth + 1) use).relocate f := by
  have hstripped : (g.relocate f).stripped use = g.stripped use := by
    rw [TypeGraph.stripped, TypeGraph.isNullable_relocate, TypeGraph.nonNullable_relocate,
      TypeGraph.stripped]
  rw [specTo_succ, specTo_succ, hstripped, TypeGraph.symbolOf_relocate, ← h.known, ih.propType,
    TypeGraph.isNullable_relocate, Pass.relocate_bind]
  cases r.registry.find? (g.symbolOf (g.stripped use)) <;> rfl

theorem propTypeTo_relocate (ih : RelocatesTo f r r' g depth) (use : TypeUse) :
    propTypeTo r' (g.relocate f) (depth + 1) use =
      (propTypeTo r g (depth + 1) use).relocate f := by
  rw [propTypeTo_succ, propTypeTo_succ, makeup_relocate]
  cases g.makeup use with
  | plain type => rfl
  | unknown id => exact unknownTo_relocate f h g id
  | _ => simp only [makeupTo, ih.spec, ih.slot, parameterUse_relocate, Pass.relocate_bind,
      Pass.relocate_mapM, Pass.relocate_unionMember, Pass.relocate_pure]

omit h in
theorem entryTo_relocate (ih : RelocatesTo f r r' g depth) (use : TypeUse) (slot : Nat) :
    entryTo r' (g.relocate f) depth use slot = (entryTo r g depth use slot).relocate f := by
  have hmember : (fun p => memberTo r' (g.relocate f) depth p) ∘ Property.relocate f =
      fun p => (memberTo r g depth p).relocate f := funext ih.member
  simp only [entryTo, membersTo, slotTitle_relocate, TypeGraph.propertiesOf_relocate,
    TypeGraph.declaredNameOf_relocate, Pass.relocate_bind, Pass.relocate_written, Pass.relocate_note,
    Pass.relocate_mapM, Pass.relocate_patch, Pass.relocate_pure, List.mapM_map, hmember]

omit h in
theorem slotTo_relocate (ih : RelocatesTo f r r' g depth) (use : TypeUse) :
    slotTo r' (g.relocate f) (depth + 1) use = (slotTo r g (depth + 1) use).relocate f := by
  funext c
  change (slotTo r' (g.relocate f) (depth + 1) use).run c =
    ((slotTo r g (depth + 1) use).relocate f).run c
  rw [Pass.run_relocate, slotTo_run, slotTo_run]
  cases c.lookup (use.identity c) with
  | some slot => rfl
  | none =>
      dsimp only
      rw [entryTo_relocate ih, Pass.run_relocate]

omit h in
theorem memberTo_relocate (ih : RelocatesTo f r r' g depth) (p : Property) :
    memberTo r' (g.relocate f) (depth + 1) (p.relocate f) =
      (memberTo r g (depth + 1) p).relocate f := by
  rw [memberTo, memberTo, TypeGraph.propertyUse?_relocate, Pass.relocate_within]
  cases g.propertyUse? p with
  | none => rfl
  | some use =>
      dsimp only
      rw [ih.spec, Pass.relocate_bind]
      rfl

theorem relocatesTo (f : Location → Location) (g : TypeGraph) (depth : Nat) :
    RelocatesTo f r r' g depth := by
  induction depth with
  | zero => exact ⟨fun _ => rfl, fun _ => rfl, fun _ => rfl, fun _ => rfl⟩
  | succ depth ih =>
      exact ⟨specTo_relocate h ih, propTypeTo_relocate h ih, slotTo_relocate ih,
        memberTo_relocate ih⟩

theorem propsSlot_relocate (f : Location → Location) (g : TypeGraph) (use : TypeUse) :
    propsSlot r' (g.relocate f) use = (propsSlot r g use).relocate f := by
  rw [propsSlot, slot, TypeGraph.isNullable_relocate, TypeGraph.nonNullable_relocate,
    TypeGraph.classifyDepth_relocate, (relocatesTo h f g _).slot, propsSlot, slot]

end Classify

/-- Rules by which every class is the same component. -/
structure ComponentRules.Agree (r r' : ComponentRules) : Prop extends
    Rules.Agree r.toRules r'.toRules where
  markers : ∀ name, r.markers.contains name = r'.markers.contains name

namespace Components
variable {r r' : ComponentRules} (h : r.Agree r') (g : TypeGraph)

theorem baseCount_relocate : baseCount (g.relocate f) = baseCount g := by
  simp only [baseCount, TypeGraph.size_relocate, TypeGraph.bases_relocate]

theorem declarationName_relocate (id : NodeId) :
    declarationName (g.relocate f) id = declarationName g id := by
  rw [declarationName, declarationName, TypeGraph.form_relocate, TypeGraph.shortName_relocate]
  cases g.form id <;> rfl

include h

theorem searchTo_relocate (fuel : Nat) (pending seen : List NodeId) :
    searchTo (g.relocate f) r'.markers fuel pending seen =
      searchTo g r.markers fuel pending seen := by
  have hmarkers : r.markers.contains = r'.markers.contains := funext h.markers
  induction fuel generalizing pending seen with
  | zero => rfl
  | succ fuel ih =>
      cases pending with
      | nil => rfl
      | cons id pending =>
          rw [searchTo, searchTo, TypeGraph.symbol_relocate, TypeGraph.bases_relocate, hmarkers,
            ih, ih]

theorem derives_relocate : derives (g.relocate f) r'.markers = derives g r.markers := by
  funext id
  rw [derives, baseCount_relocate, searchTo_relocate f h, derives]

theorem ofClass_relocate (id : NodeId) :
    ofClass r' (g.relocate f) id = (ofClass r g id).relocate f := by
  simp only [ofClass, declarationName_relocate, TypeGraph.bases_relocate, derives_relocate f h,
    TypeGraph.arguments_relocate, Classify.propsSlot_relocate h.toAgree]
  cases (g.bases id).find? (derives g r.markers) with
  | none => rfl
  | some base =>
      dsimp only
      cases g.arguments base with
      | nil => rfl
      | cons props rest => simp only [Pass.relocate_bind, Pass.relocate_note, Pass.relocate_pure]

/-- Components do not depend on where types stand. -/
theorem find_relocate (declarations : List NodeId) :
    find r' (g.relocate f) declarations = (find r g declarations).relocate f := by
  have hclasses : distinctClasses (g.relocate f) declarations = distinctClasses g declarations := by
    rw [distinctClasses, funext (TypeGraph.isClass_relocate f g), distinctClasses]
  have hresult : ∀ found, (finish found).relocate f = finish found := by
    intro found
    funext c
    change ((finish found).relocate f).run c = (finish found).run c
    rw [Pass.run_relocate, run_finish]
    unfold Context.result
    dsimp only
    split <;> [split; skip] <;> rfl
  rw [find_eq, find_eq, hclasses, funext (ofClass_relocate f h g), Pass.relocate_bind,
    Pass.relocate_mapM, funext hresult]

end Components

end PropSchema
