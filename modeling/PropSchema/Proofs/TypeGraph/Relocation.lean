import PropSchema.Classify
import PropSchema.Components
import PropSchema.Proofs.Sequences
/-!
Type graphs whose nodes are said to stand elsewhere. Nothing that is asked of a type depends on
where it stands, except where it stands.
-/
namespace PropSchema
variable (f : Location → Location)

def Property.relocate (p : Property) : Property :=
  { p with declaration := p.declaration.map f }

def RecordType.relocate (r : RecordType) : RecordType :=
  { r with properties := r.properties.map (Property.relocate f) }

def TypeForm.relocate : TypeForm → TypeForm
  | .record r => .record (r.relocate f)
  | form => form

def TypeNode.relocate (n : TypeNode) : TypeNode := ⟨n.form.relocate f, n.location.map f⟩

theorem addNew_relocate (kept ps : List Property) :
    (ps.map (Property.relocate f)).foldl (fun kept p =>
      if kept.any fun k => k.name == p.name then kept else kept ++ [p])
      (kept.map (Property.relocate f)) =
    (ps.foldl (fun kept p =>
      if kept.any fun k => k.name == p.name then kept else kept ++ [p]) kept).map
        (Property.relocate f) := by
  have hname : ∀ p q : Property, ((p.relocate f).name == (q.relocate f).name) =
      (p.name == q.name) := fun _ _ => rfl
  exact Sequences.addNew_map (f := Property.relocate f) hname kept ps

theorem firstOfEachName_relocate (ps : List Property) :
    firstOfEachName (ps.map (Property.relocate f)) =
      (firstOfEachName ps).map (Property.relocate f) :=
  addNew_relocate f [] ps

namespace TypeGraph
variable (g : TypeGraph) (id : NodeId) (use : TypeUse)

def relocate : TypeGraph := ⟨g.nodes.map (TypeNode.relocate f)⟩

theorem size_relocate : (g.relocate f).size = g.size := Array.size_map

theorem depth_relocate : (g.relocate f).depth = g.depth := by rw [depth, size_relocate, depth]

theorem node_relocate : (g.relocate f).node id = (g.node id).relocate f := by
  unfold node relocate
  rw [Array.getD_eq_getD_getElem?, Array.getD_eq_getD_getElem?, Array.getElem?_map]
  cases g.nodes[id]? <;> rfl

theorem form_relocate : (g.relocate f).form id = (g.form id).relocate f := by
  rw [form, node_relocate]
  rfl

theorem location_relocate : (g.relocate f).location id = (g.location id).map f := by
  rw [location, node_relocate]
  rfl

theorem push_relocate (form : TypeForm) (location : Option Location) :
    (g.relocate f).push (form.relocate f) (location.map f) =
      ((g.push form location).1, (g.push form location).2.relocate f) := by
  simp only [push, relocate, size, Array.size_map, Array.map_push]
  rfl

theorem setForm_relocate (form : TypeForm) :
    (g.relocate f).setForm id (form.relocate f) = (g.setForm id form).relocate f := by
  simp only [setForm, relocate, TypeGraph.mk.injEq]
  ext i hi hi' <;> simp only [Array.size_modify, Array.size_map, Array.getElem_modify,
    Array.getElem_map]
  split <;> rfl

theorem modifyRecord_relocate {change change' : RecordType → RecordType}
    (h : ∀ r, change' (r.relocate f) = (change r).relocate f) :
    (g.relocate f).modifyRecord id change' = (g.modifyRecord id change).relocate f := by
  rw [modifyRecord, modifyRecord, form_relocate]
  cases g.form id with
  | record r =>
      dsimp only [TypeForm.relocate]
      rw [h, ← setForm_relocate]
      rfl
  | _ => rfl

theorem isNullish_relocate : (g.relocate f).isNullish id = g.isNullish id := by
  rw [isNullish, isNullish, form_relocate]
  cases g.form id <;> rfl

theorem symbol_relocate : (g.relocate f).symbol id = g.symbol id := by
  rw [symbol, symbol, form_relocate]
  cases g.form id <;> rfl

theorem declaredName_relocate : (g.relocate f).declaredName id = g.declaredName id := by
  rw [declaredName, declaredName, form_relocate]
  cases g.form id <;> rfl

theorem bases_relocate : (g.relocate f).bases id = g.bases id := by
  rw [bases, bases, form_relocate]
  cases g.form id <;> rfl

theorem arguments_relocate : (g.relocate f).arguments id = g.arguments id := by
  rw [arguments, arguments, form_relocate]
  cases g.form id <;> rfl

theorem constraint?_relocate : (g.relocate f).constraint? id = g.constraint? id := by
  rw [constraint?, constraint?, form_relocate]
  cases g.form id <;> rfl

theorem isClass_relocate : (g.relocate f).isClass id = g.isClass id := by
  rw [isClass, isClass, form_relocate]
  cases g.form id <;> rfl

theorem shortName_relocate : (g.relocate f).shortName id = g.shortName id := by
  rw [shortName, shortName, form_relocate]
  cases g.form id <;> rfl

theorem leavesTo_relocate (depth : Nat) (members : List NodeId) :
    (g.relocate f).leavesTo depth members = g.leavesTo depth members := by
  induction depth generalizing members with
  | zero => rfl
  | succ depth ih =>
      rw [leavesTo, leavesTo]
      congr 1
      funext leaves member
      rw [form_relocate]
      cases g.form member with
      | union inner => exact congrArg (addMissing leaves) (ih inner)
      | _ => rfl

theorem leaves_relocate (members : List NodeId) :
    (g.relocate f).leaves members = g.leaves members := by
  rw [leaves, depth_relocate, leavesTo_relocate, leaves]

theorem unionUse_relocate (members : List NodeId) :
    (g.relocate f).unionUse members = g.unionUse members := by
  rw [unionUse, leaves_relocate, unionUse]

theorem unionOf_relocate (members : List NodeId) (location : Option Location) :
    (g.relocate f).unionOf members (location.map f) =
      ((g.unionOf members location).1, (g.unionOf members location).2.relocate f) := by
  rw [unionOf, leaves_relocate, unionOf]
  split
  · rfl
  · exact push_relocate f g (.union (g.leaves members)) location

theorem members?_relocate : (g.relocate f).members? use = g.members? use := by
  cases use with
  | node id =>
      rw [members?, members?, form_relocate]
      cases g.form id <;> rfl
  | union leaves => rfl

theorem unionLeaves?_relocate : (g.relocate f).unionLeaves? use = g.unionLeaves? use := by
  rw [unionLeaves?, members?_relocate, unionLeaves?]
  exact congrArg (fun leaves => (g.members? use).map leaves) (funext (leaves_relocate f g))

theorem isNullish_relocate_fun : (g.relocate f).isNullish = g.isNullish :=
  funext (isNullish_relocate f g)

theorem isNullable_relocate : (g.relocate f).isNullable use = g.isNullable use := by
  rw [isNullable, unionLeaves?_relocate, isNullish_relocate_fun, isNullable]

theorem nonNullable_relocate : (g.relocate f).nonNullable use = g.nonNullable use := by
  unfold nonNullable
  rw [members?_relocate]
  simp only [leaves_relocate, isNullish_relocate]

theorem isVoidLikeTo_relocate (depth : Nat) :
    (g.relocate f).isVoidLikeTo depth id = g.isVoidLikeTo depth id := by
  induction depth generalizing id with
  | zero => rfl
  | succ depth ih =>
      rw [isVoidLikeTo, isVoidLikeTo, form_relocate]
      cases g.form id with
      | union members => simp only [TypeForm.relocate, funext ih]
      | _ => rfl

theorem isVoidLike_relocate : (g.relocate f).isVoidLike use = g.isVoidLike use := by
  cases use with
  | node id => rw [isVoidLike, depth_relocate, isVoidLikeTo_relocate, isVoidLike]
  | union leaves =>
      simp only [isVoidLike, depth_relocate, funext (isVoidLikeTo_relocate f g · g.depth)]

theorem isRecordTo_relocate (depth : Nat) :
    (g.relocate f).isRecordTo depth id = g.isRecordTo depth id := by
  induction depth generalizing id with
  | zero => rfl
  | succ depth ih =>
      rw [isRecordTo, isRecordTo, form_relocate]
      cases g.form id with
      | intersection members => simp only [TypeForm.relocate, funext ih]
      | _ => rfl

theorem isRecord_relocate : (g.relocate f).isRecord id = g.isRecord id := by
  rw [isRecord, depth_relocate, isRecordTo_relocate, isRecord]

theorem propertiesTo_relocate (depth : Nat) :
    (g.relocate f).propertiesTo depth id =
      (g.propertiesTo depth id).map (Property.relocate f) := by
  induction depth generalizing id with
  | zero => rfl
  | succ depth ih =>
      rw [propertiesTo, propertiesTo, form_relocate]
      cases g.form id with
      | partialOf target =>
          simp only [TypeForm.relocate, ih, List.map_map]
          rfl
      | intersection members =>
          simp only [TypeForm.relocate, funext ih, ← firstOfEachName_relocate, List.map_flatMap]
      | _ => rfl

theorem properties_relocate :
    (g.relocate f).properties id = (g.properties id).map (Property.relocate f) := by
  rw [properties, depth_relocate, propertiesTo_relocate, properties]

theorem optionalUse_relocate (optional : Bool) :
    (g.relocate f).optionalUse id optional = g.optionalUse id optional := by
  rw [optionalUse, unionUse_relocate, optionalUse]

theorem propertyUse?_relocate (p : Property) :
    (g.relocate f).propertyUse? (p.relocate f) = g.propertyUse? p := by
  simp only [propertyUse?, optionalUse_relocate, Property.relocate, Option.isSome_map]

theorem signature?_relocate : (g.relocate f).signature? id = g.signature? id := by
  rw [signature?, signature?, form_relocate]
  cases g.form id with
  | function type => simp only [TypeForm.relocate, optionalUse_relocate]
  | _ => rfl

theorem nodeShape_relocate : (g.relocate f).nodeShape id = g.nodeShape id := by
  rw [nodeShape, nodeShape, form_relocate, isRecord_relocate]
  cases g.form id with
  | partialOf target => simp only [TypeForm.relocate, isRecord_relocate]
  | literal value => cases value <;> rfl
  | _ => rfl

theorem shape_relocate : (g.relocate f).shape use = g.shape use := by
  unfold shape
  rw [isVoidLike_relocate]
  cases use with
  | node id => simp only [nodeShape_relocate]
  | union leaves => rfl

theorem renderTo_relocate (depth : Nat) :
    (g.relocate f).renderTo depth id = g.renderTo depth id := by
  induction depth generalizing id with
  | zero => rfl
  | succ depth ih =>
      rw [renderTo, renderTo]
      simp only [form_relocate, funext ih]
      cases g.form id with
      | array element =>
          dsimp only [TypeForm.relocate]
          cases g.form element <;> rfl
      | record r =>
          simp only [TypeForm.relocate, RecordType.relocate, List.isEmpty_map, List.map_map]
          rfl
      | _ => rfl

theorem render_relocate : (g.relocate f).render use = g.render use := by
  cases use with
  | node id => rw [render, depth_relocate, renderTo_relocate, render]
  | union leaves => simp only [render, depth_relocate, funext (renderTo_relocate f g · g.depth)]

theorem symbolOf_relocate : (g.relocate f).symbolOf use = g.symbolOf use := by
  cases use with
  | node id => exact symbol_relocate f g id
  | union leaves => rfl

theorem declaredNameOf_relocate : (g.relocate f).declaredNameOf use = g.declaredNameOf use := by
  cases use with
  | node id => exact declaredName_relocate f g id
  | union leaves => rfl

theorem propertiesOf_relocate :
    (g.relocate f).propertiesOf use = (g.propertiesOf use).map (Property.relocate f) := by
  cases use with
  | node id => exact properties_relocate f g id
  | union leaves => rfl

theorem classifyDepth_relocate : (g.relocate f).classifyDepth = g.classifyDepth := by
  rw [classifyDepth, size_relocate, classifyDepth]

end TypeGraph

namespace Classify
variable (g : TypeGraph) (use : TypeUse)

theorem parameterUse_relocate : parameterUse (g.relocate f) use = parameterUse g use := by
  cases use with
  | node id => simp only [parameterUse, TypeGraph.constraint?_relocate]
  | union leaves => rfl

theorem slotTitle_relocate : slotTitle (g.relocate f) use = slotTitle g use := by
  rw [slotTitle, TypeGraph.declaredNameOf_relocate, TypeGraph.render_relocate, slotTitle]

end Classify

end PropSchema
