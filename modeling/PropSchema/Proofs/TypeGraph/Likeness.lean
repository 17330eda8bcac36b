import PropSchema.Proofs.TypeGraph.Opening
/-!
Type graphs that are alike: a relation of their nodes that is one to one and that forms respect.
What classification goes by has like answers in both. Intersections may be nested in different ways,
names of type parameters and texts without structure do not count, and the symbols of what is
unresolved need only mean the same. Graphs correspond if the relation is one that forms respect to the
letter, although one graph may be larger and hold its nodes in another order.
-/
namespace PropSchema

/-- Forms that are alike, by relations of symbols, of the members of intersections, and of nodes. -/
inductive TypeForm.Alike (same : Option String → Option String → Prop)
    (opened : List NodeId → List NodeId → Prop) (rel : NodeId → NodeId → Prop) :
    TypeForm → TypeForm → Prop
  | primitive (name : String) : TypeForm.Alike same opened rel (.primitive name) (.primitive name)
  | literal (value : LiteralValue) : TypeForm.Alike same opened rel (.literal value) (.literal value)
  | union {members members' : List NodeId} (h : List.Forall₂ rel members members') :
      TypeForm.Alike same opened rel (.union members) (.union members')
  | intersection {members members' : List NodeId} (h : opened members members') :
      TypeForm.Alike same opened rel (.intersection members) (.intersection members')
  | array {element element' : NodeId} (h : rel element element') :
      TypeForm.Alike same opened rel (.array element) (.array element')
  | tuple {elements elements' : List NodeId} (h : List.Forall₂ rel elements elements') :
      TypeForm.Alike same opened rel (.tuple elements) (.tuple elements')
  | parameter (name name' : String) {bound bound' : Option NodeId} (h : Option.Rel rel bound bound') :
      TypeForm.Alike same opened rel (.parameter name bound) (.parameter name' bound')
  | function {f f' : FunctionType} (h : f.Rel rel f') :
      TypeForm.Alike same opened rel (.function f) (.function f')
  | record {r r' : RecordType} (h : r.Rel rel r') :
      TypeForm.Alike same opened rel (.record r) (.record r')
  | partialOf {target target' : NodeId} (h : rel target target') :
      TypeForm.Alike same opened rel (.partialOf target) (.partialOf target')
  | unresolved (text text' : String) {symbol symbol' : Option String} (h : same symbol symbol') :
      TypeForm.Alike same opened rel (.unresolved text symbol) (.unresolved text' symbol')
  | classDeclaration (name : String) {bases bases' : List NodeId} (h : List.Forall₂ rel bases bases') :
      TypeForm.Alike same opened rel (.classDeclaration name bases) (.classDeclaration name bases')

inductive TypeUse.Rel (rel : NodeId → NodeId → Prop) : TypeUse → TypeUse → Prop
  | node {a b : NodeId} (h : rel a b) : TypeUse.Rel rel (.node a) (.node b)
  | union {as bs : List NodeId} (h : List.Forall₂ rel as bs) : TypeUse.Rel rel (.union as) (.union bs)

theorem TypeUse.rel_ofLeaves {rel : NodeId → NodeId → Prop} {as bs : List NodeId}
    (h : List.Forall₂ rel as bs) : TypeUse.Rel rel (.ofLeaves as) (.ofLeaves bs) := by
  cases h with
  | nil => exact .union .nil
  | cons hab h' =>
      cases h' with
      | nil => exact .node hab
      | cons hab' h'' => exact .union (.cons hab (.cons hab' h''))

theorem addMissing_rel_of_injective {rel : NodeId → NodeId → Prop}
    (hinj : ∀ {a b a' b'}, rel a b → rel a' b' → (a = a' ↔ b = b')) {as bs as' bs' : List NodeId}
    (hs : List.Forall₂ rel as bs) (hs' : List.Forall₂ rel as' bs') :
    List.Forall₂ rel (addMissing as as') (addMissing bs bs') := by
  refine List.rel_foldl ?_ hs hs'
  intro xs ys hxy a b hab
  dsimp only
  rw [Sequences.contains_eq hinj hxy hab]
  split
  · exact hxy
  · exact List.rel_append hxy (.cons hab .nil)

namespace TypeGraph

/-- Lists of types that correspond place by place once intersections in them are opened. -/
def OpenedAlike (g h : TypeGraph) (rel : NodeId → NodeId → Prop) (as bs : List NodeId) : Prop :=
  ∃ xs ys, Opens g as xs ∧ Opens h bs ys ∧ List.Forall₂ rel xs ys

/-- A one-to-one relation between the nodes of two graphs whose forms are alike. -/
structure Likeness (same : Option String → Option String → Prop) (g h : TypeGraph)
    (rel : NodeId → NodeId → Prop) : Prop where
  forms : ∀ {a b}, rel a b → (g.form a).Alike same (OpenedAlike g h rel) rel (h.form b)
  injective : ∀ {a b a' b'}, rel a b → rel a' b' → (a = a' ↔ b = b')
  shared : ∀ {id}, id < primitiveNames.length → rel id id
  left : g.Founded
  right : h.Founded

namespace Likeness
variable {same : Option String → Option String → Prop} {g h : TypeGraph}
  {rel : NodeId → NodeId → Prop}

theorem addMissing_rel (c : Likeness same g h rel) {as bs as' bs' : List NodeId}
    (hs : List.Forall₂ rel as bs) (hs' : List.Forall₂ rel as' bs') :
    List.Forall₂ rel (addMissing as as') (addMissing bs bs') :=
  addMissing_rel_of_injective c.injective hs hs'

theorem spread_rel (c : Likeness same g h rel) {a b : NodeId} (hab : rel a b) :
    List.Forall₂ rel (g.spread a) (h.spread b) := by
  induction a using Nat.strongRecOn generalizing b with
  | ind a ih =>
      have hform := c.forms hab
      generalize hfa : g.form a = x at hform
      generalize hfb : h.form b = y at hform
      cases hform with
      | union hs =>
          rw [spread_of_union hfa, spread_of_union hfb, c.left.leaves_eq, c.right.leaves_eq]
          have hlt := Sequences.forall₂_and hs (c.left.union hfa) fun _ _ => trivial
          refine c.addMissing_rel .nil (List.rel_flatMap hlt ?_)
          rintro m m' ⟨hm, hma, -⟩
          exact ih m hma hm
      | _ =>
          rw [spread_of_ne_union (by simp [hfa]), spread_of_ne_union (by simp [hfb])]
          exact .cons hab .nil

theorem leaves_rel (c : Likeness same g h rel) {as bs : List NodeId}
    (hs : List.Forall₂ rel as bs) : List.Forall₂ rel (g.leaves as) (h.leaves bs) := by
  rw [c.left.leaves_eq, c.right.leaves_eq]
  exact c.addMissing_rel .nil (List.rel_flatMap hs fun _ _ hab => c.spread_rel hab)

theorem isVoidLike_node_eq (c : Likeness same g h rel) {a b : NodeId} (hab : rel a b) :
    g.isVoidLike (.node a) = h.isVoidLike (.node b) := by
  induction a using Nat.strongRecOn generalizing b with
  | ind a ih =>
      have hform := c.forms hab
      generalize hfa : g.form a = x at hform
      generalize hfb : h.form b = y at hform
      cases hform with
      | union hs =>
          have hlt := Sequences.forall₂_and hs (c.left.union hfa) fun _ _ => trivial
          rw [c.left.isVoidLike_of_union hfa, c.right.isVoidLike_of_union hfb,
            Sequences.isEmpty_eq hs]
          exact congrArg _ (Sequences.all_eq (fun m m' hm => ih m hm.2.1 hm.1) hlt)
      | _ => rw [isVoidLike, isVoidLike, depth, depth, isVoidLikeTo, isVoidLikeTo, hfa, hfb]

theorem isRecord_eq (c : Likeness same g h rel) {a b : NodeId} (hab : rel a b) :
    g.isRecord a = h.isRecord b := by
  induction a using Nat.strongRecOn generalizing b with
  | ind a ih =>
      have hform := c.forms hab
      generalize hfa : g.form a = x at hform
      generalize hfb : h.form b = y at hform
      cases hform with
      | intersection hs =>
          obtain ⟨xs, ys, hx, hy, hxy⟩ := hs
          have hlt := Sequences.forall₂_and hxy (hx.lt_of_mem c.left (c.left.intersection hfa))
            fun _ _ => trivial
          rw [c.left.isRecord_of_intersection hfa, c.right.isRecord_of_intersection hfb,
            hx.isEmpty_eq, hy.isEmpty_eq, Sequences.isEmpty_eq hxy, hx.all_isRecord c.left,
            hy.all_isRecord c.right]
          exact congrArg _ (Sequences.all_eq (fun m m' hm => ih m hm.2.1 hm.1) hlt)
      | _ => rw [isRecord, isRecord, depth, depth, isRecordTo, isRecordTo, hfa, hfb]

theorem firstOfEachName_rel {ps qs : List Property} (hs : List.Forall₂ (Property.Rel rel) ps qs) :
    List.Forall₂ (Property.Rel rel) (firstOfEachName ps) (firstOfEachName qs) := by
  refine List.rel_foldl ?_ .nil hs
  intro kept kept' hk p q hpq
  have hany := Sequences.any_eq (p := fun k => k.name == p.name) (q := fun k => k.name == q.name)
    (fun x y hxy => by rw [Property.Rel.name hxy, hpq.name]) hk
  dsimp only
  rw [hany]
  split
  · exact hk
  · exact List.rel_append hk (.cons hpq .nil)

theorem properties_rel (c : Likeness same g h rel) {a b : NodeId} (hab : rel a b) :
    List.Forall₂ (Property.Rel rel) (g.properties a) (h.properties b) := by
  induction a using Nat.strongRecOn generalizing b with
  | ind a ih =>
      have hform := c.forms hab
      generalize hfa : g.form a = x at hform
      generalize hfb : h.form b = y at hform
      cases hform with
      | intersection hs =>
          obtain ⟨xs, ys, hx, hy, hxy⟩ := hs
          have hlt := Sequences.forall₂_and hxy (hx.lt_of_mem c.left (c.left.intersection hfa))
            fun _ _ => trivial
          rw [c.left.properties_of_intersection hfa, c.right.properties_of_intersection hfb,
            firstOfEachName_eq_addNew, firstOfEachName_eq_addNew, hx.addNew_properties c.left,
            hy.addNew_properties c.right]
          refine firstOfEachName_rel (List.rel_flatMap hlt ?_)
          rintro m m' ⟨hm, hma, -⟩
          exact ih m hma hm
      | partialOf ht =>
          rw [c.left.properties_of_partialOf hfa, c.right.properties_of_partialOf hfb]
          refine List.rel_map ?_ (ih _ (c.left.partialOf hfa) ht)
          intro p q hpq
          exact ⟨hpq.name, hpq.type, rfl, hpq.declared⟩
      | record hr =>
          rw [properties, properties, depth, depth, propertiesTo, propertiesTo, hfa, hfb]
          exact hr.properties
      | _ =>
          rw [properties, properties, depth, depth, propertiesTo, propertiesTo, hfa, hfb]
          exact .nil

theorem isNullish_eq (c : Likeness same g h rel) {a b : NodeId} (hab : rel a b) :
    g.isNullish a = h.isNullish b := by
  have hform := c.forms hab
  unfold isNullish
  generalize g.form a = x at hform ⊢
  generalize h.form b = y at hform ⊢
  cases hform <;> rfl

/-- Symbols mean the same. -/
theorem symbol_same (c : Likeness same g h rel) (hrefl : ∀ symbol, same symbol symbol)
    {a b : NodeId} (hab : rel a b) : same (g.symbol a) (h.symbol b) := by
  have hform := c.forms hab
  unfold symbol
  generalize g.form a = x at hform ⊢
  generalize h.form b = y at hform ⊢
  cases hform with
  | function hf =>
      dsimp only
      rw [hf.symbol]
      exact hrefl _
  | record hr =>
      dsimp only
      rw [hr.symbol]
      exact hrefl _
  | unresolved _ _ hs => exact hs
  | _ => exact hrefl none

theorem declaredName_eq (c : Likeness same g h rel) {a b : NodeId} (hab : rel a b) :
    g.declaredName a = h.declaredName b := by
  have hform := c.forms hab
  unfold declaredName
  generalize g.form a = x at hform ⊢
  generalize h.form b = y at hform ⊢
  cases hform with
  | record hr => exact hr.name
  | _ => rfl

theorem isClass_eq (c : Likeness same g h rel) {a b : NodeId} (hab : rel a b) :
    g.isClass a = h.isClass b := by
  have hform := c.forms hab
  unfold isClass
  generalize g.form a = x at hform ⊢
  generalize h.form b = y at hform ⊢
  cases hform <;> rfl

theorem bases_rel (c : Likeness same g h rel) {a b : NodeId} (hab : rel a b) :
    List.Forall₂ rel (g.bases a) (h.bases b) := by
  have hform := c.forms hab
  unfold bases
  generalize g.form a = x at hform ⊢
  generalize h.form b = y at hform ⊢
  cases hform with
  | record hr => exact hr.bases
  | classDeclaration _ hr => exact hr
  | _ => exact .nil

theorem arguments_rel (c : Likeness same g h rel) {a b : NodeId} (hab : rel a b) :
    List.Forall₂ rel (g.arguments a) (h.arguments b) := by
  have hform := c.forms hab
  unfold arguments
  generalize g.form a = x at hform ⊢
  generalize h.form b = y at hform ⊢
  cases hform with
  | record hr => exact hr.arguments
  | _ => exact .nil

theorem constraint?_rel (c : Likeness same g h rel) {a b : NodeId} (hab : rel a b) :
    Option.Rel rel (g.constraint? a) (h.constraint? b) := by
  have hform := c.forms hab
  unfold constraint?
  generalize g.form a = x at hform ⊢
  generalize h.form b = y at hform ⊢
  cases hform with
  | parameter _ _ hr => exact hr
  | _ => exact .none

variable {use use' : TypeUse}

theorem members?_rel (c : Likeness same g h rel) (hu : TypeUse.Rel rel use use') :
    Option.Rel (List.Forall₂ rel) (g.members? use) (h.members? use') := by
  cases hu with
  | union hs => exact .some hs
  | node hab =>
      have hform := c.forms hab
      unfold members?
      dsimp only
      generalize g.form _ = x at hform ⊢
      generalize h.form _ = y at hform ⊢
      cases hform with
      | union hs => exact .some hs
      | _ => exact .none

theorem unionLeaves?_rel (c : Likeness same g h rel) (hu : TypeUse.Rel rel use use') :
    Option.Rel (List.Forall₂ rel) (g.unionLeaves? use) (h.unionLeaves? use') := by
  have hm := c.members?_rel hu
  unfold unionLeaves?
  generalize g.members? use = x at hm ⊢
  generalize h.members? use' = y at hm ⊢
  cases hm with
  | some hs => exact .some (c.leaves_rel hs)
  | none => exact .none

theorem isNullable_eq (c : Likeness same g h rel) (hu : TypeUse.Rel rel use use') :
    g.isNullable use = h.isNullable use' := by
  have hl := c.unionLeaves?_rel hu
  unfold isNullable
  generalize g.unionLeaves? use = x at hl ⊢
  generalize h.unionLeaves? use' = y at hl ⊢
  cases hl with
  | some hs =>
      have hany := Sequences.any_eq (fun _ _ hxy => c.isNullish_eq hxy) hs
      have hall := Sequences.all_eq (fun _ _ hxy => c.isNullish_eq hxy) hs
      dsimp only
      rw [hany, hall]
  | none => rfl

/-- Lists in correspondence with the same lists are the same. -/
theorem eq_iff (c : Likeness same g h rel) {as as' bs bs' : List NodeId}
    (hs : List.Forall₂ rel as bs) (hs' : List.Forall₂ rel as' bs') : as = as' ↔ bs = bs' := by
  induction hs generalizing as' bs' with
  | nil => cases hs' <;> simp
  | cons hab _ ih =>
      cases hs' with
      | nil => simp
      | cons hab' hs' => rw [List.cons.injEq, List.cons.injEq, c.injective hab hab', ih hs']

theorem nonNullable_rel (c : Likeness same g h rel) (hu : TypeUse.Rel rel use use') :
    TypeUse.Rel rel (g.nonNullable use) (h.nonNullable use') := by
  have hm := c.members?_rel hu
  unfold nonNullable
  generalize g.members? use = x at hm ⊢
  generalize h.members? use' = y at hm ⊢
  cases hm with
  | none => exact hu
  | @some members members' hs =>
      have hfilter := List.rel_filter (p := fun leaf => !g.isNullish leaf)
        (q := fun leaf => !h.isNullish leaf)
        (fun x y hxy => by simp only [c.isNullish_eq hxy]) (c.leaves_rel hs)
      dsimp only
      generalize (g.leaves members).filter _ = rest at hfilter ⊢
      generalize (h.leaves members').filter _ = rest' at hfilter ⊢
      have heq := c.eq_iff hfilter hs
      cases hfilter with
      | nil => exact hu
      | cons hab hrest =>
          cases hrest with
          | nil => exact .node hab
          | cons hab' hrest =>
              dsimp only
              simp only [heq]
              split
              · exact hu
              · exact .union (.cons hab (.cons hab' hrest))

theorem stripped_rel (c : Likeness same g h rel) (hu : TypeUse.Rel rel use use') :
    TypeUse.Rel rel (if g.isNullable use then g.nonNullable use else use)
      (if h.isNullable use' then h.nonNullable use' else use') := by
  rw [c.isNullable_eq hu]
  split
  · exact c.nonNullable_rel hu
  · exact hu

theorem isVoidLike_eq (c : Likeness same g h rel) (hu : TypeUse.Rel rel use use') :
    g.isVoidLike use = h.isVoidLike use' := by
  cases hu with
  | node hab => exact c.isVoidLike_node_eq hab
  | union hs =>
      have hall := Sequences.all_eq (fun x y hxy => c.isVoidLike_node_eq hxy) hs
      unfold isVoidLike
      dsimp only
      rw [Sequences.isEmpty_eq hs]
      exact congrArg _ hall

/-- Shared primitives correspond to themselves alone. -/
theorem eq_shared_iff (c : Likeness same g h rel) {a b : NodeId} (hab : rel a b) {id : NodeId}
    (hid : id < primitiveNames.length) : a = id ↔ b = id :=
  c.injective hab (c.shared hid)

theorem nodeShape_eq (c : Likeness same g h rel) {a b : NodeId} (hab : rel a b) :
    g.nodeShape a = h.nodeShape b := by
  have hform := c.forms hab
  have hrecord := c.isRecord_eq hab
  unfold nodeShape
  generalize g.form a = x at hform ⊢
  generalize h.form b = y at hform ⊢
  cases hform with
  | primitive name =>
      have hs := c.eq_shared_iff hab (show stringId < primitiveNames.length by decide)
      have hn := c.eq_shared_iff hab (show numberId < primitiveNames.length by decide)
      have hb := c.eq_shared_iff hab (show booleanId < primitiveNames.length by decide)
      have ha := c.eq_shared_iff hab (show anyId < primitiveNames.length by decide)
      dsimp only
      simp only [hs, hn, hb, ha]
  | literal value => cases value <;> rfl
  | intersection hs =>
      dsimp only
      rw [hrecord]
  | partialOf htarget =>
      dsimp only
      rw [c.isRecord_eq htarget]
  | _ => rfl

theorem shape_eq (c : Likeness same g h rel) (hu : TypeUse.Rel rel use use') :
    g.shape use = h.shape use' := by
  unfold shape
  rw [c.isVoidLike_eq hu]
  split
  · rfl
  · cases hu with
    | node hab => exact c.nodeShape_eq hab
    | union hs => rfl

theorem unionUse_rel (c : Likeness same g h rel) {as bs : List NodeId}
    (hs : List.Forall₂ rel as bs) : TypeUse.Rel rel (g.unionUse as) (h.unionUse bs) :=
  TypeUse.rel_ofLeaves (c.leaves_rel hs)

theorem optionalUse_rel (c : Likeness same g h rel) {a b : NodeId} (hab : rel a b)
    (optional : Bool) : TypeUse.Rel rel (g.optionalUse a optional) (h.optionalUse b optional) := by
  unfold optionalUse
  split
  · exact c.unionUse_rel (.cons hab (.cons (c.shared (by decide)) .nil))
  · exact .node hab

theorem propertyUse?_rel (c : Likeness same g h rel) {p q : Property} (hpq : p.Rel rel q) :
    Option.Rel (TypeUse.Rel rel) (g.propertyUse? p) (h.propertyUse? q) := by
  have htype := hpq.type
  unfold propertyUse?
  generalize p.type? = x at htype ⊢
  generalize q.type? = y at htype ⊢
  cases htype with
  | some hab =>
      rw [hpq.optional]
      exact .some (c.optionalUse_rel hab q.optional)
  | none =>
      dsimp only
      rw [hpq.declared]
      split
      · exact .some (.node (c.shared (by decide)))
      · exact .none

end Likeness

end TypeGraph

theorem TypeForm.Rel.alike {g h : TypeGraph} {rel : NodeId → NodeId → Prop} {x y : TypeForm}
    (hxy : x.Rel rel y) : x.Alike Eq (TypeGraph.OpenedAlike g h rel) rel y := by
  cases hxy with
  | primitive name => exact .primitive name
  | literal value => exact .literal value
  | union hr => exact .union hr
  | intersection hr => exact .intersection ⟨_, _, .refl _, .refl _, hr⟩
  | array hr => exact .array hr
  | tuple hr => exact .tuple hr
  | parameter name hr => exact .parameter name name hr
  | function hr => exact .function hr
  | record hr => exact .record hr
  | partialOf hr => exact .partialOf hr
  | unresolved text symbol => exact .unresolved text text rfl
  | classDeclaration name hr => exact .classDeclaration name hr

namespace TypeGraph

/-- A one-to-one relation between the nodes of two graphs that their forms respect. -/
structure Correspondence (g h : TypeGraph) (rel : NodeId → NodeId → Prop) : Prop where
  forms : ∀ {a b}, rel a b → (g.form a).Rel rel (h.form b)
  injective : ∀ {a b a' b'}, rel a b → rel a' b' → (a = a' ↔ b = b')
  shared : ∀ {id}, id < primitiveNames.length → rel id id
  left : g.Founded
  right : h.Founded

namespace Correspondence
variable {g h : TypeGraph} {rel : NodeId → NodeId → Prop}

theorem likeness (c : Correspondence g h rel) : Likeness Eq g h rel :=
  ⟨fun hab => (c.forms hab).alike, c.injective, c.shared, c.left, c.right⟩

theorem symbol_eq (c : Correspondence g h rel) {a b : NodeId} (hab : rel a b) :
    g.symbol a = h.symbol b :=
  c.likeness.symbol_same (fun _ => rfl) hab

end Correspondence

end TypeGraph

end PropSchema
