import PropSchema.Proofs.Classify.SideBySide
import PropSchema.Proofs.Components.Correspondence
/-!
Classification abreast. Over graphs that are alike, lenient passes take the same steps: they give
types in correspondence the same slots, and whatever the one returns the other returns, if only it
may go as deep. So the components that are found are the same, in the same order.
-/
namespace PropSchema

/-- Symbols that rules make no difference between. -/
structure ComponentRules.Same (r : ComponentRules) (symbol symbol' : Option String) : Prop where
  found : r.registry.find? symbol = r.registry.find? symbol'
  marked : symbol.any r.markers.contains = symbol'.any r.markers.contains

namespace ComponentRules.Same
variable {r : ComponentRules} {symbol symbol' : Option String}

theorem refl (r : ComponentRules) (symbol : Option String) : r.Same symbol symbol := ⟨rfl, rfl⟩

theorem symm (h : r.Same symbol symbol') : r.Same symbol' symbol := ⟨h.found.symm, h.marked.symm⟩

end ComponentRules.Same

inductive TypeIdentity.Rel (rel : NodeId → NodeId → Prop) : TypeIdentity → TypeIdentity → Prop
  | node {a b : NodeId} (h : rel a b) : TypeIdentity.Rel rel (.node a) (.node b)
  | passing (slot : Nat) : TypeIdentity.Rel rel (.passing slot) (.passing slot)

/-- Contexts of two passes that have given types in correspondence the same slots. -/
structure Context.Abreast (rel : NodeId → NodeId → Prop) (c c' : Context) : Prop where
  slots : c.slots = c'.slots
  memo : List.Forall₂ (fun e e' => e.1.Rel rel e'.1 ∧ e.2 = e'.2) c.memo c'.memo

namespace Context.Abreast
variable {rel : NodeId → NodeId → Prop} {c c' : Context}

theorem fresh (rel : NodeId → NodeId → Prop) : Context.fresh.Abreast rel Context.fresh :=
  ⟨rfl, .nil⟩

theorem blind : Blind (Abreast rel) := fun _ _ h _ _ _ _ => ⟨h.slots, h.memo⟩

theorem reserve (h : c.Abreast rel c') {identity identity' : TypeIdentity}
    (hid : identity.Rel rel identity') :
    (c.reserve identity).2.Abreast rel (c'.reserve identity').2 :=
  ⟨congrArg (· ++ [none]) h.slots, .cons ⟨hid, congrArg List.length h.slots⟩ h.memo⟩

theorem lookup_eq (h : c.Abreast rel c')
    (hinj : ∀ {a b a' b'}, rel a b → rel a' b' → (a = a' ↔ b = b'))
    {identity identity' : TypeIdentity} (hid : identity.Rel rel identity') :
    c.lookup identity = c'.lookup identity' := by
  have hmemo : c.memo.lookup identity = c'.memo.lookup identity' := by
    refine Sequences.lookup_eq (fun {k k' l l'} hk hl => ?_) h.memo hid
    cases hk with
    | passing slot => cases hl <;> simp
    | node hab =>
        cases hl with
        | passing slot => simp
        | node hab' => simpa using hinj hab hab'
  rw [lookup, lookup, hmemo]

theorem patch (h : c.Abreast rel c') {slot : Nat} {record : RecordSpec} {d : Context}
    (hd : c.patch slot record = .ok d) : ∃ d', c'.patch slot record = .ok d' ∧ d.Abreast rel d' := by
  have hplace : c'.place? slot = c.place? slot := by rw [place?, place?, h.slots]
  unfold Context.patch at hd ⊢
  rw [hplace, ← h.slots]
  cases hp : c.place? slot with
  | none =>
      rw [hp] at hd
      cases hd
  | some i =>
      rw [hp] at hd
      dsimp only at hd ⊢
      split at hd
      · cases hd
        exact ⟨_, rfl, ⟨rfl, h.memo⟩⟩
      · cases hd

end Context.Abreast

/-- What the one step returns the other returns, from contexts that are abreast to contexts that
are, and texts that the one lacks the other lacks. -/
def Pass.Follows {α : Type} (rel : NodeId → NodeId → Prop) (m m' : Pass α) : Prop :=
  m.Leads (Context.Abreast rel) Eq m'

namespace Pass.Follows
variable {α β γ : Type} {rel : NodeId → NodeId → Prop}

/-- A step that succeeds or lacks a text ends like the one that it follows. -/
theorem fst_eq {m m' : Pass α} (h : Follows rel m m') {c c' : Context} (hc : c.Abreast rel c')
    (hdecided : ∀ fault, (m.run c).1 = .error fault → fault = .unwritable) :
    (m'.run c').1 = (m.run c).1 := by
  have hend := h c c' hc
  generalize m.run c = e at hend hdecided ⊢
  generalize m'.run c' = e' at hend ⊢
  cases hend with
  | returned result _ => rw [result]
  | unwritable => rfl
  | failed other => exact absurd (hdecided _ rfl) other

theorem pure (a : α) : Follows rel (Pure.pure a : Pass α) (Pure.pure a) := Leads.pure rfl

theorem throw {fault : PassFault} (h : fault ≠ .unwritable) (m' : Pass α) :
    Follows rel (throw fault) m' := Leads.throw h m'

theorem note (n n' : Note) : Follows rel (Pass.note n) (Pass.note n') := Leads.note .blind n n'

theorem bind {m m' : Pass α} {f f' : α → Pass β} (hm : Follows rel m m')
    (hf : ∀ a, Follows rel (f a) (f' a)) : Follows rel (m >>= f) (m' >>= f') := by
  refine Leads.bind hm fun a b hab => ?_
  cases hab
  exact hf a

/-- A text for a report, which has no part in what follows. -/
theorem written {text? text'? : Option String} (h : text?.isSome = text'?.isSome)
    {f f' : String → Pass β} (hf : ∀ text text', Follows rel (f text) (f' text')) :
    Follows rel (Pass.written text? >>= f) (Pass.written text'? >>= f') :=
  Leads.bind (Leads.written h) fun text text' _ => hf text text'

theorem mapM {R : α → β → Prop} {f : α → Pass γ} {f' : β → Pass γ} {as : List α} {bs : List β}
    (hs : List.Forall₂ R as bs) (hf : ∀ a b, R a b → Follows rel (f a) (f' b)) :
    Follows rel (as.mapM f) (bs.mapM f') :=
  (Leads.mapM hs hf).imp fun _ _ hcds => List.forall₂_eq_eq_eq ▸ hcds

theorem within (name : String) {m m' : Pass α} (h : Follows rel m m') :
    Follows rel (Pass.within name m) (Pass.within name m') := Leads.within .blind name h

theorem unionMember {m m' : Pass α} (h : Follows rel m m') :
    Follows rel (Pass.unionMember m) (Pass.unionMember m') := Leads.unionMember h

theorem patch (slot : Nat) (record : RecordSpec) :
    Follows rel (Pass.patch slot record) (Pass.patch slot record) :=
  Leads.patch fun hc hd => hc.patch hd

end Pass.Follows

namespace Classify

open TypeGraph Pass
variable {r : ComponentRules} {g h : TypeGraph} {rel : NodeId → NodeId → Prop} {depth depth' : Nat}
  {use use' : TypeUse}

theorem symbolOf_same (c : Likeness r.Same g h rel) (hu : TypeUse.Rel rel use use') :
    r.Same (g.symbolOf use) (h.symbolOf use') := by
  cases hu with
  | node hab => exact c.symbol_same (.refl r) hab
  | union _ => exact .refl r none

theorem propertiesOf_rel (c : Likeness r.Same g h rel) (hu : TypeUse.Rel rel use use') :
    List.Forall₂ (Property.Rel rel) (g.propertiesOf use) (h.propertiesOf use') := by
  cases hu with
  | node hab => exact c.properties_rel hab
  | union _ => exact .nil

theorem specTo_follows (c : Likeness r.Same g h rel)
    (hprop : ∀ {use use'}, TypeUse.Rel rel use use' →
      Follows rel (propTypeTo r.toRules g depth use) (propTypeTo r.toRules h depth' use'))
    (hu : TypeUse.Rel rel use use') :
    Follows rel (specTo r.toRules g (depth + 1) use) (specTo r.toRules h (depth' + 1) use') := by
  have hstripped : TypeUse.Rel rel (g.stripped use) (h.stripped use') := c.stripped_rel hu
  rw [specTo_succ, specTo_succ, c.isNullable_eq hu, (symbolOf_same c hstripped).found]
  refine .bind ?_ fun _ => .pure _
  split
  · exact .pure _
  · exact hprop hstripped

theorem unknownTo_follows (lenient : r.policy = .lenient) (c : Likeness r.Same g h rel)
    {a b : NodeId} (hab : rel a b) :
    Follows rel (unknownTo r.toRules g a) (unknownTo r.toRules h b) := by
  unfold unknownTo
  rw [lenient]
  exact .written (c.isSome_render_eq (.node hab)) fun _ _ => .bind (.note _ _) fun _ => .pure _

/-- Prop types made alike are the same if the schemas and slots of their parts are. -/
theorem makeupTo_follows (lenient : r.policy = .lenient) (c : Likeness r.Same g h rel)
    (hspec : ∀ {use use'}, TypeUse.Rel rel use use' →
      Follows rel (specTo r.toRules g depth use) (specTo r.toRules h depth' use'))
    (hslot : ∀ {use use'}, TypeUse.Rel rel use use' →
      Follows rel (slotTo r.toRules g depth use) (slotTo r.toRules h depth' use'))
    {m m' : Makeup} (hm : MakeupRel rel m m') :
    Follows rel (makeupTo r.toRules g depth m) (makeupTo r.toRules h depth' m') := by
  have htype : ∀ a b, rel a b → Follows rel
      (do pure (← specTo r.toRules g depth (.node a)).propType : Pass PropType)
      (do pure (← specTo r.toRules h depth' (.node b)).propType : Pass PropType) := fun a b hab =>
    .bind (hspec (.node hab)) fun _ => .pure _
  cases hm with
  | plain _ => exact .pure _
  | union hs => exact .bind (.mapM hs fun a b hab => .unionMember (htype a b hab)) fun _ => .pure _
  | tuple hs => exact .bind (.mapM hs htype) fun _ => .pure _
  | array hab => exact .bind (hspec (.node hab)) fun _ => .pure _
  | function hsig =>
      refine .bind (.mapM hsig.parameters fun p p' hp => ?_) fun _ =>
        .bind (hspec (.node hsig.result)) fun _ => .pure _
      exact hspec (parameterUse_rel c hp)
  | record hab => exact .bind (hslot (.node hab)) fun _ => .pure _
  | partialRecord hab => exact .bind (hslot (.node hab)) fun _ => .pure _
  | unknown hab => exact unknownTo_follows lenient c hab

theorem memberTo_follows (c : Likeness r.Same g h rel)
    (hspec : ∀ {use use'}, TypeUse.Rel rel use use' →
      Follows rel (specTo r.toRules g depth use) (specTo r.toRules h depth' use'))
    {p q : Property} (hpq : p.Rel rel q) :
    Follows rel (memberTo r.toRules g (depth + 1) p) (memberTo r.toRules h (depth' + 1) q) := by
  have huse := c.propertyUse?_rel hpq
  rw [memberTo, memberTo, hpq.name]
  refine .within q.name ?_
  generalize g.propertyUse? p = x at huse ⊢
  generalize h.propertyUse? q = y at huse ⊢
  cases huse with
  | none => exact .throw (by simp) _
  | some hu => exact .bind (hspec hu) fun _ => .pure _

theorem entryTo_follows (c : Likeness r.Same g h rel)
    (hmember : ∀ {p q}, Property.Rel rel p q →
      Follows rel (memberTo r.toRules g depth p) (memberTo r.toRules h depth' q))
    (hu : TypeUse.Rel rel use use') (slot : Nat) :
    Follows rel (entryTo r.toRules g depth use slot) (entryTo r.toRules h depth' use' slot) := by
  unfold entryTo membersTo
  rw [declaredNameOf_eq c hu]
  refine .bind (.written (isSome_slotTitle_eq c hu) fun _ _ => .bind (.note _ _) fun _ => ?_)
    fun members => .bind (.patch slot _) fun _ => .pure slot
  exact .mapM (propertiesOf_rel c hu) fun p q hpq => hmember hpq

theorem slotTo_follows (c : Likeness r.Same g h rel)
    (hmember : ∀ {p q}, Property.Rel rel p q →
      Follows rel (memberTo r.toRules g depth p) (memberTo r.toRules h depth' q))
    (hu : TypeUse.Rel rel use use') :
    Follows rel (slotTo r.toRules g (depth + 1) use) (slotTo r.toRules h (depth' + 1) use') := by
  intro c₁ c₂ hc
  have hid : (use.identity c₁).Rel rel (use'.identity c₂) := by
    cases hu with
    | node hab => exact .node hab
    | union _ =>
        unfold TypeUse.identity
        rw [hc.slots]
        exact .passing _
  rw [slotTo_run, slotTo_run, hc.lookup_eq c.injective hid, hc.slots]
  cases c₂.lookup (use'.identity c₂) with
  | some known => exact .returned rfl hc
  | none => exact entryTo_follows c hmember hu _ _ _ (hc.reserve hid)

/-- To any depth, and to every greater depth in the second graph. -/
theorem followsTo (lenient : r.policy = .lenient) (c : Likeness r.Same g h rel) :
    ∀ {depth depth' : Nat}, depth ≤ depth' →
      (∀ {use use'}, TypeUse.Rel rel use use' →
        Follows rel (specTo r.toRules g depth use) (specTo r.toRules h depth' use')) ∧
      (∀ {use use'}, TypeUse.Rel rel use use' →
        Follows rel (propTypeTo r.toRules g depth use) (propTypeTo r.toRules h depth' use')) ∧
      (∀ {use use'}, TypeUse.Rel rel use use' →
        Follows rel (slotTo r.toRules g depth use) (slotTo r.toRules h depth' use')) ∧
      ∀ {p q}, Property.Rel rel p q →
        Follows rel (memberTo r.toRules g depth p) (memberTo r.toRules h depth' q) := by
  intro depth
  induction depth with
  | zero =>
      intro depth' _
      obtain ⟨hspec, hprop, hslot, hmember⟩ := tooDeepTo r.toRules g
      simp only [hspec, hprop, hslot, hmember]
      exact ⟨fun _ => .throw (by simp) _, fun _ => .throw (by simp) _,
        fun _ => .throw (by simp) _, fun _ => .throw (by simp) _⟩
  | succ depth ih =>
      intro depth' hle
      cases depth' with
      | zero => exact absurd hle (Nat.not_succ_le_zero depth)
      | succ depth' =>
          obtain ⟨hspec, hprop, hslot, hmember⟩ := ih (Nat.le_of_succ_le_succ hle)
          refine ⟨specTo_follows c hprop, fun hu => ?_, slotTo_follows c hmember,
            memberTo_follows c hspec⟩
          rw [propTypeTo_succ, propTypeTo_succ]
          exact makeupTo_follows lenient c hspec hslot (makeup_rel c hu)

/-- The slot of a component's props, classified to a depth. -/
def propsSlotTo (r : Rules) (g : TypeGraph) (depth : Nat) (use : TypeUse) : Pass Nat :=
  slotTo r g depth (if g.isNullable use then g.nonNullable use else use)

theorem propsSlotTo_follows (lenient : r.policy = .lenient) (c : Likeness r.Same g h rel)
    (hdepth : depth ≤ depth') (hu : TypeUse.Rel rel use use') :
    Follows rel (propsSlotTo r.toRules g depth use) (propsSlotTo r.toRules h depth' use') :=
  (followsTo lenient c hdepth).2.2.1 (c.stripped_rel hu)

end Classify

namespace Components

open TypeGraph Pass
variable {r : ComponentRules} {g h : TypeGraph} {rel : NodeId → NodeId → Prop}

theorem symbol_marked (c : Likeness r.Same g h rel) {a b : NodeId} (hab : rel a b) :
    (g.symbol a).any r.markers.contains = (h.symbol b).any r.markers.contains :=
  (c.symbol_same (.refl r) hab).marked

/-- Classes are declared with the same names. -/
theorem declarationName_eq_of_isClass {same : Option String → Option String → Prop}
    (c : Likeness same g h rel) {a b : NodeId} (hab : rel a b) (hclass : g.isClass a) :
    declarationName g a = declarationName h b := by
  have hform := c.forms hab
  unfold isClass at hclass
  unfold declarationName
  generalize g.form a = x at hform hclass ⊢
  generalize h.form b = y at hform ⊢
  cases hform with
  | classDeclaration => rfl
  | _ => cases hclass

/-- The component that a class declares, with its props classified to a depth. -/
def ofClassTo (r : ComponentRules) (g : TypeGraph) (depth : Nat) (id : NodeId) :
    Pass (Option ComponentSpec) := do
  let name := declarationName g id
  match (g.bases id).find? (derives g r.markers) with
  | none => pure none
  | some base =>
    match g.arguments base with
    | [] =>
      Pass.note (.noProps name)
      pure none
    | props :: _ =>
      let slot ← Classify.propsSlotTo r.toRules g depth (.node props)
      Pass.note (.found name slot)
      pure (some ⟨name, slot⟩)

theorem ofClassTo_follows (lenient : r.policy = .lenient) (c : Likeness r.Same g h rel)
    {depth depth' : Nat} (hdepth : depth ≤ depth') {a b : NodeId} (hab : rel a b)
    (hclass : g.isClass a) : Follows rel (ofClassTo r g depth a) (ofClassTo r h depth' b) := by
  have hbase := Sequences.find?_rel (fun _ _ hxy => derives_eq c (symbol_marked c) hxy)
    (c.bases_rel hab)
  unfold ofClassTo
  rw [declarationName_eq_of_isClass c hab hclass]
  generalize (g.bases a).find? (derives g r.markers) = x at hbase ⊢
  generalize (h.bases b).find? (derives h r.markers) = y at hbase ⊢
  cases hbase with
  | none => exact .pure none
  | @some base base' hbase =>
      have hargs := c.arguments_rel hbase
      dsimp only
      generalize g.arguments base = args at hargs ⊢
      generalize h.arguments base' = args' at hargs ⊢
      cases hargs with
      | nil => exact .bind (.note _ _) fun _ => .pure none
      | cons hprops _ =>
          exact .bind (Classify.propsSlotTo_follows lenient c hdepth (.node hprops)) fun _ =>
            .bind (.note _ _) fun _ => .pure _

theorem distinctClasses_rel_of_likeness (c : Likeness r.Same g h rel) {ids ids' : List NodeId}
    (hs : List.Forall₂ rel ids ids') :
    List.Forall₂ rel (distinctClasses g ids) (distinctClasses h ids') :=
  c.addMissing_rel .nil (List.rel_filter (fun _ _ hab => by simp only [c.isClass_eq hab]) hs)

theorem finish_follows (found : List (Option ComponentSpec)) :
    Follows rel (finish found) (finish found) := by
  intro c c' hc
  have hresult : c.result (found.filterMap id) = c'.result (found.filterMap id) := by
    unfold Context.result Context.unfinished
    rw [hc.slots]
  rw [run_finish, run_finish, ← hresult]
  cases hx : c.result (found.filterMap id) with
  | ok x => exact .returned rfl hc
  | error fault => exact .failed (fun h => not_isLimit_of_result hx (.inr h)) _ _

/-- The search for components, with their props classified to a depth. -/
def findTo (r : ComponentRules) (g : TypeGraph) (depth : Nat) (declarations : List NodeId) :
    Pass Extraction :=
  (distinctClasses g declarations).mapM (ofClassTo r g depth) >>= finish

theorem find_eq_findTo (r : ComponentRules) (g : TypeGraph) (declarations : List NodeId) :
    find r g declarations = findTo r g g.classifyDepth declarations := rfl

/-- The components of classes in correspondence are the same, and so are their tables. -/
theorem findTo_follows (lenient : r.policy = .lenient) (c : Likeness r.Same g h rel)
    {depth depth' : Nat} (hdepth : depth ≤ depth') {ids ids' : List NodeId}
    (hs : List.Forall₂ rel ids ids') : Follows rel (findTo r g depth ids) (findTo r h depth' ids') := by
  have hclasses := Sequences.forall₂_and (Q := fun _ => True) (distinctClasses_rel_of_likeness c hs)
    (fun id hid => (List.mem_filter.mp ((mem_addMissing.mp hid).resolve_left List.not_mem_nil)).2)
    fun _ _ => trivial
  refine .bind (.mapM hclasses fun a b hab => ?_) finish_follows
  exact ofClassTo_follows lenient c hdepth hab.1 hab.2.1

end Components

end PropSchema
