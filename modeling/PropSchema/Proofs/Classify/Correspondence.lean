import PropSchema.Proofs.Classify.Closed
import PropSchema.Proofs.TypeGraph.Texts
/-!
Types that correspond have schemas that say the same. The tables of two graphs may number their
records differently, and a table may hold records that the other lacks; followed from a slot, to
any depth, the tables agree.
-/
namespace PropSchema

/-- Prop types that are the same but for the indices in them, which a relation pairs. -/
inductive PropType.Alike (R : Int → Int → Prop) : PropType → PropType → Prop
  | any : PropType.Alike R .any .any
  | void : PropType.Alike R .void .void
  | string : PropType.Alike R .string .string
  | number : PropType.Alike R .number .number
  | boolean : PropType.Alike R .boolean .boolean
  | event : PropType.Alike R .event .event
  | reactElement : PropType.Alike R .reactElement .reactElement
  | reactNode : PropType.Alike R .reactNode .reactNode
  | literal (value : LiteralValue) : PropType.Alike R (.literal value) (.literal value)
  | union {ts us : List PropType} (h : List.Forall₂ (PropType.Alike R) ts us) :
      PropType.Alike R (.union ts) (.union us)
  | array {t u : PropType} (h : PropType.Alike R t u) : PropType.Alike R (.array t) (.array u)
  | tuple {ts us : List PropType} (h : List.Forall₂ (PropType.Alike R) ts us) :
      PropType.Alike R (.tuple ts) (.tuple us)
  | ref {i j : Int} (h : R i j) : PropType.Alike R (.ref i) (.ref j)
  | partialRef {i j : Int} (h : R i j) : PropType.Alike R (.partialRef i) (.partialRef j)
  | fn {args args' : List PropSpec} {s s' : PropSpec}
      (types : List.Forall₂ (PropType.Alike R) (args.map Spec.propType) (args'.map Spec.propType))
      (nullable : args.map Spec.isNullable = args'.map Spec.isNullable)
      (result : PropType.Alike R s.propType s'.propType)
      (resultNullable : s.isNullable = s'.isNullable) :
      PropType.Alike R (.fn args s) (.fn args' s')

structure Spec.Alike (R : Int → Int → Prop) (s s' : PropSpec) : Prop where
  propType : s.propType.Alike R s'.propType
  isNullable : s.isNullable = s'.isNullable

structure MemberSpec.Alike (R : Int → Int → Prop) (m m' : MemberSpec) : Prop where
  name : m.name = m'.name
  spec : m.spec.Alike R m'.spec

structure RecordSpec.Alike (R : Int → Int → Prop) (e e' : RecordSpec) : Prop where
  name : e.name = e'.name
  members : List.Forall₂ (MemberSpec.Alike R) e.members e'.members

/-- The entry of an index. -/
def recordAt? (refs : List RecordSpec) (index : Int) : Option RecordSpec :=
  if 0 ≤ index then refs[index.toNat]? else none

/-- Two tables agree if their entries are followed from two indices, down to a depth: names,
members, prop types and nullability are the same all the way. -/
def AgreeTo (refs refs' : List RecordSpec) : Nat → Int → Int → Prop
  | 0, _, _ => True
  | depth + 1, i, j => ∃ e e', recordAt? refs i = some e ∧ recordAt? refs' j = some e' ∧
      e.Alike (AgreeTo refs refs' depth) e'

/-- The same schema, wherever its entries stand in the tables. -/
def SameSchema (refs refs' : List RecordSpec) (i j : Int) : Prop :=
  ∀ depth, AgreeTo refs refs' depth i j

theorem Spec.sizeOf_propType_lt (s : PropSpec) : sizeOf s.propType < sizeOf s := by
  obtain ⟨t, nullable⟩ := s
  change sizeOf t < _
  rw [Spec.mk.sizeOf_spec]
  omega

/-- A prop type without index is the same as itself. -/
theorem PropType.alike_self (R : Int → Int → Prop) : ∀ t : PropType, t.indices = [] → t.Alike R t
  | .any, _ => .any
  | .void, _ => .void
  | .string, _ => .string
  | .number, _ => .number
  | .boolean, _ => .boolean
  | .event, _ => .event
  | .reactElement, _ => .reactElement
  | .reactNode, _ => .reactNode
  | .literal value, _ => .literal value
  | .union options, h => by
      have hnil := eq_nil_of_indicesAll h
      refine .union (List.forall₂_same.mpr ?_)
      intro t ht
      exact alike_self R t (hnil t ht)
  | .array element, h => .array (alike_self R element h)
  | .tuple elements, h => by
      have hnil := eq_nil_of_indicesAll h
      refine .tuple (List.forall₂_same.mpr ?_)
      intro t ht
      exact alike_self R t (hnil t ht)
  | .ref _, h => nomatch h
  | .partialRef _, h => nomatch h
  | .fn args result, h => by
      obtain ⟨ha, hr⟩ := List.append_eq_nil_iff.mp h
      rw [indicesSpec_eq] at hr
      refine .fn (List.forall₂_same.mpr ?_) rfl (alike_self R result.propType hr) rfl
      intro t ht
      obtain ⟨s, hs, rfl⟩ := List.mem_map.mp ht
      have hlt := (Spec.sizeOf_propType_lt s).trans (List.sizeOf_lt_of_mem hs)
      refine alike_self R s.propType (List.eq_nil_iff_forall_not_mem.mpr ?_)
      intro i hi
      have hmem := mem_indicesSpecs.mpr ⟨s, hs, hi⟩
      rw [ha] at hmem
      cases hmem
termination_by t => sizeOf t
decreasing_by
  · have hlt := List.sizeOf_lt_of_mem ht
    simp only [PropType.union.sizeOf_spec]
    omega
  · simp
  · have hlt := List.sizeOf_lt_of_mem ht
    simp only [PropType.tuple.sizeOf_spec]
    omega
  · simp only [PropType.fn.sizeOf_spec]
    omega
  · have hlt := Spec.sizeOf_propType_lt result
    simp only [PropType.fn.sizeOf_spec]
    omega

namespace Classify

structure Signature.Rel (rel : NodeId → NodeId → Prop) (s s' : Signature) : Prop where
  parameters : List.Forall₂ (fun p p' => TypeUse.Rel rel p.2 p'.2) s.parameters s'.parameters
  result : rel s.result s'.result

inductive MakeupRel (rel : NodeId → NodeId → Prop) : Makeup → Makeup → Prop
  | plain {t : PropType} (h : t.indices = []) : MakeupRel rel (.plain t) (.plain t)
  | union {as bs : List NodeId} (h : List.Forall₂ rel as bs) : MakeupRel rel (.union as) (.union bs)
  | tuple {as bs : List NodeId} (h : List.Forall₂ rel as bs) : MakeupRel rel (.tuple as) (.tuple bs)
  | array {a b : NodeId} (h : rel a b) : MakeupRel rel (.array a) (.array b)
  | function {s s' : Signature} (h : Signature.Rel rel s s') :
      MakeupRel rel (.function s) (.function s')
  | record {a b : NodeId} (h : rel a b) : MakeupRel rel (.record (.node a)) (.record (.node b))
  | partialRecord {a b : NodeId} (h : rel a b) : MakeupRel rel (.partialRecord a) (.partialRecord b)
  | unknown {a b : NodeId} (h : rel a b) : MakeupRel rel (.unknown a) (.unknown b)

variable {same : Option String → Option String → Prop} {g h : TypeGraph}
  {rel : NodeId → NodeId → Prop}

open TypeGraph

theorem declaredNameOf_eq (c : Likeness same g h rel) {use use' : TypeUse}
    (hu : TypeUse.Rel rel use use') : g.declaredNameOf use = h.declaredNameOf use' := by
  cases hu with
  | node hab => exact c.declaredName_eq hab
  | union _ => rfl

/-- Records in correspondence can be reported together. -/
theorem isSome_slotTitle_eq (c : Likeness same g h rel) {use use' : TypeUse}
    (hu : TypeUse.Rel rel use use') : (slotTitle g use).isSome = (slotTitle h use').isSome := by
  rw [slotTitle, slotTitle, declaredNameOf_eq c hu]
  split
  · rfl
  · exact c.isSome_render_eq hu

theorem formMakeup_rel (c : Likeness same g h rel) {a b : NodeId} (hab : rel a b) :
    MakeupRel rel (g.formMakeup a) (h.formMakeup b) := by
  have hform := c.forms hab
  unfold formMakeup signature?
  generalize g.form a = x at hform ⊢
  generalize h.form b = y at hform ⊢
  cases hform with
  | literal value => exact .plain rfl
  | tuple hs => exact .tuple hs
  | array he => exact .array he
  | partialOf ht => exact .partialRecord ht
  | function hf =>
      refine .function ⟨List.rel_map ?_ hf.parameters, hf.result⟩
      intro p q hpq
      dsimp only
      rw [hpq.optional]
      exact c.optionalUse_rel hpq.type q.optional
  | _ => exact .unknown hab

theorem unionMakeup_rel (c : Likeness same g h rel) {use use' : TypeUse}
    (hu : TypeUse.Rel rel use use') :
    MakeupRel rel (.union ((g.unionLeaves? use).getD [])) (.union ((h.unionLeaves? use').getD [])) := by
  have hleaves := c.unionLeaves?_rel hu
  cases hl : g.unionLeaves? use <;> cases hl' : h.unionLeaves? use' <;> rw [hl, hl'] at hleaves <;>
    cases hleaves
  case none.none => exact .union .nil
  case some.some hs => exact .union hs

theorem makeup_rel (c : Likeness same g h rel) {use use' : TypeUse}
    (hu : TypeUse.Rel rel use use') : MakeupRel rel (g.makeup use) (h.makeup use') := by
  have hshape := c.shape_eq hu
  have hunion := unionMakeup_rel c hu
  unfold makeup
  rw [hshape]
  cases hu with
  | node hab =>
      cases h.shape _
      case void | string | number | boolean | any => exact .plain rfl
      case union => exact hunion
      case object => exact .record hab
      all_goals exact formMakeup_rel c hab
  | @union as bs hs =>
      obtain hv | hv := h.shape_union bs <;> rw [hv]
      · exact .plain rfl
      · exact hunion

variable {r : Rules} {R : Int → Int → Prop} {slots slots' : TypeIdentity → Option Nat}
  {read read' : TypeUse → Option PropSpec}

theorem parameterUse_rel (c : Likeness same g h rel) {use use' : TypeUse}
    (hu : TypeUse.Rel rel use use') :
    TypeUse.Rel rel (parameterUse g use) (parameterUse h use') := by
  cases hu with
  | union hs => exact .union hs
  | node hab =>
      have hb := c.constraint?_rel hab
      unfold parameterUse
      dsimp only
      generalize g.constraint? _ = x at hb ⊢
      generalize h.constraint? _ = y at hb ⊢
      cases hb with
      | some hxy => exact .node hxy
      | none => exact .node hab

variable {r : Rules} {R : Int → Int → Prop} {slots slots' : TypeIdentity → Option Nat}
  {read read' : TypeUse → Option PropSpec}

theorem makeupBy_alike (c : Correspondence g h rel)
    (hslots : ∀ {a b i j}, rel a b → slots (.node a) = some i → slots' (.node b) = some j → R i j)
    (hread : ∀ {use use' s s'}, TypeUse.Rel rel use use' → read use = some s →
      read' use' = some s' → s.Alike R s')
    {m m' : Makeup} (hm : MakeupRel rel m m') {t t' : PropType}
    (ht : makeupBy r g slots read m = some t) (ht' : makeupBy r h slots' read' m' = some t') :
    t.Alike R t' := by
  have htype : ∀ a b t t', rel a b → TypeRead read a t → TypeRead read' b t' → t.Alike R t' := by
    rintro a b _ _ hab ⟨s, hs, rfl⟩ ⟨s', hs', rfl⟩
    exact (hread (.node hab) hs hs').propType
  rw [makeupBy_eq_some_iff] at ht ht'
  cases hm with
  | plain hnil =>
      cases ht
      cases ht'
      exact PropType.alike_self R t hnil
  | union hs =>
      cases ht with | union ho =>
      cases ht' with | union ho' => exact .union (Sequences.forall₂_through htype hs ho ho')
  | tuple hs =>
      cases ht with | tuple hts =>
      cases ht' with | tuple hts' => exact .tuple (Sequences.forall₂_through htype hs hts hts')
  | array hab =>
      cases ht with | array ha =>
      cases ht' with | array ha' => exact .array (hread (.node hab) ha ha').propType
  | function hsig =>
      cases ht with | @function _ args result ha hr =>
      cases ht' with | @function _ args' result' ha' hr' =>
      have hargs : List.Forall₂ (Spec.Alike R) args args' := by
        refine Sequences.forall₂_through (fun _ _ _ _ hp hs hs' => ?_) hsig.parameters ha ha'
        exact hread (parameterUse_rel c.likeness hp) hs hs'
      have hresult := hread (.node hsig.result) hr hr'
      refine .fn (List.rel_map (fun _ _ hss => hss.propType) hargs) ?_ hresult.propType
        hresult.isNullable
      exact List.forall₂_eq_eq_eq ▸ List.rel_map (P := Eq) (fun _ _ hss => hss.isNullable) hargs
  | record hab =>
      cases ht with | record hi =>
      cases ht' with | record hj => exact .ref (hslots hab hi hj)
  | partialRecord hab =>
      cases ht with | partialRecord hi =>
      cases ht' with | partialRecord hj => exact .partialRef (hslots hab hi hj)
  | unknown _ =>
      cases ht
      cases ht'
      exact .any

theorem Alike.isVoid_eq {t t' : PropType} (ha : t.Alike R t') : t.isVoid = t'.isVoid := by
  cases ha <;> rfl

theorem symbolOf_eq (c : Correspondence g h rel) {use use' : TypeUse}
    (hu : TypeUse.Rel rel use use') : g.symbolOf use = h.symbolOf use' := by
  cases hu with
  | node hab => exact c.symbol_eq hab
  | union hs => rfl

theorem specBy_alike (c : Correspondence g h rel) (hr : r.registry.Plain)
    (hslots : ∀ {a b i j}, rel a b → slots (.node a) = some i → slots' (.node b) = some j → R i j)
    (hread : ∀ {use use' s s'}, TypeUse.Rel rel use use' → read use = some s →
      read' use' = some s' → s.Alike R s')
    {use use' : TypeUse} (hu : TypeUse.Rel rel use use') {s s' : PropSpec}
    (hs : specBy r g slots read use = some s) (hs' : specBy r h slots' read' use' = some s') :
    s.Alike R s' := by
  have hstripped : TypeUse.Rel rel (g.stripped use) (h.stripped use') := c.likeness.stripped_rel hu
  obtain ⟨t, ht, he⟩ := Option.bind_eq_some_iff.mp hs
  obtain ⟨t', ht', he'⟩ := Option.bind_eq_some_iff.mp hs'
  cases he
  cases he'
  have htypes : t.Alike R t' := by
    rw [symbolOf_eq c hstripped] at ht
    cases hk : r.registry.find? (h.symbolOf (h.stripped use')) with
    | some known =>
        simp only [hk] at ht ht'
        cases ht
        cases ht'
        exact PropType.alike_self R _ (hr.found hk)
    | none =>
        simp only [hk] at ht ht'
        exact makeupBy_alike c hslots hread (makeup_rel c.likeness hstripped) ht ht'
  refine ⟨htypes, ?_⟩
  change (g.isNullable use && !t.isVoid) = (h.isNullable use' && !t'.isVoid)
  rw [c.likeness.isNullable_eq hu, Alike.isVoid_eq htypes]

/-- Types that correspond have readings that say the same. -/
theorem reading_alike (c : Correspondence g h rel) (hr : r.registry.Plain)
    (hslots : ∀ {a b i j}, rel a b → slots (.node a) = some i → slots' (.node b) = some j → R i j)
    {use use' : TypeUse} (hu : TypeUse.Rel rel use use') {s s' : PropSpec}
    (hs : reading r g slots use = some s) (hs' : reading r h slots' use' = some s') :
    s.Alike R s' := by
  refine reading_induction (motive := fun use s => ∀ use' s', TypeUse.Rel rel use use' →
    reading r h slots' use' = some s' → s.Alike R s') ?_ hs use' s' hu hs'
  intro read hread use s hs use' s' hu hs'
  rw [reading_eq] at hs'
  exact specBy_alike c hr hslots (fun hu hs hs' => hread _ _ hs _ _ hu hs') hu hs hs'

theorem memberReads_alike (c : Correspondence g h rel) (hr : r.registry.Plain)
    (hslots : ∀ {a b i j}, rel a b → slots (.node a) = some i → slots' (.node b) = some j → R i j)
    {p q : Property} {m m' : MemberSpec} (hpq : p.Rel rel q) (hm : MemberReads r g slots p m)
    (hm' : MemberReads r h slots' q m') : m.Alike R m' := by
  obtain ⟨hname, hspec⟩ := hm
  obtain ⟨hname', hspec'⟩ := hm'
  obtain ⟨use, hu, hread⟩ := Option.bind_eq_some_iff.mp hspec
  obtain ⟨use', hu', hread'⟩ := Option.bind_eq_some_iff.mp hspec'
  have huse := c.likeness.propertyUse?_rel hpq
  rw [hu, hu'] at huse
  cases huse with
  | some huse =>
      exact ⟨by rw [hname, hname', hpq.name], reading_alike c hr hslots huse hread hread'⟩

theorem describes_alike (c : Correspondence g h rel) (hr : r.registry.Plain)
    (hslots : ∀ {a b i j}, rel a b → slots (.node a) = some i → slots' (.node b) = some j → R i j)
    {a b : NodeId} (hab : rel a b) {e e' : RecordSpec} (he : Describes r g slots (.node a) e)
    (he' : Describes r h slots' (.node b) e') : e.Alike R e' := by
  refine ⟨?_, ?_⟩
  · rw [he.name, he'.name]
    exact c.likeness.declaredName_eq hab
  · have hmember : ∀ (p q : Property) (m m' : MemberSpec), p.Rel rel q →
        MemberReads r g slots p m → MemberReads r h slots' q m' → m.Alike R m' :=
      fun _ _ _ _ hpq hm hm' => memberReads_alike c hr hslots hpq hm hm'
    exact Sequences.forall₂_through hmember (c.likeness.properties_rel hab) he.members he'.members

variable {ctx ctx' : Context} {refs refs' : List RecordSpec}

theorem recordAt?_of_slots (hs : ctx.slots = refs.map some) {slot : Nat} {record : RecordSpec}
    (h : ctx.slots[slot]? = some (some record)) : recordAt? refs slot = some record := by
  rw [hs, List.getElem?_map] at h
  obtain ⟨e, he, hrec⟩ := Option.map_eq_some_iff.mp h
  cases hrec
  simp [recordAt?, he]

/-- Where tables are faithful, records that correspond agree from their slots on. -/
theorem agreeTo_of_rel (c : Correspondence g h rel) (hr : r.registry.Plain)
    (hf : Faithful r g ctx) (hf' : Faithful r h ctx') (hs : ctx.slots = refs.map some)
    (hs' : ctx'.slots = refs'.map some) (depth : Nat) {a b : NodeId} (hab : rel a b) {i j : Nat}
    (hi : ctx.lookup (.node a) = some i) (hj : ctx'.lookup (.node b) = some j) :
    AgreeTo refs refs' depth i j := by
  induction depth generalizing a b i j with
  | zero => trivial
  | succ depth ih =>
      obtain ⟨e, he, hd⟩ := hf _ _ hi
      obtain ⟨e', he', hd'⟩ := hf' _ _ hj
      refine ⟨e, e', recordAt?_of_slots hs he, recordAt?_of_slots hs' he', ?_⟩
      exact describes_alike (R := AgreeTo refs refs' depth) c hr (fun hab hi hj => ih hab hi hj)
        hab hd hd'

/-- Two unions made on the way have the same entry, which is empty. -/
theorem agreeTo_of_passing (hf : Faithful r g ctx) (hf' : Faithful r h ctx')
    (hs : ctx.slots = refs.map some) (hs' : ctx'.slots = refs'.map some) (depth : Nat)
    {made made' i j : Nat} (hi : ctx.lookup (.passing made) = some i)
    (hj : ctx'.lookup (.passing made') = some j) : AgreeTo refs refs' depth i j := by
  cases depth with
  | zero => trivial
  | succ depth =>
      obtain ⟨e, he, hd⟩ := hf _ _ hi
      obtain ⟨e', he', hd'⟩ := hf' _ _ hj
      refine ⟨e, e', recordAt?_of_slots hs he, recordAt?_of_slots hs' he', ?_, ?_⟩
      · rw [hd.name, hd'.name]
        rfl
      · have hm := hd.members
        have hm' := hd'.members
        generalize e.members = ms at hm ⊢
        generalize e'.members = ms' at hm' ⊢
        cases hm
        cases hm'
        exact .nil

theorem sameSchema_of_hasSlot (c : Correspondence g h rel) (hr : r.registry.Plain)
    (hf : Faithful r g ctx) (hf' : Faithful r h ctx') (hs : ctx.slots = refs.map some)
    (hs' : ctx'.slots = refs'.map some) {use use' : TypeUse} (hu : TypeUse.Rel rel use use')
    {i j : Nat} (hi : HasSlot use i ctx) (hj : HasSlot use' j ctx') :
    SameSchema refs refs' i j := by
  intro depth
  cases hu with
  | node hab => exact agreeTo_of_rel c hr hf hf' hs hs' depth hab hi hj
  | union _ =>
      obtain ⟨made, hi⟩ := hi
      obtain ⟨made', hj⟩ := hj
      exact agreeTo_of_passing hf hf' hs hs' depth hi hj

end Classify

end PropSchema
