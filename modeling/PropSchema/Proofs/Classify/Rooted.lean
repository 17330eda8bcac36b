import PropSchema.Proofs.Classify.Table
import PropSchema.Proofs.Schema.Merge
/-!
No entry stands in a table for nothing. Whatever slots a step makes, they are reached from the
indices that the step gives: an index that is met while its own record is classified is given out as
well, and the record that reserved it leads there. So every entry of an outcome is reached from the
props of a component, and outcomes that are merged keep their entries reached.
-/
namespace PropSchema

namespace Context

/-- The entry in a slot points at an index. -/
def Mentions (c : Context) (i j : Int) : Prop :=
  ∃ (slot : Nat) (record : RecordSpec), c.slots[slot]? = some (some record) ∧ i = slot ∧
    j ∈ record.indices

/-- Entries lead from one of some indices to another index. -/
def Leads (c : Context) (given : List Int) (j : Int) : Prop :=
  ∃ i ∈ given, Relation.ReflTransGen c.Mentions i j

variable {c c' c'' : Context} {given given' : List Int} {i j : Int}

theorem Leads.mono (hslots : ∀ {slot : Nat} {record : RecordSpec},
    c.slots[slot]? = some (some record) → c'.slots[slot]? = some (some record))
    (hgiven : given ⊆ given') (h : c.Leads given j) : c'.Leads given' j := by
  obtain ⟨i, hi, hij⟩ := h
  have hmentions : ∀ a b, c.Mentions a b → c'.Mentions a b := by
    rintro a b ⟨slot, record, hslot, ha, hb⟩
    exact ⟨slot, record, hslots hslot, ha, hb⟩
  exact ⟨i, hgiven hi, Relation.ReflTransGen.mono hmentions _ _ hij⟩

/-- What comes after a context, where indices are given that lead to all slots that are new. -/
structure Covers (c c' : Context) (given : List Int) : Prop extends c.Extends c' where
  reached : ∀ slot : Nat, c.slots.length ≤ slot → slot < c'.slots.length → c'.Leads given slot

namespace Covers

/-- Where no slot is new, nothing has to be reached. -/
theorem of_slots_eq (h : c.Extends c') (hslots : c'.slots = c.slots) (given : List Int) :
    c.Covers c' given := by
  refine ⟨h, fun slot hle hlt => ?_⟩
  rw [hslots] at hlt
  omega

theorem refl (c : Context) (given : List Int) : c.Covers c given :=
  .of_slots_eq (.refl c) rfl given

theorem mono (h : c.Covers c' given) (hgiven : given ⊆ given') : c.Covers c' given' :=
  ⟨h.toExtends, fun slot hle hlt => (h.reached slot hle hlt).mono id hgiven⟩

theorem trans (h : c.Covers c' given) (h' : c'.Covers c'' given') (hgiven : given ⊆ given') :
    c.Covers c'' given' := by
  refine ⟨h.toExtends.trans h'.toExtends, fun slot hle hlt => ?_⟩
  by_cases hslot : slot < c'.slots.length
  · exact (h.reached slot hle hslot).mono h'.toExtends.filled hgiven
  · exact h'.reached slot (by omega) hlt

theorem pop {name : String}
    (h : ({ c with owners := name :: c.owners } : Context).Covers c' given) :
    c.Covers { c' with owners := c'.owners.tail } given :=
  ⟨h.toExtends.pop, h.reached⟩

/-- A record is reached by its slot, and leads to all that its members have made. -/
theorem fill {identity : TypeIdentity} (record : RecordSpec) (hnew : c.lookup identity = none)
    (h : (c.reserve identity).2.Covers c' record.indices) :
    c.Covers { c' with slots := c'.slots.set c.slots.length (some record) }
      [(c.slots.length : Int)] := by
  have hopen := h.toExtends.reserved
  have hlength : (c.reserve identity).2.slots.length = c.slots.length + 1 := by simp [reserve]
  refine ⟨((extends_reserve hnew).trans h.toExtends).set (Nat.le_refl _) _, fun slot hle hlt => ?_⟩
  rcases Nat.eq_or_lt_of_le hle with rfl | hlater
  · exact ⟨_, List.mem_singleton_self _, .refl⟩
  · rw [List.length_set] at hlt
    have hkept : ∀ {other : Nat} {entry : RecordSpec}, c'.slots[other]? = some (some entry) →
        (c'.slots.set c.slots.length (some record))[other]? = some (some entry) := by
      intro other entry hother
      have hne : c.slots.length ≠ other := by
        rintro rfl
        rw [hopen] at hother
        cases hother
      rw [List.getElem?_set_ne hne, hother]
    obtain ⟨i, hi, hreached⟩ :
        Leads { c' with slots := c'.slots.set c.slots.length (some record) } record.indices slot :=
      (h.reached slot (by omega) hlt).mono hkept (List.Subset.refl _)
    obtain ⟨hopenlt, -⟩ := List.getElem?_eq_some_iff.mp hopen
    refine ⟨_, List.mem_singleton_self _, .head ⟨c.slots.length, record, ?_, rfl, hi⟩ hreached⟩
    rw [List.getElem?_set_self hopenlt]

end Covers

end Context

/-- A step that keeps some indices among those that it gives, and gives indices that lead to all
slots that it makes. -/
def Pass.Covers {α : Type} (m : Pass α) (kept : List Int) (given : α → List Int) : Prop :=
  ∀ c a c', m.run c = (.ok a, c') → kept ⊆ given a ∧ c.Covers c' (given a)

namespace Pass.Covers
variable {α β : Type} {m : Pass α} {kept : List Int} {given : α → List Int} {given' : β → List Int}

theorem pure {a : α} (h : kept ⊆ given a) : (Pure.pure a : Pass α).Covers kept given := by
  intro c b c' hr
  cases hr
  exact ⟨h, .refl c _⟩

theorem throw (fault : PassFault) : (MonadExcept.throw fault : Pass α).Covers kept given := nofun

theorem written (text? : Option String) : (Pass.written text?).Covers kept fun _ => kept := by
  cases text? with
  | none => exact throw _
  | some text => exact pure (List.Subset.refl kept)

theorem note (n : Note) : (Pass.note n).Covers kept fun _ => kept := by
  intro c a c' hr
  cases hr
  exact ⟨List.Subset.refl kept, .of_slots_eq (c.extends_notes (n :: c.notes)) rfl kept⟩

theorem bind {f : α → Pass β} (hm : m.Covers kept given) (hf : ∀ a, (f a).Covers (given a) given') :
    (m >>= f).Covers kept given' := by
  intro c b c'' hr
  obtain ⟨a, c', ha, hb⟩ := ok_of_bind hr
  obtain ⟨hkept, hcovers⟩ := hm _ _ _ ha
  obtain ⟨hgiven, hcovers'⟩ := hf a _ _ _ hb
  exact ⟨List.Subset.trans hkept hgiven, hcovers.trans hcovers' hgiven⟩

theorem map {g : α → β} (hm : m.Covers kept given) (hg : ∀ a, given a ⊆ given' (g a)) :
    (do Pure.pure (g (← m)) : Pass β).Covers kept given' :=
  hm.bind fun a => .pure (hg a)

/-- Indices from before can be kept beside those of a step. -/
theorem frame (hm : m.Covers [] given) (kept : List Int) :
    m.Covers kept fun a => kept ++ given a := by
  intro c a c' hr
  exact ⟨List.subset_append_left _ _, (hm _ _ _ hr).2.mono (List.subset_append_right _ _)⟩

theorem mapM {f : α → Pass β} (hf : ∀ a, (f a).Covers [] given') (as : List α) :
    (as.mapM f).Covers [] fun bs => bs.flatMap given' := by
  induction as with
  | nil => exact .pure (List.nil_subset _)
  | cons a as ih =>
      rw [List.mapM_cons]
      refine (hf a).bind fun b => (ih.frame (given' b)).bind fun bs => .pure ?_
      rw [List.flatMap_cons]
      exact List.Subset.refl _

theorem unionMember (h : m.Covers kept given) : (Pass.unionMember m).Covers kept given :=
  fun _ _ _ hr => h _ _ _ (ok_of_unionMember hr)

theorem within (name : String) (h : m.Covers kept given) :
    (Pass.within name m).Covers kept given := by
  intro c a c' hr
  rw [run_within] at hr
  rcases hrun : m.run { c with owners := name :: c.owners } with ⟨outcome, after⟩
  simp only [hrun] at hr
  cases hr
  obtain ⟨hkept, hcovers⟩ := h _ _ _ hrun
  exact ⟨hkept, hcovers.pop⟩

end Pass.Covers

namespace Classify
variable {r : Rules} {g : TypeGraph} {depth : Nat}

/-- The indices of a schema lead to all slots that are made for it. -/
def SpecCovers (r : Rules) (g : TypeGraph) (depth : Nat) : Prop :=
  ∀ use, (specTo r g depth use).Covers [] fun s => s.propType.indices

def PropTypeCovers (r : Rules) (g : TypeGraph) (depth : Nat) : Prop :=
  ∀ use, (propTypeTo r g depth use).Covers [] PropType.indices

def SlotCovers (r : Rules) (g : TypeGraph) (depth : Nat) : Prop :=
  ∀ use, (slotTo r g depth use).Covers [] fun slot => [(slot : Int)]

def MemberCovers (r : Rules) (g : TypeGraph) (depth : Nat) : Prop :=
  ∀ p, (memberTo r g depth p).Covers [] MemberSpec.indices

theorem specTo_covers (h : PropTypeCovers r g depth) : SpecCovers r g (depth + 1) := by
  intro use
  rw [specTo_succ]
  refine .map (?_ : Pass.Covers _ [] PropType.indices) fun t => List.Subset.refl _
  split
  · exact .pure (List.nil_subset _)
  · exact h _

theorem unknownTo_covers (id : NodeId) : (unknownTo r g id).Covers [] PropType.indices := by
  unfold unknownTo
  refine .bind (.written _) fun _ => ?_
  cases r.policy with
  | strict => exact .throw _
  | lenient => exact .bind (.note _) fun _ => .pure (List.nil_subset _)

theorem propType_covers (h : SpecCovers r g depth) (id : NodeId) :
    (do pure (← specTo r g depth (.node id)).propType : Pass PropType).Covers [] PropType.indices :=
  (h (.node id)).map fun _ => List.Subset.refl _

/-- Every part of a makeup hands its indices on to the prop type. -/
theorem makeupTo_covers (hspec : SpecCovers r g depth) (hslot : SlotCovers r g depth)
    (m : Makeup) : (makeupTo r g depth m).Covers [] PropType.indices := by
  cases m with
  | plain type => exact .pure (List.nil_subset _)
  | union leaves =>
      refine .map (.mapM (fun leaf => .unionMember (propType_covers hspec leaf)) leaves) ?_
      intro options
      rw [PropType.indices, PropType.indicesAll_eq_flatMap]
      exact List.Subset.refl _
  | tuple elements =>
      refine .map (.mapM (propType_covers hspec) elements) ?_
      intro types
      rw [PropType.indices, PropType.indicesAll_eq_flatMap]
      exact List.Subset.refl _
  | array element => exact (hspec (.node element)).map fun s => List.Subset.refl _
  | function signature =>
      refine .bind (.mapM (fun p => hspec (parameterUse g p.2)) signature.parameters) fun args => ?_
      refine ((hspec (.node signature.result)).frame _).map fun result => ?_
      rw [PropType.indices, PropType.indicesSpecs_eq_flatMap, PropType.indicesSpec_eq]
      exact List.Subset.refl _
  | record use => exact (hslot use).map fun slot => List.Subset.refl _
  | partialRecord target => exact (hslot (.node target)).map fun slot => List.Subset.refl _
  | unknown id => exact unknownTo_covers id

theorem propTypeTo_covers (hspec : SpecCovers r g depth) (hslot : SlotCovers r g depth) :
    PropTypeCovers r g (depth + 1) := by
  intro use
  rw [propTypeTo_succ]
  exact makeupTo_covers hspec hslot _

theorem memberTo_covers (h : SpecCovers r g depth) : MemberCovers r g (depth + 1) := by
  intro p
  rw [memberTo]
  apply Pass.Covers.within
  cases g.propertyUse? p with
  | none => exact .throw _
  | some use => exact (h use).map fun s => List.Subset.refl _

theorem membersTo_covers (h : MemberCovers r g depth) (use : TypeUse) (slot : Nat) :
    (membersTo r g depth use slot).Covers [] fun members => members.flatMap MemberSpec.indices :=
  .bind (.written _) fun _ => .bind (.note _) fun _ => .mapM h _

theorem slotTo_covers (h : MemberCovers r g depth) : SlotCovers r g (depth + 1) := by
  intro use c slot c' hr
  refine ⟨List.nil_subset _, ?_⟩
  rw [slotTo_run] at hr
  cases hk : c.lookup (use.identity c) with
  | some known =>
      -- met again, be it filled or not: nothing is made
      rw [hk] at hr
      cases hr
      exact .refl c _
  | none =>
      rw [hk] at hr
      rcases hm : (membersTo r g depth use c.slots.length).run
        (c.reserve (use.identity c)).2 with ⟨outcome, c₁⟩
      cases outcome with
      | error fault =>
          simp only [entryTo_of_error hm] at hr
          cases hr
      | ok members =>
          have hcovers := (membersTo_covers h use c.slots.length _ _ _ hm).2
          simp only [entryTo_of_ok hm hcovers.toExtends.reserved] at hr
          cases hr
          exact .fill ⟨g.declaredNameOf use, members⟩ hk hcovers

/-- However deep it goes, classification makes no slot that its indices do not lead to. -/
theorem coversTo (r : Rules) (g : TypeGraph) (depth : Nat) :
    SpecCovers r g depth ∧ PropTypeCovers r g depth ∧ SlotCovers r g depth ∧
      MemberCovers r g depth := by
  induction depth with
  | zero =>
      refine ⟨fun use => ?_, fun use => ?_, fun use => ?_, fun p => ?_⟩
      · rw [specTo]
        exact .throw _
      · rw [propTypeTo]
        exact .throw _
      · rw [slotTo]
        exact .throw _
      · rw [memberTo]
        exact .throw _
  | succ depth ih =>
      obtain ⟨hspec, hprop, hslot, hmember⟩ := ih
      exact ⟨specTo_covers hprop, propTypeTo_covers hspec hslot, slotTo_covers hmember,
        memberTo_covers hspec⟩

theorem propsSlot_covers (r : Rules) (g : TypeGraph) (use : TypeUse) :
    (propsSlot r g use).Covers [] fun slot => [(slot : Int)] :=
  (coversTo r g _).2.2.1 _

end Classify

namespace Extraction
variable {x y : Extraction}

/-- Every entry of the table is reached from the props of some component. -/
def Rooted (x : Extraction) : Prop :=
  ∀ i, InBlock 0 x.refs.length i →
    ∃ k ∈ x.components, Relation.ReflTransGen (PointsAt x.refs) k.props i

theorem rooted_empty : Rooted empty := by
  intro i hi
  have hlength : (empty.refs.length : Int) = 0 := rfl
  unfold InBlock at hi
  omega

end Extraction

theorem recordAt?_lt {refs : List RecordSpec} {i : Int} {e : RecordSpec}
    (h : recordAt? refs i = some e) : 0 ≤ i ∧ i < refs.length := by
  unfold recordAt? at h
  split at h
  · obtain ⟨hlt, -⟩ := List.getElem?_eq_some_iff.mp h
    omega
  · cases h

/-- What an entry points at is kept when entries are put behind its table. -/
theorem PointsAt.append {refs : List RecordSpec} (more : List RecordSpec) {i j : Int}
    (h : PointsAt refs i j) : PointsAt (refs ++ more) i j := by
  obtain ⟨e, he, hj⟩ := h
  exact ⟨e, by rw [recordAt?_append_left (recordAt?_lt he).2, he], hj⟩

/-- What an entry points at is shifted with its table. -/
theorem PointsAt.shift (refs : List RecordSpec) {more : List RecordSpec} {i j : Int}
    (h : PointsAt more i j) : PointsAt (refs ++ more.map (RecordSpec.shift refs.length))
      (i + refs.length) (j + refs.length) := by
  obtain ⟨e, he, hj⟩ := h
  refine ⟨e.shift refs.length, ?_, ?_⟩
  · rw [recordAt?_append_right (recordAt?_lt he).1, recordAt?_map, he]
    rfl
  · rw [RecordSpec.indices_shift]
    exact List.mem_map_of_mem hj

theorem Extraction.Rooted.merge {x y : Extraction} (hx : x.Rooted) (hy : y.Rooted) :
    (x.merge y).Rooted := by
  intro i hi
  have hlength : (x.merge y).refs.length = x.refs.length + y.refs.length := by
    simp [Extraction.merge, Extraction.shift]
  unfold InBlock at hi
  by_cases hfirst : i < x.refs.length
  · obtain ⟨k, hk, hreached⟩ := hx i (by unfold InBlock; omega)
    have hkept : ∀ a b, PointsAt x.refs a b → PointsAt (x.merge y).refs a b :=
      fun a b hab => hab.append _
    exact ⟨k, List.mem_append_left _ hk, Relation.ReflTransGen.mono hkept _ _ hreached⟩
  · obtain ⟨k, hk, hreached⟩ := hy (i - x.refs.length) (by unfold InBlock; omega)
    have hshifted : Relation.ReflTransGen (PointsAt (x.merge y).refs) (k.props + x.refs.length)
        (i - x.refs.length + x.refs.length) :=
      hreached.lift (· + (x.refs.length : Int)) fun a b hab => hab.shift x.refs
    rw [Int.sub_add_cancel] at hshifted
    exact ⟨k.shift x.refs.length, List.mem_append_right _ (List.mem_map_of_mem hk), hshifted⟩

namespace Components
variable {r : ComponentRules} {g : TypeGraph}

theorem ofClass_covers (r : ComponentRules) (g : TypeGraph) (id : NodeId) :
    (ofClass r g id).Covers [] fun found => found.toList.map ComponentSpec.props := by
  unfold ofClass
  dsimp only
  split
  · exact .pure (List.nil_subset _)
  · split
    · exact .bind (.note _) fun _ => .pure (List.nil_subset _)
    · exact (Classify.propsSlot_covers _ _ _).bind fun slot => .bind (.note _) fun _ =>
        .pure (List.Subset.refl _)

/-- After a pass that succeeds no entry of the table is an orphan. -/
theorem find_rooted {declarations : List NodeId} {x : Extraction} {c : Context}
    (h : (find r g declarations).run .fresh = (.ok x, c)) : x.Rooted := by
  obtain ⟨hadvances, -⟩ := find_tells r g declarations h
  rw [find_eq] at h
  obtain ⟨found, c₁, hfound, hfinish⟩ := Pass.ok_of_bind h
  obtain ⟨hresult, rfl⟩ := Prod.mk.inj ((run_finish found c₁).symm.trans hfinish)
  obtain ⟨-, hcovers⟩ := Pass.Covers.mapM (ofClass_covers r g) _ _ _ _ hfound
  have hslots := slots_of_result hadvances hresult
  have hcomponents : x.components = found.filterMap id := by rw [Context.eq_of_result hresult]
  have hentry : ∀ i j, c₁.Mentions i j → PointsAt x.refs i j := by
    rintro i j ⟨slot, record, hslot, rfl, hj⟩
    refine ⟨record, ?_, hj⟩
    rw [hslots, List.getElem?_map] at hslot
    obtain ⟨entry, hentry, heq⟩ := Option.map_eq_some_iff.mp hslot
    obtain rfl := Option.some.inj heq
    rw [recordAt?, if_pos (Int.natCast_nonneg slot), Int.toNat_natCast, hentry]
  intro i hi
  have hlength : c₁.slots.length = x.refs.length := by rw [hslots, List.length_map]
  unfold InBlock at hi
  obtain ⟨start, hstart, hreached⟩ := hcovers.reached i.toNat (Nat.zero_le _) (by omega)
  obtain ⟨component, hmem, hprops⟩ := List.mem_flatMap.mp hstart
  obtain ⟨k, hk, rfl⟩ := List.mem_map.mp hprops
  rw [Int.toNat_of_nonneg hi.1] at hreached
  refine ⟨k, ?_, Relation.ReflTransGen.mono hentry _ _ hreached⟩
  rw [hcomponents]
  exact List.mem_filterMap.mpr ⟨component, hmem, Option.mem_toList.mp hk⟩

end Components

end PropSchema
