import PropSchema.Proofs.Classify.Correspondence
/-!
Classes that correspond declare the same components. The search for a marker never runs out of
steps, for every base reference is followed at most once; so it finds the same in a larger graph.
The schemas of the props agree to every depth.
-/
namespace PropSchema.Components

open TypeGraph

section Search
variable {same : Option String → Option String → Prop} {g h : TypeGraph}
  {rel : NodeId → NodeId → Prop}

/-- The base references that the nodes of a list still have, those seen left out. -/
def remaining (g : TypeGraph) (seen : List NodeId) : List NodeId → Nat
  | [] => 0
  | id :: ids =>
    if seen.contains id then remaining g seen ids else (g.bases id).length + remaining g seen ids

/-- The base references that a search may still follow. -/
def openBases (g : TypeGraph) (seen : List NodeId) : Nat := remaining g seen (List.range g.size)

theorem remaining_cons_le (g : TypeGraph) (seen : List NodeId) (id : NodeId) (ids : List NodeId) :
    remaining g (id :: seen) ids ≤ remaining g seen ids := by
  induction ids with
  | nil => exact Nat.le_refl _
  | cons other ids ih =>
      simp only [remaining, List.contains_cons]
      by_cases hs : seen.contains other
      · simp only [hs, Bool.or_true, if_true]
        exact ih
      · by_cases he : other == id
        · simp only [he, hs, Bool.true_or, if_true, Bool.false_eq_true, if_false]
          omega
        · simp only [he, hs, Bool.or_false, Bool.false_eq_true, if_false]
          omega

/-- A node that is seen for the first time takes its base references with it. -/
theorem remaining_cons_add_le {seen : List NodeId} {id : NodeId} (hseen : seen.contains id = false)
    {ids : List NodeId} (hid : id ∈ ids) :
    remaining g (id :: seen) ids + (g.bases id).length ≤ remaining g seen ids := by
  induction ids with
  | nil => cases hid
  | cons other ids ih =>
      have hle := remaining_cons_le g seen id ids
      simp only [remaining, List.contains_cons]
      by_cases he : other = id
      · subst he
        simp only [beq_self_eq_true, hseen, Bool.true_or, if_true, Bool.false_eq_true, if_false]
        omega
      · have hid' : id ∈ ids := (List.mem_cons.mp hid).resolve_left (Ne.symm he)
        have ih := ih hid'
        have hb : (other == id) = false := beq_false_of_ne he
        by_cases hs : seen.contains other
        · simp only [hs, Bool.or_true, if_true]
          exact ih
        · simp only [hb, hs, Bool.or_false, Bool.false_eq_true, if_false]
          omega

theorem openBases_cons_add_le {seen : List NodeId} {id : NodeId} (hseen : seen.contains id = false) :
    openBases g (id :: seen) + (g.bases id).length ≤ openBases g seen := by
  by_cases hid : id ∈ List.range g.size
  · exact remaining_cons_add_le hseen hid
  · have hnone : g.bases id = [] := by
      unfold bases
      rw [form_of_size_le (by simpa using hid)]
    rw [hnone]
    exact remaining_cons_le g seen id _

theorem baseCount_eq (g : TypeGraph) : baseCount g = openBases g [] := by
  have hfold : ∀ (ids : List NodeId) (n : Nat),
      ids.foldl (fun n id => n + (g.bases id).length) n = n + remaining g [] ids := by
    intro ids
    induction ids with
    | nil => intro n; rfl
    | cons id ids ih =>
        intro n
        rw [List.foldl_cons, ih, remaining]
        simp only [List.contains_nil, Bool.false_eq_true, if_false]
        omega
  rw [baseCount, hfold, Nat.zero_add]
  rfl

/-- With steps enough for what is pending and what can still be met, searches that start alike
find the same. -/
theorem searchTo_eq (c : Likeness same g h rel) {markers : List String}
    (hmarked : ∀ {a b}, rel a b →
      (g.symbol a).any markers.contains = (h.symbol b).any markers.contains)
    {fuel fuel' : Nat} {pending pending' seen seen' : List NodeId} (hp : List.Forall₂ rel pending pending')
    (hs : List.Forall₂ rel seen seen') (henough : pending.length + openBases g seen < fuel)
    (henough' : pending'.length + openBases h seen' < fuel') :
    searchTo g markers fuel pending seen = searchTo h markers fuel' pending' seen' := by
  induction fuel generalizing fuel' pending pending' seen seen' with
  | zero => exact absurd henough (Nat.not_lt_zero _)
  | succ fuel ih =>
      cases fuel' with
      | zero => exact absurd henough' (Nat.not_lt_zero _)
      | succ fuel' =>
          cases hp with
          | nil => rfl
          | @cons a b rest rest' hab hrest =>
              rw [List.length_cons] at henough henough'
              rw [searchTo, searchTo, Sequences.contains_eq c.injective hs hab, hmarked hab]
              split
              · exact ih hrest hs (by omega) (by omega)
              · next hseen =>
                  split
                  · rfl
                  · have hseen' : seen'.contains b = false := by simpa using hseen
                    have hle := openBases_cons_add_le (g := h) hseen'
                    rw [← Sequences.contains_eq c.injective hs hab] at hseen'
                    have hle' := openBases_cons_add_le (g := g) hseen'
                    refine ih (List.rel_append (List.rel_reverse (c.bases_rel hab)) hrest)
                      (.cons hab hs) ?_ ?_
                    · simp only [List.length_append, List.length_reverse]
                      omega
                    · simp only [List.length_append, List.length_reverse]
                      omega

theorem derives_eq (c : Likeness same g h rel) {markers : List String}
    (hmarked : ∀ {a b}, rel a b →
      (g.symbol a).any markers.contains = (h.symbol b).any markers.contains)
    {a b : NodeId} (hab : rel a b) : derives g markers a = derives h markers b := by
  refine searchTo_eq c hmarked (.cons hab .nil) .nil ?_ ?_
  · rw [baseCount_eq, List.length_singleton]
    omega
  · rw [baseCount_eq, List.length_singleton]
    omega

theorem declarationName_eq (c : Correspondence g h rel) {a b : NodeId} (hab : rel a b) :
    declarationName g a = declarationName h b := by
  have hform := c.forms hab
  unfold declarationName shortName
  generalize g.form a = x at hform ⊢
  generalize h.form b = y at hform ⊢
  cases hform with
  | function hf =>
      dsimp only
      rw [hf.symbol]
  | record hr =>
      dsimp only
      rw [hr.name, hr.symbol]
  | _ => rfl

end Search

/-- Components of one name whose props agree to every depth. -/
structure SameComponent (refs refs' : List RecordSpec) (k k' : ComponentSpec) : Prop where
  name : k.name = k'.name
  schema : SameSchema refs refs' k.props k'.props

open Classify

variable {r : ComponentRules} {g h : TypeGraph} {rel : NodeId → NodeId → Prop}
  {ctx ctx' : Context} {refs refs' : List RecordSpec}

theorem propsOf?_rel {same : Option String → Option String → Prop} (c : Likeness same g h rel)
    (hmarked : ∀ {a b}, rel a b →
      (g.symbol a).any r.markers.contains = (h.symbol b).any r.markers.contains)
    {a b : NodeId} (hab : rel a b) : Option.Rel rel (propsOf? r g a) (propsOf? r h b) := by
  have hfind := Sequences.find?_rel (fun _ _ hxy => derives_eq c hmarked hxy) (c.bases_rel hab)
  unfold propsOf?
  generalize (g.bases a).find? _ = x at hfind ⊢
  generalize (h.bases b).find? _ = y at hfind ⊢
  cases hfind with
  | none => exact .none
  | some hbase => exact Sequences.head?_rel (c.arguments_rel hbase)

theorem Declares.exists_props {id : NodeId} {k : ComponentSpec} (hk : Declares r g id k ctx) :
    ∃ props, ∃ slot : Nat, propsOf? r g id = some props ∧ k.props = slot ∧
      HasSlot (g.stripped (.node props)) slot ctx := by
  obtain ⟨-, base, props, rest, slot, hb, ha, hs, hslot⟩ := hk
  exact ⟨props, slot, by simp [propsOf?, hb, ha], hs, hslot⟩

/-- Classes that correspond declare the same component, or neither declares one. -/
theorem same_of_answers (c : Correspondence g h rel) (hr : r.registry.Plain)
    (hf : Faithful r.toRules g ctx) (hf' : Faithful r.toRules h ctx')
    (hs : ctx.slots = refs.map some) (hs' : ctx'.slots = refs'.map some) {a b : NodeId}
    (hab : rel a b) {found found' : Option ComponentSpec} (ha : Answers r g a found ctx)
    (hb : Answers r h b found' ctx') : Option.Rel (SameComponent refs refs') found found' := by
  have hprops : Option.Rel rel (propsOf? r g a) (propsOf? r h b) :=
    propsOf?_rel c.likeness (fun hab => by rw [c.symbol_eq hab]) hab
  cases found with
  | none =>
      cases found' with
      | none => exact .none
      | some k' =>
          obtain ⟨props', -, hp', -⟩ := (hb.declared k' rfl).exists_props
          rw [ha.missing rfl, hp'] at hprops
          cases hprops
  | some k =>
      obtain ⟨props, slot, hp, hk, hslot⟩ := (ha.declared k rfl).exists_props
      cases found' with
      | none =>
          rw [hp, hb.missing rfl] at hprops
          cases hprops
      | some k' =>
          obtain ⟨props', slot', hp', hk', hslot'⟩ := (hb.declared k' rfl).exists_props
          rw [hp, hp'] at hprops
          cases hprops with
          | some hpp =>
              refine .some ⟨?_, ?_⟩
              · rw [(ha.declared k rfl).1, (hb.declared k' rfl).1]
                exact declarationName_eq c hab
              · rw [hk, hk']
                exact sameSchema_of_hasSlot c hr hf hf' hs hs' (c.likeness.stripped_rel (.node hpp)) hslot
                  hslot'

end PropSchema.Components
