import PropSchema.Proofs.Sequences
import PropSchema.TypeGraph.Record
/-!
Forms that correspond: they are of one kind, carry the same names and values, and lead to nodes
that correspond, place by place. Where a property was declared does not count, only whether.
-/
namespace PropSchema
variable {α β γ : Type} {R S : α → β → Prop}

structure Property.Rel (R : α → β → Prop) (p : Property α) (q : Property β) : Prop where
  name : p.name = q.name
  type : Option.Rel R p.type? q.type?
  optional : p.optional = q.optional
  declared : p.declaration.isSome = q.declaration.isSome

structure Parameter.Rel (R : α → β → Prop) (p : Parameter α) (q : Parameter β) : Prop where
  name : p.name = q.name
  type : R p.type q.type
  optional : p.optional = q.optional

structure RecordType.Rel (R : α → β → Prop) (r : RecordType α) (s : RecordType β) : Prop where
  name : r.name = s.name
  properties : List.Forall₂ (Property.Rel R) r.properties s.properties
  symbol : r.symbol = s.symbol
  arguments : List.Forall₂ R r.arguments s.arguments
  bases : List.Forall₂ R r.bases s.bases

structure FunctionType.Rel (R : α → β → Prop) (f : FunctionType α) (f' : FunctionType β) :
    Prop where
  parameters : List.Forall₂ (Parameter.Rel R) f.parameters f'.parameters
  result : R f.result f'.result
  symbol : f.symbol = f'.symbol

inductive TypeForm.Rel (R : α → β → Prop) : TypeForm α → TypeForm β → Prop
  | primitive (name : String) : TypeForm.Rel R (.primitive name) (.primitive name)
  | literal (value : LiteralValue) : TypeForm.Rel R (.literal value) (.literal value)
  | union {members : List α} {members' : List β} (h : List.Forall₂ R members members') :
      TypeForm.Rel R (.union members) (.union members')
  | intersection {members : List α} {members' : List β} (h : List.Forall₂ R members members') :
      TypeForm.Rel R (.intersection members) (.intersection members')
  | array {element : α} {element' : β} (h : R element element') :
      TypeForm.Rel R (.array element) (.array element')
  | tuple {elements : List α} {elements' : List β} (h : List.Forall₂ R elements elements') :
      TypeForm.Rel R (.tuple elements) (.tuple elements')
  | parameter (name : String) {bound : Option α} {bound' : Option β}
      (h : Option.Rel R bound bound') :
      TypeForm.Rel R (.parameter name bound) (.parameter name bound')
  | function {f : FunctionType α} {f' : FunctionType β} (h : f.Rel R f') :
      TypeForm.Rel R (.function f) (.function f')
  | record {r : RecordType α} {r' : RecordType β} (h : r.Rel R r') :
      TypeForm.Rel R (.record r) (.record r')
  | partialOf {target : α} {target' : β} (h : R target target') :
      TypeForm.Rel R (.partialOf target) (.partialOf target')
  | unresolved (text : String) (symbol : Option String) :
      TypeForm.Rel R (.unresolved text symbol) (.unresolved text symbol)
  | classDeclaration (name : String) {bases : List α} {bases' : List β}
      (h : List.Forall₂ R bases bases') :
      TypeForm.Rel R (.classDeclaration name bases) (.classDeclaration name bases')

theorem Property.Rel.imp (h : ∀ a b, R a b → S a b) {p : Property α} {q : Property β}
    (hp : p.Rel R q) : p.Rel S q :=
  ⟨hp.name, Sequences.optionRel_imp h hp.type, hp.optional, hp.declared⟩

theorem RecordType.Rel.imp (h : ∀ a b, R a b → S a b) {r : RecordType α} {s : RecordType β}
    (hr : r.Rel R s) : r.Rel S s :=
  ⟨hr.name, hr.properties.imp fun _ _ => Property.Rel.imp h, hr.symbol, hr.arguments.imp h,
    hr.bases.imp h⟩

theorem FunctionType.Rel.imp (h : ∀ a b, R a b → S a b) {f : FunctionType α} {f' : FunctionType β}
    (hf : f.Rel R f') : f.Rel S f' :=
  ⟨hf.parameters.imp fun _ _ hp => ⟨hp.name, h _ _ hp.type, hp.optional⟩, h _ _ hf.result,
    hf.symbol⟩

theorem TypeForm.Rel.imp (h : ∀ a b, R a b → S a b) {x : TypeForm α} {y : TypeForm β}
    (hxy : x.Rel R y) : x.Rel S y := by
  cases hxy with
  | primitive name => exact .primitive name
  | literal value => exact .literal value
  | union hr => exact .union (hr.imp h)
  | intersection hr => exact .intersection (hr.imp h)
  | array hr => exact .array (h _ _ hr)
  | tuple hr => exact .tuple (hr.imp h)
  | parameter name hr => exact .parameter name (Sequences.optionRel_imp h hr)
  | function hr => exact .function (hr.imp h)
  | record hr => exact .record (hr.imp h)
  | partialOf hr => exact .partialOf (h _ _ hr)
  | unresolved text symbol => exact .unresolved text symbol
  | classDeclaration name hr => exact .classDeclaration name (hr.imp h)

theorem RecordType.Rel.common {T : γ → β → Prop} {r : RecordType α} {s : RecordType β}
    {t : RecordType γ} (h : r.Rel R s) (h' : t.Rel T s) :
    r.Rel (fun a c => ∃ b, R a b ∧ T c b) t := by
  refine ⟨h.name.trans h'.name.symm, ?_, h.symbol.trans h'.symbol.symm,
    Sequences.forall₂_common h.arguments h'.arguments, Sequences.forall₂_common h.bases h'.bases⟩
  refine (Sequences.forall₂_common h.properties h'.properties).imp ?_
  rintro p q ⟨l, hp, hq⟩
  exact ⟨hp.name.trans hq.name.symm, Sequences.optionRel_common hp.type hq.type,
    hp.optional.trans hq.optional.symm, hp.declared.trans hq.declared.symm⟩

theorem FunctionType.Rel.common {T : γ → β → Prop} {f : FunctionType α} {f' : FunctionType β}
    {f'' : FunctionType γ} (h : f.Rel R f') (h' : f''.Rel T f') :
    f.Rel (fun a c => ∃ b, R a b ∧ T c b) f'' := by
  refine ⟨?_, ⟨_, h.result, h'.result⟩, h.symbol.trans h'.symbol.symm⟩
  refine (Sequences.forall₂_common h.parameters h'.parameters).imp ?_
  rintro p q ⟨l, hp, hq⟩
  exact ⟨hp.name.trans hq.name.symm, ⟨_, hp.type, hq.type⟩, hp.optional.trans hq.optional.symm⟩

/-- Two forms that correspond to a third correspond through it. -/
theorem TypeForm.Rel.common {T : γ → β → Prop} {x : TypeForm α} {y : TypeForm β} {z : TypeForm γ}
    (h : x.Rel R y) (h' : z.Rel T y) : x.Rel (fun a c => ∃ b, R a b ∧ T c b) z := by
  cases h with
  | primitive name =>
      cases h'
      exact .primitive name
  | literal value =>
      cases h'
      exact .literal value
  | union hr =>
      cases h' with
      | union hs => exact .union (Sequences.forall₂_common hr hs)
  | intersection hr =>
      cases h' with
      | intersection hs => exact .intersection (Sequences.forall₂_common hr hs)
  | array hr =>
      cases h' with
      | array hs => exact .array ⟨_, hr, hs⟩
  | tuple hr =>
      cases h' with
      | tuple hs => exact .tuple (Sequences.forall₂_common hr hs)
  | parameter name hr =>
      cases h' with
      | parameter _ hs => exact .parameter name (Sequences.optionRel_common hr hs)
  | function hr =>
      cases h' with
      | function hs => exact .function (hr.common hs)
  | record hr =>
      cases h' with
      | record hs => exact .record (hr.common hs)
  | partialOf hr =>
      cases h' with
      | partialOf hs => exact .partialOf ⟨_, hr, hs⟩
  | unresolved text symbol =>
      cases h'
      exact .unresolved text symbol
  | classDeclaration name hr =>
      cases h' with
      | classDeclaration _ hs => exact .classDeclaration name (Sequences.forall₂_common hr hs)

/-- Properties whose names are new are added one by one, so none comes from elsewhere. -/
theorem mem_of_foldl_new {kept ps : List (Property α)} {p : Property α}
    (h : p ∈ ps.foldl (fun kept p =>
      if kept.any fun k => k.name == p.name then kept else kept ++ [p]) kept) :
    p ∈ kept ∨ p ∈ ps := by
  induction ps generalizing kept with
  | nil => exact .inl h
  | cons q ps ih =>
      rw [List.foldl_cons] at h
      obtain hq | hps := ih h
      · split at hq
        · exact .inl hq
        · obtain hold | hnew := List.mem_append.mp hq
          · exact .inl hold
          · exact .inr (List.mem_append_left ps hnew)
      · exact .inr (List.mem_cons_of_mem _ hps)

theorem mem_of_firstOfEachName {ps : List Property} {p : Property} (h : p ∈ firstOfEachName ps) :
    p ∈ ps :=
  (mem_of_foldl_new h).resolve_left List.not_mem_nil

theorem firstOfEachName_eq_addNew (ps : List Property) :
    firstOfEachName ps = Sequences.addNew (fun p q => p.name == q.name) [] ps := rfl

theorem sameName_trans (p q l : Property) (hpq : p.name == q.name) (hql : q.name == l.name) :
    p.name == l.name :=
  beq_iff_eq.mpr ((beq_iff_eq.mp hpq).trans (beq_iff_eq.mp hql))

/-- Of each name it is the first property that is left. -/
theorem find?_firstOfEachName (ps : List Property) (name : String) :
    (firstOfEachName ps).find? (·.name == name) = ps.find? (·.name == name) := by
  -- what is kept so far comes first
  suffices hfold : ∀ kept : List Property, (ps.foldl (fun kept p =>
      if kept.any fun k => k.name == p.name then kept else kept ++ [p]) kept).find?
        (·.name == name) = (kept.find? (·.name == name)).or (ps.find? (·.name == name)) from
    hfold []
  induction ps with
  | nil => simp
  | cons p ps ih =>
      intro kept
      rw [List.foldl_cons, ih]
      split
      · next hany =>
          by_cases hname : p.name = name
          · -- the name is kept already, so the property is not the first of its name
            subst hname
            have hsome : (kept.find? (·.name == p.name)).isSome := by
              rw [List.find?_isSome]
              exact List.any_eq_true.mp hany
            obtain ⟨k, hk⟩ := Option.isSome_iff_exists.mp hsome
            simp [hk]
          · simp [hname]
      · rw [List.find?_append, Option.or_assoc]
        congr 1
        by_cases hname : p.name = name <;> simp [hname]

/-- The names are those that there are, each where it stands first. -/
theorem names_firstOfEachName (ps : List Property) :
    (firstOfEachName ps).map Property.name = (ps.map Property.name).eraseDups := by
  rw [firstOfEachName_eq_addNew]
  induction ps using List.reverseRecOn with
  | nil => rfl
  | append_singleton ps p ih =>
      rw [Sequences.addNew_concat, List.map_append, List.map_singleton, List.eraseDups_append, ← ih]
      have hany : (Sequences.addNew (fun p q => p.name == q.name) [] ps).any (·.name == p.name) ↔
          p.name ∈ ps.map Property.name := by
        rw [← List.mem_eraseDups, ← ih, List.any_eq_true, List.mem_map]
        simp only [beq_iff_eq]
      have heraseDups : [p.name].removeAll (ps.map Property.name) =
          if p.name ∈ ps.map Property.name then [] else [p.name] := by
        generalize ps.map Property.name = names
        by_cases hp : p.name ∈ names <;> simp [List.removeAll, hp]
      rw [heraseDups]
      by_cases hp : p.name ∈ ps.map Property.name
      · rw [if_pos (hany.mpr hp), if_pos hp, List.eraseDups_nil, List.append_nil]
      · rw [if_neg (mt hany.mp hp), if_neg hp, List.map_append, List.eraseDups_cons]
        rfl

/-- The first property of each name has a name of its own. -/
theorem nodup_firstOfEachName (ps : List Property) :
    ((firstOfEachName ps).map Property.name).Nodup := by
  rw [firstOfEachName_eq_addNew]
  induction ps using List.reverseRecOn with
  | nil => exact List.nodup_nil
  | append_singleton ps p ih =>
      rw [Sequences.addNew_concat]
      split
      · exact ih
      · next hany =>
          rw [List.map_append, List.map_singleton, ← List.concat_eq_append]
          refine ih.concat fun hmem => hany ?_
          obtain ⟨q, hq, hname⟩ := List.mem_map.mp hmem
          exact List.any_eq_true.mpr ⟨q, hq, beq_iff_eq.mpr hname⟩

/-- Where no name comes twice, nothing is left out. -/
theorem firstOfEachName_of_nodup {ps : List Property} (h : (ps.map Property.name).Nodup) :
    firstOfEachName ps = ps := by
  rw [firstOfEachName_eq_addNew]
  induction ps using List.reverseRecOn with
  | nil => rfl
  | append_singleton ps p ih =>
      rw [List.map_append, List.map_singleton, ← List.concat_eq_append, List.nodup_concat] at h
      rw [Sequences.addNew_concat, ih h.2, if_neg]
      intro hany
      obtain ⟨q, hq, hname⟩ := List.any_eq_true.mp hany
      exact h.1 (List.mem_map.mpr ⟨q, hq, beq_iff_eq.mp hname⟩)

end PropSchema
