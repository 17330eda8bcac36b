import PropSchema.Proofs.TypeScript.Assembly
import PropSchema.Proofs.TypeScript.Resolved
import PropSchema.Proofs.TypeScript.Steps
/-!
Types as steps. A relation that runs through steps runs through every type, if it runs through the
types within it and through the declared types.
-/
namespace PropSchema.TypeScript

open Resolve

/-- Names stand for nodes that are there, and all that are bound in a text stand for some. -/
structure Ready (size : Nat) (bindings : Bindings) (bound : List String) : Prop where
  nodes : ∀ b ∈ bindings, b.2 < size
  bound : ∀ n ∈ bound, n ∈ bindings.map Prod.fst

namespace Ready
variable {size : Nat} {bindings : Bindings} {bound : List String}

theorem mono {size' : Nat} (h : Ready size bindings bound) (hle : size ≤ size') :
    Ready size' bindings bound :=
  ⟨fun b hb => Nat.lt_of_lt_of_le (h.nodes b hb) hle, h.bound⟩

theorem weaken {bound' : List String} (h : Ready size bindings bound)
    (hsub : ∀ n ∈ bound', n ∈ bound) : Ready size bindings bound' :=
  ⟨h.nodes, fun n hn => h.bound n (hsub n hn)⟩

theorem cons (h : Ready size bindings bound) {name : String} {id : NodeId} (hid : id < size) :
    Ready size ((name, id) :: bindings) (name :: bound) := by
  refine ⟨?_, ?_⟩
  · rw [List.forall_mem_cons]
    exact ⟨hid, h.nodes⟩
  · intro n hn
    rw [List.map_cons, List.mem_cons]
    obtain rfl | hn := List.mem_cons.mp hn
    · exact .inl rfl
    · exact .inr (h.bound n hn)

theorem nil : Ready size [] [] := ⟨nofun, nofun⟩

/-- A name that stands for nothing is not bound. -/
theorem free (h : Ready size bindings bound) {name : String} (hl : bindings.lookup name = none) :
    name ∉ bound := by
  intro hn
  obtain ⟨b, hb, rfl⟩ := List.mem_map.mp (h.bound name hn)
  have hne := List.lookup_eq_none_iff.mp hl b hb
  simp at hne

end Ready

/-- A way to resolve types that goes, from wherever it starts, as a relation says of sets of names
that have all that the types mention and that nothing leads out of. -/
def ResolverSteps (sc : Scope) (R : (String → Prop) → Resolution → Resolution → Prop)
    (resolve : Resolver) : Prop :=
  ∀ {P size bindings bound type}, sc.Closed P → Ready size bindings bound →
    (∀ m ∈ TypeExpr.mentions bound type, P m.1) →
    Steps (R P) size (resolve bindings type) Present

namespace Steps
variable {sc : Scope} {P : String → Prop} {R : (String → Prop) → Resolution → Resolution → Prop}
  {size : Nat} {resolve : Resolver} {bindings : Bindings} {bound : List String}

section Parts
variable (hR : StepRelation sc P (R P)) (hr : ResolverSteps sc R resolve) (hP : sc.Closed P)
  (hs : Ready size bindings bound)
include hR hr hP hs

theorem annotated {type : Option TypeExpr} (hm : ∀ m ∈ mentionsOfOptional bound type, P m.1) :
    Steps (R P) size (Scope.annotated resolve bindings type) Present := by
  cases type with
  | none => exact shared hR (by decide)
  | some type => exact hr hP hs hm

theorem types {ts : List TypeExpr} (hm : ∀ m ∈ mentionsOfTypes bound ts, P m.1) :
    Steps (R P) size (ts.mapM (resolve bindings)) fun size' ids => ∀ id ∈ ids, id < size' :=
  mapM hR (S := Present) (fun hle hid => Nat.lt_of_lt_of_le hid hle) fun _ ht _ hle =>
    hr hP (hs.mono hle) fun m h => hm m (mentions_subset_types ht h)

/-- A type parameter with a bound is completed when the bound is resolved. -/
theorem boundedParam {param : TypeParam TypeExpr} {type : TypeExpr}
    (hfallback : param.fallback = none) (hbound : param.bound = some type)
    (hm : ∀ m ∈ type.mentions (param.name :: bound), P m.1) :
    Steps (R P) size (sc.bindTypeParam resolve bindings param none)
      fun size' bindings => Ready size' bindings (param.name :: bound) := by
  intro r bindings' r' hsize hknown hrun
  rw [bindTypeParam_run hfallback hbound] at hrun
  obtain ⟨⟨constraint, r₂⟩, hresolve, he⟩ := Option.bind_eq_some_iff.mp hrun
  cases he
  have hpush : Steps (R P) r.graph.size
      (Resolve.push (.parameter param.name none) (some (sc.location param.place))) Present :=
    make hR rfl (by simp) _
  obtain ⟨hfirst, hknown₁, hid⟩ := hpush r r.graph.size _ (Nat.le_refl _) hknown rfl
  have hs₁ : Ready _ ((param.name, r.graph.size) :: bindings) (param.name :: bound) :=
    ((hs.mono hsize).mono (hR.size hfirst)).cons hid
  obtain ⟨hsecond, hknown₂, -⟩ := hr hP hs₁ hm _ _ r₂ (Nat.le_refl _) hknown₁ hresolve
  have hlt := Nat.lt_of_lt_of_le hid (hR.size hsecond)
  have hform : r₂.graph.form r.graph.size = .parameter param.name none :=
    (hR.kept hsecond _ hid).trans (form_push_size _ _ _)
  have hlength := TypeGraph.size_setForm r₂.graph r.graph.size
    (.parameter param.name (some constraint))
  refine ⟨hR.complete (hR.trans hfirst hsecond hknown₁) (Nat.le_refl _) hlt ?_,
    hknown₂.setForm hlt (by simp),
    (hs₁.mono (hR.size hsecond)).mono (Nat.le_of_eq hlength.symm)⟩
  exact hform ▸ .parameter _ _

theorem bindTypeParam {param : TypeParam TypeExpr} {argument : Option NodeId}
    (ha : ∀ id ∈ argument, id < size)
    (hm : argument = none → ∀ m ∈ mentionsOfTypeParam bound param, P m.1) :
    Steps (R P) size (sc.bindTypeParam resolve bindings param argument)
      fun size' bindings => Ready size' bindings (param.name :: bound) := by
  cases argument with
  | some id => exact pure hR fun _ hle => (hs.cons (ha id rfl)).mono hle
  | none =>
      have hm := hm rfl
      cases hfallback : param.fallback with
      | some fallback =>
          simp only [Scope.bindTypeParam, hfallback]
          have hfallback : ∀ m ∈ fallback.mentions bound, P m.1 :=
            fun m h => hm m (fallback_subset hfallback h)
          refine bind hR (hr hP hs hfallback) fun _ id hle hid => ?_
          exact pure hR fun _ hle' => ((hs.mono hle).cons hid).mono hle'
      | none =>
          cases hbound : param.bound with
          | some type =>
              exact boundedParam hR hr hP hs hfallback hbound fun m h =>
                hm m (bound_subset hbound h)
          | none =>
              simp only [Scope.bindTypeParam, hfallback, hbound]
              refine bind hR (make hR rfl (by simp) _) fun _ id hle hid => ?_
              exact pure hR fun _ hle' => ((hs.mono hle).cons hid).mono hle'

theorem bindTypeParams {params : List (TypeParam TypeExpr)} {arguments : List NodeId}
    (ha : ∀ id ∈ arguments, id < size)
    (hm : ∀ m ∈ mentionsOfUnbound bound arguments.length params, P m.1) :
    Steps (R P) size (sc.bindTypeParams resolve bindings params arguments)
      fun size' bindings => Ready size' bindings (params.map TypeParam.name ++ bound) := by
  induction params generalizing size bindings bound arguments with
  | nil => exact pure hR fun _ hle => hs.mono hle
  | cons param params ih =>
      have hparam : arguments.head? = none → ∀ m ∈ mentionsOfTypeParam bound param, P m.1 := by
        intro hnone m h
        rw [List.head?_eq_none_iff.mp hnone] at hm
        exact hm m (unbound_head_subset h)
      have hhead : ∀ id ∈ arguments.head?, id < size :=
        fun id hid => ha id (List.mem_of_mem_head? hid)
      refine bind hR (bindTypeParam hR hr hP hs hhead hparam) fun size' bindings' hle hs' => ?_
      have hrest : ∀ m ∈ mentionsOfUnbound (param.name :: bound) arguments.tail.length params,
          P m.1 := by
        intro m h
        rw [List.length_tail] at h
        exact hm m (unbound_tail_subset h)
      have htail : ∀ id ∈ arguments.tail, id < size' :=
        fun id hid => Nat.lt_of_lt_of_le (ha id (List.mem_of_mem_tail hid)) hle
      refine (ih hs' htail hrest).imp fun _ _ hs'' => hs''.weaken fun name hname => ?_
      simp only [List.map_cons, List.cons_append, List.mem_cons, List.mem_append] at hname ⊢
      tauto

theorem parameters {params : List (Param TypeExpr)}
    (hm : ∀ m ∈ mentionsOfParams bound params, P m.1) :
    Steps (R P) size (Scope.parameters resolve bindings params)
      fun size' ps => ∀ p ∈ ps, p.type < size' := by
  refine mapM hR (fun hle hp => Nat.lt_of_lt_of_le hp hle) fun p hp size' hle => ?_
  have hmentions : mentionsOfOptional bound p.typeExpr ⊆ mentionsOfParams bound params :=
    mentions_subset_params (List.mem_of_mem_filter hp)
  refine bind hR (annotated hR hr hP (hs.mono hle) fun m h => hm m (hmentions h))
    fun _ id _ hid => pure hR fun _ hle' => Nat.lt_of_lt_of_le hid hle'

theorem functionType {callable : Callable TypeExpr}
    (hm : ∀ m ∈ mentionsOfCallable bound callable, P m.1) (place : Place) :
    Steps (R P) size (sc.functionType resolve bindings callable place) Present := by
  obtain ⟨typeParams, params, result⟩ := callable
  rw [mentionsOfCallable, List.forall_mem_append, List.forall_mem_append] at hm
  have hnone : ∀ id ∈ ([] : List NodeId), id < size := nofun
  refine bind hR (bindTypeParams hR hr hP hs hnone hm.1) fun _ _ _ hs₁ => ?_
  refine bind hR (parameters hR hr hP hs₁ hm.2.1) fun _ ps hle hps => ?_
  refine bind hR (annotated hR hr hP (hs₁.mono hle) hm.2.2) fun _ id hle' hid => ?_
  refine push hR (.of_no_record ?_ (by simp))
  intro part hpart
  obtain rfl | hpart := List.mem_cons.mp hpart
  · exact hid
  · obtain ⟨p, hp, rfl⟩ := List.mem_map.mp hpart
    exact Nat.lt_of_lt_of_le (hps p hp) hle'

theorem property {name : String} {typeExpr : Option TypeExpr} {optional : Bool} {place : Place}
    (hm : ∀ m ∈ mentionsOfOptional bound typeExpr, P m.1) :
    Steps (R P) size (sc.property resolve bindings name typeExpr optional place)
      fun _ p => p.declaration.isSome := by
  cases typeExpr with
  | none => exact pure hR fun _ _ => rfl
  | some type =>
      rw [Scope.property_some]
      exact map hR (hr hP hs hm) _ fun _ _ _ => rfl

theorem member {member : Member TypeExpr} (hm : ∀ m ∈ mentionsOfMember bound member, P m.1) :
    Steps (R P) size (sc.member resolve bindings member) fun _ p => p.declaration.isSome := by
  cases member with
  | property name typeExpr optional place => exact property hR hr hP hs hm
  | method name callable optional place =>
      exact map hR (functionType hR hr hP hs hm place) _ fun _ _ _ => rfl

theorem members {ms : List (Member TypeExpr)} (hm : ∀ m ∈ mentionsOfMembers bound ms, P m.1) :
    Steps (R P) size (ms.mapM (sc.member resolve bindings))
      fun _ ps => ∀ p ∈ ps, p.declaration.isSome :=
  mapM hR (fun _ hp => hp) fun _ hmem _ hle =>
    member hR hr hP (hs.mono hle) fun m h => hm m (mentions_subset_members hmem h)

theorem baseType {h : Heritage} (hm : ∀ m ∈ h.mentions bound, P m.1) :
    Steps (R P) size (sc.baseType resolve bindings h) Present := by
  obtain ⟨name, arguments, place⟩ := h
  cases name with
  | simple name => exact hr hP hs hm
  | dotted name => exact hr hP hs hm
  | other text =>
      have hdone : Steps (R P) size (discard (arguments.mapM (resolve bindings)))
          fun _ _ => True := map hR (types hR hr hP hs hm) _ fun _ _ _ => trivial
      exact bind hR hdone fun _ _ _ _ => make hR rfl (by simp) _

/-- An alias that is no record is known once its value is, unless it is met within the value. -/
theorem valueType {key : Instance} {first : AliasDecl} {more : List AliasDecl}
    (hkey : P key.1) (hf : sc.find? key.1 = some (.aliases first more))
    (hrecord : ¬ (Named.aliases first more).isRecord)
    (hm : ∀ m ∈ first.value.mentions bound, P m.1) :
    Steps (R P) size (sc.aliasType resolve bindings key first) Present := by
  intro r id r' hsize hknown hrun
  rw [aliasType_run hrecord] at hrun
  split at hrun
  · have hmake : Steps (R P) size (Resolve.push (.unresolved key.1 (some key.1)) none) Present :=
      make hR rfl (by simp) _
    exact around hR hmake hsize hknown hrun
  · obtain ⟨⟨id', r₂⟩, hvalue, hrun⟩ := Option.bind_eq_some_iff.mp hrun
    cases hrun
    obtain ⟨hstep, hknown₂, hid⟩ := around hR (hr hP hs hm) hsize hknown hvalue
    have hremember : Steps (R P) r₂.graph.size (Resolve.remember key id) fun _ _ => True :=
      remember hR hid hkey hf hrecord
    have hrun₃ : Resolve.remember key id { r₂ with pending := r₂.pending.erase key } =
        some ((), _) := rfl
    obtain ⟨hstep₃, hknown₃, -⟩ := around hR hremember (Nat.le_refl _) hknown₂ hrun₃
    exact ⟨hR.trans hstep hstep₃ hknown₂, hknown₃, hid⟩

omit hr hP in
/-- A name with arguments. One that nothing binds is mentioned. -/
theorem nameType {name : String} {arguments : List NodeId} (ha : ∀ id ∈ arguments, id < size)
    (hdeclared : ∀ named, P name → sc.find? name = some named →
      Steps (R P) size (sc.declaredType resolve (name, arguments) named) Present)
    (hm : name ∉ bound → P name) (place : Option Place) :
    Steps (R P) size (sc.nameType resolve bindings name arguments place) Present := by
  unfold Scope.nameType
  cases hbound : bindings.lookup name with
  | some id => exact present hR (lt_of_lookup hs.nodes hbound)
  | none =>
      dsimp only
      cases hfind : sc.find? name with
      | some named => exact hdeclared named (hm (hs.free hbound)) hfind
      | none =>
          cases sc.imported.lookup name with
          | some symbol => exact frameworkType hR symbol ha
          | none =>
              cases hprimitive : TypeGraph.primitive? name with
              | some id => exact primitive hR hprimitive
              | none => exact builtinType? hR name _ ha (make hR rfl (by simp) _)

/-- A type goes as the types within it and the declared types do. -/
theorem typeOf (hdeclared : ∀ {size key named}, P key.1 → sc.find? key.1 = some named →
      (∀ id ∈ key.2, id < size) → Steps (R P) size (sc.declaredType resolve key named) Present)
    {type : TypeExpr} (hm : ∀ m ∈ type.mentions bound, P m.1) :
    Steps (R P) size (sc.typeOf resolve bindings type) Present := by
  unfold Scope.typeOf
  cases type with
  | reference name arguments place =>
      cases name with
      | simple name =>
          rw [TypeExpr.mentions, List.forall_mem_append] at hm
          refine bind hR (types hR hr hP hs hm.2) fun size' ids hle hids => ?_
          refine nameType hR (hs.mono hle) hids
            (fun named hname hf => hdeclared hname hf hids) (fun hfree => ?_) _
          refine hm.1 (name, arguments.length) ?_
          rw [if_neg (by simpa using hfree)]
          exact List.mem_singleton_self _
      | dotted name =>
          exact bind hR (types hR hr hP hs hm) fun _ _ _ hids => qualifiedType hR name.text hids place
  | keyword word place =>
      dsimp only
      split
      · refine push hR ⟨by simp [TypeForm.parts], ?_, ?_⟩
        · rintro record ⟨⟩ p hp
          cases hp
        · rintro record ⟨⟩
          exact .inl rfl
      · cases hprimitive : TypeGraph.primitive? word with
        | some id => exact primitive hR hprimitive
        | none => exact make hR rfl (by simp) _
  | null => exact shared hR (by decide)
  | undefined => exact shared hR (by decide)
  | string value place => exact make hR rfl (by simp) _
  | boolean value place => exact make hR rfl (by simp) _
  | number text place =>
      dsimp only
      cases Numeral.read? text with
      | some value => exact make hR rfl (by simp) _
      | none => exact make hR rfl (by simp) _
  | object ms place =>
      refine bind hR (members hR hr hP hs hm) fun _ ps _ hps => push hR ⟨by simp [TypeForm.parts], ?_, ?_⟩
      · rintro record ⟨⟩
        exact hps
      · rintro record ⟨⟩
        exact .inl rfl
  | array element place =>
      have hm : ∀ m ∈ element.mentions bound, P m.1 := hm
      refine bind hR (hr hP hs hm) fun _ id _ hid => push hR (.of_no_record ?_ (by simp))
      simpa [TypeForm.parts, Present] using hid
  | tuple elements place =>
      exact bind hR (types hR hr hP hs hm) fun _ _ _ hids =>
        push hR (.of_no_record hids (by simp))
  | union ms place => exact bind hR (types hR hr hP hs hm) fun _ _ _ hids => unionOf hR hids _
  | intersection ms place =>
      exact bind hR (types hR hr hP hs hm) fun _ _ _ hids =>
        push hR (.of_no_record hids (by simp))
  | function callable place => exact functionType hR hr hP hs hm place
  | predicate => exact shared hR (by decide)
  | assertion => exact shared hR (by decide)
  | parenthesized inner => exact hr hP hs hm
  | readonly inner => exact hr hP hs hm
  | other text place => exact make hR rfl (by simp) _

end Parts

end Steps

end PropSchema.TypeScript
