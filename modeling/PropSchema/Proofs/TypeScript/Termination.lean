import PropSchema.Proofs.Entries
import PropSchema.Proofs.TypeScript.Resolved
import PropSchema.Proofs.TypeScript.Settling
import PropSchema.TypeScript.Exports
/-!
Resolution comes to an end. Where no declaration is generic and no declared name is given type
arguments, each declared type is gone into once: it is known, or being resolved, before anything
leads back to it. Within a declaration resolution only goes down. So the depth to which types are
followed is never reached, whatever leads back to what, and no greater depth leads to anything else.
-/
namespace PropSchema.TypeScript

open Resolve

/-- No declared name is given type arguments. -/
def Scope.Unapplied (sc : Scope) (mentions : List Mention) : Prop :=
  ∀ m ∈ mentions, (sc.find? m.1).isSome → m.2 = 0

theorem Scope.Unapplied.mono {sc : Scope} {mentions mentions' : List Mention}
    (h : sc.Unapplied mentions) (hsub : mentions' ⊆ mentions) : sc.Unapplied mentions' :=
  fun m hm => h m (hsub hm)

/-- The names that are bound in a text stand for nodes. -/
def Binds (bindings : Bindings) (bound : List String) : Prop :=
  ∀ n ∈ bound, n ∈ bindings.map Prod.fst

theorem Binds.nil : Binds [] [] := fun _ hn => hn

theorem Binds.cons {bindings : Bindings} {bound : List String} (h : Binds bindings bound)
    (name : String) (id : NodeId) : Binds ((name, id) :: bindings) (name :: bound) := by
  intro n hn
  rw [List.map_cons, List.mem_cons]
  exact (List.mem_cons.mp hn).imp_right (h n)

/-- A name that stands for nothing is not bound. -/
theorem Binds.free {bindings : Bindings} {bound : List String} (h : Binds bindings bound)
    {name : String} (hl : bindings.lookup name = none) : name ∉ bound := by
  intro hn
  obtain ⟨b, hb, rfl⟩ := List.mem_map.mp (h name hn)
  have hne := List.lookup_eq_none_iff.mp hl b hb
  simp at hne

section Sizes

theorem size_le_types {ts : List TypeExpr} {t : TypeExpr} (ht : t ∈ ts) :
    t.size ≤ sizeOfTypes ts := by
  induction ts with
  | nil => nomatch ht
  | cons t' ts ih =>
      rw [sizeOfTypes]
      obtain rfl | ht := List.mem_cons.mp ht
      · exact Nat.le_add_right _ _
      · exact Nat.le_trans (ih ht) (Nat.le_add_left _ _)

theorem size_le_members {ms : List (Member TypeExpr)} {m : Member TypeExpr} (hm : m ∈ ms) :
    sizeOfMember m ≤ sizeOfMembers ms := by
  induction ms with
  | nil => nomatch hm
  | cons m' ms ih =>
      rw [sizeOfMembers]
      obtain rfl | hm := List.mem_cons.mp hm
      · exact Nat.le_add_right _ _
      · exact Nat.le_trans (ih hm) (Nat.le_add_left _ _)

theorem size_le_params {ps : List (Param TypeExpr)} {p : Param TypeExpr} (hp : p ∈ ps) :
    sizeOfOptional p.typeExpr ≤ sizeOfParams ps := by
  induction ps with
  | nil => nomatch hp
  | cons p' ps ih =>
      rw [sizeOfParams]
      obtain rfl | hp := List.mem_cons.mp hp
      · rw [sizeOfParam]
        exact Nat.le_add_right _ _
      · exact Nat.le_trans (ih hp) (Nat.le_add_left _ _)

theorem sizeOfTypeParam_eq (param : TypeParam TypeExpr) : sizeOfTypeParam param =
    sizeOfOptional param.bound + sizeOfOptional param.fallback := by
  cases param
  rw [sizeOfTypeParam]

theorem sizeOfCallable_eq (callable : Callable TypeExpr) : sizeOfCallable callable =
    sizeOfTypeParams callable.typeParams + sizeOfParams callable.params +
      sizeOfOptional callable.result := by
  cases callable
  rw [sizeOfCallable]

theorem mentionsOfCallable_eq (bound : List String) (callable : Callable TypeExpr) :
    mentionsOfCallable bound callable = mentionsOfTypeParams bound callable.typeParams ++
      (mentionsOfParams (callable.typeParams.map TypeParam.name ++ bound) callable.params ++
        mentionsOfOptional (callable.typeParams.map TypeParam.name ++ bound) callable.result) := by
  cases callable
  rw [mentionsOfCallable]

end Sizes

/-- A way to resolve types that settles where the size of the type fits into the depth together with
what may still be gone into. -/
def ResolverSettles (sc : Scope) (depth : Nat) (resolve : Nat → Resolver) : Prop :=
  ∀ {type bindings bound room}, TypeExpr.size type + room ≤ depth →
    sc.Unapplied (type.mentions bound) → Binds bindings bound →
    Settles sc room depth (fun d => resolve d bindings type) fun _ => True

namespace Resolve.Settles
variable {sc : Scope} {room depth : Nat} {resolve : Nat → Resolver} {bindings : Bindings}
  {bound : List String}

section Parts
variable (hr : ResolverSettles sc depth resolve) (hb : Binds bindings bound)
include hr hb

theorem annotated {type : Option TypeExpr} (hsize : sizeOfOptional type + room ≤ depth)
    (hm : sc.Unapplied (mentionsOfOptional bound type)) :
    Settles sc room depth (fun d => Scope.annotated (resolve d) bindings type) fun _ => True := by
  cases type with
  | none => exact pure trivial
  | some type => exact hr hsize hm hb

theorem types {ts : List TypeExpr} (hsize : sizeOfTypes ts + room ≤ depth)
    (hm : sc.Unapplied (mentionsOfTypes bound ts)) :
    Settles sc room depth (fun d => ts.mapM (resolve d bindings))
      fun ids => ids.length = ts.length :=
  mapM fun _ ht => hr (Nat.le_trans (Nat.add_le_add_right (size_le_types ht) room) hsize)
    (hm.mono (mentions_subset_types ht)) hb

/-- A type parameter without argument is bound to a node, with its default or bound resolved. -/
theorem bindTypeParam {param : TypeParam TypeExpr} (hsize : sizeOfTypeParam param + room ≤ depth)
    (hm : sc.Unapplied (mentionsOfTypeParam bound param)) :
    Settles sc room depth (fun d => sc.bindTypeParam (resolve d) bindings param none)
      fun bindings => Binds bindings (param.name :: bound) := by
  rw [sizeOfTypeParam_eq] at hsize
  cases hfallback : param.fallback with
  | some fallback =>
      rw [hfallback, sizeOfOptional] at hsize
      simp only [Scope.bindTypeParam, hfallback]
      refine bind (hr (by omega) (hm.mono (fallback_subset hfallback)) hb) fun id _ => ?_
      exact pure (hb.cons _ id)
  | none =>
      simp only [Scope.bindTypeParam, hfallback]
      refine bind (push _ _) fun id _ => ?_
      cases hbound : param.bound with
      | none => exact pure (hb.cons _ id)
      | some limit =>
          rw [hbound, sizeOfOptional] at hsize
          refine bind (hr (by omega) (hm.mono (bound_subset hbound)) (hb.cons _ id)) fun _ _ => ?_
          exact bind (setForm _ _) fun _ _ => pure (hb.cons _ id)

theorem bindTypeParams {params : List (TypeParam TypeExpr)}
    (hsize : sizeOfTypeParams params + room ≤ depth)
    (hm : sc.Unapplied (mentionsOfTypeParams bound params)) :
    Settles sc room depth (fun d => sc.bindTypeParams (resolve d) bindings params [])
      fun bindings => Binds bindings (params.map TypeParam.name ++ bound) := by
  induction params generalizing bindings bound with
  | nil => exact pure hb
  | cons param params ih =>
      rw [sizeOfTypeParams] at hsize
      rw [mentionsOfTypeParams] at hm
      refine bind (bindTypeParam hr hb (by omega) (hm.mono (List.subset_append_left _ _)))
        fun bindings' hb' => ?_
      refine (ih hb' (by omega) (hm.mono (List.subset_append_right _ _))).imp fun _ hb'' => ?_
      intro n hn
      refine hb'' n ?_
      simp only [List.map_cons, List.cons_append, List.mem_cons, List.mem_append] at hn ⊢
      tauto

theorem parameters {params : List (Param TypeExpr)} (hsize : sizeOfParams params + room ≤ depth)
    (hm : sc.Unapplied (mentionsOfParams bound params)) :
    Settles sc room depth (fun d => Scope.parameters (resolve d) bindings params)
      fun _ => True := by
  refine (mapM fun p hp => ?_).imp fun _ _ => trivial
  have hp := List.mem_of_mem_filter hp
  have hle := size_le_params hp
  exact map (annotated hr hb (by omega) (hm.mono (mentions_subset_params hp))) _

theorem functionType {callable : Callable TypeExpr} {place : Place}
    (hsize : sizeOfCallable callable + room ≤ depth)
    (hm : sc.Unapplied (mentionsOfCallable bound callable)) :
    Settles sc room depth (fun d => sc.functionType (resolve d) bindings callable place)
      fun _ => True := by
  rw [sizeOfCallable_eq] at hsize
  rw [mentionsOfCallable_eq] at hm
  have hm' := hm.mono (List.subset_append_right _ _)
  refine bind (bindTypeParams hr hb (by omega) (hm.mono (List.subset_append_left _ _)))
    fun bindings' hb' => ?_
  refine bind (parameters hr hb' (by omega) (hm'.mono (List.subset_append_left _ _)))
    fun _ _ => ?_
  refine bind (annotated hr hb' (by omega) (hm'.mono (List.subset_append_right _ _)))
    fun _ _ => ?_
  exact push _ _

theorem property {name : String} {typeExpr : Option TypeExpr} {optional : Bool} {place : Place}
    (hsize : sizeOfOptional typeExpr + room ≤ depth)
    (hm : sc.Unapplied (mentionsOfOptional bound typeExpr)) :
    Settles sc room depth (fun d => sc.property (resolve d) bindings name typeExpr optional place)
      fun _ => True := by
  cases typeExpr with
  | none => exact pure trivial
  | some type =>
      simp only [Scope.property_some]
      exact map (hr hsize hm hb) _

theorem member {member : Member TypeExpr} (hsize : sizeOfMember member + room ≤ depth)
    (hm : sc.Unapplied (mentionsOfMember bound member)) :
    Settles sc room depth (fun d => sc.member (resolve d) bindings member) fun _ => True := by
  cases member with
  | property name typeExpr optional place => exact property hr hb hsize hm
  | method name callable optional place => exact map (functionType hr hb hsize hm) _

theorem members {ms : List (Member TypeExpr)} (hsize : sizeOfMembers ms + room ≤ depth)
    (hm : sc.Unapplied (mentionsOfMembers bound ms)) :
    Settles sc room depth (fun d => ms.mapM (sc.member (resolve d) bindings)) fun _ => True :=
  (mapM fun _ hmem => member hr hb
    (Nat.le_trans (Nat.add_le_add_right (size_le_members hmem) room) hsize)
    (hm.mono (mentions_subset_members hmem))).imp fun _ _ => trivial

theorem baseType {h : Heritage} (hsize : sizeOfTypes h.arguments + 1 + room ≤ depth)
    (hm : sc.Unapplied (h.mentions bound)) :
    Settles sc room depth (fun d => sc.baseType (resolve d) bindings h) fun _ => True := by
  obtain ⟨name, arguments, place⟩ := h
  cases name with
  | simple name => exact hr hsize hm hb
  | dotted name => exact hr hsize hm hb
  | other text =>
      have hsize : sizeOfTypes arguments + room ≤ depth :=
        Nat.le_trans (Nat.add_le_add_right (Nat.le_succ _) room) hsize
      exact bind (map (types hr hb hsize hm) fun _ => PUnit.unit) fun _ _ => push _ _

theorem addMembers {d : InterfaceDecl} (id : NodeId)
    (hsize : sizeOfMembers d.members + room ≤ depth)
    (hm : sc.Unapplied (mentionsOfMembers bound d.members)) :
    Settles sc room depth (fun depth => sc.addMembers (resolve depth) bindings id d)
      fun _ => True :=
  bind (members hr hb hsize hm) fun _ _ => modifyRecord _ _

theorem addParent {parent : TypeExpr} (id : NodeId) (hsize : parent.size + room ≤ depth)
    (hm : sc.Unapplied (parent.mentions bound)) :
    Settles sc room depth (fun d => TypeScript.addParent (resolve d) bindings id parent)
      fun _ => True := by
  refine bind (hr hsize hm hb) fun base _ => bind (modifyRecord _ _) fun _ _ => of_get fun r => ?_
  cases r.graph.form base with
  | record record => exact modifyRecord _ _
  | _ => exact pure trivial

theorem addField {f : Field} (id : NodeId) (hsize : sizeOfOptional f.typeExpr + room ≤ depth)
    (hm : sc.Unapplied (mentionsOfOptional bound f.typeExpr)) :
    Settles sc room depth (fun d => sc.addField (resolve d) bindings id f) fun _ => True := by
  unfold Scope.addField
  split
  · exact bind (property hr hb hsize hm) fun _ _ => modifyRecord _ _
  · exact pure trivial

end Parts

end Resolve.Settles

namespace Declaration

def typeParams : Declaration → List (TypeParam TypeExpr)
  | .interfaceDecl d => d.typeParams
  | .aliasDecl d => d.typeParams
  | .classDecl d => d.typeParams
  | .enumDecl _ => []

/-- The names that a declaration mentions, but for its type parameters. -/
def mentions (d : Declaration) : List Mention :=
  let bound := d.typeParams.map TypeParam.name
  match d with
  | .interfaceDecl d => mentionsOfMembers bound d.members ++ mentionsOfTypes bound d.parents
  | .aliasDecl d => d.value.mentions bound
  | .classDecl d =>
    d.heritage.flatMap (Heritage.mentions bound) ++
      d.fields.flatMap fun f => mentionsOfOptional bound f.typeExpr
  | .enumDecl _ => []

/-- A declaration without type parameters that gives no declared name type arguments. -/
structure Monomorphic (sc : Scope) (d : Declaration) : Prop where
  params : d.typeParams = []
  mentions : sc.Unapplied d.mentions

namespace Monomorphic
variable {sc : Scope}

theorem interface {d : InterfaceDecl} (h : (interfaceDecl d).Monomorphic sc) :
    sc.Unapplied (mentionsOfMembers [] d.members) ∧
      sc.Unapplied (mentionsOfTypes [] d.parents) := by
  obtain ⟨hparams, hm⟩ := h
  simp only [Declaration.typeParams] at hparams
  simp only [Declaration.mentions, Declaration.typeParams, hparams, List.map_nil] at hm
  exact ⟨hm.mono (List.subset_append_left _ _), hm.mono (List.subset_append_right _ _)⟩

theorem value {d : AliasDecl} (h : (aliasDecl d).Monomorphic sc) :
    sc.Unapplied (d.value.mentions []) := by
  obtain ⟨hparams, hm⟩ := h
  simp only [Declaration.typeParams] at hparams
  simpa only [Declaration.mentions, Declaration.typeParams, hparams, List.map_nil] using hm

theorem heritage {d : ClassDecl} (hd : (classDecl d).Monomorphic sc) {h : Heritage}
    (hh : h ∈ d.heritage) : sc.Unapplied (h.mentions []) := by
  obtain ⟨hparams, hm⟩ := hd
  simp only [Declaration.typeParams] at hparams
  simp only [Declaration.mentions, Declaration.typeParams, hparams, List.map_nil] at hm
  refine hm.mono fun m hmem => List.mem_append_left _ ?_
  exact List.mem_flatMap.mpr ⟨h, hh, hmem⟩

theorem field {d : ClassDecl} (hd : (classDecl d).Monomorphic sc) {f : Field}
    (hf : f ∈ d.fields) : sc.Unapplied (mentionsOfOptional [] f.typeExpr) := by
  obtain ⟨hparams, hm⟩ := hd
  simp only [Declaration.typeParams] at hparams
  simp only [Declaration.mentions, Declaration.typeParams, hparams, List.map_nil] at hm
  refine hm.mono fun m h => List.mem_append_right _ ?_
  exact List.mem_flatMap.mpr ⟨f, hf, h⟩

end Monomorphic

end Declaration

theorem ClassDecl.heritage_size_le {d : ClassDecl} {h : Heritage} (hh : h ∈ d.heritage) :
    sizeOfTypes h.arguments + 1 ≤ d.size := by
  have hle := le_total (fun h : Heritage => sizeOfTypes h.arguments + 1) hh
  rw [ClassDecl.size]
  omega

theorem ClassDecl.field_size_le {d : ClassDecl} {f : Field} (hf : f ∈ d.fields) :
    sizeOfOptional f.typeExpr ≤ d.size := by
  have hle := le_total (fun f : Field => sizeOfOptional f.typeExpr) hf
  rw [ClassDecl.size]
  omega

/-- Nothing that a scope declares is generic or treated as if it were. -/
def Scope.Monomorphic (sc : Scope) : Prop :=
  ∀ {name named}, sc.find? name = some named →
    ∀ d ∈ named.declarations, Declaration.Monomorphic sc d

/-- What may still be gone into fits into a depth when a declared type is met: the type is counted
with it, or, as an instance of its own, fits into the depth besides. -/
def Fits (room depth : Nat) (key : Instance) (named : Named) : Prop :=
  key.2 = [] ∧ room ≤ depth ∨ named.size + room ≤ depth

section Declared
variable {sc : Scope} {room depth : Nat} {resolve : Nat → Resolver} {key : Instance}
  {named : Named} {r r' : Resolution}

/-- Once a declared type is known, or is being resolved as an alias, there is a depth left for what
it is made of. -/
theorem size_le_of_closed (hfits : Fits room depth key named) (hroom : sc.openSize r ≤ room)
    (hf : sc.find? key.1 = some named) (hnew : r.instances.lookup key = none)
    (hfree : named.isRecord ∨ key ∉ r.pending) (hinstances : r.instances ⊆ r'.instances)
    (hpending : r.pending ⊆ r'.pending)
    (hclosed : r'.instances.lookup key ≠ none ∨ ¬ named.isRecord ∧ key ∈ r'.pending) :
    named.size + sc.openSize r' ≤ depth := by
  have hmono : ∀ entry ∈ sc.declared, Scope.isOpen r' entry → Scope.isOpen r entry :=
    fun _ _ => Scope.isOpen_of_subset hinstances hpending
  obtain ⟨hplain, hle⟩ | hle := hfits
  · obtain ⟨name, arguments⟩ := key
    cases hplain
    have hopen : Scope.isOpen r (name, named) := Scope.isOpen_iff.mpr ⟨hnew, hfree⟩
    have hclosed : ¬ Scope.isOpen r' (name, named) := by
      rw [Scope.isOpen_iff]
      rintro ⟨hnone, hrecord | hm⟩
      · exact hclosed.elim (fun hk => hk hnone) fun hc => hc.1 hrecord
      · exact hclosed.elim (fun hk => hk hnone) fun hc => hm hc.2
    have hless : named.size + sc.openSize r' ≤ sc.openSize r :=
      Scope.size_add_openSize_le hmono (Entries.mem_of_lookup hf) hopen hclosed
    omega
  · have := Scope.openSize_le hmono
    omega

/-- A record that is known at once and is filled afterwards. -/
theorem record_settles (hfits : Fits room depth key named) (hf : sc.find? key.1 = some named)
    (hrecord : named.isRecord) (place : Place) {fill : Nat → NodeId → Resolve PUnit}
    (hfill : ∀ id {room}, named.size + room ≤ depth →
      Settles sc room depth (fun d => fill d id) fun _ => True)
    (hroom : sc.openSize r ≤ room) (hnew : r.instances.lookup key = none) :
    ∃ id r', r.Keeps r' ∧ ∀ deeper, depth ≤ deeper →
      (do
        let id ← sc.declaredRecord key place
        fill deeper id
        pure id) r = some (id, r') := by
  obtain ⟨r₁, hrun, hinstances, hpending⟩ : ∃ r₁, sc.declaredRecord key place r =
      some (r.graph.size, r₁) ∧ r₁.instances = (key, r.graph.size) :: r.instances ∧
        r₁.pending = r.pending := ⟨_, rfl, rfl, rfl⟩
  have hsubset : r.instances ⊆ r₁.instances := hinstances ▸ List.subset_cons_self _ _
  have hdepth : named.size + sc.openSize r₁ ≤ depth := by
    refine size_le_of_closed hfits hroom hf hnew (.inl hrecord) hsubset
      (hpending ▸ List.Subset.refl _) (.inl ?_)
    rw [hinstances, List.lookup_cons_self]
    exact Option.some_ne_none _
  obtain ⟨u, r₂, hkeeps, -, hrun'⟩ := hfill r.graph.size hdepth r₁ (Nat.le_refl _)
  refine ⟨r.graph.size, r₂, .trans ⟨hsubset, hpending⟩ hkeeps, fun deeper hd => ?_⟩
  rw [run_bind hrun, run_bind (hrun' deeper hd)]
  rfl

variable (hr : ResolverSettles sc depth resolve)
include hr

/-- The members of an interface are resolved, and then what it extends. -/
theorem interface_fills {first : InterfaceDecl} {more : List InterfaceDecl}
    (hmono : ∀ d ∈ (Named.interfaces first more).declarations, d.Monomorphic sc) (id : NodeId)
    (hsize : (Named.interfaces first more).size + room ≤ depth) :
    Settles sc room depth (fun depth => do
      forM (first :: more) (sc.addMembers (resolve depth) [] id)
      forM (first :: more) fun d => forM d.parents (addParent (resolve depth) [] id))
      fun _ => True := by
  have hmem : ∀ d ∈ first :: more, .interfaceDecl d ∈ (Named.interfaces first more).declarations :=
    fun d hd => List.mem_map_of_mem hd
  have hle : ∀ d ∈ first :: more,
      sizeOfTypes d.parents + sizeOfMembers d.members + room ≤ depth := by
    intro d hd
    have hle : Declaration.size (.interfaceDecl d) ≤ (Named.interfaces first more).size :=
      le_total _ (hmem d hd)
    rw [Declaration.size] at hle
    omega
  refine .bind (.forM fun d hd => ?_) fun _ _ => .forM fun d hd => .forM fun parent hparent => ?_
  · have := hle d hd
    exact .addMembers hr .nil id (by omega) (hmono _ (hmem d hd)).interface.1
  · have := hle d hd
    have := size_le_types hparent
    exact .addParent hr .nil id (by omega)
      ((hmono _ (hmem d hd)).interface.2.mono (mentions_subset_types hparent))

/-- The bases of a class are resolved, and then its fields. -/
theorem class_fills {d : ClassDecl} (hmono : (Declaration.classDecl d).Monomorphic sc) (id : NodeId)
    (hsize : d.size + room ≤ depth) :
    Settles sc room depth (fun depth => do
      let bases ← d.heritage.mapM (sc.baseType (resolve depth) [])
      modifyRecord id fun record => { record with bases }
      forM d.fields (sc.addField (resolve depth) [] id)) fun _ => True := by
  refine .bind (.mapM fun h hh => ?_) fun _ _ =>
    .bind (.modifyRecord _ _) fun _ _ => .forM fun f hf => ?_
  · have := ClassDecl.heritage_size_le hh
    exact .baseType hr .nil (by omega) (hmono.heritage hh)
  · have := ClassDecl.field_size_le hf
    exact .addField hr .nil id (by omega) (hmono.field hf)

/-- An alias that is no record is known once its value is. Within its value it is left alone. -/
theorem alias_settles {first : AliasDecl} {more : List AliasDecl}
    (hfits : Fits room depth key (.aliases first more))
    (hf : sc.find? key.1 = some (.aliases first more))
    (hrecord : ¬ (Named.aliases first more).isRecord)
    (hmono : (Declaration.aliasDecl first).Monomorphic sc) (hroom : sc.openSize r ≤ room)
    (hnew : r.instances.lookup key = none) :
    ∃ id r', r.Keeps r' ∧ ∀ deeper, depth ≤ deeper →
      sc.aliasType (resolve deeper) [] key first r = some (id, r') := by
  by_cases hm : key ∈ r.pending
  · refine ⟨_, _, ?_, fun deeper _ => by rw [aliasType_run hrecord, if_pos hm]; rfl⟩
    exact ⟨List.Subset.refl _, rfl⟩
  · have hdepth : (Named.aliases first more).size +
        sc.openSize { r with pending := key :: r.pending } ≤ depth :=
      size_le_of_closed hfits hroom hf hnew (.inr hm) (List.Subset.refl _)
        (List.subset_cons_self _ _) (.inr ⟨hrecord, List.mem_cons_self⟩)
    have hle : Declaration.size (.aliasDecl first) ≤ (Named.aliases first more).size :=
      le_total _ List.mem_cons_self
    rw [Declaration.size] at hle
    obtain ⟨id, r₂, hkeeps, -, hrun⟩ := hr (by omega) hmono.value .nil
      { r with pending := key :: r.pending } (Nat.le_refl _)
    refine ⟨id, { r₂ with
      pending := r₂.pending.erase key
      instances := (key, id) :: r₂.instances }, ⟨?_, ?_⟩, fun deeper hd => ?_⟩
    · exact List.Subset.trans hkeeps.instances (List.subset_cons_self _ _)
    · change r₂.pending.erase key = r.pending
      rw [hkeeps.pending, List.erase_cons_head]
    · have hvalue : resolve deeper [] first.value _ = some (id, r₂) := hrun deeper hd
      rw [aliasType_run hrecord, if_neg hm, hvalue]
      rfl

/-- An alias of an object type is known before its members are. -/
theorem alias_fills {first : AliasDecl} {more : List AliasDecl}
    (hfits : Fits room depth key (.aliases first more))
    (hf : sc.find? key.1 = some (.aliases first more))
    (hrecord : (Named.aliases first more).isRecord)
    (hmono : (Declaration.aliasDecl first).Monomorphic sc) (hroom : sc.openSize r ≤ room)
    (hnew : r.instances.lookup key = none) :
    ∃ id r', r.Keeps r' ∧ ∀ deeper, depth ≤ deeper →
      sc.aliasType (resolve deeper) [] key first r = some (id, r') := by
  obtain ⟨members, place, hvalue⟩ := Named.isRecord_aliases.mp hrecord
  have hle : Declaration.size (.aliasDecl first) ≤ (Named.aliases first more).size :=
    le_total _ List.mem_cons_self
  rw [Declaration.size, hvalue, TypeExpr.size] at hle
  have hmentions := hmono.value
  rw [hvalue, TypeExpr.mentions] at hmentions
  have hfill : ∀ id {room}, (Named.aliases first more).size + room ≤ depth →
      Settles sc room depth (fun d => do
        addProperties id (← members.mapM (sc.member (resolve d) []))) fun _ => True :=
    fun id {room} hsize =>
      .bind (.members hr .nil (by omega) hmentions) fun _ _ => .modifyRecord _ _
  obtain ⟨id, r', hkeeps, hrun⟩ := record_settles hfits hf hrecord first.place hfill hroom hnew
  refine ⟨id, r', hkeeps, fun deeper hd => ?_⟩
  simp only [Scope.aliasType, hvalue, ← hrun deeper hd, bind_assoc]

/-- A declared type that is met comes to a node, whatever it is and whatever it leads back to. -/
theorem declaredType_settles (hfits : Fits room depth key named)
    (hf : sc.find? key.1 = some named) (hmono : ∀ d ∈ named.declarations, d.Monomorphic sc) :
    Settles sc room depth (fun d => sc.declaredType (resolve d) key named) fun _ => True := by
  intro r hroom
  cases hnew : r.instances.lookup key with
  | some id =>
      exact ⟨id, r, .refl r, trivial, fun _ _ => declaredType_of_known hnew named⟩
  | none =>
  suffices h : ∃ id r', r.Keeps r' ∧ ∀ deeper, depth ≤ deeper →
      sc.declaredType (resolve deeper) key named r = some (id, r') by
    obtain ⟨id, r', hkeeps, hrun⟩ := h
    exact ⟨id, r', hkeeps, trivial, hrun⟩
  have hbind : ∀ deeper {α : Type} (f : Bindings → Resolve α), (do
      let bindings ← sc.bindTypeParams (resolve deeper) [] [] key.2
      f bindings) = f [] := by
    intro deeper α f
    rw [Scope.bindTypeParams, pure_bind]
  cases named with
  | interfaces first more =>
      have hparams : first.typeParams = [] :=
        (hmono (.interfaceDecl first) List.mem_cons_self).params
      obtain ⟨id, r', hkeeps, hrun⟩ := record_settles hfits hf rfl first.place
        (fun id {room} hsize => interface_fills hr hmono id hsize) hroom hnew
      refine ⟨id, r', hkeeps, fun deeper hd => ?_⟩
      rw [Scope.declaredType, get_bind, hnew, ← hrun deeper hd]
      simp only [hparams, hbind, Scope.interfaceType_eq, bind_assoc]
  | classes first more =>
      have hclass := hmono (.classDecl first.decl) List.mem_cons_self
      have hparams : first.decl.typeParams = [] := hclass.params
      have hle : first.decl.size ≤ (Named.classes first more).size :=
        le_total Declaration.size (x := .classDecl first.decl) List.mem_cons_self
      obtain ⟨id, r', hkeeps, hrun⟩ := record_settles hfits hf rfl first.decl.place
        (fun id {room} hsize => class_fills hr hclass id
          (Nat.le_trans (Nat.add_le_add_right hle room) hsize)) hroom hnew
      refine ⟨id, r', hkeeps, fun deeper hd => ?_⟩
      rw [Scope.declaredType, get_bind, hnew, ← hrun deeper hd]
      simp only [hparams, hbind, Scope.classType_eq, bind_assoc]
  | aliases first more =>
      have halias := hmono (.aliasDecl first) List.mem_cons_self
      have hparams : first.typeParams = [] := halias.params
      have hrun : ∀ deeper, sc.declaredType (resolve deeper) key (.aliases first more) r =
          sc.aliasType (resolve deeper) [] key first r := by
        intro deeper
        rw [Scope.declaredType, get_bind, hnew]
        simp only [hparams, hbind]
      simp only [hrun]
      by_cases hrecord : (Named.aliases first more).isRecord
      · exact alias_fills hr hfits hf hrecord halias hroom hnew
      · exact alias_settles hr hfits hf hrecord halias hroom hnew
  | enums first more =>
      have henum : Settles sc room depth (fun _ => do
          let id ← sc.enumType first more
          remember key id
          pure id) fun _ => True :=
        (Settles.enumType first more).bind fun id _ => (Settles.remember key id).map fun _ => id
      obtain ⟨id, r', hkeeps, -, hrun⟩ := henum r hroom
      refine ⟨id, r', hkeeps, fun deeper hd => ?_⟩
      rw [Scope.declaredType, get_bind, hnew]
      exact hrun deeper hd

/-- A name comes to a node, if what it declares fits into the depth. -/
theorem nameType_settles (hsc : sc.Monomorphic) {bindings : Bindings} {name : String}
    {arguments : List NodeId} (place : Option Place)
    (hfits : ∀ named, bindings.lookup name = none → sc.find? name = some named →
      Fits room depth (name, arguments) named) :
    Settles sc room depth (fun d => sc.nameType (resolve d) bindings name arguments place)
      fun _ => True := by
  unfold Scope.nameType
  cases hbound : bindings.lookup name with
  | some id => exact .pure trivial
  | none =>
      cases hf : sc.find? name with
      | some named => exact declaredType_settles hr (hfits named hbound hf) hf (hsc hf)
      | none =>
          cases sc.imported.lookup name with
          | some symbol => exact .frameworkType symbol arguments
          | none =>
              cases TypeGraph.primitive? name with
              | some id => exact .pure trivial
              | none => exact .builtinType? name arguments _ (.push _ _)

/-- A type comes to a node where the types within it do. -/
theorem typeOf_settles (hsc : sc.Monomorphic) {bindings : Bindings} {bound : List String}
    (hb : Binds bindings bound) {type : TypeExpr} (hsize : type.size + room ≤ depth + 1)
    (hm : sc.Unapplied (type.mentions bound)) :
    Settles sc room depth (fun d => sc.typeOf (resolve d) bindings type) fun _ => True := by
  unfold Scope.typeOf
  cases type with
  | reference name arguments place =>
      rw [TypeExpr.size] at hsize
      cases name with
      | simple name =>
          rw [TypeExpr.mentions] at hm
          refine .bind (.types hr hb (by omega) (hm.mono (List.subset_append_right _ _)))
            fun ids hids => nameType_settles hr hsc _ fun named hfree hf => .inl ⟨?_, by omega⟩
          have hplain : arguments.length = 0 := by
            refine hm (name, arguments.length) (List.mem_append_left _ ?_) (by simp [hf])
            rw [if_neg (by simpa using hb.free hfree)]
            exact List.mem_singleton_self _
          exact List.eq_nil_of_length_eq_zero (hids.trans hplain)
      | dotted name =>
          rw [TypeExpr.mentions] at hm
          exact .bind (.types hr hb (by omega) hm) fun ids _ => .qualifiedType name.text ids place
  | keyword word place =>
      dsimp only
      split
      · exact .push _ _
      · cases TypeGraph.primitive? word with
        | some id => exact .pure trivial
        | none => exact .push _ _
  | null | undefined | predicate | assertion => exact .pure trivial
  | string | boolean | other => exact .push _ _
  | number text place =>
      dsimp only
      cases Numeral.read? text with
      | some value => exact .push _ _
      | none => exact .push _ _
  | object ms place =>
      rw [TypeExpr.size] at hsize
      rw [TypeExpr.mentions] at hm
      exact .bind (.members hr hb (by omega) hm) fun _ _ => .push _ _
  | array element place =>
      rw [TypeExpr.size] at hsize
      rw [TypeExpr.mentions] at hm
      exact .bind (hr (by omega) hm hb) fun _ _ => .push _ _
  | tuple ts place | intersection ts place =>
      rw [TypeExpr.size] at hsize
      rw [TypeExpr.mentions] at hm
      exact .bind (.types hr hb (by omega) hm) fun _ _ => .push _ _
  | union ts place =>
      rw [TypeExpr.size] at hsize
      rw [TypeExpr.mentions] at hm
      exact .bind (.types hr hb (by omega) hm) fun _ _ => .unionOf _ _
  | function callable place =>
      rw [TypeExpr.size] at hsize
      rw [TypeExpr.mentions] at hm
      exact .functionType hr hb (by omega) hm
  | parenthesized inner | readonly inner =>
      rw [TypeExpr.size] at hsize
      rw [TypeExpr.mentions] at hm
      exact hr (by omega) hm hb

end Declared

theorem TypeExpr.size_pos (type : TypeExpr) : 0 < type.size := by
  cases type <;> rw [TypeExpr.size] <;> omega

/-- By induction on the depth: each type within another is followed to a smaller depth. -/
theorem resolveTo_settles {sc : Scope} (hsc : sc.Monomorphic) (depth : Nat) :
    ResolverSettles sc depth sc.resolveTo := by
  induction depth with
  | zero =>
      intro type bindings bound room hsize
      have := type.size_pos
      omega
  | succ depth ih =>
      intro type bindings bound room hsize hm hb
      refine .succ (fun d => ?_) (typeOf_settles ih hsc hb hsize hm)
      rw [Scope.resolveTo]

end PropSchema.TypeScript
