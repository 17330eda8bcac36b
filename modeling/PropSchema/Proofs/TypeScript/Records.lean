import PropSchema.Proofs.TypeScript.Declared
/-!
Records of declared types in step with their labels, while their members are added: own members
first, and for an interface then those of what it extends.
-/
namespace PropSchema.TypeScript

open Resolve

section Steps

/-- The own members of one declaration of an interface are added to its record. -/
def Scope.addMembers (sc : Scope) (resolve : Resolver) (bindings : Bindings) (id : NodeId)
    (d : InterfaceDecl) : Resolve PUnit := do
  addNewProperties id (← d.members.mapM (sc.member resolve bindings))

/-- A type that an interface extends becomes a base, and what it has by now is copied. -/
def addParent (resolve : Resolver) (bindings : Bindings) (id : NodeId) (parent : TypeExpr) :
    Resolve PUnit := do
  let base ← resolve bindings parent
  modifyRecord id (Scope.withBase · base)
  match (← get).graph.form base with
  | .record record => addNewProperties id record.properties
  | _ => pure ()

/-- A field of a class is added to its record if it is open to all. -/
def Scope.addField (sc : Scope) (resolve : Resolver) (bindings : Bindings) (id : NodeId)
    (f : Field) : Resolve PUnit := do
  if !f.isStatic && !f.hidden then
    addProperties id [← sc.property resolve bindings f.name f.typeExpr f.optional f.place]

variable {sc : Scope} {resolve : Resolver} {bindings : Bindings} {key : Instance}

/--
The parent of an interface becomes a base first. If the parent is a record then, whole or not, its
properties are copied.
-/
theorem addParent_cases {id : NodeId} {parent : TypeExpr} {r r' : Resolution} {u : PUnit}
    (h : addParent resolve bindings id parent r = some (u, r')) :
    ∃ base r₁, resolve bindings parent r = some (base, r₁) ∧
      ((∃ x, (r₁.graph.modifyRecord id (Scope.withBase · base)).form base = .record x ∧
          r' = { r₁ with
            graph := (r₁.graph.modifyRecord id (Scope.withBase · base)).modifyRecord id
              (Scope.withNew · x.properties) }) ∨
        ((∀ x, (r₁.graph.modifyRecord id (Scope.withBase · base)).form base ≠ .record x) ∧
          r' = { r₁ with graph := r₁.graph.modifyRecord id (Scope.withBase · base) })) := by
  obtain ⟨⟨base, r₁⟩, hresolve, h⟩ := Option.bind_eq_some_iff.mp h
  refine ⟨base, r₁, hresolve, ?_⟩
  dsimp only at h
  rw [modifyRecord_bind, get_bind] at h
  cases hform : (r₁.graph.modifyRecord id (Scope.withBase · base)).form base with
  | record x =>
      rw [hform] at h
      cases h
      exact .inl ⟨x, rfl, rfl⟩
  | _ =>
      rw [hform] at h
      cases h
      exact .inr ⟨by simp, rfl⟩

/-- A loop that never stops early goes through all elements. -/
theorem forIn_eq_forM {ι : Type} {xs : List ι} {f : ι → PUnit → Resolve (ForInStep PUnit)}
    {g : ι → Resolve PUnit} (h : ∀ x, f x ⟨⟩ = g x >>= fun _ => pure (.yield ⟨⟩)) :
    forIn xs PUnit.unit f = forM xs g := by
  induction xs with
  | nil => rfl
  | cons x xs ih =>
      rw [List.forIn_cons, List.forM_cons, h]
      simp only [bind_assoc, pure_bind, ih]

theorem Scope.interfaceType_eq {first : InterfaceDecl} {more : List InterfaceDecl} :
    sc.interfaceType resolve bindings key first more = (do
      let id ← sc.declaredRecord key first.place
      forM (first :: more) (sc.addMembers resolve bindings id)
      forM (first :: more) fun d => forM d.parents (addParent resolve bindings id)
      pure id) := by
  unfold Scope.interfaceType
  refine bind_congr fun id => ?_
  rw [forIn_eq_forM (g := sc.addMembers resolve bindings id)]
  · rw [forIn_eq_forM (g := fun d => forM d.parents (addParent resolve bindings id))]
    intro d
    rw [forIn_eq_forM (g := addParent resolve bindings id)]
    intro parent
    simp only [addParent, bind_assoc]
    refine bind_congr fun base => bind_congr fun _ => bind_congr fun r => ?_
    cases r.graph.form base <;> rfl
  · intro d
    simp only [Scope.addMembers, bind_assoc]

theorem Scope.classType_eq {decl : ClassDecl} :
    sc.classType resolve bindings key decl = (do
      let id ← sc.declaredRecord key decl.place
      let bases ← decl.heritage.mapM (sc.baseType resolve bindings)
      modifyRecord id fun record => { record with bases }
      forM decl.fields (sc.addField resolve bindings id)
      pure id) := by
  unfold Scope.classType
  refine bind_congr fun id => bind_congr fun bases => bind_congr fun _ => ?_
  rw [forIn_eq_forM (g := sc.addField resolve bindings id)]
  intro f
  unfold Scope.addField
  split
  · simp only [bind_assoc]
  · rfl

end Steps

/-- What is open with a record that has some of its members. -/
def Opens.filling (o : Opens) (i : LabelledInstance) (record : RecordType Label) : Opens :=
  o.fill (.declared i.1 i.2) (.record record)

section Relations
variable {α β : Type} {R : α → β → Prop} {x : RecordType α} {y : RecordType β}

theorem withNew_rel (h : x.Rel R y) {ps : List (Property α)} {qs : List (Property β)}
    (hall : List.Forall₂ (Property.Rel R) ps qs) :
    (Scope.withNew x ps).Rel R (Scope.withNew y qs) := by
  refine ⟨h.name, ?_, h.symbol, h.arguments, h.bases⟩
  refine List.rel_foldl ?_ h.properties hall
  intro kept kept' hkept p q hpq
  have hany : (kept.any fun k => k.name == p.name) = kept'.any fun k => k.name == q.name :=
    Sequences.any_eq (fun _ _ hr => by rw [hr.name, hpq.name]) hkept
  dsimp only
  rw [hany]
  split
  · exact hkept
  · exact List.rel_append hkept (.cons hpq .nil)

theorem withBase_rel (h : x.Rel R y) {a : α} {b : β} (hab : R a b) :
    (Scope.withBase x a).Rel R (Scope.withBase y b) :=
  ⟨h.name, h.properties, h.symbol, h.arguments, List.rel_append h.bases (.cons hab .nil)⟩

theorem withProperties_rel (h : x.Rel R y) {ps : List (Property α)} {qs : List (Property β)}
    (hall : List.Forall₂ (Property.Rel R) ps qs) :
    { x with properties := x.properties ++ ps }.Rel R { y with properties := y.properties ++ qs } :=
  ⟨h.name, List.rel_append h.properties hall, h.symbol, h.arguments, h.bases⟩

theorem withBases_rel (h : x.Rel R y) {bases : List α} {bases' : List β}
    (hall : List.Forall₂ R bases bases') : { x with bases }.Rel R { y with bases := bases' } :=
  ⟨h.name, h.properties, h.symbol, h.arguments, hall⟩

end Relations

/-- A record is among those that are filled while it is filled. -/
theorem InScope.filling {sc : RootedScope} {s : Scene} {owner : Owner} {o : Opens}
    {labels : List Label} {bindings : Bindings} {names : Names} {bound : Binders}
    {i : LabelledInstance} (h : InScope sc s owner o labels bindings names bound)
    (hi : (i.1, i.2.length) ∈ s.filling) (record : RecordType Label) :
    InScope sc s owner (o.filling i record) labels bindings names bound := by
  refine ⟨h.agrees.fill ?_, h.names⟩
  intro name arguments he
  cases he
  exact hi

namespace Tracks
variable {sc : RootedScope} {sites : Nat → Option (ClassSite × String)} {s : Scene}
  {owner : Owner} {o : Opens} {labels : List Label} {resolve : Resolver} {bindings : Bindings}
  {names : Names} {bound : Binders} {i : LabelledInstance} {id : NodeId}

/-- A step that is done with its labelling. -/
theorem done {α β : Type} {R : List Label → α → β → Prop} {post : β → Opens} {a : α} {b : β}
    (hpost : post b = o) (hR : R labels a b) :
    Tracks sc sites owner o labels (Pure.pure a) (Pure.pure b) post R := by
  intro count r a' r' h hm
  cases hm
  exact ⟨b, count, labels, rfl, List.prefix_refl _, hpost ▸ h, hR⟩

theorem modifyRecord {record record' : RecordType Label} {change : RecordType → RecordType}
    (ha : At labels id (.declared i.1 i.2))
    (hchange : ∀ x : RecordType, x.Rel (At labels) record → (change x).Rel (At labels) record') :
    Tracks sc sites owner (o.filling i record) labels (Resolve.modifyRecord id change)
      (Pure.pure record') (o.filling i) fun _ _ _ => True := by
  intro count r u r' h hm
  cases hm
  have hmodified := Labelled.modifyRecord (o := o.within owner count) h ha hchange
  exact ⟨record', count, labels, rfl, List.prefix_refl _, hmodified, trivial⟩

/-- Steps that add to a record, one after another. -/
theorem steps {ι : Type} {xs : List ι} {f : ι → Resolve PUnit}
    {g : RecordType Label → ι → Numbering (RecordType Label)} {record : RecordType Label}
    (h : ∀ x ∈ xs, ∀ labels' record, labels <+: labels' →
      Tracks sc sites owner (o.filling i record) labels' (f x) (g record x) (o.filling i)
        fun _ _ _ => True) :
    Tracks sc sites owner (o.filling i record) labels (forM xs f) (xs.foldlM g record)
      (o.filling i) fun _ _ _ => True := by
  induction xs generalizing labels record with
  | nil => exact done rfl trivial
  | cons x xs ih =>
      rw [List.forM_cons, List.foldlM_cons]
      rw [List.forall_mem_cons] at h
      refine (h.1 labels record (List.prefix_refl _)).bind fun labels₁ _ record₁ hpre _ => ?_
      exact ih fun y hy labels' record' hpre' => h.2 y hy labels' record' (hpre.trans hpre')

theorem addNew {record : RecordType Label} {ps : List Property} {qs : List (Property Label)}
    (ha : At labels id (.declared i.1 i.2)) (hall : List.Forall₂ (Property.Rel (At labels)) ps qs) :
    Tracks sc sites owner (o.filling i record) labels (addNewProperties id ps)
      (Pure.pure (Scope.withNew record qs)) (o.filling i) fun _ _ _ => True :=
  modifyRecord ha fun _ hx => withNew_rel hx hall

/-- The members of all declarations of an interface, one declaration after another. -/
theorem ownMembers (hr : ResolverTracks sc sites resolve)
    (hs : InScope sc s owner o labels bindings names bound)
    (hi : (i.1, i.2.length) ∈ s.filling) (ha : At labels id (.declared i.1 i.2))
    {decls : List InterfaceDecl}
    (hv : ∀ d ∈ decls, sc.Visits s (referencesOfMembers bound d.members))
    (record : RecordType Label) :
    Tracks sc sites owner (o.filling i record) labels
      (forM decls (sc.addMembers resolve bindings id))
      (sc.ownLabels owner names decls record) (o.filling i) fun _ _ _ => True := by
  refine steps fun d hd labels' record hpre => ?_
  have hscope := (hs.mono hpre).filling hi record
  refine (members hr hscope (hv d hd)).bind fun labels₁ ps qs hpre₁ hps => ?_
  exact addNew ((ha.mono hpre).mono hpre₁) hps

/-- What is numbered aside, from zero, leaves the numbering as it was. -/
theorem aside_eq {m : Numbering (RecordType Label)} {x : RecordType Label} {k : Nat}
    (h : m 0 = some (x, k)) (f : RecordType Label → RecordType Label) :
    (do
      let k ← get
      set 0
      let y ← m
      set k
      Pure.pure (f y) : Numbering (RecordType Label)) = Pure.pure (f x) := by
  funext k
  change (m 0).bind (fun p => some (f p.1, k)) = _
  rw [h]
  rfl

/-- Nothing is inherited from what is no record, or from one that is not labelled as a record. -/
theorem inherit_nothing {record : RecordType Label} {base : NodeId} {label : Label}
    {o' : Opens} {r : Resolution} (h : Labelled sc sites o' r labels)
    (ha : At labels id (.declared i.1 i.2)) (hbase : At labels base label)
    (hdeclared : ∀ name arguments, label ≠ .declared name arguments)
    (hmade : ∀ owner index record, label ≠ .made owner index (.record record)) :
    Tracks sc sites owner (o.filling i record) labels
      (match r.graph.form base with
        | .record x => addNewProperties id x.properties
        | _ => Pure.pure ⟨⟩)
      (Pure.pure record) (o.filling i) fun _ _ _ => True := by
  obtain ⟨form, hform, hrel⟩ := h.nodes.forms hbase
  generalize r.graph.form base = f at hrel ⊢
  cases hrel with
  | @record x inherited hx =>
      have hadd : Tracks sc sites owner (o.filling i record) labels
          (addNewProperties id x.properties)
          (Pure.pure (Scope.withNew record inherited.properties)) (o.filling i)
          fun _ _ _ => True := addNew ha hx.properties
      rw [h.nodes.properties_eq_nil hform hdeclared hmade] at hadd
      exact hadd
  | _ => exact done rfl trivial

/-- What is inherited from a record is what the record has in the end. -/
theorem inherit {record : RecordType Label} {base : NodeId} {label : Label}
    (ha : At labels id (.declared i.1 i.2)) (hbase : At labels base label)
    (hwhole : ∀ {name arguments}, label = .declared name arguments →
      label ∉ (o.filling i record).unfilled.map Prod.fst) :
    Tracks sc sites owner (o.filling i record) labels
      (do
        let r ← get
        match r.graph.form base with
        | .record x => addNewProperties id x.properties
        | _ => Pure.pure ⟨⟩)
      (match label with
        | .declared name arguments => do
          let k ← get
          set 0
          let inherited ← sc.recordLabels name arguments
          set k
          Pure.pure (Scope.withNew record inherited.properties)
        | .made _ _ (.record inherited) => Pure.pure (Scope.withNew record inherited.properties)
        | _ => Pure.pure record) (o.filling i) fun _ _ _ => True := by
  refine of_get fun count r h => ?_
  have hadd : ∀ {x : RecordType} {inherited : RecordType Label},
      x.Rel (At labels) inherited →
      Tracks sc sites owner (o.filling i record) labels (addNewProperties id x.properties)
        (Pure.pure (Scope.withNew record inherited.properties)) (o.filling i)
        fun _ _ _ => True := fun hx => addNew ha hx.properties
  cases label with
  | declared name arguments =>
      obtain ⟨form, hform, hrel⟩ := h.nodes.whole_form hbase (hwhole rfl)
      obtain ⟨⟨inherited, k'⟩, hrecord, hform⟩ := Option.bind_eq_some_iff.mp hform
      cases hform
      dsimp only
      rw [aside_eq hrecord fun x => Scope.withNew record x.properties]
      generalize r.graph.form base = f at hrel ⊢
      cases hrel with
      | record hx => exact hadd hx
  | made owner' index form =>
      obtain ⟨form', hform, hrel⟩ := h.nodes.whole_form hbase h.nodes.made_whole
      cases hform
      cases form with
      | record inherited =>
          generalize r.graph.form base = f at hrel ⊢
          cases hrel with
          | record hx => exact hadd hx
      | _ => exact inherit_nothing h ha hbase (by simp) (by simp)
  | _ => exact inherit_nothing h ha hbase (by simp) (by simp)

/-- The label of an interface with one more of the types that it extends. -/
noncomputable def parentLabel (sc : RootedScope) (owner : Owner) (names : Names)
    (record : RecordType Label) (type : TypeExpr) : Numbering (RecordType Label) := do
  let base ← sc.labelOf owner names type
  match base with
  | .declared name arguments => do
    let k ← get
    set 0
    let inherited ← sc.recordLabels name arguments
    set k
    Pure.pure (Scope.withNew (Scope.withBase record base) inherited.properties)
  | .made _ _ (.record inherited) =>
    Pure.pure (Scope.withNew (Scope.withBase record base) inherited.properties)
  | _ => Pure.pure (Scope.withBase record base)

/-- One of the types that an interface extends. -/
theorem parent (hr : ResolverTracks sc sites resolve)
    (hs : InScope sc s owner o labels bindings names bound)
    (hi : (i.1, i.2.length) ∈ s.filling) (ha : At labels id (.declared i.1 i.2))
    {params : List String} (hparams : ∀ n, n ∈ names.map Prod.fst ↔ n ∈ params) {type : TypeExpr}
    (hv : sc.Visits s (type.references bound))
    (hwhole : ∀ head, sc.Leads params type head → ∃ m, head = .record m ∧ m ∉ s.filling)
    (record : RecordType Label) :
    Tracks sc sites owner (o.filling i record) labels (addParent resolve bindings id type)
      (parentLabel sc owner names record type) (o.filling i) fun _ _ _ => True := by
  have hscope := hs.filling hi record
  refine (of_result (hr hscope hv)).bind fun labels₁ base label hpre hbase => ?_
  obtain ⟨hbase, count, count', hlabel⟩ := hbase
  have hwithBase : Tracks sc sites owner (o.filling i record) labels₁
      (Resolve.modifyRecord id (Scope.withBase · base)) (Pure.pure (Scope.withBase record label))
      (o.filling i) fun _ _ _ => True :=
    modifyRecord (ha.mono hpre) fun _ hx => withBase_rel hx hbase
  have hcovers : sc.Covers params (· ∉ s.filling) names type := by
    refine ⟨fun n hn => (hparams n).mpr hn, fun hl => .inl ⟨?_, fun hlead => ?_⟩, fun hlead => ?_⟩
    · exact (hparams _).mp (List.mem_map_of_mem (f := Prod.fst) (mem_of_lookup hl))
    · obtain ⟨m, he, -⟩ := hwhole _ hlead
      cases he
    · obtain ⟨m, he, hm⟩ := hwhole _ hlead
      cases he
      exact hm
  have hunfilled : ∀ {name arguments}, label = .declared name arguments →
      label ∉ (o.filling i (Scope.withBase record label)).unfilled.map Prod.fst := by
    rintro name arguments rfl hm
    obtain ⟨⟨l, form⟩, hm, he⟩ := List.mem_map.mp hm
    cases he
    exact (comes_labelOf sc hcovers hlabel).declared ((hs.filling hi _).agrees.filling hm)
  refine hwithBase.bind_of_pure fun labels₂ _ hpre₂ _ => ?_
  exact inherit ((ha.mono hpre).mono hpre₂) (hbase.mono hpre₂) hunfilled

/-- What the declarations of an interface extend, one declaration after another. -/
theorem parents (hr : ResolverTracks sc sites resolve)
    (hs : InScope sc s owner o labels bindings names bound)
    (hi : (i.1, i.2.length) ∈ s.filling) (ha : At labels id (.declared i.1 i.2))
    {params : List String} (hparams : ∀ n, n ∈ names.map Prod.fst ↔ n ∈ params)
    {decls : List InterfaceDecl}
    (hv : ∀ d ∈ decls, sc.Visits s (referencesOfTypes bound d.parents))
    (hwhole : ∀ d ∈ decls, ∀ parent ∈ d.parents, ∀ head, sc.Leads params parent head →
      ∃ m, head = .record m ∧ m ∉ s.filling) (record : RecordType Label) :
    Tracks sc sites owner (o.filling i record) labels
      (forM decls fun d => forM d.parents (addParent resolve bindings id))
      (decls.foldlM (fun record d => d.parents.foldlM (parentLabel sc owner names) record) record)
      (o.filling i)
      fun _ _ _ => True := by
  refine steps fun d hd labels₁ record₁ hpre₁ => ?_
  refine steps fun type htype labels₂ record₂ hpre₂ => ?_
  have hpre := hpre₁.trans hpre₂
  exact parent hr (hs.mono hpre) hi (ha.mono hpre) hparams ((hv d hd).of_types type htype)
    (hwhole d hd type htype) record₂

/-- The members of an object type. -/
theorem objectMembers (hr : ResolverTracks sc sites resolve)
    (hs : InScope sc s owner o labels bindings names bound)
    (hi : (i.1, i.2.length) ∈ s.filling) (ha : At labels id (.declared i.1 i.2))
    {ms : List (Member TypeExpr)} (hv : sc.Visits s (referencesOfMembers bound ms))
    (record : RecordType Label) :
    Tracks sc sites owner (o.filling i record) labels
      (ms.mapM (sc.member resolve bindings) >>= fun properties => addProperties id properties)
      (sc.objectLabels owner names ms record) (o.filling i) fun _ _ _ => True := by
  refine (members hr (hs.filling hi record) hv).bind fun labels₁ ps qs hpre hps => ?_
  exact modifyRecord (ha.mono hpre) fun _ hx => withProperties_rel hx hps

/-- The fields of a class that are open to all. -/
theorem fields (hr : ResolverTracks sc sites resolve)
    (hs : InScope sc s owner o labels bindings names bound)
    (hi : (i.1, i.2.length) ∈ s.filling) (ha : At labels id (.declared i.1 i.2))
    {fs : List Field} (hv : ∀ f ∈ fs, sc.Visits s (referencesOfOptional bound f.typeExpr))
    (record : RecordType Label) :
    Tracks sc sites owner (o.filling i record) labels
      (forM fs (sc.addField resolve bindings id)) (sc.fieldLabels owner names fs record)
      (o.filling i) fun _ _ _ => True := by
  refine steps fun f hf labels₁ record₁ hpre₁ => ?_
  unfold Scope.addField
  by_cases hopen : (!f.isStatic && !f.hidden) = true
  · rw [if_pos hopen, if_pos hopen]
    have hscope := (hs.mono hpre₁).filling hi record₁
    refine (property hr hscope (hv f hf)).bind fun labels₂ p q hpre₂ hpq => ?_
    exact modifyRecord ((ha.mono hpre₁).mono hpre₂) fun _ hx =>
      withProperties_rel hx (.cons hpq .nil)
  · rw [if_neg hopen, if_neg hopen]
    exact done rfl trivial

/-- A base of a class. -/
theorem baseType (hr : ResolverTracks sc sites resolve)
    (hs : InScope sc s owner o labels bindings names bound) {h : Heritage}
    (hv : sc.Visits s (h.references bound)) :
    Tracks sc sites owner o labels (sc.baseType resolve bindings h) (sc.baseLabel owner names h)
      (fun _ => o) At := by
  obtain ⟨name, arguments, place⟩ := h
  cases name with
  | simple name => exact hr hs hv
  | dotted name => exact hr hs hv
  | other text =>
      refine ((types hr hs hv).map_left (f := fun _ => ()) (T := fun _ _ _ => True)
        fun _ _ _ _ => trivial).bind fun _ _ _ _ _ => ?_
      exact make (.unresolved text none) nofun _

end Tracks

end PropSchema.TypeScript
