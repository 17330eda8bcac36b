import PropSchema.Proofs.TypeScript.Records
/-!
Resolution in step with labels, of any type of an untangled scope to any depth.
-/
namespace PropSchema.TypeScript

open Resolve

/-- What is told of the arguments of a reference in a text fits a declared type. -/
structure Owner.Fits (owner : Owner) (u : Reference) (i : LabelledInstance) : Prop where
  name : u.name = i.1
  arguments : List.Forall₂ (fun position label => ∀ index, position = some index →
    owner.arguments[index]? = some label) u.arguments i.2

namespace Owner.Fits
variable {owner : Owner} {u other : Reference} {i j : LabelledInstance}

theorem mention_eq (h : owner.Fits u i) : u.mention = (i.1, i.2.length) := by
  rw [Reference.mention, h.name, h.arguments.length_eq]

/-- A reference that stands for a declared type fits no other. -/
theorem eq_of_means (h : owner.Fits u i) (hm : owner.Means u j) : i = j := by
  refine Prod.ext (h.name.symm.trans hm.name) ?_
  have hall := Sequences.forall₂_common h.arguments.flip hm.arguments.flip
  refine List.forall₂_eq_eq_eq ▸ hall.imp ?_
  rintro l l' ⟨position, hfits, index, rfl, hlabel⟩
  exact Option.some.inj ((hfits index rfl).symm.trans hlabel)

/-- What is carried into another text stands for the same there. -/
theorem carried (h : owner.Fits u i) (hm : owner.Means other j) {other' : Reference}
    (hc : u.carried other = some other') : (Owner.type i.1 i.2).Means other' j := by
  obtain ⟨positions, hpositions, rfl⟩ := Option.map_eq_some_iff.mp hc
  refine ⟨hm.name, ?_⟩
  rw [List.forall₂_map_left_iff]
  have hfound := Sequences.mapM_eq_some_iff.mp hpositions
  refine (Sequences.forall₂_common hfound.flip hm.arguments.flip).imp ?_
  rintro index label ⟨position, hindex, p, rfl, hlabel⟩
  obtain ⟨hlt, hat, -⟩ := List.findIdx?_eq_some_iff_getElem.mp hindex
  have hlt' : index < i.2.length := h.arguments.length_eq ▸ hlt
  have hfits := List.forall₂_iff_get.mp h.arguments |>.2 index hlt hlt' p (eq_of_beq hat)
  refine ⟨index, rfl, ?_⟩
  rw [Owner.arguments, List.getElem?_eq_getElem hlt']
  exact hfits.symm.trans hlabel

/-- A declared type is what its reference stands for in its own text. -/
theorem itself (h : owner.Fits u i) : (Owner.type i.1 i.2).Means u.itself i := by
  refine ⟨h.name, ?_⟩
  rw [Reference.itself, h.arguments.length_eq, List.forall₂_map_left_iff, List.forall₂_iff_get]
  refine ⟨List.length_range, fun index hlt hlt' => ⟨index, ?_, ?_⟩⟩
  · simp
  · simp [Owner.arguments, hlt']

end Owner.Fits

namespace Agrees
variable {sc : RootedScope} {sites : Nat → Option (ClassSite × String)} {s : Scene}
  {u : Reference} {owner : Owner} {o : Opens} {labels : List Label} {i : LabelledInstance}

/-- What is carried into the text of a declared type agrees there. -/
theorem carried (h : Agrees sc s owner o labels) (hfits : owner.Fits u i) :
    (∀ other ∈ s.shut.filterMap u.carried,
      ∃ j, (Owner.type i.1 i.2).Means other j ∧ j ∈ o.aliases ∧ sc.IsAlias j.1) ∧
    ∀ other ∈ s.known.filterMap u.carried,
      ∃ j, (Owner.type i.1 i.2).Means other j ∧ .declared j.1 j.2 ∈ labels := by
  constructor
  · intro other' hm
    obtain ⟨other, hother, hcarried⟩ := List.mem_filterMap.mp hm
    obtain ⟨j, hmeans, hj⟩ := h.shut other hother
    exact ⟨j, hfits.carried hmeans hcarried, hj⟩
  · intro other' hm
    obtain ⟨other, hother, hcarried⟩ := List.mem_filterMap.mp hm
    obtain ⟨j, hmeans, hj⟩ := h.known other hother
    exact ⟨j, hfits.carried hmeans hcarried, hj⟩

theorem enter (h : Agrees sc s owner o labels) (hfits : owner.Fits u i) :
    Agrees sc (s.enter u) (.type i.1 i.2) (o.hide i) labels where
  reader := congrArg some hfits.mention_eq.symm
  shut := (h.carried hfits).1
  known := (h.carried hfits).2
  begun := by
    intro j hj
    rw [Scene.enter, hfits.mention_eq]
    obtain rfl | hj := List.mem_cons.mp hj
    · exact List.mem_cons_self
    · exact List.mem_cons_of_mem _ (h.begun j hj)
  filling := h.filling

theorem resolve (h : Agrees sc s owner o labels) (i : LabelledInstance) :
    Agrees sc s owner (o.resolve i) labels := by
  refine ⟨h.reader, ?_, h.known, h.begun, h.filling⟩
  intro other hother
  obtain ⟨j, hmeans, hj, halias⟩ := h.shut other hother
  exact ⟨j, hmeans, List.mem_cons_of_mem _ hj, halias⟩

/-- An alias is shut within its value. -/
theorem value (h : Agrees sc (s.enter u) (.type i.1 i.2) o labels) (hfits : owner.Fits u i)
    (hi : i ∈ o.aliases) (halias : sc.IsAlias i.1) :
    Agrees sc (s.value u) (.type i.1 i.2) o labels := by
  refine ⟨h.reader, ?_, h.known, h.begun, h.filling⟩
  exact List.forall_mem_cons.mpr ⟨⟨i, hfits.itself, hi, halias⟩, h.shut⟩

/-- A record is known while its members are resolved. -/
theorem fillRecord (h : Agrees sc s owner o labels) (hfits : owner.Fits u i)
    (hi : .declared i.1 i.2 ∈ labels) : Agrees sc (s.fill u) (.type i.1 i.2) o labels where
  reader := congrArg some hfits.mention_eq.symm
  shut := (h.carried hfits).1
  known := List.forall_mem_cons.mpr ⟨⟨i, hfits.itself, hi⟩, (h.carried hfits).2⟩
  begun := h.begun
  filling hm := List.mem_cons_of_mem _ (h.filling hm)

theorem within (h : Agrees sc s owner o labels) (owner' : Owner) (count : Nat) :
    Agrees sc s owner (o.within owner' count) labels :=
  ⟨h.reader, h.shut, h.known, h.begun, h.filling⟩

/-- An alias that is always met within its value, where it is, is being resolved. -/
theorem of_closes (h : Agrees sc s owner o labels) (hvisited : sc.Visited s u)
    (hclosed : sc.Closes owner i) : i ∈ o.aliases ∧ sc.IsAlias i.1 := by
  obtain ⟨reader, shut, hreader, hshut, hmeans⟩ := hclosed
  obtain ⟨j, hmeans', hj⟩ := h.shut shut (hshut s u hvisited (h.reader ▸ hreader))
  cases hmeans.eq hmeans'
  exact hj

/-- A reference is not known by its node while the type that it stands for is not. -/
theorem not_known (hagrees : Agrees sc s owner o labels) (hfits : owner.Fits u i) {key : Instance}
    {r : Resolution} (hkey : SameInstance labels key i) (h : Labelled sc sites o r labels)
    (hnone : r.instances.lookup key = none) : u ∉ s.known := by
  intro hm
  obtain ⟨j, hmeans, hmem⟩ := hagrees.known u hm
  cases hfits.eq_of_means hmeans
  obtain ⟨key', hkey', hsome⟩ := h.known.records hmem
  rw [hkey'.key_eq h.nodes.nodup hkey, hnone] at hsome
  cases hsome

/-- What is begun has a node by then when it is met again, or it is an alias that is shut. -/
theorem again (h : Agrees sc s owner o labels) (hu : sc.Untangled) (hvisited : sc.Visited s u)
    (hfits : owner.Fits u i) (hi : i ∈ o.hidden) : u ∈ s.known ∨ u ∈ s.shut := by
  have hbegun := h.begun i hi
  rw [← hfits.mention_eq] at hbegun
  exact (hu.again hvisited hbegun).imp_right fun ⟨_, hreader, hshut⟩ => hshut s u hvisited hreader

end Agrees

/-- A declared type is about to be gone through for the first time. -/
structure Entering (sc : RootedScope) (s : Scene) (u : Reference) (owner : Owner) (o : Opens)
    (labels : List Label) (i : LabelledInstance) : Prop where
  agrees : Agrees sc s owner o labels
  fits : owner.Fits u i
  visited : sc.Visited s u
  unknown : u ∉ s.known
  unresolved : u ∉ s.shut
  fresh : i ∉ o.hidden

variable {sc : RootedScope} {sites : Nat → Option (ClassSite × String)} {s : Scene} {u : Reference}
  {owner : Owner} {o : Opens} {labels : List Label} {resolve : Resolver}
  {key : Instance} {i : LabelledInstance} {named : Named} {r r' : Resolution} {id : NodeId}

namespace Entering

theorem find_eq (h : Entering sc s u owner o labels i) (hfind : sc.find? i.1 = some named) :
    sc.find? u.name = some named := by
  rw [h.fits.name]
  exact hfind

/-- A record is not whole while its members are resolved. -/
theorem filling (h : Entering sc s u owner o labels i) :
    (i.1, i.2.length) ∈ (s.fill u).filling := by
  rw [← h.fits.mention_eq]
  exact List.mem_cons_self

/-- What is mentioned in the parts of the declaration may be met. -/
theorem visits_parts (h : Entering sc s u owner o labels i) (hfind : sc.find? i.1 = some named) :
    sc.Visits (named.scene s u) (named.references i.2.length) := by
  have hvisits := h.visited.visits_parts h.unknown (h.find_eq hfind) h.unresolved
  rw [h.fits.arguments.length_eq] at hvisits
  exact hvisits

/-- What is mentioned in type parameters without argument may be met. -/
theorem visits_unbound (h : Entering sc s u owner o labels i)
    (hfind : sc.find? i.1 = some named) :
    sc.Visits (s.enter u) (referencesOfUnbound [] i.2.length named.typeParams) := by
  have hvisits := h.visited.visits_unbound h.unknown (h.find_eq hfind) h.unresolved
  rw [h.fits.arguments.length_eq] at hvisits
  exact hvisits

end Entering

/-- A declared type that is not known yet has no open text either. -/
theorem Labelled.not_open (h : Labelled sc sites o r labels) (hkey : SameInstance labels key i)
    (hnone : r.instances.lookup key = none) (hi : i ∉ o.hidden) :
    Owner.type i.1 i.2 ∉ o.frames.map Prod.fst := by
  intro hm
  obtain ⟨key', hkey', hsome⟩ | ⟨j, hj, he⟩ := h.course.current hm
  · rw [hkey'.key_eq h.nodes.nodup hkey, hnone] at hsome
    cases hsome
  · rw [Owner.type.injEq] at he
    exact hi (Prod.ext he.1 he.2 ▸ hj)

/-- The type parameters of a declared type, before it is known. -/
theorem bind_declared (hr : ResolverTracks sc sites resolve)
    (hentering : Entering sc s u owner o labels i)
    (hkey : SameInstance labels key i) (hfind : sc.find? i.1 = some named)
    (h : Labelled sc sites o r labels) (hnone : r.instances.lookup key = none)
    {bindings : Bindings}
    (hm : sc.bindTypeParams resolve [] named.typeParams key.2 r = some (bindings, r')) :
    ∃ names count labels', sc.labelOf.bindLabels (.type i.1 i.2) [] named.typeParams i.2 0 =
        some (names, count) ∧ labels <+: labels' ∧
      Labelled sc sites ((o.hide i).within (.type i.1 i.2) count) r' labels' ∧
      Stands (.type i.1 i.2) labels' bindings names (named.binders i.2.length) := by
  have hscope : InScope sc (s.enter u) (.type i.1 i.2) (o.hide i) labels [] [] [] :=
    ⟨hentering.agrees.enter hentering.fits, .nil⟩
  have hvisits := hentering.visits_unbound hfind
  rw [← hkey.arguments.length_eq] at hvisits
  obtain ⟨names, count, labels', he, hpre, h', hs⟩ :=
    Tracks.bindTypeParams hr hscope hkey.arguments hvisits 0 r bindings r'
      (h.enter (h.not_open hkey hnone hentering.fresh) hkey hnone) hm
  exact ⟨names, count, labels', he, hpre, h', hs.names.bindings,
    placed_of_bindLabels hscope.names.placed he⟩

/-- A declared type becomes known by a node with its label. -/
def Introduces (sc : RootedScope) (sites : Nat → Option (ClassSite × String)) (o : Opens)
    (labels : List Label) (key : Instance) (i : LabelledInstance) (m : Resolve NodeId) : Prop :=
  ∀ r id r', Labelled sc sites o r labels → r.instances.lookup key = none → m r = some (id, r') →
    ∃ label labels', Denotes sc i label ∧ labels <+: labels' ∧ Labelled sc sites o r' labels' ∧
      At labels' id label

/-- A declared record is filled while it is known already. -/
theorem introduces_record (hr : ResolverTracks sc sites resolve)
    (hentering : Entering sc s u owner o labels i)
    (hkey : SameInstance labels key i) (hfind : sc.find? i.1 = some named)
    (hrecord : named.isRecord) {body : Bindings → NodeId → Resolve PUnit}
    {build : Names → Numbering (RecordType Label)}
    (hbuild : sc.recordLabels i.1 i.2 = do
      let names ← sc.labelOf.bindLabels (.type i.1 i.2) [] named.typeParams i.2
      build names)
    (hbody : ∀ {labels' bindings names id},
      InScope sc (s.fill u) (.type i.1 i.2) o labels' bindings names
        (named.binders i.2.length) →
      (∀ n, n ∈ names.map Prod.fst ↔ n ∈ named.typeParams.map TypeParam.name) →
      At labels' id (.declared i.1 i.2) →
      Tracks sc sites (.type i.1 i.2) (o.filling i (Scope.emptyLabels i.1 i.2)) labels'
        (body bindings id) (build names) (o.filling i) fun _ _ _ => True) (place : Place) :
    Introduces sc sites o labels key i (do
      let bindings ← sc.bindTypeParams resolve [] named.typeParams key.2
      let id ← sc.declaredRecord key place
      body bindings id
      pure id) := by
  intro r id r' h hnone hm
  have hdenotes : Denotes sc i (.declared i.1 i.2) :=
    (denotes_iff hfind).mpr (declaredLabel_of_isRecord hrecord)
  obtain ⟨⟨bindings, r₁⟩, hbind, hm⟩ := Option.bind_eq_some_iff.mp hm
  obtain ⟨names, count₁, labels₁, he₁, hpre₁, h₁, hs⟩ :=
    bind_declared hr hentering hkey hfind h hnone hbind
  have h₂ := Labelled.push_declared (o := o.within (.type i.1 i.2) count₁) h₁ h.course.aliases
    hentering.fresh (hkey.mono hpre₁) hdenotes (some (sc.location place))
  have hpre₂ : labels₁ <+: labels₁ ++ [.declared i.1 i.2] := List.prefix_append _ _
  have hlast := At.last labels₁ (.declared i.1 i.2)
  rw [h₁.size] at hlast
  obtain ⟨⟨⟨⟩, r₃⟩, hbody₃, hm⟩ := Option.bind_eq_some_iff.mp hm
  cases hm
  have hagrees := (hentering.agrees.mono (hpre₁.trans hpre₂)).fillRecord hentering.fits hlast.mem
  have hkeys : ∀ n, n ∈ names.map Prod.fst ↔ n ∈ named.typeParams.map TypeParam.name := fun n => by
    simpa using keys_bindLabels he₁ n
  obtain ⟨record, count₃, labels₃, he₃, hpre₃, h₃, -⟩ :=
    hbody ⟨hagrees, hs.mono hpre₂⟩ hkeys hlast count₁ _ _ _ h₂ hbody₃
  have hform : sc.formOf sites (.declared i.1 i.2) = some (.record record) := by
    have hlabels : sc.recordLabels i.1 i.2 0 = some (record, count₃) := by
      rw [hbuild]
      exact Option.bind_eq_some_iff.mpr ⟨_, he₁, he₃⟩
    simp only [RootedScope.formOf, hlabels]
    rfl
  have h₄ := Labelled.filled (o := o.within (.type i.1 i.2) count₃) h₃ hform
  have hat := hlast.mono hpre₃
  exact ⟨_, labels₃, hdenotes, hpre₁.trans (hpre₂.trans hpre₃),
    h₄.leave (h₄.known.records hat.mem), hat⟩

/--
What an alias that is no record does when it is met for the first time. When it is met within its
own value it is left without structure.
-/
theorem aliasType_run {sc : Scope} {bindings : Bindings} {first : AliasDecl} {more : List AliasDecl}
    (hrecord : ¬ (Named.aliases first more).isRecord) :
    sc.aliasType resolve bindings key first r =
      if key ∈ r.pending then
        push (.unresolved key.1 (some key.1)) none { r with recursive := key.1 :: r.recursive }
      else
        (resolve bindings first.value { r with pending := key :: r.pending }).bind fun (id, r) =>
          some (id, { r with
            pending := r.pending.erase key
            instances := (key, id) :: r.instances }) := by
  cases hvalue : first.value with
  | object members place => exact absurd (Named.isRecord_aliases.mpr ⟨_, _, hvalue⟩) hrecord
  | _ =>
      simp only [Scope.aliasType, hvalue]
      change (if r.pending.contains key then _ else _ : Resolve NodeId) r = _
      simp only [List.contains_iff_mem]
      split <;> rfl

/-- The value of an alias is read in the scene of its parts. -/
theorem Agrees.of_alias {first : AliasDecl} {more : List AliasDecl}
    (hrecord : ¬ (Named.aliases first more).isRecord)
    (hfind : sc.find? i.1 = some (.aliases first more)) (hfits : owner.Fits u i)
    (h : Agrees sc (s.enter u) (.type i.1 i.2) (o.hide i) labels) :
    Agrees sc ((Named.aliases first more).scene s u) (.type i.1 i.2) ((o.hide i).resolve i)
      labels := by
  rw [Named.scene, if_neg (by simpa using hrecord)]
  exact (h.resolve i).value hfits List.mem_cons_self ⟨first, more, hfind, hrecord⟩

/-- Any other alias is known once its value is. -/
theorem introduces_alias (hr : ResolverTracks sc sites resolve)
    (hentering : Entering sc s u owner o labels i)
    (hkey : SameInstance labels key i) {first : AliasDecl} {more : List AliasDecl}
    (hfind : sc.find? i.1 = some (.aliases first more))
    (hrecord : ¬ (Named.aliases first more).isRecord) :
    Introduces sc sites o labels key i (do
      let bindings ← sc.bindTypeParams resolve [] first.typeParams key.2
      sc.aliasType resolve bindings key first) := by
  intro r id r' h hnone hm
  obtain ⟨⟨bindings, r₁⟩, hbind, hm⟩ := Option.bind_eq_some_iff.mp hm
  obtain ⟨names, count₁, labels₁, he₁, hpre₁, h₁, hs⟩ :=
    bind_declared hr hentering hkey hfind h hnone hbind
  have hkey₁ := hkey.mono hpre₁
  have hpending := h₁.course.not_pending hkey₁ fun hj =>
    hentering.fresh (h.course.aliases i hj)
  dsimp only at hm
  rw [aliasType_run hrecord, if_neg hpending] at hm
  obtain ⟨⟨id', r₂⟩, hvalue, hm⟩ := Option.bind_eq_some_iff.mp hm
  cases hm
  have hopened : Labelled sc sites (((o.hide i).resolve i).within (.type i.1 i.2) count₁)
      { r₁ with pending := key :: r₁.pending } labels₁ :=
    h₁.of_pending (h₁.course.resolve hkey₁ List.mem_cons_self) rfl
  have hagrees := Agrees.of_alias hrecord hfind hentering.fits
    ((hentering.agrees.mono hpre₁).enter hentering.fits)
  obtain ⟨label, count₂, labels₂, he₂, hpre₂, h₂, hat⟩ :=
    hr ⟨hagrees, hs⟩ (hentering.visits_parts hfind) count₁ _ id r₂ hopened hvalue
  have hkey₂ := hkey₁.mono hpre₂
  have hdenotes : Denotes sc i label := by
    rw [denotes_iff hfind, declaredLabel_aliases hrecord]
    exact Option.bind_eq_some_iff.mpr ⟨_, he₁, Option.bind_eq_some_iff.mpr ⟨_, he₂, rfl⟩⟩
  have hclosed : Labelled sc sites ((o.within (.type i.1 i.2) count₂).hide i)
      { r₂ with pending := r₂.pending.erase key } labels₂ :=
    h₂.of_pending (Course.resolved h₂.course h₂.nodes.nodup hkey₂) rfl
  have hknown := hclosed.remember h.course.aliases hentering.fresh hkey₂ hat hdenotes
  refine ⟨label, labels₂, hdenotes, hpre₁.trans hpre₂, hknown.leave ⟨key, hkey₂, ?_⟩, hat⟩
  rw [List.lookup_cons_self]
  rfl

theorem introduces_enum (hentering : Entering sc s u owner o labels i)
    (hkey : SameInstance labels key i) {first : EnumDecl} {more : List EnumDecl}
    (hfind : sc.find? i.1 = some (.enums first more)) :
    Introduces sc sites o labels key i (do
      let id ← sc.enumType first more
      remember key id
      pure id) := by
  intro r id r' h hnone hm
  have hi := hentering.fresh
  obtain ⟨⟨id', r₁⟩, henum, hm⟩ := Option.bind_eq_some_iff.mp hm
  cases hm
  obtain ⟨label, count, labels', he, hpre, h', hat⟩ :=
    Tracks.enumType (o := o.hide i) 0 r id r₁ (h.enter (h.not_open hkey hnone hi) hkey hnone) henum
  have hdenotes : Denotes sc i label := by
    rw [denotes_iff hfind]
    exact Option.bind_eq_some_iff.mpr ⟨_, he, rfl⟩
  have hknown := Labelled.remember (o := o.within (.type i.1 i.2) count) h' h.course.aliases hi
    (hkey.mono hpre) hat hdenotes
  refine ⟨label, labels', hdenotes, hpre, hknown.leave ⟨key, hkey.mono hpre, ?_⟩, hat⟩
  rw [List.lookup_cons_self]
  rfl

theorem introduces_interface (hu : sc.Untangled) (hr : ResolverTracks sc sites resolve)
    (hentering : Entering sc s u owner o labels i)
    (hkey : SameInstance labels key i) {first : InterfaceDecl} {more : List InterfaceDecl}
    (hfind : sc.find? i.1 = some (.interfaces first more)) :
    Introduces sc sites o labels key i (do
      let bindings ← sc.bindTypeParams resolve [] first.typeParams key.2
      sc.interfaceType resolve bindings key first more) := by
  have hbuild := sc.recordLabels_eq i.1 i.2
  simp only [RootedScope.recordBy, hfind] at hbuild
  have hvisits : sc.Visits (s.fill u) (Named.references (.interfaces first more) i.2.length) :=
    hentering.visits_parts hfind
  have hwhole : ∀ d ∈ first :: more, ∀ parent ∈ d.parents, ∀ head,
      sc.Leads (first.typeParams.map TypeParam.name) parent head →
        ∃ m, head = .record m ∧ m ∉ (s.fill u).filling :=
    hu.parents hentering.visited hentering.unknown hentering.unresolved (hentering.find_eq hfind)
  have hfilling := hentering.filling
  have hintro := introduces_record hr hentering hkey hfind rfl hbuild
    (fun hs hkeys ha =>
      (Tracks.ownMembers hr hs hfilling ha (fun d hd => hvisits.left.of_flatMap hd) _).bind
        fun labels' _ record hpre _ => Tracks.parents hr (hs.mono hpre) hfilling (ha.mono hpre)
          hkeys (fun d hd => hvisits.right.of_flatMap hd) hwhole record)
    first.place
  simp only [bind_assoc] at hintro
  simp only [Scope.interfaceType_eq]
  exact hintro

theorem introduces_object (hr : ResolverTracks sc sites resolve)
    (hentering : Entering sc s u owner o labels i)
    (hkey : SameInstance labels key i) {first : AliasDecl} {more : List AliasDecl}
    (hfind : sc.find? i.1 = some (.aliases first more))
    (hrecord : (Named.aliases first more).isRecord) :
    Introduces sc sites o labels key i (do
      let bindings ← sc.bindTypeParams resolve [] first.typeParams key.2
      sc.aliasType resolve bindings key first) := by
  obtain ⟨members, place, hvalue⟩ := Named.isRecord_aliases.mp hrecord
  have hbuild := sc.recordLabels_eq i.1 i.2
  simp only [RootedScope.recordBy, hfind, hvalue] at hbuild
  have hvisits := hentering.visits_parts hfind
  rw [Named.scene, if_pos hrecord, Named.references] at hvisits
  simp only [hvalue, TypeExpr.references] at hvisits
  have hfilling := hentering.filling
  have hintro := introduces_record hr hentering hkey hfind hrecord hbuild
    (fun hs _ ha => Tracks.objectMembers hr hs hfilling ha hvisits _) first.place
  simp only [bind_assoc] at hintro
  simp only [Scope.aliasType, hvalue]
  exact hintro

theorem introduces_class (hr : ResolverTracks sc sites resolve)
    (hentering : Entering sc s u owner o labels i)
    (hkey : SameInstance labels key i) {first : ClassSite} {more : List ClassSite}
    (hfind : sc.find? i.1 = some (.classes first more)) :
    Introduces sc sites o labels key i (do
      let bindings ← sc.bindTypeParams resolve [] first.decl.typeParams key.2
      sc.classType resolve bindings key first.decl) := by
  have hbuild := sc.recordLabels_eq i.1 i.2
  simp only [RootedScope.recordBy, hfind] at hbuild
  have hvisits : sc.Visits (s.fill u) (Named.references (.classes first more) i.2.length) :=
    hentering.visits_parts hfind
  have hfilling := hentering.filling
  have hintro := introduces_record hr hentering hkey hfind rfl hbuild
    (fun hs _ ha => (Tracks.mapM (fun hpre ha => ha.mono hpre) fun h hh labels' hpre =>
        Tracks.baseType hr ((hs.mono hpre).filling hfilling _) (hvisits.left.of_flatMap hh)).bind
      fun labels' _ bases hpre hbases =>
        (Tracks.modifyRecord (ha.mono hpre) fun _ hx => withBases_rel hx hbases).bind_of_pure
          fun labels'' _ hpre' _ => Tracks.fields hr (hs.mono (hpre.trans hpre')) hfilling
            (ha.mono (hpre.trans hpre')) (fun f hf => hvisits.right.of_flatMap hf) _)
    first.decl.place
  simp only [bind_assoc] at hintro
  simp only [Scope.classType_eq]
  exact hintro

/-- What a declared type does when it is met for the first time. -/
theorem declaredType_introduces (hu : sc.Untangled) (hr : ResolverTracks sc sites resolve)
    (hentering : Entering sc s u owner o labels i) (hkey : SameInstance labels key i)
    (hfind : sc.find? i.1 = some named) :
    Introduces sc sites o labels key i (sc.declaredType resolve key named) := by
  intro r id r' h hnone hm
  rw [Scope.declaredType, get_bind, hnone] at hm
  cases named with
  | interfaces first more =>
      exact introduces_interface hu hr hentering hkey hfind r id r' h hnone hm
  | classes first more => exact introduces_class hr hentering hkey hfind r id r' h hnone hm
  | enums first more => exact introduces_enum hentering hkey hfind r id r' h hnone hm
  | aliases first more =>
      by_cases hrecord : (Named.aliases first more).isRecord
      · exact introduces_object hr hentering hkey hfind hrecord r id r' h hnone hm
      · exact introduces_alias hr hentering hkey hfind hrecord r id r' h hnone hm

namespace Tracks
variable {names : Names} {bindings : Bindings} {bound : Binders}

/-- An alias whose value is being resolved is left without structure. -/
theorem pendingAlias {first : AliasDecl} {more : List AliasDecl}
    (hrecord : ¬ (Named.aliases first more).isRecord) (hi : i ∈ o.aliases)
    (hkey : SameInstance labels key i) :
    Tracks sc sites owner o labels (sc.aliasType resolve bindings key first)
      (TypeScript.make owner (.unresolved i.1 (some i.1))) (fun _ => o) At := by
  intro count r id r' h hm
  have hpending : key ∈ r.pending := by
    obtain ⟨key', hmem, hkey'⟩ := Sequences.exists_of_forall₂ h.course.pending hi
    rw [← hkey'.key_eq h.nodes.nodup hkey]
    exact hmem
  rw [aliasType_run hrecord, if_pos hpending, hkey.name] at hm
  refine make (.unresolved ..) (by simp) none count _ id r' ?_ hm
  exact h.of_pending ⟨h.course.pending, h.course.aliases, h.course.unknown, h.course.started,
    h.course.owners, h.course.current⟩ rfl

/-- An alias that is met within its own value: its type parameters are bound again before that is
seen. -/
theorem closedAlias (hu : sc.Untangled) (hr : ResolverTracks sc sites resolve)
    (hagrees : Agrees sc s owner o labels) (hvisited : sc.Visited s u) (hfits : owner.Fits u i)
    (hclosed : sc.Closes owner i) (hkey : SameInstance labels key i)
    (hfind : sc.find? i.1 = some named) (hn : names.lookup i.1 = none) :
    Tracks sc sites owner o labels (sc.declaredType resolve key named)
      (sc.labelOfName sc.labelOf owner names i.1 i.2) (fun _ => o) At := by
  obtain ⟨hi, first, more, hfound, hrecord⟩ := hagrees.of_closes hvisited hclosed
  cases hfind.symm.trans hfound
  rw [labelOfName_of_closes hfind hrecord hn hclosed]
  intro count r id r' h hm
  have hhidden := h.course.aliases i hi
  obtain ⟨key', hkey', hnone⟩ := h.course.unknown i hhidden
  rw [hkey'.key_eq h.nodes.nodup hkey] at hnone
  have hknown := (hagrees.within owner count).not_known hfits hkey h hnone
  have hshut : u ∈ s.shut := (hagrees.again hu hvisited hfits hhidden).resolve_left hknown
  have hvisits := hvisited.visits_again hknown (hfits.name ▸ hfind) hshut
  rw [hfits.arguments.length_eq, ← hkey.arguments.length_eq] at hvisits
  rw [Scope.declaredType, get_bind, hnone] at hm
  exact ((bindTypeParams hr ⟨hagrees, .nil⟩ hkey.arguments hvisits).bind
    fun _ _ _ hpre _ => pendingAlias hrecord hi (hkey.mono hpre)) count r id r' h hm

/-- A declared type that is not known is gone into, unless it is an alias within its own value. -/
theorem entering (hu : sc.Untangled) (hagrees : Agrees sc s owner o labels)
    (hvisited : sc.Visited s u) (hfits : owner.Fits u i) (hopen : ¬ sc.Closes owner i)
    (hkey : SameInstance labels key i) (h : Labelled sc sites o r labels)
    (hnone : r.instances.lookup key = none) : Entering sc s u owner o labels i := by
  have hunknown := hagrees.not_known hfits hkey h hnone
  have hfresh : i ∉ o.hidden := by
    intro hm
    have hbegun := hagrees.begun i hm
    rw [← hfits.mention_eq] at hbegun
    obtain hm | ⟨reader, hreader, hshut⟩ := hu.again hvisited hbegun
    · exact hunknown hm
    · obtain ⟨j, hmeans, -⟩ := hagrees.shut u (hshut s u hvisited hreader)
      cases hfits.eq_of_means hmeans
      exact hopen ⟨reader, u, hagrees.reader.trans hreader, hshut, hmeans⟩
  refine ⟨hagrees, hfits, hvisited, hunknown, ?_, hfresh⟩
  intro hm
  obtain ⟨j, hmeans, hj, -⟩ := hagrees.shut u hm
  cases hfits.eq_of_means hmeans
  exact hfresh (h.course.aliases i hj)

/-- A declared type is known already, or it becomes known. -/
theorem declaredType (hu : sc.Untangled) (hr : ResolverTracks sc sites resolve)
    (hagrees : Agrees sc s owner o labels) (hvisited : sc.Visited s u) (hfits : owner.Fits u i)
    (hkey : SameInstance labels key i) (hfind : sc.find? i.1 = some named)
    (hn : names.lookup i.1 = none) :
    Tracks sc sites owner o labels (sc.declaredType resolve key named)
      (sc.labelOfName sc.labelOf owner names i.1 i.2) (fun _ => o) At := by
  by_cases hclosed : sc.Closes owner i
  · exact closedAlias hu hr hagrees hvisited hfits hclosed hkey hfind hn
  intro count r id r' h hm
  cases hlookup : r.instances.lookup key with
  | some known =>
      rw [declaredType_of_known hlookup] at hm
      cases hm
      obtain ⟨j, label, hkey', hat, hd⟩ := h.known.instances hlookup
      rw [hkey'.instance_eq hkey] at hd
      exact ⟨label, count, labels, hd owner names count hn hclosed, List.prefix_refl _, h, hat⟩
  | none =>
      have hentering := entering hu (hagrees.within owner count) hvisited hfits hclosed hkey h
        hlookup
      obtain ⟨label, labels', hd, hpre, h', hat⟩ :=
        declaredType_introduces hu hr hentering hkey hfind r id r' h hlookup hm
      exact ⟨label, count, labels', hd owner names count hn hclosed, hpre, h', hat⟩

theorem builtin? {name : String} {arguments : List NodeId} {largs : List Label}
    (hall : List.Forall₂ (At labels) arguments largs) (location : Option Location) :
    Option.Rel (fun m e => Tracks sc sites owner o labels m e (fun _ => o) At)
      (builtinType? name arguments location) (Label.builtin? owner name largs) := by
  have harray : Tracks sc sites owner o labels
      (push (.array (arguments.headD TypeGraph.anyId)) location)
      (TypeScript.make owner (.array (largs.headD (.shared TypeGraph.anyId)))) (fun _ => o) At := by
    intro count r id r' h hm
    refine make (.array ?_) nofun location count r id r' h hm
    cases hall with
    | nil => exact h.nodes.shared (by decide)
    | cons ha _ => exact ha
  unfold builtinType? Label.builtin?
  by_cases hname : (name == "Array" || name == "ReadonlyArray") = true
  · rw [if_pos hname, if_pos hname]
    exact .some harray
  · rw [if_neg hname, if_neg hname]
    obtain rfl | hpartial := eq_or_ne name "Partial"
    · cases hall with
      | nil => exact .none
      | cons ha _ => exact .some (partialType ha location)
    obtain rfl | hreadonly := eq_or_ne name "Readonly"
    · cases hall with
      | nil => exact .none
      | cons ha _ => exact .some (pure ha)
    split
    · exact absurd rfl hpartial
    · exact absurd rfl hreadonly
    split
    · exact absurd rfl hpartial
    · exact absurd rfl hreadonly
    · exact .none

theorem qualifiedType {text : String} {arguments : List NodeId} {largs : List Label}
    (hall : List.Forall₂ (At labels) arguments largs) (place : Place) :
    Tracks sc sites owner o labels (sc.qualifiedType text arguments place)
      (sc.qualifiedLabel owner text largs) (fun _ => o) At := by
  unfold Scope.qualifiedType Scope.qualifiedLabel
  dsimp only
  split
  · exact frameworkType hall
  · exact make (.unresolved ..) (by simp) _

/-- A name with arguments. One that nothing binds may be met in the scene. -/
theorem nameType (hu : sc.Untangled) (hr : ResolverTracks sc sites resolve)
    (hs : InScope sc s owner o labels bindings names bound) {name : String}
    {arguments : List NodeId} {largs : List Label} {positions : List (Option Nat)}
    (hall : List.Forall₂ (At labels) arguments largs)
    (hfits : owner.Fits ⟨name, positions⟩ (name, largs))
    (hv : bound.lookup name = none → sc.Visited s ⟨name, positions⟩) (place : Option Place) :
    Tracks sc sites owner o labels (sc.nameType resolve bindings name arguments place)
      (sc.labelOfName sc.labelOf owner names name largs) (fun _ => o) At := by
  have hlookup := hs.names.lookup_rel name
  unfold Scope.nameType
  generalize bindings.lookup name = bound? at hlookup
  cases hlookup' : names.lookup name with
  | some label =>
      rw [hlookup'] at hlookup
      cases hlookup with
      | some ha =>
          rw [RootedScope.labelOfName.eq_def, hlookup']
          exact pure ha
  | none =>
      rw [hlookup'] at hlookup
      cases hlookup
      cases hfind : sc.find? name with
      | some named =>
          have hkey : SameInstance labels (name, arguments) (name, largs) := ⟨rfl, hall⟩
          exact declaredType hu hr hs.agrees (hv (hs.names.placed.free hlookup')) hfits hkey hfind
            hlookup'
      | none =>
          rw [RootedScope.labelOfName.eq_def]
          simp only [hlookup', hfind]
          cases himported : sc.imported.lookup name with
          | some symbol => exact frameworkType hall
          | none =>
              cases hprimitive : TypeGraph.primitive? name with
              | some id => exact primitive hprimitive
              | none =>
                  have hbuiltin : Option.Rel
                      (fun m e => Tracks sc sites owner o labels m e (fun _ => o) At)
                      (builtinType? name arguments (place.map sc.location))
                      (Label.builtin? owner name largs) := builtin? hall _
                  dsimp only
                  generalize builtinType? name arguments (place.map sc.location) = m at hbuiltin
                  generalize Label.builtin? owner name largs = e at hbuiltin
                  cases hbuiltin with
                  | some h => exact h
                  | none => exact make (.unresolved ..) (by simp) _

/-- A type parameter of a text has the label that the text has for it. -/
theorem argument_of_position (hp : Placed owner names bound) {type : TypeExpr} {index k k' : Nat}
    {label : Label} (hposition : type.position? bound = some index)
    (he : sc.labelOf owner names type k = some (label, k')) :
    owner.arguments[index]? = some label := by
  unfold TypeExpr.position? at hposition
  split at hposition
  · next name place =>
      obtain ⟨l, hl, hargument⟩ := hp.positions (Option.join_eq_some_iff.mp hposition)
      rw [RootedScope.labelOf_eq, RootedScope.labelBy.eq_def] at he
      have hname : sc.labelOfName sc.labelOf owner names name [] k = some (label, k') := he
      rw [RootedScope.labelOfName.eq_def, hl] at hname
      cases hname
      exact hargument
  · cases hposition

/-- The arguments of a reference fit the labels of the types that it is given. -/
theorem fits_of_labels (hp : Placed owner names bound) (name : String) {arguments : List TypeExpr}
    {largs : List Label} {k k' : Nat}
    (he : (arguments.mapM fun t => sc.labelOf owner names t) k = some (largs, k')) :
    owner.Fits ⟨name, arguments.map (TypeExpr.position? bound)⟩ (name, largs) := by
  refine ⟨rfl, ?_⟩
  rw [List.forall₂_map_left_iff]
  refine (Sequences.forall₂_of_mapM he).imp ?_
  rintro type label ⟨before, after, hlabel⟩ index hposition
  exact argument_of_position hp hposition hlabel

/-- A type is resolved as it is labelled, if the types within it are. -/
theorem typeOf (hu : sc.Untangled) (hr : ResolverTracks sc sites resolve)
    (hs : InScope sc s owner o labels bindings names bound) {type : TypeExpr}
    (hv : sc.Visits s (type.references bound)) :
    Tracks sc sites owner o labels (sc.typeOf resolve bindings type)
      (sc.labelOf owner names type) (fun _ => o) At := by
  rw [RootedScope.labelOf_eq, RootedScope.labelBy.eq_def]
  unfold Scope.typeOf
  cases type with
  | reference name arguments place =>
      cases name with
      | simple name =>
          have hv : sc.Visits s
              (referencesOfName bound name arguments ++ referencesOfTypes bound arguments) := hv
          refine (of_result (types hr hs hv.right)).bind fun labels' ids largs hpre hall => ?_
          obtain ⟨hall, count, count', hlargs⟩ := hall
          refine nameType hu hr (hs.mono hpre) hall (fits_of_labels hs.names.placed name hlargs)
            (fun hfree => ?_) _
          refine hv.left _ ?_
          rw [referencesOfName, hfree]
          exact List.mem_cons_self
      | dotted name =>
          exact (types hr hs hv).bind fun _ _ _ _ hall => qualifiedType hall place
  | keyword word place =>
      simp only [Scope.leafLabel]
      split
      · exact make (.record ⟨rfl, .nil, rfl, .nil, .nil⟩) (by simp) _
      · cases hprimitive : TypeGraph.primitive? word with
        | some id => exact primitive hprimitive
        | none => exact make (.unresolved ..) (by simp) _
  | null => exact shared (by decide)
  | undefined => exact shared (by decide)
  | string value place => exact make (.literal _) (by simp) _
  | boolean value place => exact make (.literal _) (by simp) _
  | number text place =>
      simp only [Scope.leafLabel]
      cases Numeral.read? text with
      | some value => exact make (.literal _) (by simp) _
      | none => exact make (.unresolved ..) (by simp) _
  | object ms place =>
      refine (members hr hs hv).bind fun _ _ _ _ hproperties => ?_
      exact make (.record ⟨rfl, hproperties, rfl, .nil, .nil⟩) (by simp) _
  | array element place =>
      have hv : sc.Visits s (element.references bound) := hv
      exact (hr hs hv).bind fun _ _ _ _ ha => make (.array ha) (by simp) _
  | tuple elements place =>
      exact (types hr hs hv).bind fun _ _ _ _ hall => make (.tuple hall) (by simp) _
  | union ms place => exact (types hr hs hv).bind fun _ _ _ _ hall => unionOf hall _
  | intersection ms place =>
      exact (types hr hs hv).bind fun _ _ _ _ hall => make (.intersection hall) (by simp) _
  | function callable place => exact functionType hr hs hv place
  | predicate => exact shared (by decide)
  | assertion => exact shared (by decide)
  | parenthesized inner => exact hr hs hv
  | readonly inner => exact hr hs hv
  | other text place => exact make (.unresolved ..) (by simp) _

end Tracks

/-- In an untangled scope types are resolved as they are labelled, to any depth. -/
theorem resolveTo_tracks (hu : sc.Untangled) (depth : Nat) :
    ResolverTracks sc sites (sc.resolveTo depth) := by
  induction depth with
  | zero =>
      intro s owner o labels bindings names bound type hs hv count r id r' h hm
      cases hm
  | succ depth ih =>
      intro s owner o labels bindings names bound type hs hv
      exact Tracks.typeOf hu ih hs hv

end PropSchema.TypeScript
