import PropSchema.Proofs.Classify.Growth
import PropSchema.Proofs.LeastSolution
import PropSchema.Proofs.Sequences
/-!
Types read without a pass. Given the slots of the records, a type has one schema, which depends on
no order: nullability is stripped, a known symbol comes before structure, and records are referred
to by their slots. Reading agrees with every larger assignment of slots, and it has no index of its
own making.
-/
namespace PropSchema.Classify

/-- The prop type of a makeup, given how the types in it are read. -/
def makeupBy (r : Rules) (g : TypeGraph) (slots : TypeIdentity → Option Nat)
    (read : TypeUse → Option PropSpec) : Makeup → Option PropType
  | .plain type => some type
  | .union leaves => do
    let options ← leaves.mapM fun leaf => do pure (← read (.node leaf)).propType
    pure (.union options)
  | .tuple elements => do
    let elements ← elements.mapM fun e => do pure (← read (.node e)).propType
    pure (.tuple elements)
  | .array element => do pure (.array (← read (.node element)).propType)
  | .function signature => do
    let args ← signature.parameters.mapM fun p => read (parameterUse g p.2)
    pure (.fn args (← read (.node signature.result)))
  | .record (.node id) => do pure (.ref (← slots (.node id)))
  | .record (.union _) => none
  | .partialRecord target => do pure (.partialRef (← slots (.node target)))
  | .unknown id => match r.policy, g.render (.node id) with
    | .lenient, some _ => some .any
    | _, _ => none

/-- The schema of a type, given how the types in it are read. -/
def specBy (r : Rules) (g : TypeGraph) (slots : TypeIdentity → Option Nat)
    (read : TypeUse → Option PropSpec) (use : TypeUse) : Option PropSpec :=
  (match r.registry.find? (g.symbolOf (g.stripped use)) with
    | some known => some known
    | none => makeupBy r g slots read (g.makeup (g.stripped use))) >>= fun propType =>
      some ⟨propType, g.isNullable use && !propType.isVoid⟩

variable {r : Rules} {g : TypeGraph} {slots : TypeIdentity → Option Nat}

/-- A node is read as a schema of a prop type. -/
def TypeRead (read : TypeUse → Option PropSpec) (id : NodeId) (t : PropType) : Prop :=
  ∃ s, read (.node id) = some s ∧ s.propType = t

/-- What a makeup reads as, given how the types in it are read. -/
inductive MakesUp (r : Rules) (g : TypeGraph) (slots : TypeIdentity → Option Nat)
    (read : TypeUse → Option PropSpec) : Makeup → PropType → Prop where
  | plain (type : PropType) : MakesUp r g slots read (.plain type) type
  | union {leaves : List NodeId} {options : List PropType}
      (h : List.Forall₂ (TypeRead read) leaves options) :
      MakesUp r g slots read (.union leaves) (.union options)
  | tuple {elements : List NodeId} {types : List PropType}
      (h : List.Forall₂ (TypeRead read) elements types) :
      MakesUp r g slots read (.tuple elements) (.tuple types)
  | array {element : NodeId} {s : PropSpec} (h : read (.node element) = some s) :
      MakesUp r g slots read (.array element) (.array s.propType)
  | function {signature : Signature} {args : List PropSpec} {result : PropSpec}
      (hargs : List.Forall₂ (fun (p : String × TypeUse) arg => read (parameterUse g p.2) = some arg)
        signature.parameters args) (hresult : read (.node signature.result) = some result) :
      MakesUp r g slots read (.function signature) (.fn args result)
  | record {id : NodeId} {slot : Nat} (h : slots (.node id) = some slot) :
      MakesUp r g slots read (.record (.node id)) (.ref slot)
  | partialRecord {target : NodeId} {slot : Nat} (h : slots (.node target) = some slot) :
      MakesUp r g slots read (.partialRecord target) (.partialRef slot)
  | unknown (id : NodeId) {text : String} (h : r.policy = .lenient)
      (hwritten : g.render (.node id) = some text) : MakesUp r g slots read (.unknown id) .any

section
variable {read : TypeUse → Option PropSpec} {m : Makeup} {t : PropType}

theorem typeRead_iff {id : NodeId} :
    (do pure (← read (.node id)).propType) = some t ↔ TypeRead read id t := by
  simp [TypeRead, Option.bind_eq_some_iff]

theorem mapM_typeRead_iff {ids : List NodeId} {types : List PropType} :
    (ids.mapM fun id => do pure (← read (.node id)).propType) = some types ↔
      List.Forall₂ (TypeRead read) ids types := by
  simp only [Sequences.mapM_eq_some_iff, typeRead_iff]

theorem makesUp_of_makeupBy (h : makeupBy r g slots read m = some t) :
    MakesUp r g slots read m t := by
  cases m with
  | plain type =>
      cases h
      exact .plain t
  | union leaves =>
      obtain ⟨options, ho, he⟩ := Option.bind_eq_some_iff.mp h
      cases he
      exact .union (mapM_typeRead_iff.mp ho)
  | tuple elements =>
      obtain ⟨types, ht, he⟩ := Option.bind_eq_some_iff.mp h
      cases he
      exact .tuple (mapM_typeRead_iff.mp ht)
  | array element =>
      obtain ⟨s, hs, he⟩ := Option.bind_eq_some_iff.mp h
      cases he
      exact .array hs
  | function signature =>
      obtain ⟨args, ha, h⟩ := Option.bind_eq_some_iff.mp h
      obtain ⟨result, hresult, he⟩ := Option.bind_eq_some_iff.mp h
      cases he
      exact .function (Sequences.mapM_eq_some_iff.mp ha) hresult
  | record use =>
      cases use with
      | union leaves => cases h
      | node id =>
          obtain ⟨slot, hs, he⟩ := Option.bind_eq_some_iff.mp h
          cases he
          exact .record hs
  | partialRecord target =>
      obtain ⟨slot, hs, he⟩ := Option.bind_eq_some_iff.mp h
      cases he
      exact .partialRecord hs
  | unknown id =>
      rw [makeupBy] at h
      split at h
      · next hpolicy htext =>
          cases h
          exact .unknown id hpolicy htext
      · cases h

theorem makeupBy_of_makesUp (h : MakesUp r g slots read m t) :
    makeupBy r g slots read m = some t := by
  cases h with
  | plain type => rfl
  | union h => exact Option.bind_eq_some_iff.mpr ⟨_, mapM_typeRead_iff.mpr h, rfl⟩
  | tuple h => exact Option.bind_eq_some_iff.mpr ⟨_, mapM_typeRead_iff.mpr h, rfl⟩
  | array h => exact Option.bind_eq_some_iff.mpr ⟨_, h, rfl⟩
  | function hargs hresult =>
      exact Option.bind_eq_some_iff.mpr ⟨_, Sequences.mapM_eq_some_iff.mpr hargs,
        Option.bind_eq_some_iff.mpr ⟨_, hresult, rfl⟩⟩
  | record h => exact Option.bind_eq_some_iff.mpr ⟨_, h, rfl⟩
  | partialRecord h => exact Option.bind_eq_some_iff.mpr ⟨_, h, rfl⟩
  | unknown id h hwritten => rw [makeupBy, h, hwritten]

theorem makeupBy_eq_some_iff :
    makeupBy r g slots read m = some t ↔ MakesUp r g slots read m t :=
  ⟨makesUp_of_makeupBy, makeupBy_of_makesUp⟩

end

theorem TypeRead.mono {read read' : TypeUse → Option PropSpec} (hread : Extends read read')
    {id : NodeId} {t : PropType} (h : TypeRead read id t) : TypeRead read' id t := by
  obtain ⟨s, hs, ht⟩ := h
  exact ⟨s, hread _ _ hs, ht⟩

theorem makeupBy_mono {slots' : TypeIdentity → Option Nat} {read read' : TypeUse → Option PropSpec}
    (hslots : Extends slots slots')
    (hread : Extends read read') {m : Makeup} {t : PropType}
    (h : makeupBy r g slots read m = some t) : makeupBy r g slots' read' m = some t := by
  rw [makeupBy_eq_some_iff] at h ⊢
  cases h with
  | plain type => exact .plain t
  | union h => exact .union (h.imp fun _ _ => .mono hread)
  | tuple h => exact .tuple (h.imp fun _ _ => .mono hread)
  | array h => exact .array (hread _ _ h)
  | function hargs hresult =>
      exact .function (hargs.imp fun _ _ => hread _ _) (hread _ _ hresult)
  | record h => exact .record (hslots _ _ h)
  | partialRecord h => exact .partialRecord (hslots _ _ h)
  | unknown id h hwritten => exact .unknown id h hwritten

theorem specBy_mono {slots' : TypeIdentity → Option Nat} {read read' : TypeUse → Option PropSpec}
    (hslots : Extends slots slots')
    (hread : Extends read read') {use : TypeUse} {s : PropSpec}
    (h : specBy r g slots read use = some s) : specBy r g slots' read' use = some s := by
  unfold specBy at h ⊢
  obtain ⟨t, ht, he⟩ := Option.bind_eq_some_iff.mp h
  refine Option.bind_eq_some_iff.mpr ⟨t, ?_, he⟩
  cases hk : r.registry.find? (g.symbolOf (g.stripped use)) with
  | some known => simpa only [hk] using ht
  | none =>
      simp only [hk] at ht ⊢
      exact makeupBy_mono hslots hread ht

/-- The reading of a type: its schema, given the slots of the records. -/
noncomputable def reading (r : Rules) (g : TypeGraph) (slots : TypeIdentity → Option Nat) :
    TypeUse → Option PropSpec :=
  least (specBy r g slots)

theorem extends_specBy (read read' : TypeUse → Option PropSpec) (h : Extends read read') :
    Extends (specBy r g slots read) (specBy r g slots read') :=
  fun _ _ hs => specBy_mono (.refl slots) h hs

theorem reading_eq (use : TypeUse) :
    reading r g slots use = specBy r g slots (reading r g slots) use :=
  least_eq extends_specBy use

/-- What holds of a schema because it holds of the schemas read within it holds of every reading. -/
theorem reading_induction {motive : TypeUse → PropSpec → Prop}
    (step : ∀ read, (∀ use s, read use = some s → motive use s) →
      ∀ use s, specBy r g slots read use = some s → motive use s)
    {use : TypeUse} {s : PropSpec} (h : reading r g slots use = some s) : motive use s :=
  least_induction extends_specBy step h

/-- Slots that are added later do not change what was read. -/
theorem reading_mono {slots' : TypeIdentity → Option Nat}
    (hslots : Extends slots slots')
    {use : TypeUse} {s : PropSpec} (h : reading r g slots use = some s) :
    reading r g slots' use = some s := by
  refine reading_induction (motive := fun use s => reading r g slots' use = some s) ?_ h
  intro read hread use s hs
  rw [reading_eq]
  exact specBy_mono hslots hread hs

end PropSchema.Classify
