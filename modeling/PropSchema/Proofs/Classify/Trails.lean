import PropSchema.Proofs.Classify.Requests
/-!
Where classification fails, and with what. The calls that are under way at a failure lead from the
request to a type that no rule fits or to a property without type. What is raised there is passed on
as it is, but for the first union on the way back, which tells it as its own failure once: with the
name of the record member that it belongs to.
-/
namespace PropSchema

/-- A step without what it gives. -/
def Pass.course {α : Type} (m : Pass α) : Pass Unit := do
  let _ ← m
  pure ()

namespace Pass
variable {α β γ : Type}

theorem run_course (m : Pass α) (c : Context) :
    m.course.run c = ((m.run c).1.map fun _ => (), (m.run c).2) := by
  rw [course, run_bind]
  rcases m.run c with ⟨outcome, c'⟩
  cases outcome <;> rfl

theorem course_bind {m : Pass α} {f : α → Pass β} {n : Pass Unit} (h : ∀ a, (f a).course = n) :
    (m >>= f).course = m.course >>= fun _ => n := by
  simp only [course, bind_assoc, pure_bind] at h ⊢
  exact congrArg _ (funext h)

theorem course_bind_pure (m : Pass α) (f : α → β) :
    (m >>= fun a => pure (f a)).course = m.course := by
  simp only [course, bind_assoc, pure_bind]

theorem course_unit (m : Pass Unit) : m.course = m := bind_pure m

theorem course_singleton (f : α → Pass Unit) (a : α) : ([a].mapM f).course = f a := by
  simp [course]

theorem course_mapM {f : α → Pass β} {f' : γ → Pass Unit} {k : α → γ}
    (h : ∀ a, (f a).course = f' (k a)) (as : List α) :
    (as.mapM f).course = ((as.map k).mapM f').course := by
  induction as with
  | nil => rfl
  | cons a as ih =>
      rw [List.mapM_cons, List.map_cons, List.mapM_cons, course_bind fun _ => course_bind_pure _ _,
        course_bind fun _ => course_bind_pure _ _, h, ih, course_unit]

theorem course_unionMember (m : Pass α) : (unionMember m).course = unionMember m.course := by
  funext c
  change (unionMember m).course.run c = (unionMember m.course).run c
  rw [run_course]
  rcases hm : m.run c with ⟨outcome, c'⟩
  have hcourse := run_course m c
  rw [hm] at hcourse
  cases outcome with
  | ok a => rw [run_unionMember_ok hm, run_unionMember_ok hcourse]; rfl
  | error fault => rw [run_unionMember_error hm, run_unionMember_error hcourse]; rfl

/-- Steps fail one after another if one of them does after those before it. -/
theorem run_mapM_error {f : α → Pass β} {before after : List α} {a : α} {bs : List β}
    {c c₁ c₂ : Context} {fault : PassFault} (hbefore : (before.mapM f).run c = (.ok bs, c₁))
    (ha : (f a).run c₁ = (.error fault, c₂)) :
    ((before ++ a :: after).mapM f).run c = (.error fault, c₂) := by
  rw [List.mapM_append, run_bind_ok hbefore, List.mapM_cons]
  exact run_bind_error (run_bind_error ha _) _

end Pass

namespace Classify

/-- What classification calls itself for. -/
inductive Call where
  | spec (use : TypeUse)
  | propType (use : TypeUse)
  | slot (use : TypeUse)
  | member (p : Property)

namespace Call
variable (r : Rules) (g : TypeGraph)

/-- A call to some depth, without what it gives. -/
def run (depth : Nat) : Call → Pass Unit
  | .spec use => (specTo r g depth use).course
  | .propType use => (propTypeTo r g depth use).course
  | .slot use => (slotTo r g depth use).course
  | .member p => (memberTo r g depth p).course

/-- The calls that a type of some makeup is classified by. -/
def ofMakeup : Makeup → List Call
  | .plain _ => []
  | .union leaves => leaves.map fun leaf => .spec (.node leaf)
  | .tuple elements => elements.map fun e => .spec (.node e)
  | .array element => [.spec (.node element)]
  | .function signature =>
    (signature.parameters.map fun p => .spec (parameterUse g p.2)) ++ [.spec (.node signature.result)]
  | .record use => [.slot use]
  | .partialRecord target => [.slot (.node target)]
  | .unknown _ => []

/-- The calls that a call makes from a context, one after the other. -/
def parts (c : Context) : Call → List Call
  | .spec use =>
    match r.registry.find? (g.symbolOf (g.stripped use)) with
    | some _ => []
    | none => [.propType (g.stripped use)]
  | .propType use => ofMakeup g (g.makeup use)
  | .slot use =>
    match c.lookup (use.identity c), slotTitle g use with
    | none, some _ => (g.propertiesOf use).map .member
    | _, _ => []
  | .member p =>
    match g.propertyUse? p with
    | none => []
    | some use => [.spec use]

/-- The context in which a call makes the first of its own. -/
def start (c : Context) : Call → Context
  | .slot use =>
    { (c.reserve (use.identity c)).2 with
      notes := ((slotTitle g use).map (.reserved c.slots.length)).toList ++ c.notes }
  | .member p => { c with owners := p.name :: c.owners }
  | _ => c

/-- What a call raises itself: a type that no rule fits, a property without type, or a type that has
to be reported and has no text. -/
def fault? (c : Context) : Call → Option PassFault
  | .propType use =>
    match g.makeup use with
    | .unknown id =>
      match g.render (.node id), r.policy with
      | none, _ => some .unwritable
      | some text, .strict => some (.unclassifiable text (g.shortName id) (g.location id))
      | some _, .lenient => none
    | _ => none
  | .slot use =>
    match c.lookup (use.identity c), slotTitle g use with
    | none, none => some .unwritable
    | _, _ => none
  | .member p =>
    match g.propertyUse? p with
    | none => some (.missingType p.name)
    | some _ => none
  | .spec _ => none

/-- Whether a call classifies a type as a union. -/
def isUnion : Call → Bool
  | .propType use => g.shape use = .union
  | _ => false

/-- The name of the record member that is classified. -/
def name? : Call → Option String
  | .member p => some p.name
  | _ => none

/-- A call as another one makes it: a union tells the failures of its members. -/
def step (depth : Nat) (call part : Call) : Pass Unit :=
  if call.isUnion g then Pass.unionMember (part.run r g depth) else part.run r g depth

variable {r g} {depth : Nat} {call : Call} {c c' : Context}

theorem isUnion_iff {use : TypeUse} :
    (propType use).isUnion g ↔ ∃ leaves, g.makeup use = .union leaves := by
  unfold isUnion
  rw [decide_eq_true_iff]
  unfold TypeGraph.makeup
  cases use with
  | union leaves =>
      obtain hshape | hshape := g.shape_union leaves <;> simp [hshape]
  | node id =>
      cases g.shape (.node id)
      case union => simp
      case void | string | number | boolean | any | object => simp
      all_goals
        simp only [reduceCtorEq, false_iff, not_exists, TypeGraph.formMakeup]
        intro leaves
        cases g.form id
        case function f => cases g.signature? id <;> simp
        all_goals simp

theorem course_spec (use : TypeUse) (c : Context) :
    ((spec use).run r g (depth + 1)).run c =
      (((spec use).parts r g c).mapM (run r g depth)).course.run c := by
  rw [run, specTo_succ, Pass.course_bind_pure, parts]
  cases r.registry.find? (g.symbolOf (g.stripped use)) with
  | some known => rfl
  | none => rw [Pass.course_singleton]; rfl

theorem course_union (leaves : List NodeId) : (makeupTo r g depth (.union leaves)).course =
    ((ofMakeup g (.union leaves)).mapM fun part => Pass.unionMember (part.run r g depth)).course := by
  rw [makeupTo, Pass.course_bind_pure, ofMakeup]
  exact Pass.course_mapM (fun leaf => by rw [Pass.course_unionMember, Pass.course_bind_pure]; rfl) leaves

theorem course_makeupTo {m : Makeup} (hunion : ∀ leaves, m ≠ .union leaves)
    (hknown : ∀ id, m ≠ .unknown id) :
    (makeupTo r g depth m).course = ((ofMakeup g m).mapM (run r g depth)).course := by
  cases m with
  | plain type => rfl
  | union leaves => exact absurd rfl (hunion leaves)
  | tuple elements =>
      rw [makeupTo, Pass.course_bind_pure, ofMakeup]
      exact Pass.course_mapM (fun e => by rw [Pass.course_bind_pure]; rfl) elements
  | array element => rw [makeupTo, Pass.course_bind_pure, ofMakeup, Pass.course_singleton]; rfl
  | function signature =>
      have harg : ∀ p : String × TypeUse, (specTo r g depth (parameterUse g p.2)).course =
          run r g depth (spec (parameterUse g p.2)) := fun _ => rfl
      have hargs := Pass.course_mapM harg signature.parameters
      rw [makeupTo, ofMakeup, List.mapM_append, Pass.course_bind fun args => Pass.course_bind_pure _ _,
        Pass.course_bind fun args => Pass.course_bind_pure _ _, Pass.course_singleton, ← hargs]
      rfl
  | record use => rw [makeupTo, Pass.course_bind_pure, ofMakeup, Pass.course_singleton]; rfl
  | partialRecord target =>
      rw [makeupTo, Pass.course_bind_pure, ofMakeup, Pass.course_singleton]; rfl
  | unknown id => exact absurd rfl (hknown id)

theorem step_of_union (h : call.isUnion g = true) :
    call.step r g depth = fun part => Pass.unionMember (part.run r g depth) :=
  funext fun _ => if_pos h

theorem step_of_not_union (h : call.isUnion g = false) : call.step r g depth = run r g depth :=
  funext fun _ => if_neg (Bool.eq_false_iff.mp h)

theorem fault?_of_known {use : TypeUse} (hknown : ∀ id, g.makeup use ≠ .unknown id) :
    (propType use).fault? r g c = none := by
  rw [fault?]
  split
  · next id hm => exact absurd hm (hknown id)
  · rfl

/-- The outcome of a record with a text is that of its members, for its slot waits to be filled. -/
theorem outcome_slot (use : TypeUse) (c : Context) : (((slot use).run r g (depth + 1)).run c).1 =
    match (slot use).fault? r g c with
    | some fault => .error fault
    | none => ((((slot use).parts r g c).mapM ((slot use).step r g depth)).course.run
        ((slot use).start g c)).1 := by
  rw [run, Pass.run_course, slotTo_run, fault?, parts, start, step_of_not_union rfl]
  cases hk : c.lookup (use.identity c) with
  | some slot => rfl
  | none =>
      cases htitle : slotTitle g use with
      | none =>
          dsimp only
          rw [entryTo_of_error (membersTo_of_no_title htitle _ _)]
          rfl
      | some title =>
          have hstart : (membersTo r g depth use c.slots.length).run
              (c.reserve (use.identity c)).2 = _ := membersTo_of_title htitle _ _
          have hempty := (membersTo_extending (extendingTo r g depth).2.2.2 use c.slots.length
            (c.reserve (use.identity c)).2).reserved
          have hmember : ∀ p, (memberTo r g depth p).course = run r g depth (member p) :=
            fun _ => rfl
          dsimp only [Option.map_some, Option.toList_some, List.singleton_append]
          rw [← Pass.course_mapM hmember, Pass.run_course]
          change _ = (((g.propertiesOf use).mapM (memberTo r g depth)).run
            { (c.reserve (use.identity c)).2 with
              notes := .reserved c.slots.length title ::
                (c.reserve (use.identity c)).2.notes }).1.map _
          rw [← hstart]
          rcases hr : (membersTo r g depth use c.slots.length).run
            (c.reserve (use.identity c)).2 with ⟨outcome, c'⟩
          rw [hr] at hempty
          cases outcome with
          | error fault => rw [entryTo_of_error hr]; rfl
          | ok members => rw [entryTo_of_ok hr hempty]; rfl

/-- What a call raises itself, or else what comes of its parts. -/
theorem outcome_eq (call : Call) (c : Context) : ((call.run r g (depth + 1)).run c).1 =
    match call.fault? r g c with
    | some fault => .error fault
    | none => (((call.parts r g c).mapM (call.step r g depth)).course.run (call.start g c)).1 := by
  cases call with
  | spec use => exact congrArg Prod.fst (course_spec use c)
  | propType use =>
      rw [run, propTypeTo_succ, parts]
      by_cases hunion : (propType use).isUnion g = true
      · obtain ⟨leaves, hm⟩ := isUnion_iff.mp hunion
        rw [step_of_union hunion, fault?, hm, course_union]
        rfl
      · have hnone : ∀ leaves, g.makeup use ≠ .union leaves := fun leaves hm =>
          hunion (isUnion_iff.mpr ⟨leaves, hm⟩)
        rw [step_of_not_union (Bool.eq_false_iff.mpr hunion)]
        by_cases hunknown : ∃ id, g.makeup use = .unknown id
        · obtain ⟨id, hm⟩ := hunknown
          rw [fault?, hm, makeupTo, unknownTo]
          dsimp only
          cases g.render (.node id) with
          | none => rfl
          | some text => cases r.policy <;> rfl
        · have hknown := not_exists.mp hunknown
          rw [fault?_of_known hknown, course_makeupTo hnone hknown]
          rfl
  | slot use => exact outcome_slot use c
  | member p =>
      rw [run, memberTo, fault?, parts, Pass.run_course, Pass.run_within, step_of_not_union rfl]
      cases g.propertyUse? p with
      | none => rfl
      | some use =>
          have hcourse : (do pure ⟨p.name, ← specTo r g depth use⟩ : Pass MemberSpec).course =
              (spec use).run r g depth := Pass.course_bind_pure _ _
          dsimp only
          rw [Pass.course_singleton, ← hcourse, Pass.run_course]
          rfl

theorem run_extending (r : Rules) (g : TypeGraph) (depth : Nat) (call : Call) :
    (call.run r g depth).Extending := by
  obtain ⟨hspec, hprop, hslot, hmember⟩ := extendingTo r g depth
  cases call with
  | spec use => exact .bind (hspec use) fun _ => .pure _
  | propType use => exact .bind (hprop use) fun _ => .pure _
  | slot use => exact .bind (hslot use) fun _ => .pure _
  | member p => exact .bind (hmember p) fun _ => .pure _

theorem step_extending (r : Rules) (g : TypeGraph) (depth : Nat) (call part : Call) :
    (call.step r g depth part).Extending := by
  unfold step
  split
  · exact .unionMember (run_extending r g depth part)
  · exact run_extending r g depth part

theorem step_of_error {part : Call} {fault : PassFault}
    (h : (part.run r g depth).run c = (.error fault, c')) : (call.step r g depth part).run c =
      (.error (if call.isUnion g then fault.inUnion c.owner? else fault), c') := by
  by_cases hunion : call.isUnion g = true
  · have howner : c'.owner? = c.owner? := by
      have hextends := run_extending r g depth part c
      rw [h] at hextends
      rw [Context.owner?, hextends.owners, Context.owner?]
    rw [step_of_union hunion, Pass.run_unionMember_error h, if_pos hunion, howner]
  · rw [step_of_not_union (Bool.eq_false_iff.mpr hunion), h, if_neg hunion]

theorem error_of_step {part : Call} {fault : PassFault}
    (h : (call.step r g depth part).run c = (.error fault, c')) :
    ∃ inner, (part.run r g depth).run c = (.error inner, c') ∧
      fault = if call.isUnion g then inner.inUnion c.owner? else inner := by
  rcases hpart : (part.run r g depth).run c with ⟨outcome, c''⟩
  cases outcome with
  | ok a =>
      by_cases hunion : call.isUnion g = true
      · rw [step_of_union hunion, Pass.run_unionMember_ok hpart] at h
        cases h
      · rw [step_of_not_union (Bool.eq_false_iff.mpr hunion), hpart] at h
        cases h
  | error inner =>
      rw [step_of_error hpart] at h
      cases h
      exact ⟨inner, rfl, rfl⟩

/-- The owner within a call: the member that is classified, or the owner that was there. -/
theorem owner?_start (call : Call) (c : Context) :
    (call.start g c).owner? = call.name?.or c.owner? := by
  cases call <;> rfl

theorem isUnion_of_fault? {raw : PassFault} (h : call.fault? r g c = some raw) :
    call.isUnion g = false := by
  apply Bool.eq_false_iff.mpr
  intro hunion
  cases call with
  | propType use =>
      obtain ⟨leaves, hm⟩ := isUnion_iff.mp hunion
      rw [fault?, hm] at h
      cases h
  | _ => cases hunion

/-- A call that raises a fault itself makes no calls. -/
theorem parts_of_fault? {raw : PassFault} (h : call.fault? r g c = some raw) :
    call.parts r g c = [] := by
  cases call with
  | propType use =>
      rw [fault?] at h
      split at h
      · next hm => rw [parts, hm, ofMakeup]
      · cases h
  | slot use =>
      rw [fault?] at h
      split at h
      · next hlookup htitle => rw [parts, hlookup, htitle]
      · cases h
  | member p =>
      rw [fault?] at h
      split at h
      · next hp => rw [parts, hp]
      · cases h
  | spec use => cases h

theorem name?_of_isUnion (h : call.isUnion g) : call.name? = none := by
  cases call with
  | propType use => rfl
  | _ => cases h

end Call

/-- What is raised by a type or a property itself. -/
inductive Raw : PassFault → Prop
  | unclassifiable (text : String) (symbol : Option String) (location : Option Location) :
      Raw (.unclassifiable text symbol location)
  | missingType (property : String) : Raw (.missingType property)

theorem Call.raw_of_fault? {r : Rules} {g : TypeGraph} {call : Call} {c : Context} {raw : PassFault}
    (h : call.fault? r g c = some raw) : Raw raw ∨ raw = .unwritable := by
  cases call with
  | propType use =>
      rw [fault?] at h
      split at h
      · split at h
        · exact .inr (Option.some.inj h).symm
        · cases h
          exact .inl (.unclassifiable _ _ _)
        · cases h
      · cases h
  | slot use =>
      rw [fault?] at h
      split at h
      · exact .inr (Option.some.inj h).symm
      · cases h
  | member p =>
      rw [fault?] at h
      split at h
      · cases h
        exact .inl (.missingType _)
      · cases h
  | spec use => cases h

/-- The calls that are under way where classification fails, the outermost first, and what is raised
there. Each call has been through some of its own and is at the next one; the last call meets a type
that no rule fits, a property without type, or a type without text. -/
inductive Trail (r : Rules) (g : TypeGraph) : Nat → Call → Context → List Call → PassFault → Prop
  | here {depth : Nat} {call : Call} {c : Context} {raw : PassFault}
      (raised : call.fault? r g c = some raw) : Trail r g (depth + 1) call c [call] raw
  | onward {depth : Nat} {call part : Call} {before after path : List Call} {c c' : Context}
      {done : List Unit} {raw : PassFault} (calls : call.parts r g c = before ++ part :: after)
      (begun : (before.mapM (call.step r g depth)).run (call.start g c) = (.ok done, c'))
      (further : Trail r g depth part c' path raw) :
      Trail r g (depth + 1) call c (call :: path) raw

/-- What becomes of a raw fault on the way back through calls: a union tells it with the owner that
is current there. -/
def told (g : TypeGraph) (owner : Option String) (raw : PassFault) : List Call → PassFault
  | [] => raw
  | call :: path =>
    let fault := told g (call.name?.or owner) raw path
    if call.isUnion g then fault.inUnion owner else fault

namespace Trail
variable {r : Rules} {g : TypeGraph} {depth : Nat} {call : Call} {c c' : Context}
  {path : List Call} {raw fault : PassFault}

theorem isRaw (h : Trail r g depth call c path raw) : Raw raw ∨ raw = .unwritable := by
  induction h with
  | here raised => exact Call.raw_of_fault? raised
  | onward _ _ _ ih => exact ih

/-- A call fails with what is raised at the end of its trail, as it is told on the way back. -/
theorem fails (h : Trail r g depth call c path raw) :
    ∃ c', (call.run r g depth).run c = (.error (told g c.owner? raw path), c') := by
  have hfail : ∀ {d : Nat} {call : Call} {c : Context} {fault : PassFault},
      ((call.run r g d).run c).1 = .error fault → ∃ c', (call.run r g d).run c = (.error fault, c') :=
    fun h => ⟨_, Prod.ext h rfl⟩
  induction h with
  | here raised =>
      apply hfail
      rw [Call.outcome_eq, raised, told, if_neg (Bool.eq_false_iff.mp (Call.isUnion_of_fault? raised))]
      rfl
  | @onward depth call part before after path c c' done raw calls begun further ih =>
      obtain ⟨c'', hpart⟩ := ih
      have hnone : call.fault? r g c = none :=
        Option.eq_none_iff_forall_ne_some.mpr fun fault hfault => by
          rw [Call.parts_of_fault? hfault] at calls
          simp at calls
      have howner : c'.owner? = call.name?.or c.owner? := by
        have hextends := Pass.Extending.mapM (Call.step_extending r g depth call) before (call.start g c)
        rw [begun] at hextends
        rw [← Call.owner?_start (g := g), Context.owner?, hextends.owners, Context.owner?]
      have hstep : (call.step r g depth part).run c' = _ := Call.step_of_error hpart
      have hparts : ((before ++ part :: after).mapM (call.step r g depth)).run (call.start g c) = _ :=
        Pass.run_mapM_error begun hstep
      apply hfail
      rw [Call.outcome_eq, hnone]
      dsimp only
      rw [Pass.run_course, calls, hparts, howner, told]
      by_cases hunion : call.isUnion g = true
      · rw [if_pos hunion, if_pos hunion, Call.name?_of_isUnion hunion]
        rfl
      · rw [if_neg hunion, if_neg hunion]
        rfl

/-- Unless the types are nested too deeply, there is a trail to what failed. -/
theorem exists_of_error (h : (call.run r g depth).run c = (.error fault, c'))
    (hdeep : fault ≠ .tooDeep) : ∃ path raw, Trail r g depth call c path raw := by
  induction depth generalizing call c c' fault with
  | zero =>
      have htooDeep : ((call.run r g 0).run c).1 = .error .tooDeep := by
        cases call <;> rfl
      rw [h] at htooDeep
      cases htooDeep
      exact absurd rfl hdeep
  | succ depth ih =>
      have houtcome : ((call.run r g (depth + 1)).run c).1 = _ := Call.outcome_eq call c
      rw [h] at houtcome
      cases hraised : call.fault? r g c with
      | some raw => exact ⟨[call], raw, .here hraised⟩
      | none =>
          rw [hraised] at houtcome
          dsimp only at houtcome
          rw [Pass.run_course] at houtcome
          rcases hparts : ((call.parts r g c).mapM (call.step r g depth)).run (call.start g c) with
            ⟨outcome, after⟩
          rw [hparts] at houtcome
          cases outcome with
          | ok done => cases houtcome
          | error fault' =>
              obtain rfl : fault = fault' := Except.error.inj houtcome
              obtain ⟨before, part, rest, done, c₁, hcalls, hbegun, hstep⟩ :=
                Pass.split_of_mapM_error hparts
              obtain ⟨inner, hpart, hinner⟩ := Call.error_of_step hstep
              have hinnerDeep : inner ≠ .tooDeep := by
                rintro rfl
                apply hdeep
                rw [hinner]
                split <;> rfl
              obtain ⟨path, raw, htrail⟩ := ih hpart hinnerDeep
              exact ⟨call :: path, raw, .onward hcalls hbegun htrail⟩

/-- That a type has no text is no failure of classification, and told by no union. -/
theorem told_unwritable (owner : Option String) (path : List Call) :
    told g owner .unwritable path = .unwritable := by
  induction path generalizing owner with
  | nil => rfl
  | cons call path ih =>
      rw [told, ih]
      split <;> rfl

/-- What passes no union stays as it was raised. -/
theorem told_of_no_union {owner : Option String} (h : ∀ call ∈ path, call.isUnion g = false) :
    told g owner raw path = raw := by
  induction path generalizing owner with
  | nil => rfl
  | cons call path ih =>
      obtain ⟨hcall, hpath⟩ := List.forall_mem_cons.mp h
      rw [told, hcall]
      exact ih hpath

/-- The innermost union tells what is raised, and none around it tells it again. -/
theorem told_of_union (hraw : Raw raw) {owner : Option String} {outer inner : List Call}
    {union : Call} (hunion : union.isUnion g) (hinner : ∀ call ∈ inner, call.isUnion g = false) :
    told g owner raw (outer ++ union :: inner) =
      .unionMember ((outer.filterMap Call.name?).getLast?.or owner) raw := by
  induction outer generalizing owner with
  | nil =>
      rw [List.nil_append, told, told_of_no_union hinner, if_pos hunion]
      cases hraw <;> rfl
  | cons call outer ih =>
      have hname : ((call :: outer).filterMap Call.name?).getLast?.or owner =
          (outer.filterMap Call.name?).getLast?.or (call.name?.or owner) := by
        cases hcall : call.name? with
        | none => rw [List.filterMap_cons_none hcall, Option.none_or]
        | some name =>
            rw [List.filterMap_cons_some hcall, List.getLast?_cons]
            cases (outer.filterMap Call.name?).getLast? <;> rfl
      rw [List.cons_append, told, ih, hname]
      split <;> rfl

end Trail

end Classify

namespace Request
open Classify

/-- The call by which a request for a type is answered. -/
def call? (g : TypeGraph) : Request → Option Call
  | .spec id => some (.spec (.node id))
  | .slot id => some (.slot (.node id))
  | .props id => some (.slot (g.stripped (.node id)))
  | .component _ => none

/-- A request fails as the call does that answers it. -/
theorem error_of_run {r : ComponentRules} {g : TypeGraph} {q : Request} {call : Call}
    (hq : q.call? g = some call) {c c' : Context} {fault : PassFault}
    (h : (q.run r g).run c = (.error fault, c')) :
    (call.run r.toRules g g.classifyDepth).run c = (.error fault, c') := by
  cases q with
  | component id => cases hq
  | _ =>
      cases hq
      obtain hf | ⟨a, c₁, -, h₁⟩ := Pass.error_of_bind h
      · exact Pass.run_bind_error hf _
      · cases h₁

/-- Whatever a request for a type fails with, unless its types are nested too deeply or one that is
reported has no text: there is a trail of calls to a type that no rule fits, or to a property
without type, and what is raised there is what the request fails with if no call on the trail
classifies a union. Otherwise it is the cause of the failure of a union member, told once: by the
innermost union on the trail, with the name of the record member closest around that union, or with
the owner that the request found if there is none. -/
theorem fails_as_trail_tells (r : ComponentRules) (g : TypeGraph) (q : Request) (call : Call)
    (hq : q.call? g = some call) (c c' : Context) (fault : PassFault)
    (h : (q.run r g).run c = (.error fault, c')) (hdeep : fault ≠ .tooDeep)
    (hwritten : fault ≠ .unwritable) :
    (∃ path raw, Trail r.toRules g g.classifyDepth call c path raw) ∧
      ∀ path raw, Trail r.toRules g g.classifyDepth call c path raw → Raw raw ∧
        ((∀ call ∈ path, call.isUnion g = false) → fault = raw) ∧
        ∀ outer union inner, path = outer ++ union :: inner → union.isUnion g →
          (∀ call ∈ inner, call.isUnion g = false) →
          fault = .unionMember ((outer.filterMap Call.name?).getLast?.or c.owner?) raw := by
  have hrun := error_of_run hq h
  refine ⟨Trail.exists_of_error hrun hdeep, fun path raw htrail => ?_⟩
  obtain ⟨c'', hfails⟩ := htrail.fails
  obtain rfl : fault = told g c.owner? raw path := by
    cases hrun.symm.trans hfails
    rfl
  have hraw : Raw raw := htrail.isRaw.resolve_right fun hraw => by
    rw [hraw] at hwritten
    exact hwritten (Trail.told_unwritable _ path)
  refine ⟨hraw, fun hnone => Trail.told_of_no_union hnone, ?_⟩
  rintro outer union inner rfl hunion hinner
  exact Trail.told_of_union hraw hunion hinner

/-- A record with a member that is a union, a record in that union, and in the latter's member a union
with a type that no rule fits. -/
def nestedDateGraph : TypeGraph :=
  ⟨TypeGraph.initial.nodes ++ #[
    ⟨.unresolved "Date" none, none⟩,
    ⟨.union [TypeGraph.stringId, 11], none⟩,
    ⟨.record ⟨none, [⟨"inner", some 12, false, none⟩], none, [], []⟩, none⟩,
    ⟨.union [TypeGraph.numberId, 13], none⟩,
    ⟨.record ⟨some "Nested", [⟨"outer", some 14, false, none⟩], none, [], []⟩, none⟩]⟩

theorem nested_failure_is_told_once :
    ((slot 15).run strictRules nestedDateGraph).run .fresh =
        (.error (.unionMember (some "inner") (.unclassifiable "Date" none none)),
          after strictRules nestedDateGraph .fresh (.slot 15)) ∧
      ∃ path raw, Trail strictRules.toRules nestedDateGraph nestedDateGraph.classifyDepth
          (.slot (.node 15)) .fresh path raw ∧
        Raw raw ∧ ¬ ∀ call ∈ path, call.isUnion nestedDateGraph = false := by
  have hfails : ((slot 15).run strictRules nestedDateGraph).run .fresh =
      (.error (.unionMember (some "inner") (.unclassifiable "Date" none none)),
        after strictRules nestedDateGraph .fresh (.slot 15)) := Prod.ext (by rfl) rfl
  obtain ⟨⟨path, raw, htrail⟩, hall⟩ := fails_as_trail_tells strictRules nestedDateGraph
    (.slot 15) (.slot (.node 15)) rfl .fresh _ _ hfails (by decide) (by decide)
  obtain ⟨hraw, hplain, -⟩ := hall path raw htrail
  refine ⟨hfails, path, raw, htrail, hraw, fun hnone => ?_⟩
  rw [← hplain hnone] at hraw
  nomatch hraw

/-- Whatever a union fails with, it tells as the failure of a member. -/
def UnionsTellAll : Prop :=
  ∀ (r : ComponentRules) (g : TypeGraph) (id : NodeId) (members : List NodeId) (c c' : Context)
    (fault : PassFault), g.form id = .union members →
    ((spec id).run r g).run c = (.error fault, c') → ∃ owner cause, fault = .unionMember owner cause

/-- A type that no rule fits, and its union with null. -/
def datedGraph : TypeGraph :=
  ⟨TypeGraph.initial.nodes ++ #[
    ⟨.unresolved "Date" none, none⟩,
    ⟨.union [11, TypeGraph.nullId], none⟩]⟩

/-- Nullability is stripped first, and what is left may be no union. -/
theorem not_unionsTellAll : ¬ UnionsTellAll := by
  intro h
  have hfails : ((spec 12).run strictRules datedGraph).run .fresh =
      (.error (.unclassifiable "Date" none none), after strictRules datedGraph .fresh (.spec 12)) :=
    Prod.ext (by rfl) rfl
  obtain ⟨owner, cause, hfault⟩ := h strictRules datedGraph 12 _ _ _ _ rfl hfails
  cases hfault

end Request

end PropSchema
