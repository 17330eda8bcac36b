import PropSchema.Proofs.TypeScript.Termination
/-!
Modules without generic declarations are resolved to the end. All that their names declare comes
from their statements and is no larger than these together, so the depth that a module is given is
enough for every look-up, in whatever order they come.
-/
namespace PropSchema.TypeScript

open Resolve

/-- The declaration in a statement, which may be one of a class without use of its name. -/
def Statement.declaration? : Statement → Option Declaration
  | .declaration d => some d
  | .exportDeclaration d => some d
  | .exportClass d => some (.classDecl d)
  | _ => none

def Module.declarations (m : Module) : List Declaration :=
  m.statements.filterMap Statement.declaration?

/-- No declaration of a module has type parameters, and none gives type arguments to a name that the
module declares. -/
def Module.Monomorphic (m : Module) : Prop :=
  ∀ d ∈ m.declarations, d.Monomorphic (.ofModule m)

section Totals
variable {α β : Type}

theorem total_append (f : α → Nat) (xs ys : List α) :
    total f (xs ++ ys) = total f xs + total f ys := by
  induction xs with
  | nil => exact (Nat.zero_add _).symm
  | cons x xs ih => rw [List.cons_append, total, total, ih, Nat.add_assoc]

theorem total_filter_le (f : α → Nat) (p : α → Bool) (xs : List α) :
    total f (xs.filter p) ≤ total f xs := by
  induction xs with
  | nil => exact Nat.le_refl 0
  | cons x xs ih =>
      rw [List.filter_cons, total]
      split
      · exact Nat.add_le_add_left ih _
      · exact Nat.le_trans ih (Nat.le_add_left _ _)

/-- What is filtered out is left out of the sum. -/
theorem total_filter_add_le (f : α → Nat) {p : α → Bool} {xs : List α} {x : α} (hx : x ∈ xs)
    (hp : ¬ p x) : total f (xs.filter p) + f x ≤ total f xs := by
  induction xs with
  | nil => nomatch hx
  | cons y xs ih =>
      rw [List.filter_cons, total]
      obtain rfl | hx := List.mem_cons.mp hx
      · rw [if_neg hp, Nat.add_comm]
        exact Nat.add_le_add_left (total_filter_le f p xs) _
      · have := ih hx
        split
        · rw [total]
          omega
        · omega

end Totals

theorem Module.size_eq (m : Module) : m.size = total Declaration.size m.declarations := by
  rw [Module.size, Module.declarations]
  induction m.statements with
  | nil => rfl
  | cons s ss ih =>
      rw [total, ih]
      cases s <;>
        simp [List.filterMap_cons, Statement.size, Statement.declaration?, total, Declaration.size]

theorem Named.declarations_join (earlier later : Named) :
    (earlier.join later).declarations = earlier.declarations ++ later.declarations ∨
      (earlier.join later).declarations = later.declarations := by
  cases earlier <;> cases later <;> simp [Named.join, Named.declarations]

/-- What a scope declares comes from some declarations, and is no larger than they are. -/
structure Scope.Within (sc : Scope) (ds : List Declaration) : Prop where
  declared : ∀ entry ∈ sc.declared, ∀ d ∈ entry.2.declarations, d ∈ ds
  size : total (fun entry => entry.2.size) sc.declared ≤ total Declaration.size ds

namespace Scope.Within
variable {sc : Scope} {ds : List Declaration}

theorem mono (h : sc.Within ds) (more : List Declaration) : sc.Within (ds ++ more) := by
  refine ⟨fun entry he d hd => List.mem_append_left _ (h.declared entry he d hd), ?_⟩
  rw [total_append]
  exact Nat.le_trans h.size (Nat.le_add_right _ _)

theorem of_declared_eq {sc' : Scope} (h : sc.Within ds) (he : sc'.declared = sc.declared) :
    sc'.Within ds := by
  refine ⟨?_, ?_⟩ <;> rw [he]
  · exact h.declared
  · exact h.size

/-- One more declaration joins those of its name or takes their place. -/
theorem declare (h : sc.Within ds) (name : String) {named : Named} {d : Declaration}
    (hd : named.declarations = [d]) : (sc.declare name named).Within (ds ++ [d]) := by
  have hother : ∀ entry ∈ sc.declared.filter (fun entry => entry.1 != name),
      ∀ d' ∈ entry.2.declarations, d' ∈ ds ++ [d] := fun entry he d' hd' =>
    List.mem_append_left _ (h.declared entry (List.mem_of_mem_filter he) d' hd')
  have hnamed : named.size = d.size := by
    rw [Named.size, hd]
    rfl
  have htotal : total Declaration.size (ds ++ [d]) = total Declaration.size ds + d.size :=
    total_append _ _ _
  have hsize := h.size
  cases hf : sc.find? name with
  | none =>
      have hdeclared : (sc.declare name named).declared =
          (name, named) :: sc.declared.filter fun entry => entry.1 != name := by
        simp [Scope.declare, hf]
      have hle := total_filter_le (fun entry : String × Named => entry.2.size)
        (fun entry => entry.1 != name) sc.declared
      refine ⟨?_, ?_⟩ <;> rw [hdeclared]
      · refine List.forall_mem_cons.mpr ⟨fun d' hd' => ?_, hother⟩
        rw [hd] at hd'
        exact List.mem_append_right _ hd'
      · rw [total, htotal]
        dsimp only
        omega
  | some earlier =>
      have hmem : (name, earlier) ∈ sc.declared := Entries.mem_of_lookup hf
      have hdeclared : (sc.declare name named).declared =
          (name, earlier.join named) :: sc.declared.filter fun entry => entry.1 != name := by
        simp [Scope.declare, hf]
      have hle := total_filter_add_le (fun entry : String × Named => entry.2.size)
        (p := fun entry => entry.1 != name) hmem (by simp)
      have hjoin : (earlier.join named).size ≤ earlier.size + named.size := by
        simp only [Named.size]
        obtain hj | hj := earlier.declarations_join named
        · exact Nat.le_of_eq (by rw [hj, total_append])
        · rw [hj]
          exact Nat.le_add_left _ _
      refine ⟨?_, ?_⟩ <;> rw [hdeclared]
      · refine List.forall_mem_cons.mpr ⟨fun d' hd' => ?_, hother⟩
        have hd' : d' ∈ earlier.declarations ++ named.declarations := by
          obtain hj | hj := earlier.declarations_join named
          · exact hj ▸ hd'
          · exact List.mem_append_right _ (hj ▸ hd')
        rw [hd] at hd'
        exact (List.mem_append.mp hd').elim
          (fun he => List.mem_append_left _ (h.declared _ hmem d' he))
          fun he => List.mem_append_right _ he
      · rw [total, htotal]
        dsimp only at hle ⊢
        omega

theorem declareAt (h : sc.Within ds) (position : Nat) (d : Declaration) :
    (sc.declareAt position d).Within (ds ++ [d]) := by
  cases d with
  | interfaceDecl d => exact h.declare _ rfl
  | aliasDecl d => exact h.declare _ rfl
  | enumDecl d => exact h.declare _ rfl
  | classDecl d =>
      simp only [Scope.declareAt]
      cases d.name with
      | some name => exact h.declare _ rfl
      | none => exact h.mono _

theorem declared_bind (bindings : List ImportBinding) (sc : Scope) :
    (bindings.foldl Scope.bind sc).declared = sc.declared := by
  induction bindings generalizing sc with
  | nil => rfl
  | cons b bs ih =>
      rw [List.foldl_cons, ih]
      cases b <;> rfl

theorem add (h : sc.Within ds) (position : Nat) (s : Statement) :
    (sc.add position s).Within (ds ++ s.declaration?.toList) := by
  cases s with
  | imports source bindings =>
      refine (h.mono []).of_declared_eq ?_
      simp only [Scope.add]
      split
      · exact declared_bind bindings sc
      · rfl
  | declaration d => exact h.declareAt position d
  | exportDeclaration d => exact h.declareAt position d
  | exportClass | exportName | exportNames | other => exact h.mono _

theorem addAll (statements : List (Statement × Nat)) (h : sc.Within ds) :
    (statements.foldl (fun sc (statement, position) => sc.add position statement) sc).Within
      (ds ++ (statements.map Prod.fst).filterMap Statement.declaration?) := by
  induction statements generalizing sc ds with
  | nil => exact h.mono []
  | cons s ss ih =>
      have hrest := ih (h.add s.2 s.1)
      rw [List.append_assoc] at hrest
      rw [List.foldl_cons, List.map_cons, List.filterMap_cons]
      cases hs : s.1.declaration? with
      | none => simpa [hs] using hrest
      | some d => simpa [hs] using hrest

end Scope.Within

theorem Module.within (m : Module) : (Scope.ofModule m).Within m.declarations := by
  have hempty : (Scope.ofPath m.path).Within [] := ⟨fun _ he => (nomatch he), Nat.le_refl 0⟩
  have h := hempty.addAll m.statements.zipIdx
  rwa [List.zipIdx_map_fst, List.nil_append] at h

/-- What a module is asked for: its exported classes, or the type of a name. -/
inductive LookUp where
  | exportedClasses
  | typeNamed (name : String) (arguments : List NodeId)

namespace Source

def lookUp (src : Source) : LookUp → Resolve (List NodeId)
  | .exportedClasses => src.exportedClasses
  | .typeNamed name arguments => do pure [← src.typeNamed name arguments]

/-- The module resolved to another depth. -/
def atDepth (src : Source) (depth : Nat) : Source := { src with depth }

variable {src : Source} {room depth : Nat}

@[simp] theorem atDepth_mod (src : Source) (depth : Nat) : (src.atDepth depth).mod = src.mod := rfl

@[simp] theorem atDepth_scope (src : Source) (depth : Nat) :
    (src.atDepth depth).scope = src.scope := rfl

@[simp] theorem atDepth_resolve (src : Source) (depth : Nat) :
    (src.atDepth depth).resolve = src.scope.resolveTo depth := rfl

/-- The bases of a class declaration are resolved once the declaration has its node. -/
theorem classNode_settles (hsc : src.scope.Monomorphic) {site : ClassSite}
    (hclass : (Declaration.classDecl site.decl).Monomorphic src.scope)
    (hsize : site.decl.size + room ≤ depth) (name : String) :
    Settles src.scope room depth (fun d => (src.atDepth d).classNode site name) fun _ => True := by
  have hparams : site.decl.typeParams = [] := hclass.params
  refine .of_get fun r => ?_
  cases hk : r.classes.lookup site.position with
  | some id => exact .pure trivial
  | none =>
      simp only [atDepth_scope, atDepth_resolve, hparams, Scope.bindTypeParams, pure_bind]
      refine .bind (.push _ _) fun id _ => .changing (fun _ => ⟨rfl, rfl⟩) ?_
      refine .bind (.mapM fun h hh => ?_) fun bases _ => .map (.setForm _ _) fun _ => id
      have := ClassDecl.heritage_size_le hh
      exact .baseType (resolveTo_settles hsc depth) .nil (by omega) (hclass.heritage hh)

/-- A source whose names declare what the statements of its module do, with room for all of it. -/
structure Ample (src : Source) (room depth : Nat) : Prop where
  scope : src.scope.Monomorphic
  named : ∀ {name named}, src.scope.find? name = some named → named.size + room ≤ depth
  declarations : ∀ d ∈ src.mod.declarations, d.Monomorphic src.scope ∧ d.size + room ≤ depth

theorem classesNamed_settles (h : src.Ample room depth) (name : String) :
    Settles src.scope room depth (fun d => (src.atDepth d).classesNamed name) fun _ => True := by
  simp only [classesNamed, atDepth_scope]
  cases hf : src.scope.find? name with
  | none => exact .pure trivial
  | some named =>
      cases named with
      | classes first more =>
          refine (Settles.mapM fun site hsite => ?_).imp fun _ _ => trivial
          have hmem : .classDecl site.decl ∈ (Named.classes first more).declarations :=
            List.mem_map_of_mem (f := fun site : ClassSite => Declaration.classDecl site.decl) hsite
          have hle : site.decl.size ≤ (Named.classes first more).size :=
            le_total Declaration.size hmem
          have := h.named hf
          exact classNode_settles h.scope (h.scope hf _ hmem) (by omega) _
      | _ => exact .pure trivial

/-- What a statement exports, if it has a declaration, is one of the module. -/
theorem exportedBy_settles (h : src.Ample room depth) {statement : Statement}
    (hs : ∀ d ∈ statement.declaration?, d ∈ src.mod.declarations) (position : Nat) :
    Settles src.scope room depth (fun d => (src.atDepth d).exportedBy position statement)
      fun _ => True := by
  cases statement with
  | exportDeclaration d =>
      cases d with
      | classDecl d =>
          obtain ⟨hclass, hsize⟩ := h.declarations _ (hs _ rfl)
          exact .map (classNode_settles h.scope hclass hsize _) _
      | _ => exact .pure trivial
  | exportClass d =>
      obtain ⟨hclass, hsize⟩ := h.declarations _ (hs _ rfl)
      exact .map (classNode_settles h.scope hclass hsize _) _
  | exportName name => exact classesNamed_settles h name
  | exportNames names source => exact .map (.mapM fun name _ => classesNamed_settles h name) _
  | _ => exact .pure trivial

theorem exportedClasses_settles (h : src.Ample room depth) :
    Settles src.scope room depth (fun d => (src.atDepth d).exportedClasses) fun _ => True := by
  simp only [exportedClasses, atDepth_mod]
  refine .map (.mapM fun entry he => ?_) _
  obtain ⟨statement, position⟩ := entry
  refine exportedBy_settles h (fun d hd => ?_) position
  exact List.mem_filterMap.mpr ⟨statement, List.fst_mem_of_mem_zipIdx he, hd⟩

theorem typeNamed_settles (h : src.Ample room depth) (name : String) (arguments : List NodeId) :
    Settles src.scope room depth (fun d => (src.atDepth d).typeNamed name arguments)
      fun _ => True :=
  nameType_settles (resolveTo_settles h.scope depth) h.scope none
    fun _ _ hf => .inr (h.named hf)

theorem lookUp_settles (h : src.Ample room depth) (q : LookUp) :
    Settles src.scope room depth (fun d => (src.atDepth d).lookUp q) fun _ => True := by
  cases q with
  | exportedClasses => exact exportedClasses_settles h
  | typeNamed name arguments => exact .map (typeNamed_settles h name arguments) _

theorem ample_ofModule {m : Module} (hm : m.Monomorphic) :
    (ofModule m).Ample m.size (ofModule m).depth := by
  have hwithin := m.within
  have hsize : ∀ {size}, size ≤ total Declaration.size m.declarations →
      size + m.size ≤ (ofModule m).depth := by
    intro size hle
    rw [← m.size_eq] at hle
    change size + m.size ≤ 2 * m.size + 4096
    omega
  refine ⟨fun hf d hd => hm d (hwithin.declared _ (Entries.mem_of_lookup hf) d hd), ?_, ?_⟩
  · intro name named hf
    have hle : named.size ≤ total (fun entry => entry.2.size) (Scope.ofModule m).declared :=
      le_total (fun entry : String × Named => entry.2.size) (Entries.mem_of_lookup hf)
    exact hsize (Nat.le_trans hle hwithin.size)
  · exact fun d hd => ⟨hm d hd, hsize (le_total _ hd)⟩

/-- Whatever a module without generic declarations is asked for, in whatever order and after
whatever else, every look-up comes to a result, and no greater depth leads to another one. -/
theorem lookUps_finish {m : Module} (hm : m.Monomorphic) (lookUps : List LookUp) (r : Resolution) :
    ∃ answers r', lookUps.mapM (ofModule m).lookUp r = some (answers, r') ∧
      ∀ deeper, (ofModule m).depth ≤ deeper →
        lookUps.mapM ((ofModule m).atDepth deeper).lookUp r = some (answers, r') := by
  have hroom : (ofModule m).scope.openSize r ≤ m.size := by
    rw [m.size_eq]
    exact Nat.le_trans (Scope.openSize_le_total _ r) m.within.size
  obtain ⟨answers, r', -, -, hrun⟩ :=
    Settles.mapM (fun q (_ : q ∈ lookUps) => lookUp_settles (ample_ofModule hm) q) r hroom
  exact ⟨answers, r', hrun _ (Nat.le_refl _), hrun⟩

end Source

/-- Interfaces that extend each other, an alias that is itself, and a class that extends itself. -/
def cycles : Module :=
  let name (n : String) (arguments : List TypeExpr) : TypeExpr :=
    .reference (.simple n) arguments ⟨1, 1⟩
  ⟨"m.ts", [
    .declaration (.interfaceDecl ⟨"A", [], [name "B" []],
      [.property "next" (some (.array (name "Loop" []) ⟨1, 1⟩)) false ⟨1, 1⟩], ⟨1, 1⟩⟩),
    .declaration (.interfaceDecl ⟨"B", [], [name "A" []], [], ⟨2, 1⟩⟩),
    .declaration (.aliasDecl ⟨"Loop", [], .union [name "Loop" [], name "A" []] ⟨3, 1⟩, ⟨3, 1⟩⟩),
    .exportDeclaration (.classDecl ⟨some "C", [], [⟨.simple "C", [], ⟨4, 1⟩⟩],
      [⟨"all", some (name "Partial" [name "B" []]), false, false, false, ⟨4, 1⟩⟩], ⟨4, 1⟩⟩)]⟩

theorem monomorphic_cycles : cycles.Monomorphic := by
  intro d hd
  simp only [Module.declarations, cycles, List.filterMap_cons, Statement.declaration?,
    List.filterMap_nil, List.mem_cons, List.not_mem_nil, or_false] at hd
  rcases hd with rfl | rfl | rfl | rfl
  all_goals
    refine ⟨rfl, ?_⟩
    unfold Scope.Unapplied
    decide

namespace Source

theorem cycles_finish : cycles.Monomorphic ∧ ∃ answers r',
    [LookUp.exportedClasses, .typeNamed "Loop" [], .typeNamed "A" []].mapM
      (ofModule cycles).lookUp .initial = some (answers, r') := by
  obtain ⟨answers, r', hrun, -⟩ := lookUps_finish monomorphic_cycles
    [.exportedClasses, .typeNamed "Loop" [], .typeNamed "A" []] .initial
  exact ⟨monomorphic_cycles, answers, r', hrun⟩

end Source

end PropSchema.TypeScript
