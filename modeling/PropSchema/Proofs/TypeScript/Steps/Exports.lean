import PropSchema.Proofs.TypeScript.Exported
import PropSchema.Proofs.TypeScript.Steps.Types
/-!
What a module offers, as steps: the classes that its exports name, and its types by name.
-/
namespace PropSchema.TypeScript

open Resolve

/-- In the beginning there are the shared primitives, and no unions. -/
theorem Resolution.Known.initial : Resolution.initial.Known := by
  refine ⟨Nat.le_refl _, ?_, nofun, nofun, nofun, nofun⟩
  intro id members hform m hm
  have hlt := founded_initial.union hform m hm
  obtain hid | hid := Nat.lt_or_ge id Resolution.initial.graph.size
  · exact Nat.lt_trans hlt hid
  · rw [TypeGraph.form_of_size_le hid] at hform
    cases hform

namespace Steps
variable {src : Source} {R : (String → Prop) → Resolution → Resolution → Prop}
  {P : String → Prop} {size : Nat}
  (hR : StepRelation src.scope P (R P)) (hr : ResolverSteps src.scope R src.resolve)
  (hP : ∀ name, P name)
include hR hr hP

theorem declaredBases (d : ClassDecl) :
    Steps (R P) size (src.scope.declaredBases src.resolve d) fun _ _ => True := by
  have hclosed : src.scope.Closed P := fun _ m _ _ => hP m
  have hnone : ∀ id ∈ ([] : List NodeId), id < size := nofun
  refine bind hR (bindTypeParams hR hr hclosed .nil hnone fun m _ => hP m.1) fun _ _ _ hs => ?_
  refine mapM_of_true hR fun h _ _ hle => ?_
  exact (baseType hR hr hclosed (hs.mono hle) fun m _ => hP m.1).imp fun _ _ _ => trivial

omit hr hP in
/-- A class declaration gets its node before its bases, and a place in the table. -/
theorem withClass (site : ClassSite) (name : String) {r : Resolution} (hknown : r.Known) :
    R P r (src.withClass site name r) ∧ (src.withClass site name r).Known ∧
      r.graph.size < (src.withClass site name r).graph.size := by
  have hpush : Steps (R P) r.graph.size (Resolve.push (.classDeclaration name [])
      (some (src.scope.location site.decl.place))) Present := make hR rfl (by nofun) _
  obtain ⟨hstep, hknown₁, hid⟩ := hpush r r.graph.size _ (Nat.le_refl _) hknown rfl
  have hrecalls : Resolution.Recalls
      { r with graph := (r.graph.push (.classDeclaration name [])
        (some (src.scope.location site.decl.place))).2 } (src.withClass site name r) :=
    ⟨List.suffix_refl _, List.suffix_refl _, List.suffix_refl _, List.suffix_cons _ _⟩
  refine ⟨hR.trans hstep (hR.tables rfl rfl hrecalls) hknown₁, ⟨hknown₁.primitives,
    hknown₁.unions, hknown₁.instances, hknown₁.framework, hknown₁.partials, ?_⟩, hid⟩
  exact List.forall_mem_cons.mpr ⟨hid, hknown₁.classes⟩

/-- A class declaration is known before its bases. -/
theorem classNode (site : ClassSite) (name : String) :
    Steps (R P) size (src.classNode site name) fun _ _ => True := by
  intro r id r' _ hknown hrun
  obtain ⟨-, rfl⟩ | ⟨-, rfl, bases, r₁, hbases, rfl⟩ := Source.classNode_cases hrun
  · exact ⟨hR.refl r', hknown, trivial⟩
  · obtain ⟨hfirst, hknown₁, hid⟩ := withClass hR site name hknown
    obtain ⟨hsecond, hknown₂, -⟩ :=
      declaredBases hR hr hP site.decl _ bases r₁ (Nat.le_refl _) hknown₁ hbases
    have hlt : r.graph.size < r₁.graph.size := Nat.lt_of_lt_of_le hid (hR.size hsecond)
    have hform : r₁.graph.form r.graph.size = .classDeclaration name [] :=
      (hR.kept hsecond _ hid).trans (form_push_size _ _ _)
    refine ⟨hR.complete (hR.trans hfirst hsecond hknown₁) (Nat.le_refl _) hlt ?_,
      hknown₂.setForm hlt (by nofun), trivial⟩
    exact hform ▸ .classDeclaration _ _

theorem classesNamed (name : String) :
    Steps (R P) size (src.classesNamed name) fun _ _ => True := by
  unfold Source.classesNamed
  split
  · exact mapM_of_true hR fun site _ _ _ => classNode hR hr hP site _
  · exact pure hR fun _ _ => trivial

theorem exportedBy (position : Nat) (s : Statement) :
    Steps (R P) size (src.exportedBy position s) fun _ _ => True := by
  unfold Source.exportedBy
  split
  · exact map hR (classNode hR hr hP _ _) _ fun _ _ _ => trivial
  · exact map hR (classNode hR hr hP _ _) _ fun _ _ _ => trivial
  · exact classesNamed hR hr hP _
  · exact map hR (mapM_of_true hR fun name _ _ _ => classesNamed hR hr hP name) _
      fun _ _ _ => trivial
  · exact pure hR fun _ _ => trivial

theorem exportedClasses : Steps (R P) size src.exportedClasses fun _ _ => True :=
  map hR (mapM_of_true hR fun _ _ _ _ => exportedBy hR hr hP _ _) _ fun _ _ _ => trivial

omit hr in
theorem typeNamed {name : String} {arguments : List NodeId} (ha : ∀ id ∈ arguments, id < size)
    (hdeclared : ∀ named, src.scope.find? name = some named →
      Steps (R P) size (src.scope.declaredType src.resolve (name, arguments) named) Present) :
    Steps (R P) size (src.typeNamed name arguments) Present :=
  nameType hR .nil ha (fun named _ hf => hdeclared named hf) (fun _ => hP name) _

end Steps

end PropSchema.TypeScript
