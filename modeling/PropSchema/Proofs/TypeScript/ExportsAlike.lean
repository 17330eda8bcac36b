import PropSchema.Proofs.TypeScript.Exported
import PropSchema.Proofs.TypeScript.Regrouping
/-!
Modules that are alike export classes that are alike: whatever the first gives at a depth, the
second gives at the depths it may need, in a graph that is alike.
-/
namespace PropSchema.TypeScript

open Filter Resolve
variable {v : Variation} {l : Filter Nat} {w w' : Link v}

/-- Before anything is resolved, the shared primitives are paired with themselves. -/
def Link.initial (v : Variation) : Link v where
  left := .initial
  right := .initial
  rel a b := a = b ∧ a < TypeGraph.primitiveNames.length
  likeness := by
    refine ⟨?_, ?_, fun hid => ⟨rfl, hid⟩, founded_initial, founded_initial⟩
    · rintro a _ ⟨rfl, ha⟩
      have hform : TypeGraph.initial.form a = .primitive TypeGraph.primitiveNames[a] :=
        form_initial (List.getElem?_eq_getElem ha)
      change (TypeGraph.initial.form a).Alike _ _ _ (TypeGraph.initial.form a)
      rw [hform]
      exact .primitive _
    · rintro a _ b _ ⟨rfl, -⟩ ⟨rfl, -⟩
      exact Iff.rfl
  bounded := by
    rintro a _ ⟨rfl, ha⟩
    exact ⟨ha, ha⟩
  sizes _ := le_refl _
  remembered := ⟨.nil, .nil, .nil, .nil, .nil⟩

theorem monotone_rels (as bs : List NodeId) : Monotone fun w : Link v => List.Forall₂ w.rel as bs :=
  fun _ _ hw => Link.rels_mono hw

namespace Source
variable {src src' : Source}

/-- Classes at positions that stand for each other, whose type parameters are bound alike and whose
bases correspond. -/
theorem classNode_of_bases (src src' : Source) (s s' : ClassSite)
    {E : Link v → Bindings → Bindings → Prop}
    (hpositions : ∀ {p q p' q' : Nat}, v.position p q → v.position p' q' → (p = p' ↔ q = q'))
    (hs : v.position s.position s'.position) (name : String)
    (hbind : ∀ {w : Link v}, Follows (v.deep src.depth) w
      (src.scope.bindTypeParams src.resolve [] s.decl.typeParams [])
      (fun depth =>
        src'.scope.bindTypeParams { src' with depth }.resolve [] s'.decl.typeParams []) E)
    (hbases : ∀ {w : Link v} {bindings bindings' : Bindings}, E w bindings bindings' →
      Follows (v.deep src.depth) w (s.decl.heritage.mapM (src.scope.baseType src.resolve bindings))
        (fun depth =>
          s'.decl.heritage.mapM (src'.scope.baseType { src' with depth }.resolve bindings'))
        fun w => List.Forall₂ w.rel) :
    Follows (v.deep src.depth) w (src.classNode s name)
      (fun depth => { src' with depth }.classNode s' name) Link.rel := by
  refine .get_bind ?_
  have hlookup := Sequences.lookup_rel hpositions w.remembered.classes hs
  dsimp only
  generalize w.left.classes.lookup s.position = x at hlookup ⊢
  generalize w.right.classes.lookup s'.position = y at hlookup ⊢
  cases hlookup with
  | some hab => exact .pure hab
  | none =>
      refine (Follows.pushed _ _ (.classDeclaration name .nil)).bind fun w₁ hw₁ a b hab => ?_
      refine (Follows.modify rfl rfl { w₁.remembered with
        classes := .cons ⟨hs, hab.1⟩ w₁.remembered.classes }).bind fun w₂ hw₂ _ _ _ => ?_
      refine hbind.bind fun w₃ hw₃ _ _ hb => ?_
      refine (hbases hb).bind fun w₄ hw₄ as bs hbases => ?_
      have hle : w₁ ≤ w₄ := hw₂.trans (hw₃.trans hw₄)
      refine (Follows.setForm (Link.rel_mono hle hab.1) (.classDeclaration name hbases)
        rfl rfl ?_ ?_).bind fun w₅ hw₅ _ _ _ => .pure (Link.rel_mono (hle.trans hw₅) hab.1)
      · rw [hle.left.combined (w₁.bounded hab.1).1, hab.2.1]
        rfl
      · rw [hle.right.combined (w₁.bounded hab.1).2, hab.2.2]
        rfl

theorem classNode_follows (hsc : src.scope.Alike v src'.scope) {s s' : ClassSite}
    (hs : s.Alike v (TypeExpr.Alike v) s') (name : String) :
    Follows (v.deep src.depth) w (src.classNode s name)
      (fun depth => { src' with depth }.classNode s' name) Link.rel := by
  have hresolve : ResolverFollows v (v.deep src.depth) SameBindings (TypeExpr.Alike v) src.resolve
      fun depth => { src' with depth }.resolve :=
    (Scope.resolveTo_follows hsc src.depth).imp fun _ _ h => h src.depth
  exact classNode_of_bases src src' s s' hsc.positions hs.position name
    (hresolve.bindTypeParams hs.decl.typeParams .nil .nil)
    fun hb => hresolve.bases hsc hb hs.decl.heritage

theorem classesNamed_follows (hsc : src.scope.Alike v src'.scope) {name name' : String}
    (hdeclared : Scope.DeclaredAlike v name name' (src.scope.find? name) (src'.scope.find? name')) :
    Follows (v.deep src.depth) w (src.classesNamed name)
      (fun depth => { src' with depth }.classesNamed name') fun w => List.Forall₂ w.rel := by
  unfold classesNamed
  dsimp only
  generalize src.scope.find? name = x at hdeclared ⊢
  generalize src'.scope.find? name' = y at hdeclared ⊢
  cases hdeclared with
  | none => exact .pure .nil
  | some _ hn =>
      cases hn with
      | classes hfirst hmore =>
          refine .mapM monotone_rel (.cons hfirst hmore) fun w' _ s s' hs => ?_
          rw [hs.decl.name]
          exact classNode_follows hsc hs _
      | _ => exact .pure .nil

theorem exportedBy_follows (hsc : src.scope.Alike v src'.scope) {s s' : Statement × Nat}
    (hs : Statement.ExportsAlike v src.scope src'.scope s s') :
    Follows (v.deep src.depth) w (src.exportedBy s.2 s.1)
      (fun depth => { src' with depth }.exportedBy s'.2 s'.1) fun w => List.Forall₂ w.rel := by
  have hsite : ∀ {d d' : ClassDecl} {p p' : Nat} (other : String),
      d.Alike v (TypeExpr.Alike v) d' → v.position p p' → Follows (v.deep src.depth) w
        (do pure [← src.classNode ⟨p, d⟩ (d.name.getD other)])
        (fun depth => do pure [← { src' with depth }.classNode ⟨p', d'⟩ (d'.name.getD other)])
        fun w => List.Forall₂ w.rel := by
    intro d d' p p' other hd hp
    rw [hd.name]
    exact (classNode_follows hsc ⟨hp, hd⟩ _).bind fun _ _ _ _ hab => .pure (.cons hab .nil)
  cases hs with
  | declaration hd hp => exact hsite "" hd hp
  | expression hd hp => exact hsite "default" hd hp
  | name _ _ hname => exact classesNamed_follows hsc hname
  | names _ _ _ _ hnames =>
      exact (Follows.mapM monotone_rels hnames fun _ _ _ _ hname =>
        classesNamed_follows hsc hname).bind fun _ _ _ _ hs => .pure (List.rel_flatten hs)

/-- Only exporting statements count. -/
theorem exportedClasses_eq (src : Source) :
    src.exportedClasses = List.flatten <$> src.mod.exporting.mapM fun s => src.exportedBy s.2 s.1 := by
  unfold exportedClasses Module.exporting
  rw [← Sequences.flatten_mapM_filter, map_eq_pure_bind]
  rintro ⟨s, p⟩ hs
  unfold Statement.exports at hs
  unfold exportedBy
  split at hs <;> simp_all

theorem exportedClasses_follows (src src' : Source) (hsc : src.scope.Alike v src'.scope)
    (h : List.Forall₂ (Statement.ExportsAlike v src.scope src'.scope) src.mod.exporting
      src'.mod.exporting) :
    Follows (v.deep src.depth) w src.exportedClasses
      (fun depth => { src' with depth }.exportedClasses) fun w => List.Forall₂ w.rel := by
  simp only [exportedClasses_eq, map_eq_pure_bind]
  exact (Follows.mapM monotone_rels h fun _ _ _ _ hs =>
    exportedBy_follows hsc hs).bind fun _ _ _ _ hs => .pure (List.rel_flatten hs)

end Source

end PropSchema.TypeScript
