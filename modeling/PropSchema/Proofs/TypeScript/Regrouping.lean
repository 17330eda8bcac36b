import Mathlib.Order.Filter.AtTopBot.Basic
import PropSchema.Proofs.TypeScript.Alongside
/-!
Types that are alike resolve alike, to any depth. Members of unions and intersections may be grouped
by parentheses on either side: a union in a union brings the same leaves, and an intersection in an
intersection is opened. Parentheses only cost depth, so the second resolution may need a greater one
if it has more of them.
-/
namespace PropSchema.TypeScript

open Filter Resolve
variable {v : Variation} {l : Filter Nat} {w w' : Link v}

/-- Members of unions that bring leaves which are paired. -/
structure Link.LeavesAlike (w : Link v) (as bs : List NodeId) : Prop where
  left : ∀ a ∈ as, a < w.left.graph.size
  right : ∀ b ∈ bs, b < w.right.graph.size
  leaves : List.Forall₂ w.rel (w.left.graph.leaves as) (w.right.graph.leaves bs)

/-- Members of intersections that are paired once some of them are opened. -/
def Link.OpenedAlike (w : Link v) (as bs : List NodeId) : Prop :=
  TypeGraph.OpenedAlike w.left.graph w.right.graph w.rel as bs

/-- What groups members of types: resolved members are alike in a way in which a group among them
may stand for its members. -/
structure Grouping (v : Variation) (make : List NodeId → Option Location → Resolve NodeId)
    (P : Link v → List NodeId → List NodeId → Prop) : Prop where
  mono : ∀ as bs, Monotone fun w => P w as bs
  nil : ∀ {w}, P w [] []
  single : ∀ {w a b}, w.rel a b → P w [a] [b]
  append : ∀ {w as bs as' bs'}, P w as bs → P w as' bs' → P w (as ++ as') (bs ++ bs')
  pair : ∀ {l w as bs} (location location' : Option Location), P w as bs →
    Follows l w (make as location) (fun _ => make bs location') Link.rel
  left : ∀ {l w as bs} (location : Option Location), v.left → as ≠ [] → P w as bs →
    Follows l w (make as location) (fun _ => pure bs) fun w a bs' => bs' = bs ∧ P w [a] bs
  right : ∀ {l w as bs} (location : Option Location), v.right → bs ≠ [] → P w as bs →
    Follows l w (pure as) (fun _ => make bs location) fun w as' b => as' = as ∧ P w as [b]

theorem openedAlike_grouping : Grouping v (fun as => push (.intersection as)) Link.OpenedAlike where
  mono as bs _ _ hw := TypeGraph.OpenedAlike.mono hw.left hw.right hw.rel
  nil := ⟨[], [], .nil, .nil, .nil⟩
  single {w a b} hab := ⟨[a], [b], .refl _, .refl _, .cons hab .nil⟩
  append := by
    rintro w as bs as' bs' ⟨xs, ys, hx, hy, hxy⟩ ⟨xs', ys', hx', hy', hxy'⟩
    exact ⟨xs ++ xs', ys ++ ys', hx.append hx', hy.append hy', List.rel_append hxy hxy'⟩
  pair location location' h := .push location location' (.intersection h)
  left := by
    rintro l w as bs location hv hne ⟨xs, ys, hx, hy, hxy⟩
    have hlt := hx.lt_size (Link.forall_lt_left hxy)
    refine (Follows.pushLeft hv (.intersection as) location hlt bs).imp ?_
    rintro w' hw a _ ⟨rfl, -, hform⟩
    refine ⟨rfl, xs, ys, ?_, hw.right.opens hy, Link.rels_mono hw hxy⟩
    rw [← List.append_nil xs]
    exact .group hform hne (hw.left.opens hx) .nil
  right := by
    rintro l w as bs location hv hne ⟨xs, ys, hx, hy, hxy⟩
    have hlt := hy.lt_size (Link.forall_lt_right hxy)
    refine (Follows.pushRight (.intersection bs) location hlt as).imp ?_
    rintro w' hw _ b ⟨rfl, -, hform⟩
    refine ⟨rfl, xs, ys, hw.left.opens hx, ?_, Link.rels_mono hw hxy⟩
    rw [← List.append_nil ys]
    exact .group hform hne (hw.right.opens hy) .nil

/-- A node that stands for the leaves of members, in the graph as it has grown, brings them. -/
theorem leaves_of_made {g h : TypeGraph} (hgh : TypeGraph.Grows g h) (hg : g.Founded)
    (hh : h.Founded) {members : List NodeId} (hlt : ∀ leaf ∈ g.leaves members, leaf < g.size)
    {a : NodeId} (ha : h.form a = .union (g.leaves members)) : h.leaves [a] = g.leaves members := by
  rw [hh.leaves_of_union ha, hgh.leaves_eq hg hh hlt, hg.leaves_leaves]

theorem Link.LeavesAlike.mono {as bs : List NodeId} (hw : w ≤ w') (h : w.LeavesAlike as bs) :
    w'.LeavesAlike as bs := by
  refine ⟨fun a ha => Nat.lt_of_lt_of_le (h.left a ha) hw.left.size,
    fun b hb => Nat.lt_of_lt_of_le (h.right b hb) hw.right.size, ?_⟩
  rw [hw.left.leaves_eq w.likeness.left w'.likeness.left h.left,
    hw.right.leaves_eq w.likeness.right w'.likeness.right h.right]
  exact Link.rels_mono hw h.leaves

theorem leavesAlike_grouping : Grouping v unionOf Link.LeavesAlike where
  mono as bs _ _ := Link.LeavesAlike.mono
  nil {w} := ⟨nofun, nofun, w.likeness.leaves_rel .nil⟩
  single {w a b} hab := by
    have hs : List.Forall₂ w.rel [a] [b] := .cons hab .nil
    exact ⟨Link.forall_lt_left hs, Link.forall_lt_right hs, w.likeness.leaves_rel hs⟩
  append {w as bs as' bs'} h h' := by
    refine ⟨List.forall_mem_append.mpr ⟨h.left, h'.left⟩,
      List.forall_mem_append.mpr ⟨h.right, h'.right⟩, ?_⟩
    rw [w.likeness.left.leaves_append, w.likeness.right.leaves_append]
    exact w.likeness.addMissing_rel h.leaves h'.leaves
  pair location location' h := .unionOf location location' h.leaves
  left {l w as bs} location hv hne h := by
    have hlt := Link.forall_lt_left h.leaves
    by_cases hone : ∃ leaf, w.left.graph.leaves as = [leaf]
    · obtain ⟨leaf, hleaf⟩ := hone
      refine (Follows.pure ⟨rfl, ?_, h.right, ?_⟩).congr (run_unionOf_of_single hleaf location)
        (.of_forall fun _ => rfl)
      · rwa [hleaf] at hlt
      · rw [← hleaf, w.likeness.left.leaves_leaves]
        exact h.leaves
    · refine ((Follows.pushLeft hv (.union _) location hlt bs).imp ?_).congr
        (run_unionOf_of_ne (not_exists.mp hone) location) (.of_forall fun _ => rfl)
      rintro w' hw a _ ⟨rfl, ha, hform⟩
      refine ⟨rfl, List.forall_mem_singleton.mpr ha, (h.mono hw).right, ?_⟩
      rw [leaves_of_made hw.left w.likeness.left w'.likeness.left hlt hform,
        hw.right.leaves_eq w.likeness.right w'.likeness.right h.right]
      exact Link.rels_mono hw h.leaves
  right {l w as bs} location hv hne h := by
    have hlt := Link.forall_lt_right h.leaves
    by_cases hone : ∃ leaf, w.right.graph.leaves bs = [leaf]
    · obtain ⟨leaf, hleaf⟩ := hone
      refine (Follows.pure ⟨rfl, h.left, ?_, ?_⟩).congr rfl
        (.of_forall fun _ => run_unionOf_of_single hleaf location)
      · rwa [hleaf] at hlt
      · rw [← hleaf, w.likeness.right.leaves_leaves]
        exact h.leaves
    · refine ((Follows.pushRight (.union _) location hlt as).imp ?_).congr rfl
        (.of_forall fun _ => run_unionOf_of_ne (not_exists.mp hone) location)
      rintro w' hw _ b ⟨rfl, hb, hform⟩
      refine ⟨rfl, (h.mono hw).left, List.forall_mem_singleton.mpr hb, ?_⟩
      rw [leaves_of_made hw.right w.likeness.right w'.likeness.right hlt hform,
        hw.left.leaves_eq w.likeness.left w'.likeness.left h.left]
      exact Link.rels_mono hw h.leaves

namespace Variation

open Classical in
/-- The depths that the second resolution may need: any one that the first needs will do, unless
the second has more parentheses. -/
noncomputable def deep (v : Variation) (depth : Nat) : Filter Nat :=
  if v.right then atTop else 𝓟 (Set.Ici depth)

variable {depth depth' : Nat}

theorem eventually_ge (v : Variation) (depth : Nat) : ∀ᶠ n in v.deep depth, depth ≤ n := by
  unfold deep
  split
  · exact eventually_ge_atTop depth
  · exact mem_principal_self _

theorem deep_mono (h : depth' ≤ depth) : v.deep depth ≤ v.deep depth' := by
  unfold deep
  split
  · exact le_refl _
  · exact principal_mono.mpr (Set.Ici_subset_Ici.mpr h)

theorem tendsto_pred (v : Variation) (depth : Nat) :
    Tendsto (fun n => n - 1) (v.deep (depth + 1)) (v.deep depth) := by
  unfold deep
  split
  · exact tendsto_sub_atTop_nat 1
  · exact tendsto_principal_principal.mpr fun _ hn => Nat.le_sub_of_add_le hn

theorem tendsto_sub {n : Nat} (h : n ≠ 0 → v.right) (depth : Nat) :
    Tendsto (fun k => k - n) (v.deep depth) (v.deep depth) := by
  by_cases hn : n = 0
  · subst hn
    exact tendsto_id
  · rw [deep, if_pos (h hn)]
    exact tendsto_sub_atTop_nat n

end Variation

/-- Parentheses cost depth, and nothing else. -/
theorem Scope.resolveTo_inParens (sc : Scope) (n depth : Nat) (bindings : Bindings) (t : TypeExpr) :
    sc.resolveTo depth bindings (t.inParens n) = sc.resolveTo (depth - n) bindings t := by
  induction n generalizing depth with
  | zero => rfl
  | succ n ih =>
      cases depth with
      | zero =>
          rw [Nat.zero_sub]
          rfl
      | succ depth =>
          rw [Nat.add_sub_add_right, ← ih]
          rfl

section Types
variable {R : TypeExpr → TypeExpr → Prop} {sc sc' : Scope} {bindings bindings' : Bindings}

/-- What members and their counterparts are resolved to: nothing where there are none. -/
def Grouped (P : Link v → List NodeId → List NodeId → Prop) (ts ts' : List TypeExpr) (w : Link v)
    (as bs : List NodeId) : Prop :=
  P w as bs ∧ (as = [] ↔ ts = []) ∧ (bs = [] ↔ ts' = [])

section Regrouped
variable {group : List TypeExpr → Place → TypeExpr}
  {make : List NodeId → Option Location → Resolve NodeId}
  {P : Link v → List NodeId → List NodeId → Prop} (hmake : Grouping v make P)
  (hgroup : ∀ (sc : Scope) resolve bindings ts place, sc.typeOf resolve bindings (group ts place) =
    ts.mapM (resolve bindings) >>= fun ids => make ids (some (sc.location place)))
  {depth : Nat} {ms ts ts' : List TypeExpr} (place : Place)
include hmake hgroup

/-- A group in parentheses goes as its members do, one step and the parentheses less deep. -/
theorem group_left_follows (hv : v.left) (n : Nat) (nonempty : ms ≠ [])
    (h : ∀ smaller < depth, Follows (v.deep smaller) w (ms.mapM (sc.resolveTo smaller bindings))
      (fun k => ts'.mapM (sc'.resolveTo k bindings')) (Grouped P ms ts')) :
    Follows (v.deep depth) w (sc.resolveTo (depth - n) bindings (group ms place))
      (fun k => ts'.mapM (sc'.resolveTo k bindings'))
      fun w a bs => P w [a] bs ∧ (bs = [] ↔ ts' = []) := by
  cases hk : depth - n with
  | zero => exact .fail _ _
  | succ smaller =>
      have hinner : Follows (v.deep smaller) w
          (ms.mapM (sc.resolveTo smaller bindings) >>= fun ids =>
            make ids (some (sc.location place)))
          (fun k => ts'.mapM (sc'.resolveTo k bindings') >>= Pure.pure)
          fun w a bs => P w [a] bs ∧ (bs = [] ↔ ts' = []) := by
        refine (h smaller (by omega)).bind fun w₁ hw₁ as bs hs => ?_
        refine (hmake.left _ hv (fun has => nonempty (hs.2.1.mp has)) hs.1).imp ?_
        rintro w₂ _ a _ ⟨rfl, ha⟩
        exact ⟨ha, hs.2.2⟩
      simp only [bind_pure] at hinner
      rw [Scope.resolveTo, hgroup]
      exact hinner.filter_mono (Variation.deep_mono (by omega))

/-- Members go as a group of theirs in parentheses does, one step and the parentheses deeper. -/
theorem group_right_follows (hv : v.right) (n : Nat) (nonempty : ms ≠ [])
    (h : Follows (v.deep depth) w (ts.mapM (sc.resolveTo depth bindings))
      (fun k => ms.mapM (sc'.resolveTo k bindings')) (Grouped P ts ms)) :
    Follows (v.deep depth) w (ts.mapM (sc.resolveTo depth bindings))
      (fun k => sc'.resolveTo (k - n) bindings' (group ms place))
      fun w as b => P w as [b] ∧ (as = [] ↔ ts = []) := by
  have hinner : Follows (v.deep depth) w
      (ts.mapM (sc.resolveTo depth bindings) >>= Pure.pure)
      (fun k => ms.mapM (sc'.resolveTo k bindings') >>= fun ids =>
        make ids (some (sc'.location place)))
      fun w as b => P w as [b] ∧ (as = [] ↔ ts = []) := by
    refine h.bind fun w₁ hw₁ as bs hs => ?_
    refine (hmake.right _ hv (fun hbs => nonempty (hs.2.2.mp hbs)) hs.1).imp ?_
    rintro w₂ _ _ b ⟨rfl, hb⟩
    exact ⟨hb, hs.2.1⟩
  rw [bind_pure] at hinner
  refine (hinner.comp (v.tendsto_sub (fun _ => hv) (n := n + 1) depth)).congr rfl ?_
  have hlarge : ∀ᶠ k in v.deep depth, n + 1 ≤ k := by
    rw [Variation.deep, if_pos hv]
    exact eventually_ge_atTop (n + 1)
  filter_upwards [hlarge] with k hk
  rw [show k - n = k - (n + 1) + 1 by omega, Scope.resolveTo, hgroup]

/-- Members that are regrouped resolve alike, if members that are alike do. -/
theorem regrouped_follows {bound : Nat} (hresolve : ∀ depth ≤ bound,
      ResolverFollows v (v.deep depth) SameBindings R (sc.resolveTo depth) sc'.resolveTo)
    (h : Regrouped group v R ts ts') (hdepth : depth ≤ bound)
    (hb : SameBindings w bindings bindings') :
    Follows (v.deep depth) w (ts.mapM (sc.resolveTo depth bindings))
      (fun n => ts'.mapM (sc'.resolveTo n bindings')) (Grouped P ts ts') := by
  induction h generalizing depth w with
  | nil =>
      simp only [List.mapM_nil]
      exact .pure ⟨hmake.nil, by simp, by simp⟩
  | cons ht _ ih =>
      simp only [List.mapM_cons]
      refine ((hresolve depth hdepth).type hb ht).bind fun w₁ hw₁ a b hab => ?_
      refine (ih hdepth (hb.mono hw₁)).bind fun w₂ hw₂ as bs hs => .pure ⟨?_, by simp, by simp⟩
      exact hmake.append (hmake.single (Link.rel_mono hw₂ hab)) hs.1
  | left hv n place nonempty _ _ ih ih' =>
      have hhead := group_left_follows hmake hgroup place hv n nonempty
        fun smaller (hlt : smaller < depth) => ih (Nat.le_trans (Nat.le_of_lt hlt) hdepth) hb
      simp only [List.mapM_cons, List.mapM_append, Scope.resolveTo_inParens]
      refine hhead.bind fun w₁ hw₁ a bs hs => ?_
      refine (ih' hdepth (hb.mono hw₁)).bind fun w₂ hw₂ as' bs' hs' => .pure ⟨?_, by simp, ?_⟩
      · exact hmake.append (hmake.mono _ _ hw₂ hs.1) hs'.1
      · rw [List.append_eq_nil_iff, List.append_eq_nil_iff, hs.2, hs'.2.2]
  | right hv n place nonempty _ _ ih ih' =>
      have hhead := group_right_follows hmake hgroup place hv n nonempty (ih hdepth hb)
      simp only [List.mapM_cons, List.mapM_append, Scope.resolveTo_inParens]
      refine hhead.bind fun w₁ hw₁ as b hs => ?_
      refine (ih' hdepth (hb.mono hw₁)).bind fun w₂ hw₂ as' bs' hs' => .pure ⟨?_, ?_, by simp⟩
      · exact hmake.append (hmake.mono _ _ hw₂ hs.1) hs'.1
      · rw [List.append_eq_nil_iff, List.append_eq_nil_iff, hs.2, hs'.2.1]

end Regrouped

/-- A type goes as the types within it. -/
theorem typeOf_follows {resolve : Resolver} {resolve' : Nat → Resolver}
    (h : ResolverFollows v l SameBindings R resolve resolve')
    (hall : ResolverFollows v l SameBindings (TypeExpr.Alike v) resolve resolve')
    (hsc : sc.Alike v sc')
    (hb : SameBindings w bindings bindings')
    (hunion : ∀ {ts ts' : List TypeExpr}, Regrouped .union v R ts ts' →
      Follows l w (ts.mapM (resolve bindings)) (fun n => ts'.mapM (resolve' n bindings'))
        Link.LeavesAlike)
    (hintersection : ∀ {ts ts' : List TypeExpr}, Regrouped .intersection v R ts ts' →
      Follows l w (ts.mapM (resolve bindings)) (fun n => ts'.mapM (resolve' n bindings'))
        Link.OpenedAlike)
    {t t' : TypeExpr} (ht : t.Matches v R t') :
    Follows l w (sc.typeOf resolve bindings t) (fun n => sc'.typeOf (resolve' n) bindings' t')
      Link.rel := by
  cases ht with
  | simple place place' hname hargs =>
      exact (h.types hb hargs).bind fun w₁ hw₁ _ _ hs =>
        hall.nameType hsc (hb.mono hw₁) hname hs (some place) (some place')
  | dotted place place' hname hargs =>
      exact (h.types hb hargs).bind fun w₁ hw₁ _ _ hs =>
        .qualifiedType (hsc.dotted hname) hs place place'
  | keyword word place place' => exact .keywordType hsc.symbols word place place'
  | null => exact .pure (w.likeness.shared (by decide))
  | undefined => exact .pure (w.likeness.shared (by decide))
  | predicate => exact .pure (w.likeness.shared (by decide))
  | assertion => exact .pure (w.likeness.shared (by decide))
  | string value place place' => exact .push _ _ (.literal _)
  | boolean value place place' => exact .push _ _ (.literal _)
  | number text place place' => exact .numberType hsc.symbols text place place'
  | object place place' hms =>
      refine (h.members hb hms).bind fun w₁ hw₁ ps qs hs => ?_
      exact .push _ _ (.record ⟨rfl, hs, rfl, .nil, .nil⟩)
  | array place place' ht =>
      exact (h.type hb ht).bind fun w₁ hw₁ a b hab => .push _ _ (.array hab)
  | tuple place place' hts =>
      exact (h.types hb hts).bind fun w₁ hw₁ as bs hs => .push _ _ (.tuple hs)
  | union place place' hts =>
      exact (hunion hts).bind fun w₁ hw₁ as bs hs => .unionOf _ _ hs.leaves
  | intersection place place' hts =>
      exact (hintersection hts).bind fun w₁ hw₁ as bs hs => .push _ _ (.intersection hs)
  | function place place' hc => exact h.functionType hb hc place place'
  | parenthesized ht => exact h.type hb ht
  | readonly ht => exact h.type hb ht
  | other text text' place place' => exact .pushUnresolved _ _ (hsc.symbols none) _ _

end Types

theorem TypeExpr.AlikeTo.mono {depth depth' : Nat} (hle : depth' ≤ depth) {t t' : TypeExpr}
    (h : TypeExpr.AlikeTo v depth t t') : TypeExpr.AlikeTo v depth' t t' := by
  induction hle with
  | refl => exact h
  | step _ ih => exact ih h.pred

namespace Scope
variable {sc sc' : Scope}

/-- A step of resolution costs one of depth on either side. -/
theorem resolveTo_succ_follows {depth : Nat} {bindings bindings' : Bindings} {t t' : TypeExpr}
    {Q : Link v → NodeId → NodeId → Prop}
    (h : Follows (v.deep depth) w (sc.typeOf (sc.resolveTo depth) bindings t)
      (fun n => sc'.typeOf (sc'.resolveTo n) bindings' t') Q) :
    Follows (v.deep (depth + 1)) w (sc.resolveTo (depth + 1) bindings t)
      (fun n => sc'.resolveTo n bindings' t') Q := by
  refine (h.comp (v.tendsto_pred depth)).congr rfl ?_
  filter_upwards [v.eventually_ge (depth + 1)] with k hk
  obtain ⟨k, rfl⟩ := Nat.exists_eq_add_of_le' hk
  rfl

/-- Types that are alike down to a depth resolve alike to that depth. -/
theorem resolveTo_follows (hsc : sc.Alike v sc') (depth : Nat) :
    ResolverFollows v (v.deep depth) SameBindings (TypeExpr.AlikeTo v depth) (sc.resolveTo depth)
      sc'.resolveTo := by
  induction depth using Nat.strongRecOn with
  | ind depth ih =>
      refine ⟨fun hw hb => hb.mono hw, fun {w bindings bindings' t t'} hb ht => ?_⟩
      cases depth with
      | zero => exact .fail _ _
      | succ depth =>
          obtain @⟨n, n', u, u', hn, hn', hu⟩ := ht
          have hresolve : ∀ smaller ≤ depth, ResolverFollows v (v.deep smaller) SameBindings
              (TypeExpr.AlikeTo v depth) (sc.resolveTo smaller) sc'.resolveTo :=
            fun smaller hle => (ih smaller (Nat.lt_succ_of_le hle)).imp fun _ _ => .mono hle
          -- the parentheses of the first type have used up some of its depth
          have hinner : Follows (v.deep (depth + 1)) w (sc.resolveTo (depth + 1 - n) bindings u)
              (fun k => sc'.resolveTo k bindings' u') Link.rel := by
            cases hk : depth + 1 - n with
            | zero => exact .fail _ _
            | succ smaller =>
                have hle : smaller ≤ depth := by omega
                have hunion : ∀ {ts ts'}, Regrouped .union v (TypeExpr.AlikeTo v depth) ts ts' → _ :=
                  fun hts => regrouped_follows leavesAlike_grouping (fun _ _ _ _ _ => rfl) hresolve
                    hts hle hb
                have hintersection : ∀ {ts ts'},
                    Regrouped .intersection v (TypeExpr.AlikeTo v depth) ts ts' → _ :=
                  fun hts => regrouped_follows openedAlike_grouping (fun _ _ _ _ _ => rfl) hresolve
                    hts hle hb
                have hstep := typeOf_follows (hresolve smaller hle)
                  ((hresolve smaller hle).imp fun _ _ h => h depth) hsc hb
                  (fun hts => (hunion hts).imp fun _ _ _ _ hs => hs.1)
                  (fun hts => (hintersection hts).imp fun _ _ _ _ hs => hs.1) hu
                exact (resolveTo_succ_follows hstep).filter_mono
                  (Variation.deep_mono (Nat.succ_le_succ hle))
          simp only [resolveTo_inParens]
          exact hinner.comp (Variation.tendsto_sub hn' (depth + 1))

end Scope

end PropSchema.TypeScript
