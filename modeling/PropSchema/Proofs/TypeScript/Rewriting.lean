import PropSchema.Proofs.TypeScript.Alike
import PropSchema.Proofs.TypeScript.Termination
/-!
Types and modules that are rewritten: names may be replaced by others, places and texts that mean
nothing may change, and redundant parentheses may be left out. What results is alike, if the names
stand for each other.
-/
namespace PropSchema.TypeScript

/-- What is changed in a module. Names of declarations stay. -/
structure Rewriting where
  name : String → String
  place : Place → Place
  /-- Of types of which only the text is kept. -/
  text : String → String
  /-- Whether parentheses are left out. -/
  bare : Bool

/-- The members that a type brings into a union, if parentheses around it are left out. -/
def TypeExpr.unionMembers : TypeExpr → List TypeExpr
  | .union (t :: ts) _ => t :: ts
  | t => [t]

def TypeExpr.intersectionMembers : TypeExpr → List TypeExpr
  | .intersection (t :: ts) _ => t :: ts
  | t => [t]

namespace Rewriting

def typeName (ρ : Rewriting) : TypeName → TypeName
  | .simple name => .simple (ρ.name name)
  | .dotted name => .dotted ⟨ρ.name name.head, name.rest⟩

def baseName (ρ : Rewriting) : BaseName → BaseName
  | .simple name => .simple (ρ.name name)
  | .dotted name => .dotted ⟨ρ.name name.head, name.rest⟩
  | .other text => .other (ρ.text text)

/-- Members of unions or intersections, in which groups are opened if they have no parentheses. -/
def opened (ρ : Rewriting) (members : TypeExpr → List TypeExpr) (ts : List TypeExpr) :
    List TypeExpr :=
  if ρ.bare then ts.flatMap members else ts

end Rewriting

mutual

def TypeExpr.rewrite (ρ : Rewriting) : TypeExpr → TypeExpr
  | .reference name arguments place =>
    .reference (ρ.typeName name) (rewriteTypes ρ arguments) (ρ.place place)
  | .keyword word place => .keyword word (ρ.place place)
  | .null => .null
  | .undefined => .undefined
  | .string value place => .string value (ρ.place place)
  | .boolean value place => .boolean value (ρ.place place)
  | .number text place => .number text (ρ.place place)
  | .object members place => .object (rewriteMembers ρ members) (ρ.place place)
  | .array element place => .array (element.rewrite ρ) (ρ.place place)
  | .tuple elements place => .tuple (rewriteTypes ρ elements) (ρ.place place)
  | .union members place =>
    .union (ρ.opened TypeExpr.unionMembers (rewriteTypes ρ members)) (ρ.place place)
  | .intersection members place =>
    .intersection (ρ.opened TypeExpr.intersectionMembers (rewriteTypes ρ members)) (ρ.place place)
  | .function callable place => .function (rewriteCallable ρ callable) (ρ.place place)
  | .predicate => .predicate
  | .assertion => .assertion
  | .parenthesized inner =>
    if ρ.bare then inner.rewrite ρ else .parenthesized (inner.rewrite ρ)
  | .readonly inner => .readonly (inner.rewrite ρ)
  | .other text place => .other (ρ.text text) (ρ.place place)

def rewriteTypes (ρ : Rewriting) : List TypeExpr → List TypeExpr
  | [] => []
  | t :: ts => t.rewrite ρ :: rewriteTypes ρ ts

def rewriteOptional (ρ : Rewriting) : Option TypeExpr → Option TypeExpr
  | none => none
  | some t => some (t.rewrite ρ)

def rewriteMember (ρ : Rewriting) : Member TypeExpr → Member TypeExpr
  | .property name typeExpr optional place =>
    .property name (rewriteOptional ρ typeExpr) optional (ρ.place place)
  | .method name callable optional place =>
    .method name (rewriteCallable ρ callable) optional (ρ.place place)

def rewriteMembers (ρ : Rewriting) : List (Member TypeExpr) → List (Member TypeExpr)
  | [] => []
  | m :: ms => rewriteMember ρ m :: rewriteMembers ρ ms

def rewriteTypeParam (ρ : Rewriting) : TypeParam TypeExpr → TypeParam TypeExpr
  | ⟨name, bound, fallback, place⟩ =>
    ⟨ρ.name name, rewriteOptional ρ bound, rewriteOptional ρ fallback, ρ.place place⟩

def rewriteTypeParams (ρ : Rewriting) : List (TypeParam TypeExpr) → List (TypeParam TypeExpr)
  | [] => []
  | p :: ps => rewriteTypeParam ρ p :: rewriteTypeParams ρ ps

def rewriteParam (ρ : Rewriting) : Param TypeExpr → Param TypeExpr
  | ⟨name, typeExpr, optional⟩ => ⟨name, rewriteOptional ρ typeExpr, optional⟩

def rewriteParams (ρ : Rewriting) : List (Param TypeExpr) → List (Param TypeExpr)
  | [] => []
  | p :: ps => rewriteParam ρ p :: rewriteParams ρ ps

def rewriteCallable (ρ : Rewriting) : Callable TypeExpr → Callable TypeExpr
  | ⟨typeParams, params, result⟩ =>
    ⟨rewriteTypeParams ρ typeParams, rewriteParams ρ params, rewriteOptional ρ result⟩

end

mutual

/-- The names that occur in a type, those that it binds included. -/
def TypeExpr.uses : TypeExpr → List TypeName
  | .reference name arguments _ => name :: usesOfTypes arguments
  | .object members _ => usesOfMembers members
  | .array element _ => element.uses
  | .tuple elements _ => usesOfTypes elements
  | .union members _ => usesOfTypes members
  | .intersection members _ => usesOfTypes members
  | .function callable _ => usesOfCallable callable
  | .parenthesized inner => inner.uses
  | .readonly inner => inner.uses
  | _ => []

def usesOfTypes : List TypeExpr → List TypeName
  | [] => []
  | t :: ts => t.uses ++ usesOfTypes ts

def usesOfOptional : Option TypeExpr → List TypeName
  | none => []
  | some t => t.uses

def usesOfMember : Member TypeExpr → List TypeName
  | .property _ typeExpr _ _ => usesOfOptional typeExpr
  | .method _ callable _ _ => usesOfCallable callable

def usesOfMembers : List (Member TypeExpr) → List TypeName
  | [] => []
  | m :: ms => usesOfMember m ++ usesOfMembers ms

def usesOfTypeParam : TypeParam TypeExpr → List TypeName
  | ⟨name, bound, fallback, _⟩ => .simple name :: (usesOfOptional bound ++ usesOfOptional fallback)

def usesOfTypeParams : List (TypeParam TypeExpr) → List TypeName
  | [] => []
  | p :: ps => usesOfTypeParam p ++ usesOfTypeParams ps

def usesOfParam : Param TypeExpr → List TypeName
  | ⟨_, typeExpr, _⟩ => usesOfOptional typeExpr

def usesOfParams : List (Param TypeExpr) → List TypeName
  | [] => []
  | p :: ps => usesOfParam p ++ usesOfParams ps

def usesOfCallable : Callable TypeExpr → List TypeName
  | ⟨typeParams, params, result⟩ =>
    usesOfTypeParams typeParams ++ (usesOfParams params ++ usesOfOptional result)

end

/-- Names of types that stand for each other. -/
def Variation.typeName (v : Variation) : TypeName → TypeName → Prop
  | .simple name, .simple name' => v.name name name'
  | .dotted name, .dotted name' => v.dotted name name'
  | _, _ => False

/-- Names stand for what they are replaced by. -/
def Rewriting.Keeps (ρ : Rewriting) (v : Variation) (uses : List TypeName) : Prop :=
  ∀ use ∈ uses, v.typeName use (ρ.typeName use)

section Alike
variable {ρ : Rewriting} {v : Variation} {R : TypeExpr → TypeExpr → Prop}

theorem Rewriting.Keeps.append {us us' : List TypeName} (h : ρ.Keeps v (us ++ us')) :
    ρ.Keeps v us ∧ ρ.Keeps v us' :=
  List.forall_mem_append.mp h

theorem Rewriting.Keeps.cons {use : TypeName} {uses : List TypeName} (h : ρ.Keeps v (use :: uses)) :
    v.typeName use (ρ.typeName use) ∧ ρ.Keeps v uses :=
  List.forall_mem_cons.mp h

section Parts
variable (hR : ∀ t, ρ.Keeps v t.uses → R t (t.rewrite ρ))
include hR

theorem types_alike {ts : List TypeExpr} (h : ρ.Keeps v (usesOfTypes ts)) :
    List.Forall₂ R ts (rewriteTypes ρ ts) := by
  induction ts with
  | nil => exact .nil
  | cons t ts ih =>
      rw [usesOfTypes] at h
      exact .cons (hR t h.append.1) (ih h.append.2)

theorem optional_alike {t : Option TypeExpr} (h : ρ.Keeps v (usesOfOptional t)) :
    Option.Rel R t (rewriteOptional ρ t) := by
  cases t with
  | none => exact .none
  | some t => exact .some (hR t h)

theorem typeParams_alike {ps : List (TypeParam TypeExpr)} (h : ρ.Keeps v (usesOfTypeParams ps)) :
    List.Forall₂ (TypeParam.Alike v R) ps (rewriteTypeParams ρ ps) := by
  induction ps with
  | nil => exact .nil
  | cons p ps ih =>
      rw [usesOfTypeParams] at h
      refine .cons ?_ (ih h.append.2)
      have hp := h.append.1
      obtain ⟨name, bound, fallback, place⟩ := p
      rw [usesOfTypeParam] at hp
      obtain ⟨hname, hparts⟩ := hp.cons
      exact ⟨hname, optional_alike hR hparts.append.1, optional_alike hR hparts.append.2⟩

theorem params_alike {ps : List (Param TypeExpr)} (h : ρ.Keeps v (usesOfParams ps)) :
    List.Forall₂ (Param.Alike R) ps (rewriteParams ρ ps) := by
  induction ps with
  | nil => exact .nil
  | cons p ps ih =>
      rw [usesOfParams] at h
      obtain ⟨name, typeExpr, optional⟩ := p
      exact .cons ⟨rfl, optional_alike hR h.append.1, rfl⟩ (ih h.append.2)

theorem callable_alike {c : Callable TypeExpr} (h : ρ.Keeps v (usesOfCallable c)) :
    c.Alike v R (rewriteCallable ρ c) := by
  obtain ⟨typeParams, params, result⟩ := c
  rw [usesOfCallable] at h
  have hrest := h.append.2
  exact ⟨typeParams_alike hR h.append.1, params_alike hR hrest.append.1,
    optional_alike hR hrest.append.2⟩

theorem members_alike {ms : List (Member TypeExpr)} (h : ρ.Keeps v (usesOfMembers ms)) :
    List.Forall₂ (Member.Alike v R) ms (rewriteMembers ρ ms) := by
  induction ms with
  | nil => exact .nil
  | cons m ms ih =>
      rw [usesOfMembers] at h
      refine .cons ?_ (ih h.append.2)
      have hm := h.append.1
      cases m with
      | property name t optional place => exact .property name optional place _ (optional_alike hR hm)
      | method name c optional place => exact .method name optional place _ (callable_alike hR hm)

end Parts

/-- Parentheses around a type that has none itself. -/
theorem exists_inParens : (t : TypeExpr) →
    ∃ n u, t = TypeExpr.inParens n u ∧ ∀ inner, u ≠ .parenthesized inner
  | .parenthesized inner => by
    obtain ⟨n, u, hinner, hu⟩ := exists_inParens inner
    exact ⟨n + 1, u, by rw [hinner]; rfl, hu⟩
  | .reference _ _ _ | .keyword _ _ | .null | .undefined | .string _ _ | .boolean _ _
  | .number _ _ | .object _ _ | .array _ _ | .tuple _ _ | .union _ _ | .intersection _ _
  | .function _ _ | .predicate | .assertion | .readonly _ | .other _ _ => ⟨0, _, rfl, nofun⟩

theorem rewrite_inParens (hbare : ρ.bare = true) (n : Nat) (t : TypeExpr) :
    (t.inParens n).rewrite ρ = t.rewrite ρ := by
  induction n with
  | zero => rfl
  | succ n ih => rw [TypeExpr.inParens, TypeExpr.rewrite, if_pos hbare, ih]

theorem uses_inParens (n : Nat) (t : TypeExpr) : (t.inParens n).uses = t.uses := by
  induction n with
  | zero => rfl
  | succ n ih => rw [TypeExpr.inParens, TypeExpr.uses, ih]

theorem size_le_inParens (n : Nat) (t : TypeExpr) : t.size ≤ (t.inParens n).size := by
  induction n with
  | zero => exact Nat.le_refl _
  | succ n ih =>
      rw [TypeExpr.inParens, TypeExpr.size]
      exact Nat.le_succ_of_le ih

/-- A form of types with members, and the members that a type brings into another of the form. -/
structure GroupForm (ρ : Rewriting) (group : List TypeExpr → Place → TypeExpr)
    (members : TypeExpr → List TypeExpr) : Prop where
  rewrite : ∀ ts place, (group ts place).rewrite ρ =
    group (ρ.opened members (rewriteTypes ρ ts)) (ρ.place place)
  uses : ∀ ts place, (group ts place).uses = usesOfTypes ts
  size : ∀ ts place, (group ts place).size = sizeOfTypes ts + 1
  members_group : ∀ t ts place, members (group (t :: ts) place) = t :: ts
  members_empty : ∀ place, members (group [] place) = [group [] place]
  members_other : ∀ t, (∀ inner, t ≠ .parenthesized inner) → (∀ ts place, t ≠ group ts place) →
    members (t.rewrite ρ) = [t.rewrite ρ]
  members_ne_nil : ∀ t, members t ≠ []

theorem unionForm (ρ : Rewriting) : GroupForm ρ .union TypeExpr.unionMembers where
  rewrite _ _ := by rw [TypeExpr.rewrite]
  uses _ _ := by rw [TypeExpr.uses]
  size _ _ := by rw [TypeExpr.size]
  members_group _ _ _ := rfl
  members_empty _ := rfl
  members_other t hparens hgroup := by
    cases t <;> simp_all [TypeExpr.rewrite, TypeExpr.unionMembers]
  members_ne_nil t := by
    unfold TypeExpr.unionMembers
    split <;> simp

theorem intersectionForm (ρ : Rewriting) :
    GroupForm ρ .intersection TypeExpr.intersectionMembers where
  rewrite _ _ := by rw [TypeExpr.rewrite]
  uses _ _ := by rw [TypeExpr.uses]
  size _ _ := by rw [TypeExpr.size]
  members_group _ _ _ := rfl
  members_empty _ := rfl
  members_other t hparens hgroup := by
    cases t <;> simp_all [TypeExpr.rewrite, TypeExpr.intersectionMembers]
  members_ne_nil t := by
    unfold TypeExpr.intersectionMembers
    split <;> simp

theorem Regrouped.of_forall₂ {group : List TypeExpr → Place → TypeExpr} {ts ts' : List TypeExpr}
    (h : List.Forall₂ R ts ts') : Regrouped group v R ts ts' := by
  induction h with
  | nil => exact .nil
  | cons h _ ih => exact .cons h ih

variable {group : List TypeExpr → Place → TypeExpr} {members : TypeExpr → List TypeExpr}

/-- Groups among members are opened where they have no parentheses any more. -/
theorem GroupForm.exists_opened (hform : GroupForm ρ group members) (hb : ρ.bare = true)
    (t : TypeExpr) (ts : List TypeExpr) :
    ∃ x xs, ρ.opened members (rewriteTypes ρ (t :: ts)) = x :: xs := by
  refine List.exists_cons_of_ne_nil ?_
  rw [rewriteTypes, Rewriting.opened, if_pos hb, List.flatMap_cons]
  exact List.append_ne_nil_of_left_ne_nil (hform.members_ne_nil _) _

theorem GroupForm.regrouped (hform : GroupForm ρ group members) (hbare : ρ.bare = true → v.left)
    (hR : ∀ t, ρ.Keeps v t.uses → R t (t.rewrite ρ)) {ts : List TypeExpr}
    (h : ρ.Keeps v (usesOfTypes ts)) :
    Regrouped group v R ts (ρ.opened members (rewriteTypes ρ ts)) := by
  by_cases hb : ρ.bare = true
  · have hopened : ∀ ts, ρ.opened members ts = ts.flatMap members := fun ts => if_pos hb
    induction hsize : sizeOfTypes ts using Nat.strongRecOn generalizing ts with
    | ind size ih =>
        subst hsize
        cases ts with
        | nil =>
            rw [rewriteTypes, hopened]
            exact .nil
        | cons t ts =>
            rw [usesOfTypes] at h
            rw [sizeOfTypes] at ih
            have hrest : Regrouped group v R ts (ρ.opened members (rewriteTypes ρ ts)) :=
              ih _ (Nat.lt_add_of_pos_left t.size_pos) h.append.2 rfl
            have ht := hR t h.append.1
            rw [rewriteTypes, hopened, List.flatMap_cons, ← hopened]
            obtain ⟨n, u, rfl, hu⟩ := exists_inParens t
            rw [rewrite_inParens hb] at ht ⊢
            by_cases hgroup : ∃ ms place, u = group ms place
            · obtain ⟨ms, place, rfl⟩ := hgroup
              cases ms with
              | nil =>
                  have hnil : ρ.opened members (rewriteTypes ρ []) = [] := by
                    rw [rewriteTypes, hopened, List.flatMap_nil]
                  rw [hform.rewrite, hnil] at ht ⊢
                  rw [hform.members_empty]
                  exact .cons ht hrest
              | cons m ms =>
                  have huses := h.append.1
                  rw [uses_inParens, hform.uses] at huses
                  have hsize := size_le_inParens n (group (m :: ms) place)
                  rw [hform.size] at hsize
                  have hinner : Regrouped group v R (m :: ms)
                      (ρ.opened members (rewriteTypes ρ (m :: ms))) := ih _ (by omega) huses rfl
                  rw [hform.rewrite]
                  obtain ⟨x, xs, hx⟩ := hform.exists_opened hb m ms
                  rw [hx] at hinner ⊢
                  rw [hform.members_group]
                  exact .left (hbare hb) n place (List.cons_ne_nil m ms) hinner hrest
            · rw [hform.members_other u hu fun ms place he => hgroup ⟨ms, place, he⟩]
              exact .cons ht hrest
  · rw [Rewriting.opened, if_neg hb]
    exact .of_forall₂ (types_alike hR h)

theorem TypeExpr.AlikeBy.paren {t t' : TypeExpr} (hv : v.left) (h : t.AlikeBy v R t') :
    (TypeExpr.parenthesized t).AlikeBy v R t' := by
  obtain @⟨n, n', t, t', -, hn', h⟩ := h
  exact @TypeExpr.AlikeBy.mk v R (n + 1) n' t t' (fun _ => hv) hn' h

/-- A type is alike to what it is rewritten to, if its parts are. -/
theorem TypeExpr.alikeBy_rewrite (hbare : ρ.bare = true → v.left)
    (hR : ∀ t, ρ.Keeps v t.uses → R t (t.rewrite ρ)) : (t : TypeExpr) → ρ.Keeps v t.uses →
      t.AlikeBy v R (t.rewrite ρ)
  | .parenthesized inner, h => by
    rw [TypeExpr.uses] at h
    rw [TypeExpr.rewrite]
    split
    · next hb => exact (alikeBy_rewrite hbare hR inner h).paren (hbare hb)
    · exact (Matches.parenthesized (hR inner h)).alikeBy
  | .reference name args place, h => by
    rw [TypeExpr.uses] at h
    rw [TypeExpr.rewrite]
    obtain ⟨hname, hargs⟩ := h.cons
    cases name with
    | simple name => exact (Matches.simple place _ hname (types_alike hR hargs)).alikeBy
    | dotted name => exact (Matches.dotted place _ hname (types_alike hR hargs)).alikeBy
  | .keyword word place, _ => (Matches.keyword word place _).alikeBy
  | .null, _ => Matches.null.alikeBy
  | .undefined, _ => Matches.undefined.alikeBy
  | .string value place, _ => (Matches.string value place _).alikeBy
  | .boolean value place, _ => (Matches.boolean value place _).alikeBy
  | .number text place, _ => (Matches.number text place _).alikeBy
  | .object ms place, h => by
    rw [TypeExpr.uses] at h
    exact (Matches.object place _ (members_alike hR h)).alikeBy
  | .array t place, h => by
    rw [TypeExpr.uses] at h
    exact (Matches.array place _ (hR t h)).alikeBy
  | .tuple ts place, h => by
    rw [TypeExpr.uses] at h
    exact (Matches.tuple place _ (types_alike hR h)).alikeBy
  | .union ts place, h => by
    rw [TypeExpr.uses] at h
    rw [TypeExpr.rewrite]
    exact (Matches.union place _ ((unionForm ρ).regrouped hbare hR h)).alikeBy
  | .intersection ts place, h => by
    rw [TypeExpr.uses] at h
    rw [TypeExpr.rewrite]
    exact (Matches.intersection place _ ((intersectionForm ρ).regrouped hbare hR h)).alikeBy
  | .function c place, h => by
    rw [TypeExpr.uses] at h
    exact (Matches.function place _ (callable_alike hR h)).alikeBy
  | .predicate, _ => Matches.predicate.alikeBy
  | .assertion, _ => Matches.assertion.alikeBy
  | .readonly t, h => by
    rw [TypeExpr.uses] at h
    exact (Matches.readonly (hR t h)).alikeBy
  | .other text place, _ => (Matches.other text _ place _).alikeBy

/-- A type is alike to what it is rewritten to, if its names are kept. -/
theorem TypeExpr.alike_rewrite (hbare : ρ.bare = true → v.left) {t : TypeExpr}
    (h : ρ.Keeps v t.uses) : t.Alike v (t.rewrite ρ) := by
  intro depth
  induction depth generalizing t with
  | zero => trivial
  | succ depth ih => exact alikeBy_rewrite hbare (fun _ => ih) t h

end Alike

end PropSchema.TypeScript
