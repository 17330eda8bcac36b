import PropSchema.Proofs.TypeScript.RewrittenModules
/-!
The size of what is rewritten. As long as parentheses stay, a module keeps its size, so that it is
resolved to the same depth.
-/
namespace PropSchema.TypeScript

variable {ρ : Rewriting}

mutual

theorem TypeExpr.size_rewrite (hbare : ρ.bare = false) :
    (t : TypeExpr) → (t.rewrite ρ).size = t.size
  | .reference _ args _ => by
    rw [TypeExpr.rewrite, TypeExpr.size, TypeExpr.size, sizeOfTypes_rewrite hbare args]
  | .object ms _ => by
    rw [TypeExpr.rewrite, TypeExpr.size, TypeExpr.size, sizeOfMembers_rewrite hbare ms]
  | .array t _ => by rw [TypeExpr.rewrite, TypeExpr.size, TypeExpr.size, t.size_rewrite hbare]
  | .tuple ts _ => by
    rw [TypeExpr.rewrite, TypeExpr.size, TypeExpr.size, sizeOfTypes_rewrite hbare ts]
  | .union ts _ => by
    rw [TypeExpr.rewrite, Rewriting.opened, hbare, if_neg Bool.false_ne_true,
      TypeExpr.size, TypeExpr.size, sizeOfTypes_rewrite hbare ts]
  | .intersection ts _ => by
    rw [TypeExpr.rewrite, Rewriting.opened, hbare, if_neg Bool.false_ne_true,
      TypeExpr.size, TypeExpr.size, sizeOfTypes_rewrite hbare ts]
  | .function c _ => by
    rw [TypeExpr.rewrite, TypeExpr.size, TypeExpr.size, sizeOfCallable_rewrite hbare c]
  | .parenthesized t => by
    rw [TypeExpr.rewrite, hbare, if_neg Bool.false_ne_true, TypeExpr.size, TypeExpr.size,
      t.size_rewrite hbare]
  | .readonly t => by rw [TypeExpr.rewrite, TypeExpr.size, TypeExpr.size, t.size_rewrite hbare]
  | .keyword _ _ | .null | .undefined | .string _ _ | .boolean _ _ | .number _ _ | .predicate
  | .assertion | .other _ _ => rfl

theorem sizeOfTypes_rewrite (hbare : ρ.bare = false) : (ts : List TypeExpr) →
    sizeOfTypes (rewriteTypes ρ ts) = sizeOfTypes ts
  | [] => rfl
  | t :: ts => by
    rw [rewriteTypes, sizeOfTypes, sizeOfTypes, t.size_rewrite hbare, sizeOfTypes_rewrite hbare ts]

theorem sizeOfOptional_rewrite (hbare : ρ.bare = false) : (t : Option TypeExpr) →
    sizeOfOptional (rewriteOptional ρ t) = sizeOfOptional t
  | none => rfl
  | some t => t.size_rewrite hbare

theorem sizeOfMember_rewrite (hbare : ρ.bare = false) : (m : Member TypeExpr) →
    sizeOfMember (rewriteMember ρ m) = sizeOfMember m
  | .property _ t _ _ => sizeOfOptional_rewrite hbare t
  | .method _ c _ _ => sizeOfCallable_rewrite hbare c

theorem sizeOfMembers_rewrite (hbare : ρ.bare = false) : (ms : List (Member TypeExpr)) →
    sizeOfMembers (rewriteMembers ρ ms) = sizeOfMembers ms
  | [] => rfl
  | m :: ms => by
    rw [rewriteMembers, sizeOfMembers, sizeOfMembers, sizeOfMember_rewrite hbare m,
      sizeOfMembers_rewrite hbare ms]

theorem sizeOfTypeParam_rewrite (hbare : ρ.bare = false) : (p : TypeParam TypeExpr) →
    sizeOfTypeParam (rewriteTypeParam ρ p) = sizeOfTypeParam p
  | ⟨_, bound, fallback, _⟩ => by
    rw [rewriteTypeParam, sizeOfTypeParam, sizeOfTypeParam, sizeOfOptional_rewrite hbare bound,
      sizeOfOptional_rewrite hbare fallback]

theorem sizeOfTypeParams_rewrite (hbare : ρ.bare = false) : (ps : List (TypeParam TypeExpr)) →
    sizeOfTypeParams (rewriteTypeParams ρ ps) = sizeOfTypeParams ps
  | [] => rfl
  | p :: ps => by
    rw [rewriteTypeParams, sizeOfTypeParams, sizeOfTypeParams, sizeOfTypeParam_rewrite hbare p,
      sizeOfTypeParams_rewrite hbare ps]

theorem sizeOfParam_rewrite (hbare : ρ.bare = false) : (p : Param TypeExpr) →
    sizeOfParam (rewriteParam ρ p) = sizeOfParam p
  | ⟨_, t, _⟩ => sizeOfOptional_rewrite hbare t

theorem sizeOfParams_rewrite (hbare : ρ.bare = false) : (ps : List (Param TypeExpr)) →
    sizeOfParams (rewriteParams ρ ps) = sizeOfParams ps
  | [] => rfl
  | p :: ps => by
    rw [rewriteParams, sizeOfParams, sizeOfParams, sizeOfParam_rewrite hbare p,
      sizeOfParams_rewrite hbare ps]

theorem sizeOfCallable_rewrite (hbare : ρ.bare = false) : (c : Callable TypeExpr) →
    sizeOfCallable (rewriteCallable ρ c) = sizeOfCallable c
  | ⟨typeParams, params, result⟩ => by
    rw [rewriteCallable, sizeOfCallable, sizeOfCallable, sizeOfTypeParams_rewrite hbare typeParams,
      sizeOfParams_rewrite hbare params, sizeOfOptional_rewrite hbare result]

end

theorem total_map {α β : Type} {f : α → β} {size : β → Nat} {size' : α → Nat}
    (h : ∀ a, size (f a) = size' a) (as : List α) : total size (as.map f) = total size' as := by
  induction as with
  | nil => rfl
  | cons a as ih => rw [List.map_cons, total, total, h, ih]

section Modules
variable (hbare : ρ.bare = false)
include hbare

theorem size_aliasValue (t : TypeExpr) : (ρ.aliasValue t).size = t.size := by
  have hsize := t.size_rewrite hbare
  cases t with
  | object ms place => rw [Rewriting.aliasValue, ← hsize, TypeExpr.rewrite]
  | parenthesized t =>
      have hparens : (TypeExpr.parenthesized t).rewrite ρ = .parenthesized (t.rewrite ρ) := by
        rw [TypeExpr.rewrite, hbare, if_neg Bool.false_ne_true]
      rw [hparens] at hsize
      rw [← hsize, ← TypeExpr.asValue_of_ne (t := .parenthesized (t.rewrite ρ)) nofun, ← hparens]
      rfl
  | _ => exact hsize

theorem ClassDecl.size_rewrite (d : ClassDecl) : (d.rewrite ρ).size = d.size := by
  unfold size rewrite
  dsimp only
  rw [sizeOfTypeParams_rewrite hbare, total_map fun h => ?_, total_map fun f => ?_]
  · exact sizeOfOptional_rewrite hbare f.typeExpr
  · exact congrArg (· + 1) (sizeOfTypes_rewrite hbare h.arguments)

theorem Declaration.size_rewrite (d : Declaration) : (d.rewrite ρ).size = d.size := by
  cases d with
  | interfaceDecl d =>
      rw [rewrite, size, size, InterfaceDecl.rewrite, sizeOfTypeParams_rewrite hbare,
        sizeOfTypes_rewrite hbare, sizeOfMembers_rewrite hbare]
  | aliasDecl d =>
      rw [rewrite, size, size, AliasDecl.rewrite, sizeOfTypeParams_rewrite hbare,
        size_aliasValue hbare]
  | classDecl d => exact d.size_rewrite hbare
  | enumDecl d => rfl

theorem Statement.size_rewrite (s : Statement) : (s.rewrite ρ).size = s.size := by
  cases s with
  | declaration d => exact d.size_rewrite hbare
  | exportDeclaration d => exact d.size_rewrite hbare
  | exportClass d => exact d.size_rewrite hbare
  | exportNames names source => cases source <;> rfl
  | _ => rfl

theorem Module.size_rewrite (m : Module) : (m.rewrite ρ).size = m.size :=
  total_map (Statement.size_rewrite hbare) m.statements

end Modules

end PropSchema.TypeScript
