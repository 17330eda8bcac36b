import PropSchema.Proofs.TypeScript.Names
import PropSchema.Proofs.TypeScript.Rewriting
/-!
Modules that are rewritten. Statement by statement, what a name is declared as and which classes are
exported is alike, also where the statements stand at other positions.
-/
namespace PropSchema.TypeScript

section Rewrite
variable (ρ : Rewriting)

def Heritage.rewrite (h : Heritage) : Heritage :=
  ⟨ρ.baseName h.name, rewriteTypes ρ h.arguments, ρ.place h.place⟩

def Field.rewrite (f : Field) : Field :=
  { f with typeExpr := rewriteOptional ρ f.typeExpr, place := ρ.place f.place }

def ClassDecl.rewrite (d : ClassDecl) : ClassDecl :=
  ⟨d.name, rewriteTypeParams ρ d.typeParams, d.heritage.map (Heritage.rewrite ρ),
    d.fields.map (Field.rewrite ρ), ρ.place d.place⟩

def InterfaceDecl.rewrite (d : InterfaceDecl) : InterfaceDecl :=
  ⟨d.name, rewriteTypeParams ρ d.typeParams, rewriteTypes ρ d.parents,
    rewriteMembers ρ d.members, ρ.place d.place⟩

/-- An object type in parentheses, as without any it would have a record of its own. -/
def TypeExpr.asValue : TypeExpr → TypeExpr
  | .object members place => .parenthesized (.object members place)
  | t => t

/-- The value of an alias; an object type in parentheses keeps a pair of them. -/
def Rewriting.aliasValue : TypeExpr → TypeExpr
  | .object members place => .object (rewriteMembers ρ members) (ρ.place place)
  | t => (t.rewrite ρ).asValue

def AliasDecl.rewrite (d : AliasDecl) : AliasDecl :=
  ⟨d.name, rewriteTypeParams ρ d.typeParams, ρ.aliasValue d.value, ρ.place d.place⟩

def EnumDecl.rewrite (d : EnumDecl) : EnumDecl :=
  ⟨d.name, d.members.map fun m => ⟨ρ.text m.text, m.initializer, ρ.place m.place⟩, ρ.place d.place⟩

def Declaration.rewrite : Declaration → Declaration
  | .interfaceDecl d => .interfaceDecl (d.rewrite ρ)
  | .aliasDecl d => .aliasDecl (d.rewrite ρ)
  | .classDecl d => .classDecl (d.rewrite ρ)
  | .enumDecl d => .enumDecl (d.rewrite ρ)

/-- What is imported is so under another name. -/
def ImportBinding.rewrite : ImportBinding → ImportBinding
  | .whole name => .whole (ρ.name name)
  | .named imported name => .named imported (ρ.name name)

/-- Names that are exported from another module stay. -/
def Statement.rewrite : Statement → Statement
  | .imports source bindings => .imports source (bindings.map (ImportBinding.rewrite ρ))
  | .declaration d => .declaration (d.rewrite ρ)
  | .exportDeclaration d => .exportDeclaration (d.rewrite ρ)
  | .exportClass d => .exportClass (d.rewrite ρ)
  | .exportName name => .exportName (ρ.name name)
  | .exportNames names none => .exportNames (names.map ρ.name) none
  | .exportNames names (some source) => .exportNames names (some source)
  | .other => .other

def Module.rewrite (m : Module) : Module := ⟨m.path, m.statements.map (Statement.rewrite ρ)⟩

end Rewrite

def BaseName.uses : BaseName → List TypeName
  | .simple name => [.simple name]
  | .dotted name => [.dotted name]
  | .other _ => []

def Heritage.uses (h : Heritage) : List TypeName := h.name.uses ++ usesOfTypes h.arguments

def ClassDecl.uses (d : ClassDecl) : List TypeName :=
  usesOfTypeParams d.typeParams ++
    (d.heritage.flatMap Heritage.uses ++ d.fields.flatMap fun f => usesOfOptional f.typeExpr)

def Declaration.uses : Declaration → List TypeName
  | .interfaceDecl d =>
    usesOfTypeParams d.typeParams ++ (usesOfTypes d.parents ++ usesOfMembers d.members)
  | .aliasDecl d => usesOfTypeParams d.typeParams ++ d.value.uses
  | .classDecl d => d.uses
  | .enumDecl _ => []

/-- The names that occur in the types of a statement. -/
def Statement.uses : Statement → List TypeName
  | .declaration d => d.uses
  | .exportDeclaration d => d.uses
  | .exportClass d => d.uses
  | _ => []

def Module.uses (m : Module) : List TypeName := m.statements.flatMap Statement.uses

theorem TypeExpr.asValue_of_ne {t : TypeExpr} (h : ∀ members place, t ≠ .object members place) :
    t.asValue = t := by
  unfold asValue
  split
  · exact absurd rfl (h _ _)
  · rfl

/-- A name that is declared, and what as. -/
def EntryAlike (v : Variation) (e e' : String × Named) : Prop :=
  e.1 = e'.1 ∧ e.2.Alike v (TypeExpr.Alike v) e'.2

section Alike
variable {ρ : Rewriting} {v : Variation} (hbare : ρ.bare = true → v.left)
include hbare

theorem Heritage.alike_rewrite {h : Heritage} (hu : ρ.Keeps v h.uses) :
    h.Alike v (TypeExpr.Alike v) (h.rewrite ρ) := by
  obtain ⟨name, args, place⟩ := h
  obtain ⟨hname, hargs⟩ := hu.append
  refine ⟨?_, types_alike (fun t => TypeExpr.alike_rewrite hbare) hargs⟩
  cases name with
  | simple name => exact .simple hname.cons.1
  | dotted name => exact .dotted hname.cons.1
  | other text => exact .other text _

theorem ClassDecl.alike_rewrite {d : ClassDecl} (h : ρ.Keeps v d.uses) :
    d.Alike v (TypeExpr.Alike v) (d.rewrite ρ) := by
  obtain ⟨hparams, hrest⟩ := h.append
  obtain ⟨hheritage, hfields⟩ := hrest.append
  refine ⟨rfl, typeParams_alike (fun t => TypeExpr.alike_rewrite hbare) hparams, ?_, ?_⟩
  · refine List.forall₂_map_right_iff.mpr (List.forall₂_same.mpr fun x hx => ?_)
    exact Heritage.alike_rewrite hbare fun use hu => hheritage use (List.mem_flatMap.mpr ⟨x, hx, hu⟩)
  · refine List.forall₂_map_right_iff.mpr (List.forall₂_same.mpr fun f hf => ?_)
    refine ⟨rfl, optional_alike (fun t => TypeExpr.alike_rewrite hbare) fun use hu => ?_, rfl, rfl, rfl⟩
    exact hfields use (List.mem_flatMap.mpr ⟨f, hf, hu⟩)

/-- Only what is an object type, or one in parentheses, is rewritten to an object type. -/
theorem aliasValue_alike {t : TypeExpr} (h : ρ.Keeps v t.uses) :
    AliasValue.Alike v (TypeExpr.Alike v) t (ρ.aliasValue t) := by
  have halike : t.Alike v (t.rewrite ρ) := TypeExpr.alike_rewrite hbare h
  cases t with
  | object ms place =>
      rw [TypeExpr.uses] at h
      exact .object place _ (members_alike (fun t => TypeExpr.alike_rewrite hbare) h)
  | parenthesized inner =>
      have hvalue : ρ.aliasValue (.parenthesized inner) =
          ((TypeExpr.parenthesized inner).rewrite ρ).asValue := rfl
      rw [hvalue]
      by_cases hobject : ∃ ms place, (TypeExpr.parenthesized inner).rewrite ρ = .object ms place
      · obtain ⟨ms, place, heq⟩ := hobject
        have hinner : inner.rewrite ρ = .object ms place := by
          rw [TypeExpr.rewrite] at heq
          split at heq
          · exact heq
          · cases heq
        rw [TypeExpr.uses] at h
        rw [heq, TypeExpr.asValue, ← hinner]
        exact .other (.of_matches fun depth => .parenthesized (TypeExpr.alike_rewrite hbare h depth))
          (fun _ _ heq => TypeExpr.noConfusion heq) fun _ _ heq => TypeExpr.noConfusion heq
      · have hne : ∀ ms place, (TypeExpr.parenthesized inner).rewrite ρ ≠ .object ms place :=
          fun ms place heq => hobject ⟨ms, place, heq⟩
        rw [TypeExpr.asValue_of_ne hne]
        exact .other halike (fun _ _ heq => TypeExpr.noConfusion heq) hne
  | _ =>
      exact .other halike (fun _ _ heq => TypeExpr.noConfusion heq)
        fun _ _ heq => TypeExpr.noConfusion heq

theorem Declaration.declared?_alike {d : Declaration} (h : ρ.Keeps v d.uses) {p p' : Nat}
    (hp : v.position p p') :
    Option.Rel (EntryAlike v) (d.declared? p) ((d.rewrite ρ).declared? p') := by
  cases d with
  | interfaceDecl d =>
      obtain ⟨hparams, hrest⟩ := h.append
      refine .some ⟨rfl, .interfaces ⟨?_, ?_, ?_⟩ .nil⟩
      · exact typeParams_alike (fun t => TypeExpr.alike_rewrite hbare) hparams
      · exact types_alike (fun t => TypeExpr.alike_rewrite hbare) hrest.append.1
      · exact members_alike (fun t => TypeExpr.alike_rewrite hbare) hrest.append.2
  | aliasDecl d =>
      refine .some ⟨rfl, .aliases ⟨?_, aliasValue_alike hbare h.append.2⟩ .nil⟩
      exact typeParams_alike (fun t => TypeExpr.alike_rewrite hbare) h.append.1
  | classDecl d =>
      have hd := ClassDecl.alike_rewrite hbare h
      obtain ⟨name, typeParams, heritage, fields, place⟩ := d
      cases name with
      | none => exact .none
      | some name => exact .some ⟨rfl, .classes ⟨hp, hd⟩ .nil⟩
  | enumDecl d =>
      refine .some ⟨rfl, .enums ?_ .nil⟩
      exact List.forall₂_map_right_iff.mpr (List.forall₂_same.mpr fun _ _ => rfl)

end Alike

/-- Two statements at their positions, the second of which is the first rewritten. -/
structure Statement.Placed (ρ : Rewriting) (v : Variation) (s s' : Statement × Nat) : Prop where
  rewritten : s'.1 = s.1.rewrite ρ
  position : v.position s.2 s'.2
  keeps : ρ.Keeps v s.1.uses

section Placed
variable {ρ : Rewriting} {v : Variation} {statements statements' : List (Statement × Nat)}
  (hbare : ρ.bare = true → v.left)
  (h : List.Forall₂ (Statement.Placed ρ v) statements statements')
include hbare h

omit h in
theorem Statement.Placed.declared?_alike {s s' : Statement × Nat} (hs : Placed ρ v s s') :
    Option.Rel (EntryAlike v) (s.1.declared? s.2) (s'.1.declared? s'.2) := by
  have hdeclared : ∀ {d : Declaration}, ρ.Keeps v d.uses →
      Option.Rel (EntryAlike v) (d.declared? s.2) ((d.rewrite ρ).declared? s'.2) :=
    fun hd => Declaration.declared?_alike hbare hd hs.position
  have hkeeps := hs.keeps
  rw [hs.rewritten]
  generalize s.1 = statement at hkeeps ⊢
  cases statement with
  | declaration d => exact hdeclared hkeeps
  | exportDeclaration d => exact hdeclared hkeeps
  | exportNames names source => cases source <;> exact .none
  | _ => exact .none

theorem declaredAs_alike (name : String) :
    List.Forall₂ (Named.Alike v (TypeExpr.Alike v)) (declaredAs statements name)
      (declaredAs statements' name) := by
  refine List.rel_filterMap (R := EntryAlike v) ?_
    (List.rel_filterMap (fun _ _ hs => hs.declared?_alike hbare) h)
  rintro ⟨a, n⟩ ⟨_, n'⟩ ⟨rfl, hn⟩
  dsimp only
  split
  · exact .some hn
  · exact .none

end Placed

section Imports
variable {ρ : Rewriting} {v : Variation} {statements statements' : List (Statement × Nat)}

theorem frameworkBindings_rewrite (s : Statement) :
    (s.rewrite ρ).frameworkBindings = s.frameworkBindings.map (ImportBinding.rewrite ρ) := by
  cases s with
  | imports source bindings =>
      unfold Statement.rewrite Statement.frameworkBindings
      dsimp only
      split <;> rfl
  | exportNames names source => cases source <;> rfl
  | _ => rfl

theorem importedNames_of_placed (h : List.Forall₂ (Statement.Placed ρ v) statements statements') :
    importedNames statements' = (importedNames statements).map fun e => (ρ.name e.1, e.2) := by
  have himported : ∀ b : ImportBinding, (b.rewrite ρ).imported? =
      b.imported?.map fun e => (ρ.name e.1, e.2) := by
    intro b
    cases b <;> rfl
  induction h with
  | nil => rfl
  | cons hs _ ih =>
      unfold importedNames at ih ⊢
      rw [List.flatMap_cons, List.flatMap_cons, List.map_append, ← ih, hs.rewritten,
        frameworkBindings_rewrite, List.filterMap_map, List.map_filterMap]
      exact congrArg (· ++ _) (List.filterMap_congr fun b _ => himported b)

theorem importedNamespaces_of_placed
    (h : List.Forall₂ (Statement.Placed ρ v) statements statements') :
    importedNamespaces statements' = (importedNamespaces statements).map ρ.name := by
  have hnamespace : ∀ b : ImportBinding, (b.rewrite ρ).namespace? = b.namespace?.map ρ.name := by
    intro b
    cases b <;> rfl
  induction h with
  | nil => rfl
  | cons hs _ ih =>
      unfold importedNamespaces at ih ⊢
      rw [List.flatMap_cons, List.flatMap_cons, List.map_append, ← ih, hs.rewritten,
        frameworkBindings_rewrite, List.filterMap_map, List.map_filterMap]
      exact congrArg (· ++ _) (List.filterMap_congr fun b _ => hnamespace b)

end Imports

theorem Named.join_alike {v : Variation} {R : TypeExpr → TypeExpr → Prop} {n n' later later' : Named}
    (h : n.Alike v R n') (hlater : later.Alike v R later') :
    (n.join later).Alike v R (n'.join later') := by
  cases h with
  | interfaces hfirst hmore =>
      cases hlater with
      | interfaces hd hds => exact .interfaces hfirst (List.rel_append hmore (.cons hd hds))
      | aliases hd hds => exact .aliases hd hds
      | classes hd hds => exact .classes hd hds
      | enums hd hds => exact .enums hd hds
  | aliases hfirst hmore =>
      cases hlater with
      | interfaces hd hds => exact .interfaces hd hds
      | aliases hd hds => exact .aliases hfirst (List.rel_append hmore (.cons hd hds))
      | classes hd hds => exact .classes hd hds
      | enums hd hds => exact .enums hd hds
  | classes hfirst hmore =>
      cases hlater with
      | interfaces hd hds => exact .interfaces hd hds
      | aliases hd hds => exact .aliases hd hds
      | classes hd hds => exact .classes hfirst (List.rel_append hmore (.cons hd hds))
      | enums hd hds => exact .enums hd hds
  | enums hfirst hmore =>
      cases hlater with
      | interfaces hd hds => exact .interfaces hd hds
      | aliases hd hds => exact .aliases hd hds
      | classes hd hds => exact .classes hd hds
      | enums hd hds => exact .enums hfirst (List.rel_append hmore (.cons hd hds))

/-- Declarations of a name that are alike, in the same order, join to ones that are alike. -/
theorem Named.joined_alike {v : Variation} {R : TypeExpr → TypeExpr → Prop} {ns ns' : List Named}
    (h : List.Forall₂ (Named.Alike v R) ns ns') :
    Option.Rel (Named.Alike v R) (ns.foldl Named.joinTo none) (ns'.foldl Named.joinTo none) := by
  refine List.rel_foldl ?_ Option.Rel.none h
  intro earlier earlier' he later later' hlater
  cases he with
  | none => exact .some hlater
  | some he => exact .some (Named.join_alike he hlater)

/-- A name stands for what is alike among statements that are placed one by one. -/
theorem declaredAlike_of_placed {ρ : Rewriting} {v : Variation}
    {statements statements' : List (Statement × Nat)} (hbare : ρ.bare = true → v.left)
    (h : List.Forall₂ (Statement.Placed ρ v) statements statements') (name : String) :
    Scope.DeclaredAlike v name name ((declaredAs statements name).foldl Named.joinTo none)
      ((declaredAs statements' name).foldl Named.joinTo none) := by
  have hjoined := Named.joined_alike (declaredAs_alike hbare h name)
  generalize (declaredAs statements name).foldl _ _ = x at hjoined ⊢
  generalize (declaredAs statements' name).foldl _ _ = y at hjoined ⊢
  cases hjoined with
  | none => exact .none
  | some hn => exact .some rfl hn

/-- The names that an export statement names. -/
def Statement.exportedNames : Statement → List String
  | .exportName name => [name]
  | .exportNames names _ => names
  | _ => []

/-- Statements export classes that are alike if the names that they export do. -/
theorem exports_alike {ρ : Rewriting} {v : Variation} {sc sc' : Scope}
    {statements statements' : List (Statement × Nat)} (hbare : ρ.bare = true → v.left)
    (h : List.Forall₂ (Statement.Placed ρ v) statements statements')
    (hnames : ∀ s ∈ statements, ∀ name ∈ s.1.exportedNames,
      Scope.DeclaredAlike v name name (sc.find? name) (sc'.find? name) ∧
        Scope.DeclaredAlike v name (ρ.name name) (sc.find? name) (sc'.find? (ρ.name name))) :
    List.Forall₂ (Statement.ExportsAlike v sc sc') (statements.filter fun s => s.1.exports)
      (statements'.filter fun s => s.1.exports) := by
  induction h with
  | nil => exact .nil
  | @cons s s' ss ss' hs _ ih =>
      obtain ⟨s, p⟩ := s
      obtain ⟨_, p'⟩ := s'
      obtain ⟨rfl, hp, hkeeps⟩ := hs
      rw [List.forall_mem_cons] at hnames
      have hrest := ih hnames.2
      have hkept : ∀ {s s' : Statement × Nat}, s.1.exports = true → s'.1.exports = true →
          Statement.ExportsAlike v sc sc' s s' → List.Forall₂ (Statement.ExportsAlike v sc sc')
            ((s :: ss).filter fun s => s.1.exports) ((s' :: ss').filter fun s => s.1.exports) := by
        intro s s' hs hs' h
        rw [List.filter_cons_of_pos (p := fun s : Statement × Nat => s.1.exports) hs,
          List.filter_cons_of_pos (p := fun s : Statement × Nat => s.1.exports) hs']
        exact .cons h hrest
      cases s with
      | exportDeclaration d =>
          cases d with
          | classDecl d =>
              exact hkept rfl rfl (.declaration (ClassDecl.alike_rewrite hbare hkeeps) hp)
          | _ => exact hrest
      | exportClass d =>
          exact hkept rfl rfl (.expression (ClassDecl.alike_rewrite hbare hkeeps) hp)
      | exportName name =>
          exact hkept rfl rfl (.name p p' (hnames.1 name (List.mem_singleton_self name)).2)
      | exportNames names source =>
          cases source with
          | none =>
              refine hkept rfl rfl (.names none none p p' ?_)
              exact List.forall₂_map_right_iff.mpr
                (List.forall₂_same.mpr fun name hn => (hnames.1 name hn).2)
          | some source =>
              refine hkept rfl rfl (.names (some source) (some source) p p' ?_)
              exact List.forall₂_same.mpr fun name hn => (hnames.1 name hn).1
      | _ => exact hrest

end PropSchema.TypeScript
