import PropSchema.TypeScript.Scope
/-!
The names that types and declarations mention, and what is mentioned before a declared type is
known: the value of an alias, unless that is an object type, and the defaults and bounds of type
parameters without argument.
-/
namespace PropSchema.TypeScript

/-- A name with the number of type arguments that it is given. -/
abbrev Mention := String × Nat

mutual

/-- The names that a type mentions, but for those that are bound. -/
def TypeExpr.mentions (bound : List String) : TypeExpr → List Mention
  | .reference (.simple name) arguments _ =>
    (if bound.contains name then [] else [(name, arguments.length)]) ++
      mentionsOfTypes bound arguments
  | .reference (.dotted _) arguments _ => mentionsOfTypes bound arguments
  | .object members _ => mentionsOfMembers bound members
  | .array element _ => element.mentions bound
  | .tuple elements _ => mentionsOfTypes bound elements
  | .union members _ => mentionsOfTypes bound members
  | .intersection members _ => mentionsOfTypes bound members
  | .function callable _ => mentionsOfCallable bound callable
  | .parenthesized inner => inner.mentions bound
  | .readonly inner => inner.mentions bound
  | _ => []

def mentionsOfTypes (bound : List String) : List TypeExpr → List Mention
  | [] => []
  | t :: ts => t.mentions bound ++ mentionsOfTypes bound ts

def mentionsOfOptional (bound : List String) : Option TypeExpr → List Mention
  | none => []
  | some t => t.mentions bound

def mentionsOfMember (bound : List String) : Member TypeExpr → List Mention
  | .property _ typeExpr _ _ => mentionsOfOptional bound typeExpr
  | .method _ callable _ _ => mentionsOfCallable bound callable

def mentionsOfMembers (bound : List String) : List (Member TypeExpr) → List Mention
  | [] => []
  | m :: ms => mentionsOfMember bound m ++ mentionsOfMembers bound ms

/-- A default sees the parameters before its own, a bound sees its own as well. -/
def mentionsOfTypeParam (bound : List String) : TypeParam TypeExpr → List Mention
  | ⟨name, limit, fallback, _⟩ =>
    mentionsOfOptional bound fallback ++ mentionsOfOptional (name :: bound) limit

def mentionsOfTypeParams (bound : List String) : List (TypeParam TypeExpr) → List Mention
  | [] => []
  | p :: ps => mentionsOfTypeParam bound p ++ mentionsOfTypeParams (p.name :: bound) ps

def mentionsOfParam (bound : List String) : Param TypeExpr → List Mention
  | ⟨_, typeExpr, _⟩ => mentionsOfOptional bound typeExpr

def mentionsOfParams (bound : List String) : List (Param TypeExpr) → List Mention
  | [] => []
  | p :: ps => mentionsOfParam bound p ++ mentionsOfParams bound ps

def mentionsOfCallable (bound : List String) : Callable TypeExpr → List Mention
  | ⟨typeParams, params, result⟩ =>
    mentionsOfTypeParams bound typeParams ++
      (mentionsOfParams (typeParams.map TypeParam.name ++ bound) params ++
        mentionsOfOptional (typeParams.map TypeParam.name ++ bound) result)

end

/-- What type parameters mention of which only the first few have arguments. -/
def mentionsOfUnbound (bound : List String) : Nat → List (TypeParam TypeExpr) → List Mention
  | 0, ps => mentionsOfTypeParams bound ps
  | _ + 1, [] => []
  | n + 1, p :: ps => mentionsOfUnbound (p.name :: bound) n ps

def Heritage.mentions (bound : List String) (h : Heritage) : List Mention :=
  match h.name with
  | .simple name => TypeExpr.mentions bound (.reference (.simple name) h.arguments h.place)
  | .dotted _ => mentionsOfTypes bound h.arguments
  | .other _ => mentionsOfTypes bound h.arguments

namespace Named

def typeParams : Named → List (TypeParam TypeExpr)
  | .interfaces first _ => first.typeParams
  | .aliases first _ => first.typeParams
  | .classes first _ => first.decl.typeParams
  | .enums _ _ => []

/-- The names of the type parameters, which the parts of a declaration see. -/
def bound (named : Named) : List String := named.typeParams.map TypeParam.name

/-- Whether a declaration is known before its parts are. -/
def isRecord : Named → Bool
  | .interfaces _ _ => true
  | .aliases first _ => match first.value with
    | .object _ _ => true
    | _ => false
  | .classes _ _ => true
  | .enums _ _ => false

theorem isRecord_aliases {first : AliasDecl} {more : List AliasDecl} :
    (aliases first more).isRecord ↔ ∃ members place, first.value = .object members place := by
  cases hvalue : first.value <;> simp [isRecord, hvalue]

/--
What is needed before a declared type with a number of arguments is known: the parameters without
argument, and the value of an alias.
-/
def needed (named : Named) (arity : Nat) : List Mention :=
  mentionsOfUnbound [] arity named.typeParams ++
    match named with
    | .aliases first _ => if named.isRecord then [] else first.value.mentions named.bound
    | _ => []

/-- What a declaration mentions in its parts. -/
def mentions (named : Named) : List Mention :=
  match named with
  | .interfaces first more =>
    (first :: more).flatMap (fun d => mentionsOfMembers named.bound d.members) ++
      (first :: more).flatMap fun d => mentionsOfTypes named.bound d.parents
  | .aliases first _ => first.value.mentions named.bound
  | .classes first _ =>
    first.decl.heritage.flatMap (Heritage.mentions named.bound) ++
      first.decl.fields.flatMap fun f => mentionsOfOptional named.bound f.typeExpr
  | .enums _ _ => []

end Named

section Parts
variable {bound : List String}

theorem mentions_subset_types {ts : List TypeExpr} {t : TypeExpr} (ht : t ∈ ts) :
    t.mentions bound ⊆ mentionsOfTypes bound ts := by
  intro m hm
  induction ts with
  | nil => cases ht
  | cons t' ts ih =>
      rw [mentionsOfTypes, List.mem_append]
      obtain rfl | ht := List.mem_cons.mp ht
      · exact .inl hm
      · exact .inr (ih ht)

theorem mentions_subset_members {ms : List (Member TypeExpr)} {member : Member TypeExpr}
    (hmem : member ∈ ms) : mentionsOfMember bound member ⊆ mentionsOfMembers bound ms := by
  intro m hm
  induction ms with
  | nil => cases hmem
  | cons member' ms ih =>
      rw [mentionsOfMembers, List.mem_append]
      obtain rfl | hmem := List.mem_cons.mp hmem
      · exact .inl hm
      · exact .inr (ih hmem)

theorem mentions_subset_params {ps : List (Param TypeExpr)} {p : Param TypeExpr} (hp : p ∈ ps) :
    mentionsOfOptional bound p.typeExpr ⊆ mentionsOfParams bound ps := by
  intro m hm
  induction ps with
  | nil => cases hp
  | cons p' ps ih =>
      rw [mentionsOfParams, List.mem_append]
      obtain rfl | hp := List.mem_cons.mp hp
      · obtain ⟨name, typeExpr, optional⟩ := p
        exact .inl hm
      · exact .inr (ih hp)

theorem fallback_subset {param : TypeParam TypeExpr} {type : TypeExpr}
    (hf : param.fallback = some type) :
    type.mentions bound ⊆ mentionsOfTypeParam bound param := by
  obtain ⟨name, limit, fallback, place⟩ := param
  cases hf
  exact List.subset_append_left _ _

theorem bound_subset {param : TypeParam TypeExpr} {type : TypeExpr}
    (hb : param.bound = some type) :
    type.mentions (param.name :: bound) ⊆ mentionsOfTypeParam bound param := by
  obtain ⟨name, limit, fallback, place⟩ := param
  cases hb
  exact List.subset_append_right _ _

theorem unbound_head_subset {param : TypeParam TypeExpr} {params : List (TypeParam TypeExpr)} :
    mentionsOfTypeParam bound param ⊆ mentionsOfUnbound bound 0 (param :: params) :=
  List.subset_append_left _ _

theorem unbound_tail_subset {param : TypeParam TypeExpr} {params : List (TypeParam TypeExpr)}
    {arity : Nat} :
    mentionsOfUnbound (param.name :: bound) (arity - 1) params ⊆
      mentionsOfUnbound bound arity (param :: params) := by
  cases arity with
  | zero => cases params <;> exact List.subset_append_right _ _
  | succ arity => exact List.Subset.refl _

end Parts

end PropSchema.TypeScript
