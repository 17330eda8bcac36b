import PropSchema.Proofs.TypeScript.Mentions
/-!
How a module is read. Reading starts with what classes mention and goes on in the declarations of
the names that are mentioned. A scene tells what is under way where a name is mentioned: the aliases
whose value is being resolved, the records that have their node already, what is begun but not known
yet, and the records that are not whole. A scope is untangled if what is begun is not met again, but
for an alias that is never met otherwise where it is, and if nothing is extended that is not whole.
-/
namespace PropSchema.TypeScript

/-- The names that are bound around a type; of a type parameter of the text, its position. -/
abbrev Binders := List (String × Option Nat)

/--
A name that is mentioned with type arguments. Of an argument that is a type parameter of the text
the position is told.
-/
structure Reference where
  name : String
  arguments : List (Option Nat)
  deriving DecidableEq

/-- A reference without its arguments. -/
def Reference.mention (u : Reference) : Mention := (u.name, u.arguments.length)

/-- The position of the type parameter that a type is, if it is one. -/
def TypeExpr.position? (bound : Binders) : TypeExpr → Option Nat
  | .reference (.simple name) [] _ => (bound.lookup name).join
  | _ => none

/-- The reference to a name, unless it is bound. -/
def referencesOfName (bound : Binders) (name : String) (arguments : List TypeExpr) :
    List Reference :=
  match bound.lookup name with
  | some _ => []
  | none => [⟨name, arguments.map (TypeExpr.position? bound)⟩]

/-- The names of type parameters bound, none of which is one of the text. -/
def hideNames (bound : Binders) (params : List (TypeParam TypeExpr)) : Binders :=
  params.foldl (fun bound p => (p.name, none) :: bound) bound

mutual

/-- The names that a type mentions, with their arguments. -/
def TypeExpr.references (bound : Binders) : TypeExpr → List Reference
  | .reference (.simple name) arguments _ =>
    referencesOfName bound name arguments ++ referencesOfTypes bound arguments
  | .reference (.dotted _) arguments _ => referencesOfTypes bound arguments
  | .object members _ => referencesOfMembers bound members
  | .array element _ => element.references bound
  | .tuple elements _ => referencesOfTypes bound elements
  | .union members _ => referencesOfTypes bound members
  | .intersection members _ => referencesOfTypes bound members
  | .function callable _ => referencesOfCallable bound callable
  | .parenthesized inner => inner.references bound
  | .readonly inner => inner.references bound
  | _ => []

def referencesOfTypes (bound : Binders) : List TypeExpr → List Reference
  | [] => []
  | t :: ts => t.references bound ++ referencesOfTypes bound ts

def referencesOfOptional (bound : Binders) : Option TypeExpr → List Reference
  | none => []
  | some t => t.references bound

def referencesOfMember (bound : Binders) : Member TypeExpr → List Reference
  | .property _ typeExpr _ _ => referencesOfOptional bound typeExpr
  | .method _ callable _ _ => referencesOfCallable bound callable

def referencesOfMembers (bound : Binders) : List (Member TypeExpr) → List Reference
  | [] => []
  | m :: ms => referencesOfMember bound m ++ referencesOfMembers bound ms

def referencesOfTypeParam (bound : Binders) : TypeParam TypeExpr → List Reference
  | ⟨name, limit, fallback, _⟩ =>
    referencesOfOptional bound fallback ++ referencesOfOptional ((name, none) :: bound) limit

def referencesOfTypeParams (bound : Binders) : List (TypeParam TypeExpr) → List Reference
  | [] => []
  | p :: ps => referencesOfTypeParam bound p ++ referencesOfTypeParams ((p.name, none) :: bound) ps

def referencesOfParam (bound : Binders) : Param TypeExpr → List Reference
  | ⟨_, typeExpr, _⟩ => referencesOfOptional bound typeExpr

def referencesOfParams (bound : Binders) : List (Param TypeExpr) → List Reference
  | [] => []
  | p :: ps => referencesOfParam bound p ++ referencesOfParams bound ps

def referencesOfCallable (bound : Binders) : Callable TypeExpr → List Reference
  | ⟨typeParams, params, result⟩ =>
    referencesOfTypeParams bound typeParams ++
      (referencesOfParams (hideNames bound typeParams) params ++
        referencesOfOptional (hideNames bound typeParams) result)

end

/-- What type parameters mention of which only the first few have arguments. -/
def referencesOfUnbound (bound : Binders) : Nat → List (TypeParam TypeExpr) → List Reference
  | 0, ps => referencesOfTypeParams bound ps
  | _ + 1, [] => []
  | n + 1, p :: ps => referencesOfUnbound ((p.name, none) :: bound) n ps

def Heritage.references (bound : Binders) (h : Heritage) : List Reference :=
  match h.name with
  | .simple name => TypeExpr.references bound (.reference (.simple name) h.arguments h.place)
  | .dotted _ => referencesOfTypes bound h.arguments
  | .other _ => referencesOfTypes bound h.arguments

/-- The type parameters of a text bound, those with arguments by their positions. -/
def bindPositions (arity : Nat) (bound : Binders) (index : Nat) :
    List (TypeParam TypeExpr) → Binders
  | [] => bound
  | p :: ps =>
    bindPositions arity ((p.name, if index < arity then some index else none) :: bound)
      (index + 1) ps

namespace Named

/-- The names that the parts of a declaration see, given the number of its arguments. -/
def binders (named : Named) (arity : Nat) : Binders := bindPositions arity [] 0 named.typeParams

/-- What a declaration mentions in its parts, given the number of its arguments. -/
def references (named : Named) (arity : Nat) : List Reference :=
  let bound := named.binders arity
  match named with
  | .interfaces first more =>
    (first :: more).flatMap (fun d => referencesOfMembers bound d.members) ++
      (first :: more).flatMap fun d => referencesOfTypes bound d.parents
  | .aliases first _ => first.value.references bound
  | .classes first _ =>
    first.decl.heritage.flatMap (Heritage.references bound) ++
      first.decl.fields.flatMap fun f => referencesOfOptional bound f.typeExpr
  | .enums _ _ => []

end Named

/-- What a class declaration mentions in its type parameters and bases. -/
def ClassDecl.references (d : ClassDecl) : List Reference :=
  referencesOfUnbound [] 0 d.typeParams ++
    d.heritage.flatMap (Heritage.references (hideNames [] d.typeParams))

/-- What is under way where a name is mentioned. -/
structure Scene where
  /-- The declared type whose text is read; a class declaration is read for itself. -/
  reader : Option Mention
  /-- Aliases whose value is being resolved, in terms of the type parameters of the text. -/
  shut : List Reference
  /-- Records that have a node, in terms of the type parameters of the text. -/
  known : List Reference
  /-- What is begun but not known yet. -/
  begun : List Mention
  /-- Records that are not whole. -/
  filling : List Mention
  deriving DecidableEq

/-- A reference in one text, in terms of the type parameters of another that is read from it. -/
def Reference.carried (u other : Reference) : Option Reference :=
  (other.arguments.mapM fun position => u.arguments.idxOf? position).map fun positions =>
    ⟨other.name, positions.map some⟩

/-- What is referred to, in terms of its own type parameters. -/
def Reference.itself (u : Reference) : Reference :=
  ⟨u.name, (List.range u.arguments.length).map some⟩

namespace Scene

def start : Scene := ⟨none, [], [], [], []⟩

/-- A declared type is begun: its type parameters are bound. -/
def enter (s : Scene) (u : Reference) : Scene where
  reader := some u.mention
  shut := s.shut.filterMap u.carried
  known := s.known.filterMap u.carried
  begun := u.mention :: s.begun
  filling := s.filling

/-- The value of an alias is resolved. -/
def value (s : Scene) (u : Reference) : Scene :=
  { s.enter u with shut := u.itself :: (s.enter u).shut }

/-- A record has its node, and its members are resolved. -/
def fill (s : Scene) (u : Reference) : Scene :=
  { s.enter u with
    known := u.itself :: (s.enter u).known
    begun := s.begun
    filling := u.mention :: s.filling }

end Scene

/-- The scene of the parts of a declaration. -/
def Named.scene (named : Named) (s : Scene) (u : Reference) : Scene :=
  if named.isRecord then s.fill u else s.value u

/--
What is mentioned in the declaration of a name, unless the name stands for a node by then. Of an
alias within its value only the type parameters without argument are gone through again.
-/
def Scope.goInto (sc : Scope) (s : Scene) (u : Reference) : List (Scene × Reference) :=
  if u ∈ s.known then []
  else ((sc.find? u.name).map fun named =>
    let unbound := referencesOfUnbound [] u.arguments.length named.typeParams
    if u ∈ s.shut then unbound.map (s, ·)
    else unbound.map (s.enter u, ·) ++
      (named.references u.arguments.length).map (named.scene s u, ·)).getD []

/-- What a type may come down to: a type parameter, or a declared record. -/
inductive Head where
  | parameter (name : String)
  | record (mention : Mention)

/--
A type may come down to a head, given the names of the type parameters around it. An alias comes
down to what its value does, or to what an argument or a default does if its value comes down to a
type parameter.
-/
inductive Scope.Leads (sc : Scope) : List String → TypeExpr → Head → Prop
  | parameter {params : List String} {name : String} (arguments : List TypeExpr) (place : Place)
      (bound : name ∈ params) :
      Leads sc params (.reference (.simple name) arguments place) (.parameter name)
  | record {params : List String} {name : String} {named : Named} (arguments : List TypeExpr)
      (place : Place) (free : name ∉ params) (found : sc.find? name = some named)
      (isRecord : named.isRecord) :
      Leads sc params (.reference (.simple name) arguments place)
        (.record (name, arguments.length))
  | value {params : List String} {name : String} {first : AliasDecl} {more : List AliasDecl}
      {m : Mention} (arguments : List TypeExpr) (place : Place) (free : name ∉ params)
      (found : sc.find? name = some (.aliases first more))
      (value : Leads sc (first.typeParams.map TypeParam.name) first.value (.record m)) :
      Leads sc params (.reference (.simple name) arguments place) (.record m)
  | argument {params : List String} {name parameter : String} {first : AliasDecl}
      {more : List AliasDecl} {arguments : List TypeExpr} {type : TypeExpr} {head : Head}
      (place : Place) (free : name ∉ params)
      (found : sc.find? name = some (.aliases first more))
      (value : Leads sc (first.typeParams.map TypeParam.name) first.value (.parameter parameter))
      (among : type ∈ arguments) (argument : Leads sc params type head) :
      Leads sc params (.reference (.simple name) arguments place) head
  | fallback {params : List String} {name parameter : String} {first : AliasDecl}
      {more : List AliasDecl} {param : TypeParam TypeExpr} {type : TypeExpr} {m : Mention}
      (arguments : List TypeExpr) (place : Place) (free : name ∉ params)
      (found : sc.find? name = some (.aliases first more))
      (value : Leads sc (first.typeParams.map TypeParam.name) first.value (.parameter parameter))
      (among : param ∈ first.typeParams) (given : param.fallback = some type)
      (fallback : Leads sc [] type (.record m)) :
      Leads sc params (.reference (.simple name) arguments place) (.record m)
  | unwrapped {params : List String} {type : TypeExpr} {head : Head} (rest : List TypeExpr)
      (place : Place) (free : "Readonly" ∉ params) (missing : sc.find? "Readonly" = none)
      (inner : Leads sc params type head) :
      Leads sc params (.reference (.simple "Readonly") (type :: rest) place) head
  | union {params : List String} {members : List TypeExpr} {type : TypeExpr} {head : Head}
      (place : Place) (among : type ∈ members) (member : Leads sc params type head) :
      Leads sc params (.union members place) head
  | parenthesized {params : List String} {inner : TypeExpr} {head : Head}
      (inside : Leads sc params inner head) : Leads sc params (.parenthesized inner) head
  | readonly {params : List String} {inner : TypeExpr} {head : Head}
      (inside : Leads sc params inner head) : Leads sc params (.readonly inner) head

/-- A declared record comes down to itself. -/
theorem Scope.Leads.of_isRecord {sc : Scope} {params : List String} {name : String} {named : Named}
    {arguments : List TypeExpr} {place : Place} {head : Head}
    (h : sc.Leads params (.reference (.simple name) arguments place) head) (hfree : name ∉ params)
    (hfind : sc.find? name = some named) (hrecord : named.isRecord) :
    head = .record (name, arguments.length) := by
  have hobject : ∀ {first more} {params : List String} {head : Head},
      sc.find? name = some (.aliases first more) → ¬ sc.Leads params first.value head := by
    intro first more params head hfound hvalue
    cases hfind.symm.trans hfound
    obtain ⟨members, place, he⟩ := Named.isRecord_aliases.mp hrecord
    rw [he] at hvalue
    cases hvalue
  cases h with
  | parameter _ _ bound => exact absurd bound hfree
  | record _ _ _ _ _ => rfl
  | value _ _ _ found value => exact absurd value (hobject found)
  | argument _ _ found value _ _ => exact absurd value (hobject found)
  | fallback _ _ _ found value _ _ _ => exact absurd value (hobject found)
  | unwrapped _ _ _ missing _ =>
      rw [hfind] at missing
      cases missing

/-- A scope with what reading starts from. -/
structure RootedScope extends Scope where
  roots : List Reference

namespace RootedScope
variable {sc : RootedScope} {s : Scene} {u : Reference}

/-- A name may be mentioned in a scene. -/
inductive Visited (sc : RootedScope) : Scene → Reference → Prop
  | root {u : Reference} (among : u ∈ sc.roots) : Visited sc .start u
  | within {s s' : Scene} {u u' : Reference} (around : Visited sc s u)
      (step : (s', u') ∈ sc.goInto s u) : Visited sc s' u'

/-- The value of an alias is being resolved whenever the text of a declared type is read. -/
def Shut (sc : RootedScope) (reader : Mention) (u : Reference) : Prop :=
  ∀ s u', sc.Visited s u' → s.reader = some reader → u ∈ s.shut

/-- What is begun is met again only in ways that are the same whatever is met first. -/
structure Untangled (sc : RootedScope) : Prop where
  /-- What is begun has a node by then, or it is an alias that is always met within its value. -/
  again : ∀ {s u}, sc.Visited s u → u.mention ∈ s.begun →
    u ∈ s.known ∨ ∃ reader, s.reader = some reader ∧ sc.Shut reader u
  /-- What an interface extends is whole, if it is a declared record. -/
  parents : ∀ {s u first more}, sc.Visited s u → u ∉ s.known → u ∉ s.shut →
    sc.find? u.name = some (.interfaces first more) → ∀ d ∈ first :: more, ∀ parent ∈ d.parents,
      ∀ head, sc.Leads (first.typeParams.map TypeParam.name) parent head →
        ∃ m, head = .record m ∧ m ∉ u.mention :: s.filling

/-- All of some references may be met in a scene. -/
def Visits (sc : RootedScope) (s : Scene) (references : List Reference) : Prop :=
  ∀ u ∈ references, sc.Visited s u

/-- A list that has what is mentioned first, and what is mentioned in the declaration of anything in
it, has all that may be met. -/
theorem Visited.mem_of_closed {met : List (Scene × Reference)}
    (hroots : ∀ u ∈ sc.roots, (.start, u) ∈ met)
    (hclosed : ∀ p ∈ met, ∀ p' ∈ sc.goInto p.1 p.2, p' ∈ met) (h : sc.Visited s u) :
    (s, u) ∈ met := by
  induction h with
  | root among => exact hroots _ among
  | within _ step ih => exact hclosed _ ih _ step

/-- To see that a scope is untangled it is enough to look at what may be met. -/
theorem Untangled.of_met (met : List (Scene × Reference))
    (hroots : ∀ u ∈ sc.roots, (.start, u) ∈ met)
    (hclosed : ∀ p ∈ met, ∀ p' ∈ sc.goInto p.1 p.2, p' ∈ met)
    (hagain : ∀ p ∈ met, p.2.mention ∈ p.1.begun → p.2 ∈ p.1.known ∨
      p.1.reader.isSome ∧ ∀ p' ∈ met, p'.1.reader = p.1.reader → p.2 ∈ p'.1.shut)
    (hparents : ∀ p ∈ met, p.2 ∉ p.1.known → ∀ first more,
      sc.find? p.2.name = some (.interfaces first more) → ∀ d ∈ first :: more,
        ∀ parent ∈ d.parents, ∀ head, sc.Leads (first.typeParams.map TypeParam.name) parent head →
          ∃ m, head = .record m ∧ m ∉ p.2.mention :: p.1.filling) : sc.Untangled where
  again := by
    intro s u h hbegun
    obtain hknown | ⟨hreader, hshut⟩ := hagain _ (h.mem_of_closed hroots hclosed) hbegun
    · exact .inl hknown
    · obtain ⟨reader, hreader⟩ := Option.isSome_iff_exists.mp hreader
      exact .inr ⟨reader, hreader, fun s' u' h' he =>
        hshut _ (h'.mem_of_closed hroots hclosed) (he.trans hreader.symm)⟩
  parents h hknown _ hfind :=
    hparents _ (h.mem_of_closed hroots hclosed) hknown _ _ hfind

section Within
variable (h : sc.Visited s u) (hknown : u ∉ s.known) {named : Named}
  (hfind : sc.find? u.name = some named)
include h hknown hfind

theorem Visited.visits_again (hshut : u ∈ s.shut) :
    sc.Visits s (referencesOfUnbound [] u.arguments.length named.typeParams) := by
  intro u' hu
  refine h.within ?_
  rw [Scope.goInto, if_neg hknown, hfind, Option.map_some, Option.getD_some, if_pos hshut]
  exact List.mem_map_of_mem hu

variable (hshut : u ∉ s.shut)
include hshut

theorem Visited.visits_unbound :
    sc.Visits (s.enter u) (referencesOfUnbound [] u.arguments.length named.typeParams) := by
  intro u' hu
  refine h.within ?_
  rw [Scope.goInto, if_neg hknown, hfind, Option.map_some, Option.getD_some, if_neg hshut]
  exact List.mem_append_left _ (List.mem_map_of_mem hu)

theorem Visited.visits_parts :
    sc.Visits (named.scene s u) (named.references u.arguments.length) := by
  intro u' hu
  refine h.within ?_
  rw [Scope.goInto, if_neg hknown, hfind, Option.map_some, Option.getD_some, if_neg hshut]
  exact List.mem_append_right _ (List.mem_map_of_mem hu)

end Within

end RootedScope

theorem referencesOfTypes_eq (bound : Binders) (ts : List TypeExpr) :
    referencesOfTypes bound ts = ts.flatMap (TypeExpr.references bound) := by
  induction ts with
  | nil => rw [referencesOfTypes, List.flatMap_nil]
  | cons t ts ih => rw [referencesOfTypes, List.flatMap_cons, ih]

theorem referencesOfMembers_eq (bound : Binders) (ms : List (Member TypeExpr)) :
    referencesOfMembers bound ms = ms.flatMap (referencesOfMember bound) := by
  induction ms with
  | nil => rw [referencesOfMembers, List.flatMap_nil]
  | cons m ms ih => rw [referencesOfMembers, List.flatMap_cons, ih]

theorem referencesOfParams_eq (bound : Binders) (ps : List (Param TypeExpr)) :
    referencesOfParams bound ps = ps.flatMap fun p => referencesOfOptional bound p.typeExpr := by
  induction ps with
  | nil => rw [referencesOfParams, List.flatMap_nil]
  | cons p ps ih =>
      cases p
      rw [referencesOfParams, referencesOfParam, List.flatMap_cons, ih]

theorem referencesOfTypeParam_eq (bound : Binders) (param : TypeParam TypeExpr) :
    referencesOfTypeParam bound param = referencesOfOptional bound param.fallback ++
      referencesOfOptional ((param.name, none) :: bound) param.bound := by
  cases param
  rw [referencesOfTypeParam]

namespace RootedScope.Visits
variable {sc : RootedScope} {s : Scene} {bound : Binders} {references references' : List Reference}

theorem left (h : sc.Visits s (references ++ references')) : sc.Visits s references :=
  fun u hu => h u (List.mem_append_left _ hu)

theorem right (h : sc.Visits s (references ++ references')) : sc.Visits s references' :=
  fun u hu => h u (List.mem_append_right _ hu)

theorem of_flatMap {α : Type} {f : α → List Reference} {xs : List α}
    (h : sc.Visits s (xs.flatMap f)) {x : α} (hx : x ∈ xs) : sc.Visits s (f x) :=
  fun u hu => h u (List.mem_flatMap.mpr ⟨x, hx, hu⟩)

theorem of_types {ts : List TypeExpr} (h : sc.Visits s (referencesOfTypes bound ts)) :
    ∀ t ∈ ts, sc.Visits s (t.references bound) :=
  fun _ ht => of_flatMap (referencesOfTypes_eq bound ts ▸ h) ht

theorem of_members {ms : List (Member TypeExpr)} (h : sc.Visits s (referencesOfMembers bound ms)) :
    ∀ m ∈ ms, sc.Visits s (referencesOfMember bound m) :=
  fun _ hm => of_flatMap (referencesOfMembers_eq bound ms ▸ h) hm

theorem of_params {ps : List (Param TypeExpr)} (h : sc.Visits s (referencesOfParams bound ps)) :
    ∀ p ∈ ps, sc.Visits s (referencesOfOptional bound p.typeExpr) := by
  intro p hp
  rw [referencesOfParams_eq] at h
  exact h.of_flatMap hp

theorem of_fallback {param : TypeParam TypeExpr} {type : TypeExpr}
    (h : sc.Visits s (referencesOfTypeParam bound param)) (hf : param.fallback = some type) :
    sc.Visits s (type.references bound) := by
  rw [referencesOfTypeParam_eq, hf] at h
  exact h.left

theorem of_bound {param : TypeParam TypeExpr} {type : TypeExpr}
    (h : sc.Visits s (referencesOfTypeParam bound param)) (hb : param.bound = some type) :
    sc.Visits s (type.references ((param.name, none) :: bound)) := by
  rw [referencesOfTypeParam_eq, hb] at h
  exact h.right

theorem of_unbound_head {param : TypeParam TypeExpr} {params : List (TypeParam TypeExpr)}
    (h : sc.Visits s (referencesOfUnbound bound 0 (param :: params))) :
    sc.Visits s (referencesOfTypeParam bound param) := h.left

theorem of_unbound_tail {param : TypeParam TypeExpr} {params : List (TypeParam TypeExpr)}
    {arity : Nat} (h : sc.Visits s (referencesOfUnbound bound arity (param :: params))) :
    sc.Visits s (referencesOfUnbound ((param.name, none) :: bound) (arity - 1) params) := by
  cases arity with
  | zero => cases params <;> exact h.right
  | succ arity => exact h

end RootedScope.Visits

end PropSchema.TypeScript
