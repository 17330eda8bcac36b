import PropSchema.Proofs.Numeral
import PropSchema.Proofs.TypeGraph.FlatUnions
import PropSchema.Proofs.TypeScript.Changes
import PropSchema.TypeScript.Cursor
/-!
The members of enums. They are numbered through all declarations of the enum as the language numbers
them, if each initializer reads as what it is: an integer with nothing but spaces after its sign, or
else a text that spells no number. An identifier such as `_1` spells one, and is taken for it.
-/
namespace PropSchema.TypeScript

open Resolve

section Numbering

/-- What follows the sign of a text, from the next lexeme on. -/
def afterSign (text : String) : List Char :=
  let rest := (Numeral.splitSign text.toList).2
  (⟨rest, rest.length, 1, 1, false, 0⟩ : Cursor).settle.rest

/-- Whether a text is an integer literal, with a sign or none. -/
def IsInteger (text : String) (n : Int) : Prop :=
  ∃ m, Numeral.IsLiteral (afterSign text) m ∧
    n = Numeral.signed (Numeral.splitSign text.toList).1 m

/-- The values of enum members as the language has them, where all numbers are integers. -/
structure Numbered (members : List EnumMember) (values : List (Option LiteralValue)) : Prop where
  length : values.length = members.length
  string : ∀ {i : Nat} {m : EnumMember} {s : String}, members[i]? = some m →
    m.initializer = some (.string s) → values[i]? = some (some (.str s))
  integer : ∀ {i : Nat} {m : EnumMember} {text : String} {n : Int}, members[i]? = some m →
    m.initializer = some (.expression text) → IsInteger text n → values[i]? = some (some (.int n))
  /-- Any other expression is left alone. -/
  expression : ∀ {i : Nat} {m : EnumMember} {text : String}, members[i]? = some m →
    m.initializer = some (.expression text) → (∀ n, ¬ IsInteger text n) → values[i]? = some none
  first : ∀ {m : EnumMember}, members[0]? = some m → m.initializer = none →
    values[0]? = some (some (.int 0))
  next : ∀ {i : Nat} {m : EnumMember} {n : Int}, members[i + 1]? = some m → m.initializer = none →
    values[i]? = some (some (.int n)) → values[i + 1]? = some (some (.int (n + 1)))
  /-- There is nothing to count on from. -/
  unnumbered : ∀ {i : Nat} {m : EnumMember}, members[i + 1]? = some m → m.initializer = none →
    (∀ n, values[i]? ≠ some (some (.int n))) → values[i + 1]? = some none

/-- An expression that is read as what it is. -/
structure ReadsAsWritten (text : String) : Prop where
  spaced : ∀ n, IsInteger text n →
    afterSign text = (Numeral.splitSign text.toList).2.dropWhile (· == ' ')
  short : ∀ n, IsInteger text n → ∀ m, Numeral.Digits 10 (afterSign text) m →
    (Numeral.ungrouped (afterSign text)).length ≤ Numeral.decimalLimit
  plain : (∀ n, ¬ IsInteger text n) → ¬ Numeral.Spells text

namespace ReadsAsWritten
variable {text : String} {n : Int}

theorem read_integer (h : ReadsAsWritten text) (hn : IsInteger text n) :
    Numeral.read? text = some (.int n) := by
  obtain ⟨m, hliteral, rfl⟩ := id hn
  exact Numeral.read?_of_literal hliteral (h.short _ hn) (h.spaced _ hn)

theorem read_other (h : ReadsAsWritten text) (hn : ∀ n, ¬ IsInteger text n) :
    Numeral.read? text = none := by
  have hspells := h.plain hn
  rwa [← Numeral.read?_isSome_iff, Bool.not_eq_true, Option.isSome_eq_false_iff,
    Option.isNone_iff_eq_none] at hspells

end ReadsAsWritten

/-- The values that members get one after another. -/
def enumValues : Option Numeral → List EnumMember → List (Option LiteralValue)
  | _, [] => []
  | next, m :: ms =>
    let value := Scope.enumValue next m.initializer
    value :: enumValues (Scope.numberAfter value) ms

theorem length_enumValues (next : Option Numeral) (members : List EnumMember) :
    (enumValues next members).length = members.length := by
  induction members generalizing next with
  | nil => rfl
  | cons m ms ih => exact congrArg (· + 1) (ih _)

/-- The value of the first member. -/
theorem enumValues_zero (next : Option Numeral) {members : List EnumMember} {m : EnumMember}
    (hm : members[0]? = some m) :
    (enumValues next members)[0]? = some (Scope.enumValue next m.initializer) := by
  cases members with
  | nil => cases hm
  | cons m' ms =>
      cases hm
      rfl

/-- The value of a later member depends on the one before. -/
theorem enumValues_succ (next : Option Numeral) {members : List EnumMember} {m : EnumMember}
    {i : Nat} (hm : members[i + 1]? = some m) : ∃ before,
      (enumValues next members)[i]? = some before ∧ (enumValues next members)[i + 1]? =
        some (Scope.enumValue (Scope.numberAfter before) m.initializer) := by
  induction members generalizing next i with
  | nil => cases hm
  | cons m' ms ih =>
      cases i with
      | zero => exact ⟨_, rfl, enumValues_zero _ hm⟩
      | succ i => exact ih _ hm

/-- In any place, a value depends on the initializer and on what an empty one would get. -/
theorem exists_enumValue (next : Option Numeral) {members : List EnumMember} {m : EnumMember}
    {i : Nat} (hm : members[i]? = some m) : ∃ before,
      (enumValues next members)[i]? = some (Scope.enumValue before m.initializer) := by
  cases i with
  | zero => exact ⟨next, enumValues_zero next hm⟩
  | succ i =>
      obtain ⟨before, -, heq⟩ := enumValues_succ next hm
      exact ⟨_, heq⟩

theorem enumValue_ne_float {m : EnumMember} {before : Option Numeral}
    (h : ∀ text, m.initializer = some (.expression text) → ReadsAsWritten text)
    (hbefore : ∀ x, before ≠ some (.float x)) (x : Binary64) :
    Scope.enumValue before m.initializer ≠ some (.float x) := by
  cases hinitializer : m.initializer with
  | none =>
      cases before with
      | none => nofun
      | some number =>
          cases number with
          | int n => nofun
          | float y => exact absurd rfl (hbefore y)
  | some initializer =>
      cases initializer with
      | string s => nofun
      | expression text =>
          have hwritten := h text hinitializer
          rw [Scope.enumValue]
          by_cases hinteger : ∃ n, IsInteger text n
          · obtain ⟨n, hn⟩ := hinteger
            rw [hwritten.read_integer hn]
            nofun
          · rw [hwritten.read_other fun n hn => hinteger ⟨n, hn⟩]
            nofun

theorem numberAfter_ne_float {value : Option LiteralValue} (h : ∀ x, value ≠ some (.float x))
    (x : Binary64) : Scope.numberAfter value ≠ some (.float x) := by
  unfold Scope.numberAfter
  split
  · nofun
  · next y => exact absurd rfl (h y)
  · nofun

variable {members : List EnumMember}
  (h : ∀ m ∈ members, ∀ text, m.initializer = some (.expression text) → ReadsAsWritten text)
include h

/-- Integers are read as such, so there are no other numbers to count on from. -/
theorem enumValues_ne_float (next : Option Numeral) (hnext : ∀ x, next ≠ some (.float x)) :
    ∀ value ∈ enumValues next members, ∀ x, value ≠ some (.float x) := by
  induction members generalizing next with
  | nil => nofun
  | cons m ms ih =>
      rw [List.forall_mem_cons] at h
      have hvalue := enumValue_ne_float h.1 hnext
      exact List.forall_mem_cons.mpr ⟨hvalue, ih h.2 _ (numberAfter_ne_float hvalue)⟩

/-- Members are numbered as the language has it. -/
theorem numbered_enumValues : Numbered members (enumValues (some (.int 0)) members) where
  length := length_enumValues _ _
  string {i m s} hm hs := by
    obtain ⟨before, heq⟩ := exists_enumValue (some (.int 0)) hm
    rw [heq, hs]
    rfl
  integer {i m text n} hm htext hn := by
    obtain ⟨before, heq⟩ := exists_enumValue (some (.int 0)) hm
    rw [heq, htext, Scope.enumValue, (h m (List.mem_of_getElem? hm) text htext).read_integer hn]
    rfl
  expression {i m text} hm htext hn := by
    obtain ⟨before, heq⟩ := exists_enumValue (some (.int 0)) hm
    rw [heq, htext, Scope.enumValue, (h m (List.mem_of_getElem? hm) text htext).read_other hn]
    rfl
  first {m} hm hnone := by
    rw [enumValues_zero _ hm, hnone]
    rfl
  next {i m n} hm hnone hn := by
    obtain ⟨before, hbefore, heq⟩ := enumValues_succ (some (.int 0)) hm
    rw [hn, Option.some_inj] at hbefore
    rw [heq, hnone, ← hbefore]
    rfl
  unnumbered {i m} hm hnone hn := by
    obtain ⟨before, hbefore, heq⟩ := enumValues_succ (some (.int 0)) hm
    rw [heq, hnone]
    rw [hbefore] at hn
    have hfloat := enumValues_ne_float h (some (.int 0)) nofun before
      (List.mem_of_getElem? hbefore)
    cases before with
    | none => rfl
    | some value =>
        cases value with
        | int n => exact absurd rfl (hn n)
        | float x => exact absurd rfl (hfloat x)
        | str s => rfl
        | bool b => rfl

end Numbering

section Nodes

/-- The form of an enum member's node. -/
def memberForm (m : EnumMember) : Option LiteralValue → TypeForm
  | some value => .literal value
  | none => .unresolved m.text none

theorem memberForm_ne_union (m : EnumMember) (value : Option LiteralValue) (inner : List NodeId) :
    memberForm m value ≠ .union inner := by
  cases value <;> nofun

def memberNode (sc : Scope) (m : EnumMember) (value : Option LiteralValue) : TypeNode :=
  ⟨memberForm m value, value.map fun _ => sc.location m.place⟩

/-- A resolution with nodes added to its graph. -/
def Resolution.adding (r : Resolution) (nodes : List TypeNode) : Resolution :=
  { r with graph := ⟨r.graph.nodes ++ nodes.toArray⟩ }

theorem Resolution.adding_cons (r : Resolution) (node : TypeNode) (nodes : List TypeNode) :
    r.adding (node :: nodes) =
      { r with graph := (r.graph.push node.form node.location).2 }.adding nodes := by
  simp [Resolution.adding, TypeGraph.push]

/-- Each member gets a new node. -/
theorem enumMembers_run (sc : Scope) (next : Option Numeral) (members : List EnumMember)
    (r : Resolution) :
    sc.enumMembers next members r = some (List.range' r.graph.size members.length,
      r.adding (List.zipWith (memberNode sc) members (enumValues next members))) := by
  induction members generalizing next r with
  | nil =>
      rw [Scope.enumMembers, Resolution.adding]
      simp
      rfl
  | cons m ms ih =>
      let value := Scope.enumValue next m.initializer
      let node := memberNode sc m value
      have hstep : sc.enumMembers next (m :: ms) = (do
          let id ← push node.form node.location
          pure (id :: (← sc.enumMembers (Scope.numberAfter value) ms))) := by
        rw [Scope.enumMembers]
        simp only [node, memberNode, value]
        cases Scope.enumValue next m.initializer <;> rfl
      have hsize : (r.graph.push node.form node.location).2.size = r.graph.size + 1 :=
        size_push r.graph _ _
      rw [hstep]
      change (sc.enumMembers _ ms
        { r with graph := (r.graph.push node.form node.location).2 }).bind
          (fun p => some (r.graph.size :: p.1, p.2)) = _
      rw [ih, hsize, Option.bind_some, enumValues, List.zipWith_cons_cons, Resolution.adding_cons,
        List.length_cons, List.range'_succ]

theorem map_form_adding (r : Resolution) (nodes : List TypeNode) :
    (List.range' r.graph.size nodes.length).map (r.adding nodes).graph.form =
      nodes.map TypeNode.form := by
  refine List.ext_getElem (by simp) fun i hi hi' => ?_
  have hlt : i < nodes.length := by simpa using hi'
  have hnode : (r.graph.nodes ++ nodes.toArray)[r.graph.nodes.size + i]? = some nodes[i] := by
    rw [Array.getElem?_append_right (Nat.le_add_right _ _), Nat.add_sub_cancel_left,
      List.getElem?_toArray, List.getElem?_eq_getElem hlt]
  simp [Resolution.adding, TypeGraph.form, TypeGraph.node, TypeGraph.size, hnode]

/-- A node that stands for the members of an enum: it has one leaf for each, in their order. -/
structure HasMembers (g : TypeGraph) (id : NodeId) (members : List EnumMember)
    (values : List (Option LiteralValue)) : Prop where
  nodup : (g.leaves [id]).Nodup
  forms : (g.leaves [id]).map g.form = List.zipWith memberForm members values

open TypeGraph (IsFlatUnion)

theorem HasMembers.of_flat {g g' : TypeGraph} {id : NodeId} {leaves : List NodeId}
    {members : List EnumMember} {values : List (Option LiteralValue)}
    (h : IsFlatUnion (id, g) leaves) (hlt : ∀ leaf ∈ leaves, leaf < g.size)
    (hforms : leaves.map g.form = List.zipWith memberForm members values)
    (hkept : ∀ a < g.size, g'.form a = g.form a) : HasMembers g' id members values := by
  have hleaves : g'.leaves [id] = leaves :=
    (h.flattens.kept hlt hkept).leaves_eq.trans (TypeGraph.eraseDups_of_nodup h.nodup)
  refine ⟨hleaves.symm ▸ h.nodup, ?_⟩
  rw [hleaves, ← hforms]
  exact List.map_congr_left fun leaf hleaf => hkept leaf (hlt leaf hleaf)

/-- The nodes that the members of an enum are given. -/
def Scope.memberNodes (sc : Scope) (members : List EnumMember) : List TypeNode :=
  List.zipWith (memberNode sc) members (enumValues (some (.int 0)) members)

/-- Their ids in a resolution, which come after those that there are. -/
def Resolution.memberIds (r : Resolution) (members : List EnumMember) : List NodeId :=
  List.range' r.graph.size members.length

section Members
variable (sc : Scope) (members : List EnumMember) (r : Resolution)

theorem length_memberNodes : (sc.memberNodes members).length = members.length := by
  simp [Scope.memberNodes, length_enumValues]

theorem lt_of_mem_memberIds : ∀ id ∈ r.memberIds members,
    id < (r.adding (sc.memberNodes members)).graph.size := by
  have hsize : (r.adding (sc.memberNodes members)).graph.size = r.graph.size + members.length := by
    rw [← length_memberNodes sc]
    simp [Resolution.adding, TypeGraph.size]
  exact fun id hid => Nat.lt_of_lt_of_eq (List.mem_range'_1.mp hid).2 hsize.symm

theorem map_form_memberIds :
    (r.memberIds members).map (r.adding (sc.memberNodes members)).graph.form =
      List.zipWith memberForm members (enumValues (some (.int 0)) members) := by
  rw [Resolution.memberIds, ← length_memberNodes sc, map_form_adding, Scope.memberNodes,
    List.map_zipWith]
  rfl

/-- No member is a union, so nothing is written out and none is left out. -/
theorem isFlatUnion_memberIds (location : Option Location) :
    IsFlatUnion ((r.adding (sc.memberNodes members)).graph.unionOf (r.memberIds members) location)
      (r.memberIds members) := by
  have hplain : ∀ leaf ∈ r.memberIds members, ∀ inner,
      (r.adding (sc.memberNodes members)).graph.form leaf ≠ .union inner := by
    intro leaf hleaf inner hform
    have hmem : TypeForm.union inner ∈
        (r.memberIds members).map (r.adding (sc.memberNodes members)).graph.form :=
      List.mem_map.mpr ⟨leaf, hleaf, hform⟩
    rw [map_form_memberIds] at hmem
    obtain ⟨i, hi, heq⟩ := List.mem_iff_getElem.mp hmem
    rw [List.getElem_zipWith] at heq
    exact memberForm_ne_union _ _ inner heq
  have hleaves := TypeGraph.leaves_of_leaves hplain List.nodup_range'
  have hflat : IsFlatUnion
      ((r.adding (sc.memberNodes members)).graph.unionOf (r.memberIds members) location)
      ((r.adding (sc.memberNodes members)).graph.leaves (r.memberIds members)) :=
    TypeGraph.isFlatUnion_unionOf (hleaves.symm ▸ lt_of_mem_memberIds sc members r)
  rwa [hleaves] at hflat

end Members

/-- The node of an enum stands for the members of all its declarations, now and later. -/
theorem enumType_hasMembers (sc : Scope) (first : EnumDecl) (more : List EnumDecl)
    (r : Resolution) : ∃ id r', sc.enumType first more r = some (id, r') ∧
      ∀ g', (∀ a < r'.graph.size, g'.form a = r'.graph.form a) →
        HasMembers g' id ((first :: more).flatMap EnumDecl.members)
          (enumValues (some (.int 0)) ((first :: more).flatMap EnumDecl.members)) := by
  generalize hmembers : (first :: more).flatMap EnumDecl.members = members
  let g := (r.adding (sc.memberNodes members)).graph
  let built := g.unionOf (r.memberIds members) (some (sc.location first.place))
  have hlt := lt_of_mem_memberIds sc members r
  refine ⟨built.1, { r with graph := built.2 }, ?_, fun g' hkept => ?_⟩
  · rw [Scope.enumType, hmembers]
    change (sc.enumMembers _ members r).bind _ = _
    rw [enumMembers_run]
    rfl
  · refine .of_flat (isFlatUnion_memberIds sc members r _) (fun leaf hleaf => ?_) ?_ hkept
    · exact Nat.lt_of_lt_of_le (hlt leaf hleaf) (g.size_le_unionOf _ _)
    · rw [← map_form_memberIds sc members r]
      exact List.map_congr_left fun leaf hleaf => TypeGraph.form_unionOf (hlt leaf hleaf) _ _

end Nodes

section Names
variable {sc : Scope} {name : String} {first : EnumDecl} {more : List EnumDecl} {r : Resolution}

/--
Wherever an enum is named for the first time, its node stands for its members as the language
numbers them, and it still does after whatever is resolved later.
-/
theorem nameType_of_enum (hfound : sc.find? name = some (.enums first more))
    (hwritten : ∀ d ∈ first :: more, ∀ m ∈ d.members, ∀ text,
      m.initializer = some (.expression text) → ReadsAsWritten text)
    {bindings : Bindings} (hfree : bindings.lookup name = none) {arguments : List NodeId}
    (hnew : r.instances.lookup (name, arguments) = none) (resolve : Resolver)
    (place : Option Place) :
    ∃ id r' values, sc.nameType resolve bindings name arguments place r = some (id, r') ∧
      r'.instances.lookup (name, arguments) = some id ∧
      Numbered ((first :: more).flatMap EnumDecl.members) values ∧
      ∀ P r'', Run sc P r' r'' →
        HasMembers r''.graph id ((first :: more).flatMap EnumDecl.members) values := by
  obtain ⟨id, r₁, hrun, hmembers⟩ := enumType_hasMembers sc first more r
  have hall : ∀ m ∈ (first :: more).flatMap EnumDecl.members, ∀ text,
      m.initializer = some (.expression text) → ReadsAsWritten text := by
    intro m hm
    obtain ⟨d, hd, hm⟩ := List.mem_flatMap.mp hm
    exact hwritten d hd m hm
  refine ⟨id, { r₁ with instances := ((name, arguments), id) :: r₁.instances }, _, ?_, ?_,
    numbered_enumValues hall, fun P r'' hlater => hmembers _ hlater.kept⟩
  · rw [Scope.nameType, hfree]
    simp only [hfound]
    rw [Scope.declaredType, get_bind, hnew]
    change (sc.enumType first more r).bind _ = _
    rw [hrun]
    rfl
  · exact List.lookup_cons_self ..

/-- Whether the members of all enums of a scope are numbered as the language has it. -/
def Scope.NumbersEnums (sc : Scope) : Prop :=
  ∀ {name : String} {first : EnumDecl} {more : List EnumDecl} {bindings : Bindings}
    {arguments : List NodeId} {resolve : Resolver} {place : Option Place} {r r' : Resolution}
    {id : NodeId}, sc.find? name = some (.enums first more) → bindings.lookup name = none →
    r.instances.lookup (name, arguments) = none →
    sc.nameType resolve bindings name arguments place r = some (id, r') →
    ∃ values, Numbered ((first :: more).flatMap EnumDecl.members) values ∧
      HasMembers r'.graph id ((first :: more).flatMap EnumDecl.members) values

end Names

namespace Levels

def low : EnumDecl := ⟨"Level", [⟨"Off", none, ⟨1, 14⟩⟩,
  ⟨"Low = 0x1F", some (.expression "0x1F"), ⟨1, 19⟩⟩, ⟨"Mid", none, ⟨1, 31⟩⟩], ⟨1, 1⟩⟩

def high : EnumDecl := ⟨"Level", [⟨"Sub = - 1_000", some (.expression "- 1_000"), ⟨2, 14⟩⟩,
  ⟨"Next", none, ⟨2, 29⟩⟩, ⟨"Name = \"x\"", some (.string "x"), ⟨2, 35⟩⟩, ⟨"Lost", none, ⟨2, 47⟩⟩,
  ⟨"Same = Level.Low", some (.expression "Level.Low"), ⟨2, 53⟩⟩,
  ⟨"Shift = 1 << 2", some (.expression "1 << 2"), ⟨2, 71⟩⟩], ⟨2, 1⟩⟩

/--
An enum in two parts, with all that its members may be set to:

    enum Level { Off, Low = 0x1F, Mid }
    enum Level { Sub = - 1_000, Next, Name = "x", Lost, Same = Level.Low, Shift = 1 << 2 }
-/
def levels : Scope := .ofModule ⟨"Level.ts", [.declaration (.enumDecl low),
  .declaration (.enumDecl high)]⟩

theorem readsAsWritten_of_integer {text : String} {n : Int} (h : IsInteger text n)
    (hspaced : afterSign text = (Numeral.splitSign text.toList).2.dropWhile (· == ' '))
    (hshort : (Numeral.ungrouped (afterSign text)).length ≤ Numeral.decimalLimit) :
    ReadsAsWritten text :=
  ⟨fun _ _ => hspaced, fun _ _ _ _ => hshort, fun hother => absurd h (hother n)⟩

theorem readsAsWritten_of_other {text : String} (h : ∀ n, ¬ IsInteger text n)
    (hread : Numeral.read? text = none) : ReadsAsWritten text := by
  refine ⟨fun n hn => absurd hn (h n), fun n hn => absurd hn (h n), fun _ => ?_⟩
  rw [← Numeral.read?_isSome_iff, hread]
  nofun

theorem isInteger_low : IsInteger "0x1F" 31 := by
  have hdigits : Numeral.Digits 16 (['1'] ++ ['F']) (1 * 16 + 15) :=
    .next (.one (.inl (by rfl)) (by decide)) (.inr (by rfl)) (by decide)
  have hliteral : Numeral.IsLiteral ('0' :: 'x' :: (['1'] ++ ['F'])) (1 * 16 + 15) :=
    .based (by decide) hdigits
  exact ⟨31, hliteral, by rfl⟩

theorem isInteger_sub : IsInteger "- 1_000" (-1000) := by
  have hdigits : Numeral.Digits 10 ([] ++ ['1'] ++ ['_', '0'] ++ ['0'] ++ ['0'])
      (((1 * 10 + 0) * 10 + 0) * 10 + 0) :=
    .next (.next (.apart (.one (.inl (by rfl)) (by decide)) (.inl (by rfl)) (by decide))
      (.inl (by rfl)) (by decide)) (.inl (by rfl)) (by decide)
  exact ⟨1000, .decimal (by decide) hdigits, by rfl⟩

theorem not_isInteger_same (n : Int) : ¬ IsInteger "Level.Low" n := fun ⟨_, h, _⟩ =>
  Numeral.not_isLiteral (.inr ⟨'.', by decide, by decide⟩) h

theorem not_isInteger_shift (n : Int) : ¬ IsInteger "1 << 2" n := fun ⟨_, h, _⟩ =>
  Numeral.not_isLiteral (.inr ⟨'<', by decide, by decide⟩) h

/-- The value of a reference and of an operation is left open, and so is what follows a string. -/
theorem levels_numbered : ∃ id r' values,
    levels.nameType (fun _ _ => failure) [] "Level" [] none .initial = some (id, r') ∧
    HasMembers r'.graph id (low.members ++ high.members) values ∧
    values[0]? = some (some (.int 0)) ∧ values[1]? = some (some (.int 31)) ∧
    values[2]? = some (some (.int 32)) ∧ values[3]? = some (some (.int (-1000))) ∧
    values[4]? = some (some (.int (-999))) ∧ values[5]? = some (some (.str "x")) ∧
    values[6]? = some none ∧ values[7]? = some none ∧ values[8]? = some none := by
  have hwritten : ∀ d ∈ [low, high], ∀ m ∈ d.members, ∀ text,
      m.initializer = some (.expression text) → ReadsAsWritten text := by
    have hlow := readsAsWritten_of_integer isInteger_low (by decide) (by decide)
    have hsub := readsAsWritten_of_integer isInteger_sub (by decide) (by decide)
    have hsame := readsAsWritten_of_other not_isInteger_same (by decide)
    have hshift := readsAsWritten_of_other not_isInteger_shift (by decide)
    simp [low, high, hlow, hsub, hsame, hshift]
  have hfound : levels.find? "Level" = some (.enums low [high]) := by rfl
  have hfree : ([] : Bindings).lookup "Level" = none := rfl
  have hnew : Resolution.initial.instances.lookup ("Level", []) = none := rfl
  obtain ⟨id, r', values, hrun, -, hnumbered, hmembers⟩ :=
    nameType_of_enum hfound hwritten hfree hnew (fun _ _ => failure) none
  have hoff := hnumbered.first (by rfl) (by rfl)
  have hlow := hnumbered.integer (i := 1) (by rfl) (by rfl) isInteger_low
  have hsub := hnumbered.integer (i := 3) (by rfl) (by rfl) isInteger_sub
  have hname := hnumbered.string (i := 5) (by rfl) (by rfl)
  refine ⟨id, r', values, hrun, hmembers (fun _ => True) r' .refl, hoff, hlow,
    hnumbered.next (by rfl) (by rfl) hlow, hsub, hnumbered.next (by rfl) (by rfl) hsub, hname,
    hnumbered.unnumbered (by rfl) (by rfl) (fun n => ?_),
    hnumbered.expression (i := 7) (by rfl) (by rfl) not_isInteger_same,
    hnumbered.expression (i := 8) (by rfl) (by rfl) not_isInteger_shift⟩
  rw [hname]
  nofun

end Levels

namespace Underscored

def codes : EnumDecl := ⟨"Code", [⟨"_1 = 5", some (.expression "5"), ⟨1, 13⟩⟩,
  ⟨"B = _1", some (.expression "_1"), ⟨1, 21⟩⟩, ⟨"C", none, ⟨1, 29⟩⟩], ⟨1, 1⟩⟩

/--
A member whose name spells a number, and one that is set to it:

    enum Code { _1 = 5, B = _1, C }
-/
def underscored : Scope := .ofModule ⟨"Code.ts", [.declaration (.enumDecl codes)]⟩

/-- The reference is taken for the number one, and the member after it counts on from there. -/
theorem not_numbersEnums : ¬ underscored.NumbersEnums ∧
    (underscored.nameType (fun _ _ => failure) [] "Code" [] none .initial).map
      (fun result => (result.2.graph.leaves [result.1]).map result.2.graph.form) =
        some [.literal (.int 5), .literal (.int 1), .literal (.int 2)] := by
  have hforms : (underscored.nameType (fun _ _ => failure) [] "Code" [] none .initial).map
      (fun result => (result.2.graph.leaves [result.1]).map result.2.graph.form) =
        some [.literal (.int 5), .literal (.int 1), .literal (.int 2)] := by rfl
  refine ⟨fun hall => ?_, hforms⟩
  obtain ⟨⟨id, r'⟩, hrun, hactual⟩ := Option.map_eq_some_iff.mp hforms
  obtain ⟨values, hnumbered, hmembers⟩ := hall (by rfl) (by rfl) (by rfl) hrun
  have hother : ∀ n, ¬ IsInteger "_1" n := fun n ⟨_, hliteral, _⟩ =>
    Numeral.not_isLiteral (.inl (by rfl)) hliteral
  have hopen : values[1]? = some none := hnumbered.expression (by rfl) (by rfl) hother
  have hform := congrArg (·[1]?) (hmembers.forms.symm.trans hactual)
  simp only [List.getElem?_zipWith, hopen] at hform
  cases hform

end Underscored

end PropSchema.TypeScript
