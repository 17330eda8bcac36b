import PropSchema.Proofs.Json.Accepted
import PropSchema.Proofs.Scan.Members
import PropSchema.Proofs.Schema.Standard
/-!
Outcomes as standard JSON text. Where the numbers that a module writes are finite, those of an
outcome are, so its text is standard JSON, whatever the indent. A number that is written is read as an
infinity if it has the name of one or is too large. An outcome with an integer of too many digits
has no text.
-/
namespace PropSchema

def Numeral.isFinite : Numeral → Bool
  | .int _ => true
  | .float x => x.isFinite

/-- Whether a text is read as a finite number if it is read as a number. -/
def Numeral.readsFinite (text : String) : Bool := (Numeral.read? text).all Numeral.isFinite

namespace TypeScript

/-- The numbers that are written as types and as values of the members of enums are finite. -/
structure Module.FiniteNumbers (m : Module) : Prop where
  types : ∀ {text place}, m.Writes (.number text place) → Numeral.readsFinite text
  enums : ∀ {d}, .enumDecl d ∈ m.declarations → ∀ e ∈ d.members, ∀ text,
    e.initializer = some (.expression text) → Numeral.readsFinite text

def TypeExpr.finiteNumber : TypeExpr → Bool
  | .number text _ => Numeral.readsFinite text
  | _ => true

def EnumMember.finiteNumber (e : EnumMember) : Bool :=
  match e.initializer with
  | some (.expression text) => Numeral.readsFinite text
  | _ => true

def Declaration.finiteNumbers : Declaration → Bool
  | .enumDecl d => d.members.all EnumMember.finiteNumber
  | _ => true

/-- It is enough to look into the types of a module down to some depth. -/
theorem Module.FiniteNumbers.of_check {m : Module} (depth : Nat)
    (htypes : m.declarations.all fun d => d.types.all (TypeExpr.allTo TypeExpr.finiteNumber depth))
    (henums : m.declarations.all Declaration.finiteNumbers) : m.FiniteNumbers where
  types {text place} hw := by
    have hnumber : TypeExpr.finiteNumber (.number text place) = true :=
      Module.Writes.of_allTo TypeExpr.finiteNumber depth htypes hw
    rwa [TypeExpr.finiteNumber] at hnumber
  enums {d} hd e he text hi := by
    have hmember : e.finiteNumber := List.all_eq_true.mp (List.all_eq_true.mp henums _ hd) e he
    rw [EnumMember.finiteNumber, hi] at hmember
    exact hmember

/-- All literals are finite. -/
def Demand.finite : Demand where
  literal value := value.isFinite = true
  names _ := True
  string _ := rfl
  boolean _ := rfl
  integer _ := rfl
  succ h := Binary64.isFinite_add_one h
  empty := trivial
  more _ _ := trivial
  fewer _ := trivial

theorem Demand.finite_allowsNumber {text : String} (h : Numeral.readsFinite text) :
    Demand.finite.AllowsNumber text := by
  intro x hx
  rw [Numeral.readsFinite, hx] at h
  exact h

theorem Module.FiniteNumbers.allowed {m : Module} (h : m.FiniteNumbers) :
    Demand.finite.AllowsModule m where
  types {type} hw := by
    cases type with
    | number text place => exact Demand.finite_allowsNumber (h.types hw)
    | _ => trivial
  declarations d hd := by
    cases d with
    | enumDecl d => exact fun e he text hi => Demand.finite_allowsNumber (h.enums hd e he text hi)
    | _ => trivial

end TypeScript

open TypeScript

namespace Classify
variable {r : Rules} {g : TypeGraph} {slots : TypeIdentity → Option Nat}

/-- The literals of a reading are those of the graph. -/
theorem reading_finite (hr : r.registry.Simple) (hg : Demand.finite.AllowsGraph g) {use : TypeUse}
    {s : PropSpec} (h : reading r g slots use = some s) : (Wire.ofPropType s.propType).Finite := by
  refine reading_holds Wire.heritable_finite (fun i _ => Wire.finite_index i)
    (fun name t hl => Wire.finite_simple (hr name t hl))
    (fun entry hentry => Wire.finite_simple (List.mem_map_of_mem hentry)) ?_ h
  intro id value hform
  have hliteral := hg id
  rw [hform] at hliteral
  exact Wire.finite_literal hliteral

end Classify

namespace Scan
variable {rules : ComponentRules} {m : Module}

/-- The numbers of an outcome are finite. It has a text just if its integers have, which is standard
JSON and is read as the outcome. -/
theorem standard_text {extra : List (String × String)}
    (hr : Registry.extend extra = .ok rules.registry) (hm : m.FiniteNumbers) {x : Extraction}
    (hx : (ofSource rules (.ofModule m)).outcome = .ok x) (indent : Option Nat) :
    (Wire.ofExtraction x).Finite ∧
      ((Wire.ofExtraction x).render indent).isSome = (Wire.ofExtraction x).isWritable ∧
      ∀ text, (Wire.ofExtraction x).render indent = some text →
        Json.IsText text.toList ∧
          Json.readChars .standard text.toList = .ok (Wire.ofExtraction x) := by
  obtain ⟨ids, r, c, hrun, hentries⟩ := describes_of_outcome hx
  have hgraph : Demand.finite.AllowsGraph r.graph := hm.allowed.graph hrun
  have hfinite : (Wire.ofExtraction x).Finite := by
    refine Wire.finite_ofExtraction fun record hrecord member hmember => ?_
    obtain ⟨identity, hdescribes⟩ := hentries record hrecord
    obtain ⟨p, -, -, hspec⟩ := Sequences.exists_of_forall₂ hdescribes.members hmember
    obtain ⟨use, -, hread⟩ := Option.bind_eq_some_iff.mp hspec
    exact Classify.reading_finite (Registry.simple_of_extend hr) hgraph hread
  exact ⟨hfinite, Json.isSome_render _ _, fun text htext =>
    (Wire.distinct_ofExtraction x).standard_of_render hfinite htext⟩

/-- The texts of the literals that members are typed with, alone or in a union. -/
def literalTexts (outcome : Except PassFault Extraction) : Option (List String) :=
  outcome.toOption.map fun x => x.refs.flatMap fun record => record.members.flatMap fun m =>
    match m.spec.propType with
    | .literal value => ((Wire.ofLiteral value).render none).toList
    | .union options => options.filterMap fun option => match option with
      | .literal value => (Wire.ofLiteral value).render none
      | _ => none
    | _ => []

namespace Scaled

def member (name : String) (initializer : Option Initializer) : EnumMember :=
  ⟨name, initializer, ⟨2, 14⟩⟩

/-- A component with a prop of an enum and one of two numbers. -/
def component (enum : String) (numbers : List String) : Statement :=
  Repeated.component (.object [
    .property "scale" (some (.reference (.simple enum) [] ⟨3, 50⟩)) false ⟨3, 43⟩,
    .property "step" (some (.union (numbers.map (.number · ⟨3, 63⟩)) ⟨3, 63⟩)) false ⟨3, 57⟩]
    ⟨3, 41⟩) 3

/--
Numbers in several notations. After the import of `React`:

    enum Scale { A = 1.5e3, B, C = 0x1F, D = -.25, E = '1 "µ"' }
    export class A extends React.Component<{ scale: Scale, step: 5e-324 | 1_000 }> {}
-/
def scaled : Module := ⟨"A.tsx", [.imports "react" [.whole "React"],
  .declaration (.enumDecl ⟨"Scale", [member "A" (some (.expression "1.5e3")), member "B" none,
    member "C" (some (.expression "0x1F")), member "D" (some (.expression "-.25")),
    member "E" (some (.string "1 \"µ\""))], ⟨2, 1⟩⟩),
  component "Scale" ["5e-324", "1_000"]]⟩

/-- The same with an enum of which a member is `Infinity`. -/
def unbounded : Module := ⟨"A.tsx", [.imports "react" [.whole "React"],
  .declaration (.enumDecl ⟨"Scale", [member "A" (some (.expression "Infinity"))], ⟨2, 1⟩⟩),
  component "Scale" ["5e-324", "1_000"]]⟩

end Scaled

theorem scaled_standard_text :
    literalTexts (ofSource Components.lenientRules (.ofModule Scaled.scaled)).outcome =
        some ["1500.0", "1501.0", "31", "-0.25", "\"1 \\\"\\u00b5\\\"\"", "5e-324", "1000"] ∧
    ∃ x, (ofSource Components.lenientRules (.ofModule Scaled.scaled)).outcome = .ok x ∧
      ∀ indent, ∃ text, (Wire.ofExtraction x).render indent = some text ∧
        (Wire.ofExtraction x).Finite ∧ Json.IsText text.toList ∧
          Json.readChars .standard text.toList = .ok (Wire.ofExtraction x) := by
  have htexts : literalTexts (ofSource Components.lenientRules (.ofModule Scaled.scaled)).outcome =
      some ["1500.0", "1501.0", "31", "-0.25", "\"1 \\\"\\u00b5\\\"\"", "5e-324", "1000"] := by
    decide +kernel
  have hwritable : (ofSource Components.lenientRules (.ofModule Scaled.scaled)).outcome.toOption.map
      (fun x => (Wire.ofExtraction x).isWritable) = some true := by decide +kernel
  have hbuiltin : Registry.extend [] = .ok Components.lenientRules.registry := rfl
  have hnumbers : Scaled.scaled.FiniteNumbers := .of_check 4 (by decide +kernel) (by decide +kernel)
  refine ⟨htexts, ?_⟩
  cases hx : (ofSource Components.lenientRules (.ofModule Scaled.scaled)).outcome with
  | error fault =>
      rw [hx] at hwritable
      cases hwritable
  | ok x =>
      rw [hx] at hwritable
      have hall : (Wire.ofExtraction x).isWritable = true := Option.some.inj hwritable
      refine ⟨x, rfl, fun indent => ?_⟩
      obtain ⟨hfinite, hsome, hstandard⟩ := standard_text hbuiltin hnumbers hx indent
      rw [hall, Option.isSome_iff_exists] at hsome
      obtain ⟨text, htext⟩ := hsome
      exact ⟨text, htext, hfinite, hstandard text htext⟩

/-- Not every outcome has a standard text: an infinity is written by its name. -/
theorem not_standard_text : ¬ ∀ (m : Module) (x : Extraction),
    (ofSource Components.lenientRules (.ofModule m)).outcome = .ok x →
      ∃ text, (Wire.ofExtraction x).render none = some text ∧ Json.IsText text.toList := by
  intro h
  have hrefused : (ofSource Components.lenientRules
      (.ofModule Scaled.unbounded)).outcome.toOption.map (fun x =>
        (Json.readChars .standard (Json.chars none 0 (Wire.ofExtraction x))).toOption.isNone) =
          some true := by decide +kernel
  cases hx : (ofSource Components.lenientRules (.ofModule Scaled.unbounded)).outcome with
  | error fault =>
      rw [hx] at hrefused
      cases hrefused
  | ok x =>
      obtain ⟨text, hwritten, htext⟩ := h Scaled.unbounded x hx
      obtain ⟨-, rfl⟩ := Json.render_eq_some_iff.mp hwritten
      rw [Json.text, String.toList_ofList] at htext
      obtain ⟨value, hvalue⟩ := Json.isText_iff.mp htext
      have hnone : (Json.readChars .standard
          (Json.chars none 0 (Wire.ofExtraction x))).toOption.isNone = true := by
        rw [hx] at hrefused
        exact Option.some.inj hrefused
      rw [hvalue] at hnone
      cases hnone

end Scan

end PropSchema
