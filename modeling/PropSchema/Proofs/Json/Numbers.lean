import PropSchema.Json.Printer
import PropSchema.Json.Reader
import PropSchema.Proofs.Binary64.Rounding
import PropSchema.Proofs.Sequences
/-!
Numbers as JSON text. A number is written as whole digits, a fraction and an exponent, where the
last two may be missing; it is read as the value of these parts, an integer if both are missing.
-/
namespace PropSchema.Json

/-- The parts of an unsigned number as it is written. -/
structure NumberParts where
  whole : List Char
  fraction : List Char
  exponent : Option Int

/-- The whole digits of a number: zero alone, or digits of which the first is not zero. -/
inductive IsWhole : List Char → Prop
  | zero : IsWhole ['0']
  | digits {c : Char} {cs : List Char} (first : c ≠ '0') (all : ∀ d ∈ c :: cs, d.isDigit) :
      IsWhole (c :: cs)

namespace NumberParts

def fractionChars : List Char → List Char
  | [] => []
  | c :: cs => '.' :: c :: cs

def exponentChars : Option Int → List Char
  | none => []
  | some e => Binary64.exponentChars numberLayout e

def chars (n : NumberParts) : List Char :=
  n.whole ++ (fractionChars n.fraction ++ exponentChars n.exponent)

/-- The digits after the point are digits, and the whole ones do not begin with a needless zero. -/
structure WellFormed (n : NumberParts) : Prop where
  whole : IsWhole n.whole
  fraction : ∀ c ∈ n.fraction, c.isDigit

/-- The decimal of a number that has a fraction or an exponent. -/
def decimal (negative : Bool) (n : NumberParts) : Binary64 :=
  Binary64.ofDecimal negative (naturalOf (n.whole ++ n.fraction))
    (n.exponent.getD 0 - n.fraction.length)

/-- The value of a number: with neither fraction nor exponent it is an integer. -/
def value (negative : Bool) (n : NumberParts) : Numeral :=
  if n.fraction.isEmpty && n.exponent.isNone then
    .int (Numeral.signed negative (naturalOf n.whole))
  else .float (n.decimal negative)

end NumberParts

/-- A text that does not continue a number before it. -/
def EndsNumber (rest : List Char) : Prop :=
  ∀ c ∈ rest.head?, c.isDigit = false ∧ c ≠ '.' ∧ c ≠ 'e' ∧ c ≠ 'E'

section Digits
variable {ds rest : List Char}

theorem naturalOf_eq (run : List Char) : naturalOf run = Nat.ofDigitChars 10 run 0 := by
  rw [naturalOf, Nat.ofDigitChars_eq_foldl]
  exact congrArg (fun f => run.foldl f 0) (funext fun n => funext fun c => by rw [Nat.mul_comm])

theorem naturalOf_toDigits (n : Nat) : naturalOf (Nat.toDigits 10 n) = n := by
  rw [naturalOf_eq, Nat.ofDigitChars_ten_toDigits]

theorem naturalOf_zeros (k : Nat) (ds : List Char) :
    naturalOf (List.replicate k '0' ++ ds) = naturalOf ds := by
  rw [naturalOf_eq, naturalOf_eq, Nat.ofDigitChars_append, Nat.ofDigitChars_replicate_zero,
    Nat.mul_zero]

theorem naturalOf_append_zeros (ds : List Char) (k : Nat) :
    naturalOf (ds ++ List.replicate k '0') = naturalOf ds * 10 ^ k := by
  rw [naturalOf_eq, naturalOf_eq, Nat.ofDigitChars_append, Nat.ofDigitChars_replicate_zero,
    Nat.mul_comm]

theorem isDigit_of_mem_toDigits {c : Char} {n : Nat} (h : c ∈ Nat.toDigits 10 n) : c.isDigit :=
  Nat.isDigit_of_mem_toDigits (by decide) (by decide) h

theorem takeWhile_digits (hds : ∀ c ∈ ds, c.isDigit) (hrest : ∀ c ∈ rest.head?, c.isDigit = false) :
    (ds ++ rest).takeWhile isDigit = ds :=
  Sequences.takeWhile_append hds hrest

/-- The first digit of a number is no zero unless the number is zero. -/
theorem isWhole_toDigits (n : Nat) : IsWhole (Nat.toDigits 10 n) := by
  induction n using Nat.strongRecOn with
  | ind n ih =>
      by_cases hn : n < 10
      · rw [Nat.toDigits_of_lt_base hn]
        by_cases h0 : n = 0
        · subst h0
          exact .zero
        · refine .digits (fun h => h0 (Nat.digitChar_eq_zero.mp h)) fun d hd => ?_
          rw [List.mem_singleton.mp hd, Nat.isDigit_digitChar, decide_eq_true hn]
      · have hrec := ih (n / 10) (by omega)
        have hall : ∀ d ∈ Nat.toDigits 10 n, d.isDigit := fun d => isDigit_of_mem_toDigits
        rw [Nat.toDigits_of_base_le (by decide) (by omega)] at hall ⊢
        generalize hds : Nat.toDigits 10 (n / 10) = ds at hrec hall
        cases hrec with
        | zero =>
            have hzero := congrArg naturalOf hds
            rw [naturalOf_toDigits] at hzero
            have : n / 10 = 0 := hzero
            omega
        | digits first _ => exact .digits first hall

end Digits

namespace NumberParts
variable {rest : List Char}

theorem head?_fractionChars {fraction cs : List Char} {c : Char}
    (h : (fractionChars fraction ++ cs).head? = some c) : c = '.' ∨ cs.head? = some c := by
  cases fraction with
  | nil => exact .inr h
  | cons d ds => exact .inl (Option.some.inj h).symm

theorem head?_exponentChars {exponent : Option Int} {cs : List Char} {c : Char}
    (h : (exponentChars exponent ++ cs).head? = some c) : c = 'e' ∨ cs.head? = some c := by
  cases exponent with
  | none => exact .inr h
  | some e => exact .inl (Option.some.inj h).symm

theorem integerDigits_append {whole tail : List Char} (h : IsWhole whole)
    (htail : ∀ c ∈ tail.head?, c.isDigit = false) :
    integerDigits (whole ++ tail) = some (whole, tail) := by
  cases h with
  | zero => rfl
  | @digits c cs first all =>
      have hrun := takeWhile_digits all htail
      have hstep : integerDigits (c :: cs ++ tail) =
          if ((c :: cs ++ tail).takeWhile isDigit).isEmpty then none
          else some ((c :: cs ++ tail).takeWhile isDigit,
            (c :: cs ++ tail).drop ((c :: cs ++ tail).takeWhile isDigit).length) := by
        rw [List.cons_append, integerDigits]
        rintro rest ⟨⟩
        exact first rfl
      rw [hstep, hrun, List.drop_left]
      rfl

theorem fractionDigits_append {fraction tail : List Char} (h : ∀ c ∈ fraction, c.isDigit)
    (htail : ∀ c ∈ tail.head?, c.isDigit = false ∧ c ≠ '.') :
    fractionDigits (fractionChars fraction ++ tail) = (fraction, tail) := by
  cases fraction with
  | nil =>
      cases tail with
      | nil => rfl
      | cons c tail =>
          change fractionDigits (c :: tail) = _
          rw [fractionDigits]
          rintro rest ⟨⟩
          exact (htail '.' rfl).2 rfl
  | cons c cs =>
      have hrun := takeWhile_digits h fun d hd => (htail d hd).1
      change fractionDigits ('.' :: (c :: cs ++ tail)) = _
      rw [fractionDigits, hrun, List.drop_left]
      rfl

/-- The digits of an exponent: its magnitude, filled up with zeros. -/
def exponentRun (e : Int) : List Char :=
  Binary64.padLeft numberLayout.exponentWidth (Nat.toDigits 10 e.natAbs)

theorem isDigit_of_mem_exponentRun {e : Int} {c : Char} (h : c ∈ exponentRun e) : c.isDigit := by
  rcases List.mem_append.mp h with h | h
  · rw [List.eq_of_mem_replicate h]
    rfl
  · exact isDigit_of_mem_toDigits h

theorem signed_exponentRun (e : Int) :
    Numeral.signed (decide (e < 0)) (naturalOf (exponentRun e)) = e := by
  rw [exponentRun, Binary64.padLeft, naturalOf_zeros, naturalOf_toDigits, Numeral.signed]
  by_cases h : e < 0
  · rw [if_pos (decide_eq_true h)]
    omega
  · rw [if_neg (by simpa using h)]
    omega

theorem exponentDigits_append (exponent : Option Int) (h : EndsNumber rest) :
    exponentDigits (exponentChars exponent ++ rest) =
      (exponent.map fun e => (decide (e < 0), exponentRun e), rest) := by
  cases exponent with
  | none =>
      cases rest with
      | nil => rfl
      | cons c rest =>
          obtain ⟨-, -, he, hE⟩ := h c rfl
          change exponentDigits (c :: rest) = _
          rw [exponentDigits, if_neg (by simp [he, hE])]
          rfl
  | some e =>
      have hrun : (exponentRun e ++ rest).takeWhile isDigit = exponentRun e :=
        takeWhile_digits (fun c => isDigit_of_mem_exponentRun) fun c hc => (h c hc).1
      have hne : (exponentRun e).isEmpty = false := by
        rw [List.isEmpty_eq_false_iff, exponentRun, Binary64.padLeft]
        exact List.append_ne_nil_of_right_ne_nil _ Nat.toDigits_ne_nil
      have hsign : Numeral.splitSign ((if e < 0 then '-' else '+') :: (exponentRun e ++ rest)) =
          (decide (e < 0), exponentRun e ++ rest) := by
        by_cases hneg : e < 0
        · rw [if_pos hneg, decide_eq_true hneg]
          rfl
        · rw [if_neg hneg, decide_eq_false hneg]
          rfl
      change exponentDigits ('e' :: (if e < 0 then '-' else '+') :: (exponentRun e ++ rest)) = _
      rw [exponentDigits, if_pos (by decide), hsign]
      dsimp only
      rw [hrun, hne, List.drop_left]
      rfl

/-- A number is read as the value of its parts. -/
theorem readNumber_chars {n : NumberParts} (hn : n.WellFormed) (negative : Bool)
    (h : EndsNumber rest) :
    readNumber negative (n.chars ++ rest) = some (n.value negative, rest) := by
  have htail : ∀ c ∈ (exponentChars n.exponent ++ rest).head?, c.isDigit = false ∧ c ≠ '.' := by
    intro c hc
    rcases head?_exponentChars hc with rfl | hc
    · decide
    · exact ⟨(h c hc).1, (h c hc).2.1⟩
  have hwhole : ∀ c ∈ (fractionChars n.fraction ++ (exponentChars n.exponent ++ rest)).head?,
      c.isDigit = false := by
    intro c hc
    rcases head?_fractionChars hc with rfl | hc
    · decide
    · exact (htail c hc).1
  rw [chars, List.append_assoc, List.append_assoc, readNumber, integerDigits_append hn.whole hwhole]
  simp only [Option.bind_eq_bind, Option.bind_some, fractionDigits_append hn.fraction htail,
    exponentDigits_append n.exponent h, Option.isNone_map, value, decimal]
  split
  · rfl
  · cases he : n.exponent with
    | none => rfl
    | some e => simp only [Option.map_some, signed_exponentRun, Option.getD_some]; rfl

end NumberParts

end PropSchema.Json
