import Mathlib.Data.List.TakeWhile
import PropSchema.Proofs.Binary64.Finite
import PropSchema.Proofs.Json.Numbers
/-!
Scalars as JSON text. An integer is written as its digits and a binary64 number always with a point
or an exponent, so that each is read back as what it was.
-/
namespace PropSchema.Json

open Binary64 (dropTrailingZeros positionalChars decimalChars signChars ofDecimal)

namespace NumberParts

theorem fractionChars_of_ne_nil {ds : List Char} (h : ds ≠ []) : fractionChars ds = '.' :: ds := by
  cases ds with
  | nil => exact absurd rfl h
  | cons c cs => rfl

theorem value_of_fraction {n : NumberParts} (h : n.fraction ≠ []) (negative : Bool) :
    n.value negative = .float (n.decimal negative) := by
  rw [value, List.isEmpty_eq_false_iff.mpr h]
  rfl

end NumberParts

/-- What is kept of digits that do not begin with zero, and the zeros that are dropped. -/
theorem exists_kept {c : Char} (cs : List Char) (first : c ≠ '0') :
    ∃ ks k, dropTrailingZeros (c :: cs) = c :: ks ∧ cs = ks ++ List.replicate k '0' := by
  have hsplit : c :: cs = ((c :: cs).reverse.dropWhile (· == '0')).reverse ++
      ((c :: cs).reverse.takeWhile (· == '0')).reverse := by
    rw [← List.reverse_append, List.takeWhile_append_dropWhile, List.reverse_reverse]
  have hzeros : ((c :: cs).reverse.takeWhile (· == '0')).reverse =
      List.replicate ((c :: cs).reverse.takeWhile (· == '0')).length '0' := by
    refine List.eq_replicate_iff.mpr ⟨List.length_reverse, fun d hd => ?_⟩
    exact beq_iff_eq.mp (List.mem_takeWhile_imp (p := (· == '0')) (List.mem_reverse.mp hd))
  rw [hzeros] at hsplit
  unfold dropTrailingZeros
  cases hkept : ((c :: cs).reverse.dropWhile (· == '0')).reverse with
  | nil =>
      -- the first digit is no zero, so not all are dropped
      rw [hkept, List.nil_append] at hsplit
      exact absurd (List.eq_of_mem_replicate (hsplit ▸ List.mem_cons_self)) first
  | cons d ks =>
      rw [hkept, List.cons_append] at hsplit
      obtain ⟨rfl, htail⟩ := List.cons.inj hsplit
      exact ⟨ks, _, rfl, htail⟩

/-- A text is a number without sign that is read as a decimal. -/
def ReadsDecimal (text : List Char) (digits : Nat) (exponent : Int) : Prop :=
  ∃ n : NumberParts, n.WellFormed ∧ text = n.chars ∧
    ∀ negative, n.value negative = .float (ofDecimal negative digits exponent)

section Decimals
variable {c : Char} {cs : List Char} (first : c ≠ '0') (all : ∀ d ∈ c :: cs, d.isDigit)
include all

/-- The point stands before the digits and the zeros between. -/
theorem readsDecimal_point_first (m : Nat) :
    ReadsDecimal ('0' :: '.' :: (List.replicate m '0' ++ c :: cs)) (naturalOf (c :: cs))
      (-(m : Int) - (c :: cs).length) := by
  have hfraction : List.replicate m '0' ++ c :: cs ≠ [] :=
    List.append_ne_nil_of_right_ne_nil _ (List.cons_ne_nil c cs)
  refine ⟨⟨['0'], List.replicate m '0' ++ c :: cs, none⟩, ⟨.zero, ?_⟩, ?_, ?_⟩
  · intro d hd
    obtain hd | hd := List.mem_append.mp hd
    · rw [List.eq_of_mem_replicate hd]
      rfl
    · exact all d hd
  · rw [NumberParts.chars, NumberParts.fractionChars_of_ne_nil hfraction]
    exact congrArg _ (congrArg _ (List.append_nil _).symm)
  · intro negative
    have hvalue : naturalOf (['0'] ++ (List.replicate m '0' ++ c :: cs)) = naturalOf (c :: cs) :=
      (naturalOf_zeros 1 _).trans (naturalOf_zeros m (c :: cs))
    have hexponent : (none : Option Int).getD 0 -
        ((List.replicate m '0' ++ c :: cs).length : Int) = -(m : Int) - (c :: cs).length := by
      rw [List.length_append, List.length_replicate, Option.getD_none]
      omega
    rw [NumberParts.value_of_fraction hfraction, NumberParts.decimal, hvalue, hexponent]

include first

/-- The point stands behind the digits and the zeros that fill up. -/
theorem readsDecimal_point_last (m : Nat) :
    ReadsDecimal (c :: cs ++ List.replicate m '0' ++ ['.', '0']) (naturalOf (c :: cs)) m := by
  refine ⟨⟨c :: cs ++ List.replicate m '0', ['0'], none⟩, ⟨?_, ?_⟩, rfl, ?_⟩
  · refine .digits first fun d hd => ?_
    obtain hd | hd := (List.mem_append (s := c :: cs)).mp hd
    · exact all d hd
    · rw [List.eq_of_mem_replicate hd]
      rfl
  · exact List.forall_mem_singleton.mpr rfl
  · intro negative
    have hvalue : naturalOf (c :: cs ++ List.replicate m '0' ++ ['0']) =
        naturalOf (c :: cs) * 10 ^ (m + 1) := by
      rw [List.append_assoc, ← List.replicate_succ', naturalOf_append_zeros]
    have hexponent : (none : Option Int).getD 0 - ((['0'] : List Char).length : Int) =
        (m : Int) - ((m + 1 : Nat) : Int) := by
      rw [Option.getD_none, List.length_singleton]
      omega
    rw [NumberParts.value_of_fraction (List.cons_ne_nil _ _), NumberParts.decimal, hvalue,
      hexponent, Binary64.ofDecimal_mul_pow]

/-- The point stands between two digits. -/
theorem readsDecimal_point_within {m : Nat} (h : m < cs.length) :
    ReadsDecimal ((c :: cs).take (m + 1) ++ '.' :: (c :: cs).drop (m + 1)) (naturalOf (c :: cs))
      ((m + 1 : Nat) - (c :: cs).length) := by
  have hfraction : (c :: cs).drop (m + 1) ≠ [] := by
    rw [List.drop_succ_cons, Ne, List.drop_eq_nil_iff]
    omega
  refine ⟨⟨(c :: cs).take (m + 1), (c :: cs).drop (m + 1), none⟩, ⟨?_, ?_⟩, ?_, ?_⟩
  · exact .digits first fun d hd => all d (List.mem_of_mem_take (i := m + 1) hd)
  · exact fun d hd => all d (List.mem_of_mem_drop hd)
  · rw [NumberParts.chars, NumberParts.fractionChars_of_ne_nil hfraction]
    exact congrArg _ (congrArg _ (List.append_nil _).symm)
  · intro negative
    have hexponent : (none : Option Int).getD 0 - (((c :: cs).drop (m + 1)).length : Int) =
        ((m + 1 : Nat) : Int) - (c :: cs).length := by
      rw [List.length_drop, List.length_cons, Option.getD_none]
      omega
    rw [NumberParts.value_of_fraction hfraction, NumberParts.decimal, List.take_append_drop,
      hexponent]

/-- Digits with a point in them or beside them. -/
theorem readsDecimal_positional (whole : Int) :
    ReadsDecimal (positionalChars (c :: cs) whole) (naturalOf (c :: cs))
      (whole - (c :: cs).length) := by
  rw [positionalChars]
  split
  · obtain ⟨m, rfl⟩ : ∃ m : Nat, whole = -(m : Int) := ⟨whole.natAbs, by omega⟩
    have hm : (- -(m : Int)).toNat = m := by omega
    rw [hm]
    exact readsDecimal_point_first all m
  · split
    · obtain ⟨m, rfl⟩ : ∃ m : Nat, whole = (c :: cs).length + m :=
        ⟨(whole - (c :: cs).length).toNat, by omega⟩
      have hm : (((c :: cs).length : Int) + (m : Int)).toNat - (c :: cs).length = m := by omega
      have hexponent : ((c :: cs).length : Int) + (m : Int) - (c :: cs).length = m := by omega
      rw [hm, hexponent]
      exact readsDecimal_point_last first all m
    · next hlt =>
        rw [List.length_cons] at hlt
        obtain ⟨m, rfl⟩ : ∃ m : Nat, whole = (m + 1 : Nat) := ⟨(whole - 1).toNat, by omega⟩
        exact readsDecimal_point_within first all (by omega)

/-- One digit before the point, the others after it, and an exponent. -/
theorem readsDecimal_scientific (leading : Int) :
    ReadsDecimal (match c :: cs with
      | [] => []
      | [d] => d :: Binary64.exponentChars numberLayout leading
      | d :: more => d :: '.' :: (more ++ Binary64.exponentChars numberLayout leading))
      (naturalOf (c :: cs)) (leading + 1 - (c :: cs).length) := by
  refine ⟨⟨[c], cs, some leading⟩, ⟨.digits first fun d hd => ?_, fun d hd => ?_⟩, ?_,
    fun negative => ?_⟩
  · exact all d (List.mem_cons.mpr (.inl (List.mem_singleton.mp hd)))
  · exact all d (List.mem_cons_of_mem c hd)
  · cases cs <;> rfl
  · have hexponent : (some leading).getD 0 - (cs.length : Int) =
        leading + 1 - ((c :: cs).length : Int) := by
      rw [Option.getD_some, List.length_cons]
      omega
    rw [NumberParts.value, Option.isNone_some, Bool.and_false, NumberParts.decimal, hexponent]
    rfl

end Decimals

/-- A decimal is written as a number that is read as the decimal. -/
theorem readsDecimal_chars {digits : Nat} (h : digits ≠ 0) (exponent : Int) :
    ReadsDecimal (decimalChars numberLayout digits exponent) digits exponent := by
  have hwhole := isWhole_toDigits digits
  have hnatural := naturalOf_toDigits digits
  rw [decimalChars]
  generalize Nat.toDigits 10 digits = ds at hwhole hnatural
  cases hwhole with
  | zero => exact absurd hnatural.symm h
  | @digits c cs first all =>
      obtain ⟨ks, k, hkept, rfl⟩ := exists_kept cs first
      have hall : ∀ d ∈ c :: ks, d.isDigit := fun d hd => all d (List.mem_append_left _ hd)
      -- the dropped zeros only move the exponent
      have hvalue : ∀ negative, ofDecimal negative digits exponent = ofDecimal negative
          (naturalOf (c :: ks)) (exponent + ((c :: (ks ++ List.replicate k '0')).length : Int) - 1 +
            1 - (c :: ks).length) := by
        intro negative
        have hshift : exponent + ((c :: (ks ++ List.replicate k '0')).length : Int) - 1 + 1 -
            (c :: ks).length = exponent + k := by
          simp only [List.length_cons, List.length_append, List.length_replicate]
          omega
        have hexponent : exponent = exponent + k - k := by omega
        rw [hshift, ← Binary64.ofDecimal_mul_pow negative _ k (exponent + k), ← hexponent,
          ← naturalOf_append_zeros, List.cons_append, hnatural]
      simp only [ReadsDecimal, hvalue, hkept]
      split
      · exact readsDecimal_positional first hall _
      · exact readsDecimal_scientific first hall _

theorem decimalChars_zero : decimalChars numberLayout 0 0 = ['0', '.', '0'] := by decide

theorem ofRank_val (negative : Bool) (rank : Fin 0x7FF0000000000000) :
    Binary64.ofRank negative rank.val = .finite negative rank := by
  rw [Binary64.ofRank, dif_pos rank.isLt]

theorem ofDecimal_zero (negative : Bool) (exponent : Int) :
    ofDecimal negative 0 exponent = Binary64.ofRank negative 0 := by
  rw [ofDecimal, if_pos rfl, Binary64.zero]

/-- A finite number is written as a sign and a number that is read as it. -/
theorem exists_finite (negative : Bool) (rank : Fin 0x7FF0000000000000) :
    ∃ n : NumberParts, n.WellFormed ∧
      Binary64.chars numberLayout (.finite negative rank) = signChars negative ++ n.chars ∧
      n.value negative = .float (.finite negative rank) := by
  rw [Binary64.chars]
  split
  · next h =>
      have hvalue : naturalOf (['0'] ++ ['0']) = 0 := by decide
      refine ⟨⟨['0'], ['0'], none⟩, ⟨.zero, List.forall_mem_singleton.mpr rfl⟩,
        by rw [decimalChars_zero]; rfl, ?_⟩
      rw [NumberParts.value_of_fraction (List.cons_ne_nil _ _), NumberParts.decimal, hvalue,
        ofDecimal_zero, ← h, ofRank_val]
  · next h =>
      have hread := Binary64.ofDecimal_shortest (Nat.pos_of_ne_zero h) rank.isLt
      rw [ofRank_val] at hread
      -- of the chosen decimal only its value matters
      generalize Binary64.shortest rank.val = found at hread
      obtain ⟨digits, exponent⟩ := found
      dsimp only at hread ⊢
      have hdigits : digits ≠ 0 := by
        intro h0
        rw [h0, ofDecimal_zero, Binary64.ofRank, dif_pos (by decide)] at hread
        injection hread with _ hzero
        exact h (congrArg Fin.val hzero).symm
      obtain ⟨n, hn, hchars, hvalue⟩ := readsDecimal_chars hdigits exponent
      refine ⟨n, hn, by rw [hchars], ?_⟩
      rw [hvalue]
      cases negative with
      | false => rw [hread]
      | true => rw [← Binary64.neg_ofDecimal, hread, Binary64.neg, Bool.not_false]

theorem intChars_eq (n : Int) :
    intChars n = signChars (decide (n < 0)) ++ Nat.toDigits 10 n.natAbs := by
  rw [intChars]
  by_cases h : n < 0
  · rw [if_pos h, decide_eq_true h]
    rfl
  · rw [if_neg h, decide_eq_false h]
    rfl

/-- An integer is written as a sign and a number that is read as it. -/
theorem exists_int (i : Int) : ∃ n : NumberParts, n.WellFormed ∧
    intChars i = signChars (decide (i < 0)) ++ n.chars ∧ n.value (decide (i < 0)) = .int i := by
  refine ⟨⟨Nat.toDigits 10 i.natAbs, [], none⟩, ⟨isWhole_toDigits _, nofun⟩, ?_, ?_⟩
  · rw [intChars_eq]
    exact congrArg _ (List.append_nil _).symm
  · change Numeral.int (Numeral.signed _ (naturalOf (Nat.toDigits 10 i.natAbs))) = _
    rw [naturalOf_toDigits, Numeral.signed]
    by_cases h : i < 0
    · rw [if_pos (decide_eq_true h)]
      exact congrArg _ (by omega)
    · rw [if_neg (by simpa using h)]
      exact congrArg _ (by omega)

section Scalars
variable {dialect : Dialect} {rest : List Char}

theorem afterWord?_of_ne {word : String} {w c : Char} (h : word.toList.head? = some w) (hne : c ≠ w)
    (cs : List Char) : afterWord? word (c :: cs) = none := by
  rw [afterWord?]
  generalize word.toList = ws at h
  cases ws with
  | nil => nomatch h
  | cons v ws =>
      cases h
      rw [List.isPrefixOf_cons_cons, beq_false_of_ne (Ne.symm hne)]
      rfl

theorem IsWhole.exists_cons {ds : List Char} (h : IsWhole ds) :
    ∃ c cs, ds = c :: cs ∧ c.isDigit := by
  cases h with
  | zero => exact ⟨_, _, rfl, rfl⟩
  | digits _ all => exact ⟨_, _, rfl, all _ List.mem_cons_self⟩

theorem ne_of_isDigit {c d : Char} (h : c.isDigit) (hd : d.isDigit = false) : c ≠ d :=
  fun heq => Bool.false_ne_true (hd.symm.trans (heq ▸ h))

/-- A minus sign before a number, and what follows it. -/
def signOf : List Char → Bool × List Char
  | '-' :: rest => (true, rest)
  | cs => (false, cs)

theorem noWord_digit {c : Char} (hc : c.isDigit) (cs : List Char) :
    ∀ word ∈ ["null", "true", "false", "NaN", "Infinity", "-Infinity"],
      afterWord? word (c :: cs) = none := by
  have hne : ∀ d : Char, d.isDigit = false → c ≠ d := fun d => ne_of_isDigit hc
  simp only [List.forall_mem_cons]
  exact ⟨afterWord?_of_ne rfl (hne _ rfl) cs, afterWord?_of_ne rfl (hne _ rfl) cs,
    afterWord?_of_ne rfl (hne _ rfl) cs, afterWord?_of_ne rfl (hne _ rfl) cs,
    afterWord?_of_ne rfl (hne _ rfl) cs, afterWord?_of_ne rfl (hne _ rfl) cs, nofun⟩

theorem noWord_minus {c : Char} (hc : c.isDigit) (cs : List Char) :
    ∀ word ∈ ["null", "true", "false", "NaN", "Infinity", "-Infinity"],
      afterWord? word ('-' :: c :: cs) = none := by
  have hminus : afterWord? "-Infinity" ('-' :: c :: cs) = none := by
    have hword : "-Infinity".toList = '-' :: 'I' :: "nfinity".toList := by decide
    rw [afterWord?, hword, List.isPrefixOf_cons_cons, List.isPrefixOf_cons_cons,
      beq_false_of_ne (ne_of_isDigit hc rfl).symm]
    rfl
  simp only [List.forall_mem_cons]
  exact ⟨afterWord?_of_ne rfl (by decide) _, afterWord?_of_ne rfl (by decide) _,
    afterWord?_of_ne rfl (by decide) _, afterWord?_of_ne rfl (by decide) _,
    afterWord?_of_ne rfl (by decide) _, hminus, nofun⟩

theorem readScalar_of_noWord {cs : List Char}
    (h : ∀ word ∈ ["null", "true", "false", "NaN", "Infinity", "-Infinity"],
      afterWord? word cs = none) :
    readScalar dialect cs =
      match readNumber (signOf cs).1 (signOf cs).2 with
      | some (n, rest) =>
        match dialect.excess? n with
        | none => .ok (ofNumeral n, rest)
        | some digits => failAt (.tooLong digits) cs
      | none => failAt .value cs := by
  simp only [List.forall_mem_cons] at h
  obtain ⟨hnull, htrue, hfalse, hnan, hinf, hneg, -⟩ := h
  unfold readScalar
  rw [hnull, htrue, hfalse, hnan, hinf, hneg, ite_self]
  rfl

theorem Dialect.excess?_int {i : Int}
    (h : dialect.longIntegers = true ∨ Numeral.isWritable i = true) :
    dialect.excess? (.int i) = none :=
  if_pos (Bool.or_eq_true_iff.mpr h)

/-- A number with its sign is read as its value, unless it has too many digits. -/
theorem readScalar_number {n : NumberParts} (hn : n.WellFormed) (negative : Bool)
    (hlength : dialect.excess? (n.value negative) = none) (h : EndsNumber rest) :
    readScalar dialect (signChars negative ++ n.chars ++ rest) =
      .ok (ofNumeral (n.value negative), rest) := by
  obtain ⟨c, cs, hcs, hc⟩ := hn.whole.exists_cons
  have hread := NumberParts.readNumber_chars hn negative h
  have hfront : n.chars ++ rest =
      c :: (cs ++ (NumberParts.fractionChars n.fraction ++ NumberParts.exponentChars n.exponent) ++
        rest) := by
    rw [NumberParts.chars, hcs]
    rfl
  rw [List.append_assoc, hfront]
  rw [hfront] at hread
  -- no word begins with a digit, nor with a sign and a digit
  cases negative with
  | false =>
      have hsign : ∀ ds, signOf (c :: ds) = (false, c :: ds) := by
        intro ds
        rw [signOf]
        rintro - ⟨⟩
        exact Bool.false_ne_true hc
      change readScalar _ (c :: _) = _
      simp only [readScalar_of_noWord (noWord_digit hc _), hsign, hread, hlength]
  | true =>
      change readScalar _ ('-' :: c :: _) = _
      simp only [readScalar_of_noWord (noWord_minus hc _), signOf, hread, hlength]

/-- An integer is read back, if it is not too long for the dialect. -/
theorem readScalar_intChars {i : Int}
    (hi : dialect.longIntegers = true ∨ Numeral.isWritable i = true) (h : EndsNumber rest) :
    readScalar dialect (intChars i ++ rest) = .ok (.int i, rest) := by
  obtain ⟨n, hn, hchars, hvalue⟩ := exists_int i
  rw [hchars, readScalar_number hn _ (by rw [hvalue, Dialect.excess?_int hi]) h, hvalue]
  rfl

/--
A binary64 number is read back, the infinities and not a number where their names are read.
-/
theorem readScalar_floatChars {x : Binary64} (hx : dialect.specials = true ∨ x.isFinite = true)
    (h : EndsNumber rest) :
    readScalar dialect (Binary64.chars numberLayout x ++ rest) = .ok (.float x, rest) := by
  cases x with
  | finite negative rank =>
      obtain ⟨n, hn, hchars, hvalue⟩ := exists_finite negative rank
      rw [hchars, readScalar_number hn _ (by rw [hvalue]; rfl) h, hvalue]
      rfl
  | infinite negative =>
      obtain ⟨specials, longIntegers, loneSurrogates⟩ := dialect
      obtain rfl : specials = true := hx.resolve_right Bool.false_ne_true
      cases negative <;> rfl
  | nan =>
      obtain ⟨specials, longIntegers, loneSurrogates⟩ := dialect
      obtain rfl : specials = true := hx.resolve_right Bool.false_ne_true
      rfl

end Scalars

end PropSchema.Json
