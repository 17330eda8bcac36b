import PropSchema.Json.Printer
import PropSchema.Json.Reader
/-!
Strings as JSON text. A string is written as the UTF-16 units of its characters, plain or escaped,
and the units that are read are joined to the characters that they came from.
-/
namespace PropSchema.Json

/-- The UTF-16 units of a character. -/
def unitsOf (c : Char) : List Nat :=
  if c.toNat < 0x10000 then [c.toNat]
  else [0xD800 + (c.toNat - 0x10000) / 0x400, 0xDC00 + (c.toNat - 0x10000) % 0x400]

theorem toNat_lt (c : Char) : c.toNat < 0x110000 := by
  have hvalid : c.toNat < 0xD800 ∨ 0xDFFF < c.toNat ∧ c.toNat < 0x110000 := c.valid
  omega

theorem hexValue?_digitChar : ∀ d < 16, hexValue? (Nat.digitChar d) = some d := by decide

/-- An escape has the four hexadecimal digits of its unit. -/
theorem unitEscape_eq {n : Nat} (h : n < 0x10000) :
    unitEscape n = ['\\', 'u', Nat.digitChar (n / 4096), Nat.digitChar (n / 256 % 16),
      Nat.digitChar (n / 16 % 16), Nat.digitChar (n % 16)] := by
  have hstep : ∀ {m : Nat}, 16 ≤ m →
      Nat.toDigits 16 m = Nat.toDigits 16 (m / 16) ++ [Nat.digitChar (m % 16)] :=
    fun hm => Nat.toDigits_of_base_le (by decide) hm
  have hlast : ∀ {m : Nat}, m < 16 → Nat.toDigits 16 m = [Nat.digitChar m] :=
    fun hm => Nat.toDigits_of_lt_base hm
  have h256 : n / 16 / 16 = n / 256 := Nat.div_div_eq_div_mul n 16 16
  have h4096 : n / 256 / 16 = n / 4096 := Nat.div_div_eq_div_mul n 256 16
  -- as many digits as the unit has, and zeros before them
  by_cases h1 : n < 16
  · have hzero : n / 16 % 16 = 0 ∧ n / 256 % 16 = 0 ∧ n / 4096 = 0 := by omega
    rw [unitEscape, hlast h1, hzero.1, hzero.2.1, hzero.2.2, Nat.mod_eq_of_lt h1]
    rfl
  by_cases h2 : n < 256
  · have hzero : n / 256 % 16 = 0 ∧ n / 4096 = 0 := by omega
    rw [unitEscape, hstep (by omega), hlast (by omega), hzero.1, hzero.2,
      Nat.mod_eq_of_lt (a := n / 16) (by omega)]
    rfl
  by_cases h3 : n < 4096
  · have hzero : n / 4096 = 0 := by omega
    rw [unitEscape, hstep (by omega), hstep (by omega), h256, hlast (by omega), hzero,
      Nat.mod_eq_of_lt (a := n / 256) (by omega)]
    rfl
  · rw [unitEscape, hstep (by omega), hstep (by omega), h256, hstep (by omega), h4096,
      hlast (by omega)]
    rfl

theorem unit?_digits {n : Nat} (h : n < 0x10000) :
    unit? (Nat.digitChar (n / 4096)) (Nat.digitChar (n / 256 % 16))
      (Nat.digitChar (n / 16 % 16)) (Nat.digitChar (n % 16)) = some n := by
  have hvalue : ((n / 4096 * 16 + n / 256 % 16) * 16 + n / 16 % 16) * 16 + n % 16 = n := by omega
  rw [unit?, hexValue?_digitChar _ (by omega), hexValue?_digitChar _ (by omega),
    hexValue?_digitChar _ (by omega), hexValue?_digitChar _ (by omega)]
  exact congrArg some hvalue

section Units
variable {opening : Nat} {tail rest : List Char} {units : List Nat}

theorem stringUnits_unitEscape (htail : stringUnits opening tail = .ok (units, rest)) {n : Nat}
    (h : n < 0x10000) : stringUnits opening (unitEscape n ++ tail) = .ok (n :: units, rest) := by
  rw [unitEscape_eq h]
  simp only [List.cons_append, List.nil_append]
  rw [stringUnits, unit?_digits h]
  dsimp only
  rw [htail]
  rfl

theorem stringUnits_simple (htail : stringUnits opening tail = .ok (units, rest)) {e c : Char}
    (he : e ≠ 'u') (h : simpleEscape? e = some c) :
    stringUnits opening ('\\' :: e :: tail) = .ok (c.toNat :: units, rest) := by
  rw [stringUnits, h]
  · dsimp only
    rw [htail]
    rfl
  · rintro - - - - - rfl -
    exact he rfl

theorem stringUnits_plain (htail : stringUnits opening tail = .ok (units, rest)) {c : Char}
    (hquote : c ≠ '"') (hslash : c ≠ '\\') (h : ' ' ≤ c) :
    stringUnits opening (c :: tail) = .ok (c.toNat :: units, rest) := by
  have hlow : ¬ c.toNat < 0x20 := Nat.not_lt.mpr h
  rw [stringUnits, if_neg hlow, htail]
  · rfl
  · exact hquote
  · rintro - - - - - rfl
    exact absurd rfl hslash
  · rintro - - rfl
    exact absurd rfl hslash

/-- What is written for a character is read as its units. -/
theorem stringUnits_escapeChar (htail : stringUnits opening tail = .ok (units, rest)) (c : Char) :
    stringUnits opening (escapeChar c ++ tail) = .ok (unitsOf c ++ units, rest) := by
  have hsmall : ∀ {c : Char}, c.toNat < 0x10000 → unitsOf c ++ units = c.toNat :: units :=
    fun h => by rw [unitsOf, if_pos h]; rfl
  unfold escapeChar
  -- seven characters have an escape of their own
  iterate 7
    split
    · next h =>
        subst h
        exact stringUnits_simple htail (by decide) rfl
  split
  · next hquote hslash _ _ _ _ _ hplain =>
      have hlt : c.toNat < 0x10000 := Nat.lt_of_le_of_lt hplain.2 (by decide)
      rw [hsmall hlt]
      exact stringUnits_plain htail hquote hslash hplain.1
  split
  · next hlt =>
      rw [hsmall hlt]
      exact stringUnits_unitEscape htail hlt
  · next hlarge =>
      have hmax : c.toNat < 0x110000 := toNat_lt c
      rw [unitsOf, if_neg hlarge, List.append_assoc]
      exact stringUnits_unitEscape (stringUnits_unitEscape htail (by omega)) (by omega)

theorem stringUnits_quoted (opening : Nat) (cs rest : List Char) :
    stringUnits opening (cs.flatMap escapeChar ++ '"' :: rest) = .ok (cs.flatMap unitsOf, rest) := by
  induction cs with
  | nil => rw [List.flatMap_nil, List.flatMap_nil, List.nil_append, stringUnits]
  | cons c cs ih =>
      rw [List.flatMap_cons, List.flatMap_cons, List.append_assoc]
      exact stringUnits_escapeChar ih c

end Units

/-- A character that takes one unit is read from it, as no unit of a pair is a character. -/
theorem joinUnits_cons {n : Nat} (hhigh : isHighUnit n = false) (hlow : isLowUnit n = false)
    (units : List Nat) : joinUnits (n :: units) = some (Char.ofNat n) :: joinUnits units := by
  cases units with
  | nil => simp [joinUnits, unitChar?, hhigh, hlow]
  | cons m units => simp [joinUnits, unitChar?, hhigh, hlow]

theorem joinUnits_unitsOf (c : Char) (units : List Nat) :
    joinUnits (unitsOf c ++ units) = some c :: joinUnits units := by
  by_cases h : c.toNat < 0x10000
  · have hvalid : c.toNat < 0xD800 ∨ 0xDFFF < c.toNat ∧ c.toNat < 0x110000 := c.valid
    have hhigh : isHighUnit c.toNat = false := by simp [isHighUnit]; omega
    have hlow : isLowUnit c.toNat = false := by simp [isLowUnit]; omega
    rw [unitsOf, if_pos h]
    change joinUnits (c.toNat :: units) = _
    rw [joinUnits_cons hhigh hlow, Char.ofNat_toNat]
  · have hmax : c.toNat < 0x110000 := toNat_lt c
    have hpair : isHighUnit (0xD800 + (c.toNat - 0x10000) / 0x400) &&
        isLowUnit (0xDC00 + (c.toNat - 0x10000) % 0x400) := by
      simp [isHighUnit, isLowUnit]
      omega
    have hcode : 0x10000 + (0xD800 + (c.toNat - 0x10000) / 0x400 - 0xD800) * 0x400 +
        (0xDC00 + (c.toNat - 0x10000) % 0x400 - 0xDC00) = c.toNat := by omega
    rw [unitsOf, if_neg h]
    change joinUnits (_ :: _ :: units) = _
    rw [joinUnits, if_pos hpair, hcode, Char.ofNat_toNat]

theorem joinUnits_flatMap (cs : List Char) : joinUnits (cs.flatMap unitsOf) = cs.map some := by
  induction cs with
  | nil => rfl
  | cons c cs ih => rw [List.flatMap_cons, joinUnits_unitsOf, ih, List.map_cons]

/-- A string is read if its units are, unless a dialect does without surrogates that stand alone. -/
theorem readString_of_units {dialect : Dialect} {cs rest : List Char} {units : List Nat}
    (h : stringUnits (cs.length + 1) cs = .ok (units, rest))
    (hpaired : dialect.loneSurrogates = true ∨ ∀ found ∈ joinUnits units, found.isSome) :
    readString dialect cs =
      .ok (String.ofList ((joinUnits units).map (·.getD '\uFFFD')), rest) := by
  have hread : (!dialect.loneSurrogates && (joinUnits units).any Option.isNone) = false := by
    obtain hall | hsome := hpaired
    · rw [hall]
      rfl
    · refine Bool.and_eq_false_iff.mpr (.inr (List.any_eq_false.mpr fun found hfound => ?_))
      rw [← Option.not_isSome, hsome found hfound]
      exact Bool.false_ne_true
  rw [readString, h]
  exact if_neg (by rw [hread]; exact Bool.false_ne_true)

/-- A string is read back from between its quotes. -/
theorem readString_quoted (dialect : Dialect) (s : String) (rest : List Char) :
    readString dialect (s.toList.flatMap escapeChar ++ '"' :: rest) = .ok (s, rest) := by
  have hjoined := joinUnits_flatMap s.toList
  have hsome : ∀ found ∈ joinUnits (s.toList.flatMap unitsOf), found.isSome := by
    intro found hfound
    rw [hjoined] at hfound
    obtain ⟨c, -, rfl⟩ := List.mem_map.mp hfound
    rfl
  rw [readString_of_units (stringUnits_quoted _ s.toList rest) (.inr hsome), hjoined, List.map_map]
  change Except.ok (String.ofList (s.toList.map id), rest) = _
  rw [List.map_id, String.ofList_toList]

end PropSchema.Json
