import PropSchema.Proofs.Json.Standard
/-!
Every text of the grammar is read, so the standard dialect reads exactly the well-formed texts.
-/
namespace PropSchema.Json

section Strings
variable {opening : Nat} {cs rest : List Char}

theorem exists_unit {a b c d : Char} (h : ∀ x ∈ [a, b, c, d], (hexValue? x).isSome) :
    ∃ n, unit? a b c d = some n := by
  simp only [List.forall_mem_cons, Option.isSome_iff_exists] at h
  obtain ⟨⟨na, ha⟩, ⟨nb, hb⟩, ⟨nc, hc⟩, ⟨nd, hd⟩, -⟩ := h
  exact ⟨_, by rw [unit?, ha, hb, hc, hd]; rfl⟩

theorem IsQuoted.exists_units (h : IsQuoted cs) (rest : List Char) :
    ∃ units, stringUnits opening (cs ++ rest) = .ok (units, rest) := by
  induction h with
  | close => exact ⟨[], by rw [List.singleton_append, stringUnits]⟩
  | plain noControl noQuote noSlash _ ih =>
      obtain ⟨units, hunits⟩ := ih
      exact ⟨_, stringUnits_plain hunits noQuote noSlash noControl⟩
  | escape known _ ih =>
      obtain ⟨units, hunits⟩ := ih
      obtain ⟨e, he⟩ := Option.isSome_iff_exists.mp known
      refine ⟨_, stringUnits_simple hunits ?_ he⟩
      rintro rfl
      cases he
  | unit digits _ ih =>
      obtain ⟨units, hunits⟩ := ih
      obtain ⟨n, hn⟩ := exists_unit digits
      refine ⟨n :: units, ?_⟩
      simp only [List.cons_append]
      rw [stringUnits, hn]
      dsimp only
      rw [hunits]
      rfl

theorem IsQuoted.exists_string (h : IsQuoted cs) (rest : List Char) :
    ∃ s, readString .standard (cs ++ rest) = .ok (s, rest) := by
  obtain ⟨units, hunits⟩ := h.exists_units rest
  exact ⟨_, readString_of_units hunits (.inl rfl)⟩

end Strings

section Numbers
variable {cs rest : List Char}

theorem IsFraction.exists_chars (h : IsFraction cs) : ∃ ds, cs = NumberParts.fractionChars ds ∧
    ∀ c ∈ ds, c.isDigit := by
  cases h with
  | none => exact ⟨[], rfl, nofun⟩
  | point hds => exact ⟨_, (NumberParts.fractionChars_of_ne_nil hds.some).symm, hds.all⟩

theorem IsDigits.head_ne (h : IsDigits cs) (rest : List Char) :
    ∀ c ∈ (cs ++ rest).head?, c ≠ '+' ∧ c ≠ '-' := by
  obtain ⟨d, ds, rfl⟩ := List.exists_cons_of_ne_nil h.some
  have hd := h.all d List.mem_cons_self
  rintro c ⟨⟩
  constructor
  · rintro rfl
    cases hd
  · rintro rfl
    cases hd

theorem IsExponent.exists_digits (h : IsExponent cs) (hrest : EndsNumber rest) :
    ∃ found, exponentDigits (cs ++ rest) = (found, rest) := by
  cases h with
  | none => exact ⟨_, NumberParts.exponentDigits_append Option.none hrest⟩
  | @mark mark sign ds hmark hsign hds =>
      have hrun : (ds ++ rest).takeWhile isDigit = ds :=
        takeWhile_digits hds.all fun c hc => (hrest c hc).1
      have hsplit := Numeral.splitSign_append hsign (hds.head_ne rest)
      refine ⟨some (decide (sign = ['-']), ds), ?_⟩
      rw [List.cons_append, List.append_assoc, exponentDigits, if_pos (by simpa using hmark), hsplit]
      dsimp only
      rw [hrun, List.isEmpty_eq_false_iff.mpr hds.some, List.drop_left]
      rfl

theorem IsExponent.head? (h : IsExponent cs) {c : Char} (hc : (cs ++ rest).head? = some c) :
    c = 'e' ∨ c = 'E' ∨ rest.head? = some c := by
  cases h with
  | none => exact .inr (.inr hc)
  | mark hmark _ _ =>
      cases hc
      exact hmark.elim .inl (.inr ∘ .inl)

/-- A number is read up to where it ends. -/
theorem exists_number {whole fraction exponent : List Char} (hwhole : IsWhole whole)
    (hfraction : IsFraction fraction) (hexponent : IsExponent exponent) (hrest : EndsNumber rest)
    (negative : Bool) :
    ∃ n, readNumber negative (whole ++ (fraction ++ (exponent ++ rest))) = some (n, rest) := by
  obtain ⟨ds, rfl, hds⟩ := hfraction.exists_chars
  obtain ⟨found, hfound⟩ := hexponent.exists_digits hrest
  have htail : ∀ c ∈ (exponent ++ rest).head?, c.isDigit = false ∧ c ≠ '.' := by
    intro c hc
    obtain rfl | rfl | hc := hexponent.head? hc
    · decide
    · decide
    · exact ⟨(hrest c hc).1, (hrest c hc).2.1⟩
  have hafter : ∀ c ∈ (NumberParts.fractionChars ds ++ (exponent ++ rest)).head?,
      c.isDigit = false := by
    intro c hc
    obtain rfl | hc := NumberParts.head?_fractionChars hc
    · decide
    · exact (htail c hc).1
  rw [readNumber, NumberParts.integerDigits_append hwhole hafter]
  simp only [Option.bind_eq_bind, Option.bind_some,
    NumberParts.fractionDigits_append hds htail, hfound]
  split <;> exact ⟨_, rfl⟩

theorem signOf_append {sign : List Char} (hsign : sign ∈ [[], ['-']]) {c : Char} (hc : c.isDigit)
    (cs : List Char) : ∃ negative, signOf (sign ++ c :: cs) = (negative, c :: cs) := by
  simp only [List.mem_cons, List.not_mem_nil, or_false] at hsign
  rcases hsign with rfl | rfl
  · refine ⟨false, ?_⟩
    rw [List.nil_append, signOf]
    rintro - ⟨⟩
    cases hc
  · exact ⟨true, rfl⟩

theorem noWord_sign {sign : List Char} (hsign : sign ∈ [[], ['-']]) {c : Char} (hc : c.isDigit)
    (cs : List Char) : ∀ word ∈ ["null", "true", "false", "NaN", "Infinity", "-Infinity"],
      afterWord? word (sign ++ c :: cs) = none := by
  simp only [List.mem_cons (a := sign), List.not_mem_nil, or_false] at hsign
  rcases hsign with rfl | rfl
  · exact noWord_digit hc cs
  · exact noWord_minus hc cs

theorem IsNumber.exists_cons (h : IsNumber cs) : ∃ c ds, cs = c :: ds ∧ BeginsScalar c := by
  cases h with
  | mk hsign hwhole _ _ =>
      obtain ⟨c, ds, rfl, hc⟩ := hwhole.exists_cons
      simp only [List.mem_cons, List.not_mem_nil, or_false] at hsign
      rcases hsign with rfl | rfl
      · exact ⟨c, _, rfl, .of_isDigit hc⟩
      · exact ⟨'-', _, rfl, by decide⟩

theorem IsNumber.exists_scalar (h : IsNumber cs) (hrest : EndsNumber rest) :
    ∃ value, readScalar .standard (cs ++ rest) = .ok (value, rest) := by
  cases h with
  | @mk sign whole fraction exponent hsign hwhole hfraction hexponent =>
      obtain ⟨c, ds, rfl, hc⟩ := hwhole.exists_cons
      obtain ⟨negative, hsignOf⟩ :=
        signOf_append hsign hc (ds ++ (fraction ++ (exponent ++ rest)))
      obtain ⟨n, hn⟩ := exists_number hwhole hfraction hexponent hrest negative
      have hword := noWord_sign hsign hc (ds ++ (fraction ++ (exponent ++ rest)))
      simp only [List.append_assoc, List.cons_append] at hn ⊢
      have hlength : Dialect.standard.excess? n = none := by cases n <;> rfl
      exact ⟨ofNumeral n, by simp only [readScalar_of_noWord hword, hsignOf, hn, hlength]⟩

end Numbers

/-- The value at the front of a text is read up to its end, with as much fuel as it is long. -/
def IsRead {α : Type} (read : Nat → List Char → Except ReadError (α × List Char))
    (piece : List Char) : Prop :=
  ∀ (fuel : Nat) (rest : List Char), EndsNumber rest → piece.length ≤ fuel →
    ∃ a, read fuel (piece ++ rest) = .ok (a, rest)

theorem IsValue.exists_cons {cs : List Char} (h : IsValue cs) :
    ∃ c ds, cs = c :: ds ∧ BeginsValue c := by
  cases h with
  | null | true | false => exact ⟨_, _, rfl, by decide⟩
  | number h =>
      obtain ⟨c, ds, rfl, hc⟩ := h.exists_cons
      exact ⟨c, ds, rfl, hc.toBeginsValue⟩
  | string h =>
      cases h
      exact ⟨_, _, rfl, by decide⟩
  | emptyArray | array | emptyObject | object => exact ⟨_, _, rfl, by decide⟩

section Values
variable {cs : List Char}

/-- A scalar goes to the reader of scalars. -/
theorem isRead_of_scalar {c : Char} (hc : BeginsScalar c) (hread : ∀ rest, EndsNumber rest →
    ∃ value, readScalar .standard (c :: cs ++ rest) = .ok (value, rest)) :
    IsRead (readValue .standard) (c :: cs) := by
  intro fuel rest hrest hfuel
  obtain ⟨fuel, rfl⟩ : ∃ k, fuel = k + 1 := ⟨fuel - 1, by rw [List.length_cons] at hfuel; omega⟩
  obtain ⟨value, hvalue⟩ := hread rest hrest
  refine ⟨value, ?_⟩
  rw [List.cons_append] at hvalue ⊢
  rw [readValue, hvalue]
  · rintro - ⟨⟩
    exact hc.noQuote rfl
  · rintro - ⟨⟩
    exact hc.noList rfl
  · rintro - ⟨⟩
    exact hc.noObject rfl

/-- What begins a value is found behind a gap. -/
theorem IsValue.skipSpace_gap {gap : List Char} (h : IsValue cs) (hgap : IsGap gap)
    (rest : List Char) : skipSpace (gap ++ (cs ++ rest)) = cs ++ rest := by
  obtain ⟨c, ds, rfl, hc⟩ := h.exists_cons
  exact skipSpace_append hgap hc.noSpace _

theorem isRead_items_last {item gap : List Char} (hitem : IsRead (readValue .standard) item)
    (hgap : IsGap gap) : IsRead (readItems .standard) (item ++ (gap ++ [']'])) := by
  intro fuel rest _ hfuel
  simp only [List.length_append, List.length_singleton] at hfuel
  obtain ⟨fuel, rfl⟩ : ∃ k, fuel = k + 1 := ⟨fuel - 1, by omega⟩
  obtain ⟨value, hvalue⟩ := hitem fuel (gap ++ ']' :: rest)
    (endsNumber_gap hgap (endsNumber_cons rfl (by decide) (by decide) (by decide))) (by omega)
  refine ⟨[value], ?_⟩
  simp only [List.append_assoc, List.singleton_append]
  exact readItems_last hvalue (skipSpace_append hgap rfl rest)

theorem isRead_items_next {item gap more : List Char} (hitem : IsRead (readValue .standard) item)
    (hgap : IsGap gap) {tail : List Char} (htail : ∀ rest, skipSpace (tail ++ rest) = more ++ rest)
    (hlength : more.length ≤ tail.length) (hmore : IsRead (readItems .standard) more) :
    IsRead (readItems .standard) (item ++ (gap ++ ',' :: tail)) := by
  intro fuel rest hrest hfuel
  simp only [List.length_append, List.length_cons] at hfuel
  obtain ⟨fuel, rfl⟩ : ∃ k, fuel = k + 1 := ⟨fuel - 1, by omega⟩
  obtain ⟨value, hvalue⟩ := hitem fuel (gap ++ ',' :: (tail ++ rest))
    (endsNumber_gap hgap (endsNumber_cons rfl (by decide) (by decide) (by decide))) (by omega)
  obtain ⟨items, hitems⟩ := hmore fuel rest hrest (by omega)
  refine ⟨value :: items, ?_⟩
  simp only [List.append_assoc, List.cons_append]
  rw [← htail] at hitems
  exact readItems_next hvalue (skipSpace_append hgap rfl _) hitems

section Fields
variable {name gap gap' value gap'' : List Char} (hname : IsString name) (hgap : IsGap gap)
  (hgap' : IsGap gap') (hvalue : IsValue value) (hread : IsRead (readValue .standard) value)
  (hgap'' : IsGap gap'')
include hname hgap hgap' hvalue hread hgap''

theorem isRead_fields_last : IsRead (readFields .standard)
    (name ++ (gap ++ ':' :: (gap' ++ (value ++ (gap'' ++ ['}']))))) := by
  intro fuel rest _ hfuel
  simp only [List.length_append, List.length_cons] at hfuel
  obtain ⟨fuel, rfl⟩ : ∃ k, fuel = k + 1 := ⟨fuel - 1, by omega⟩
  obtain ⟨found, hfound⟩ := hread fuel (gap'' ++ '}' :: rest)
    (endsNumber_gap hgap'' (endsNumber_cons rfl (by decide) (by decide) (by decide))) (by omega)
  cases hname with
  | mk quoted =>
      obtain ⟨key, hkey⟩ := quoted.exists_string
        (gap ++ ':' :: (gap' ++ (value ++ (gap'' ++ '}' :: rest))))
      refine ⟨[(key, found)], ?_⟩
      simp only [List.append_assoc, List.cons_append, List.nil_append]
      exact readFields_last hkey (skipSpace_append hgap rfl _) (hvalue.skipSpace_gap hgap' _) hfound
        (skipSpace_append hgap'' rfl rest)

theorem isRead_fields_next {more tail : List Char}
    (htail : ∀ rest, skipSpace (tail ++ rest) = more ++ rest) (hlength : more.length ≤ tail.length)
    (hmore : IsRead (readFields .standard) more) : IsRead (readFields .standard)
      (name ++ (gap ++ ':' :: (gap' ++ (value ++ (gap'' ++ ',' :: tail))))) := by
  intro fuel rest hrest hfuel
  simp only [List.length_append, List.length_cons] at hfuel
  obtain ⟨fuel, rfl⟩ : ∃ k, fuel = k + 1 := ⟨fuel - 1, by omega⟩
  obtain ⟨found, hfound⟩ := hread fuel (gap'' ++ ',' :: (tail ++ rest))
    (endsNumber_gap hgap'' (endsNumber_cons rfl (by decide) (by decide) (by decide))) (by omega)
  obtain ⟨fields, hfields⟩ := hmore fuel rest hrest (by omega)
  cases hname with
  | mk quoted =>
      obtain ⟨key, hkey⟩ := quoted.exists_string
        (gap ++ ':' :: (gap' ++ (value ++ (gap'' ++ ',' :: (tail ++ rest)))))
      refine ⟨(key, found) :: fields, ?_⟩
      simp only [List.append_assoc, List.cons_append]
      rw [← htail] at hfields
      exact readFields_next hkey (skipSpace_append hgap rfl _) (hvalue.skipSpace_gap hgap' _) hfound
        (skipSpace_append hgap'' rfl _) hfields

end Fields

theorem IsItems.exists_cons (h : IsItems cs) : ∃ c ds, cs = c :: ds ∧ BeginsValue c := by
  cases h with
  | last hitem _ | next hitem _ _ _ =>
      obtain ⟨c, ds, rfl, hc⟩ := hitem.exists_cons
      exact ⟨c, _, rfl, hc⟩

theorem IsFields.exists_cons (h : IsFields cs) : ∃ ds, cs = '"' :: ds := by
  cases h with
  | last hname | next hname =>
      cases hname
      exact ⟨_, rfl⟩

theorem IsItems.skipSpace_gap {gap : List Char} (h : IsItems cs) (hgap : IsGap gap)
    (rest : List Char) : skipSpace (gap ++ cs ++ rest) = cs ++ rest := by
  obtain ⟨c, ds, rfl, hc⟩ := h.exists_cons
  rw [List.append_assoc]
  exact skipSpace_append hgap hc.noSpace _

theorem IsFields.skipSpace_gap {gap : List Char} (h : IsFields cs) (hgap : IsGap gap)
    (rest : List Char) : skipSpace (gap ++ cs ++ rest) = cs ++ rest := by
  obtain ⟨ds, rfl⟩ := h.exists_cons
  rw [List.append_assoc]
  exact skipSpace_append hgap rfl _

theorem isRead_array {gap : List Char} (hgap : IsGap gap) (hitems : IsItems cs)
    (hread : IsRead (readItems .standard) cs) :
    IsRead (readValue .standard) ('[' :: (gap ++ cs)) := by
  intro fuel rest hrest hfuel
  simp only [List.length_append, List.length_cons] at hfuel
  obtain ⟨fuel, rfl⟩ : ∃ k, fuel = k + 1 := ⟨fuel - 1, by omega⟩
  obtain ⟨items, hfound⟩ := hread fuel rest hrest (by omega)
  have hskip := hitems.skipSpace_gap hgap rest
  obtain ⟨c, ds, rfl, hc⟩ := hitems.exists_cons
  rw [← hskip] at hfound
  have hfront : (skipSpace (gap ++ c :: ds ++ rest)).head? ≠ some ']' := by
    rw [hskip]
    exact fun h => hc.noBracket (Option.some.inj h)
  exact ⟨.arr items, readValue_arr hfound hfront⟩

theorem isRead_object {gap : List Char} (hgap : IsGap gap) (hfields : IsFields cs)
    (hread : IsRead (readFields .standard) cs) :
    IsRead (readValue .standard) ('{' :: (gap ++ cs)) := by
  intro fuel rest hrest hfuel
  simp only [List.length_append, List.length_cons] at hfuel
  obtain ⟨fuel, rfl⟩ : ∃ k, fuel = k + 1 := ⟨fuel - 1, by omega⟩
  obtain ⟨pairs, hfound⟩ := hread fuel rest hrest (by omega)
  have hskip := hfields.skipSpace_gap hgap rest
  obtain ⟨ds, rfl⟩ := hfields.exists_cons
  rw [← hskip] at hfound
  have hfront : (skipSpace (gap ++ '"' :: ds ++ rest)).head? ≠ some '}' := by
    rw [hskip]
    exact fun h => nomatch h
  exact ⟨.obj (Entries.ofPairs pairs), readValue_obj hfound hfront⟩

theorem isRead_empty {gap : List Char} (hgap : IsGap gap) :
    IsRead (readValue .standard) ('[' :: (gap ++ [']'])) ∧
      IsRead (readValue .standard) ('{' :: (gap ++ ['}'])) := by
  refine ⟨fun fuel rest _ hfuel => ?_, fun fuel rest _ hfuel => ?_⟩
  · obtain ⟨fuel, rfl⟩ : ∃ k, fuel = k + 1 := ⟨fuel - 1, by rw [List.length_cons] at hfuel; omega⟩
    refine ⟨.arr [], ?_⟩
    rw [List.cons_append, List.append_assoc, readValue, List.singleton_append,
      skipSpace_append hgap rfl]
    rfl
  · obtain ⟨fuel, rfl⟩ : ∃ k, fuel = k + 1 := ⟨fuel - 1, by rw [List.length_cons] at hfuel; omega⟩
    refine ⟨.obj [], ?_⟩
    rw [List.cons_append, List.append_assoc, readValue, List.singleton_append,
      skipSpace_append hgap rfl]
    rfl

theorem isRead_string (h : IsString cs) : IsRead (readValue .standard) cs := by
  intro fuel rest _ hfuel
  cases h with
  | mk quoted =>
      obtain ⟨fuel, rfl⟩ : ∃ k, fuel = k + 1 := ⟨fuel - 1, by rw [List.length_cons] at hfuel; omega⟩
      obtain ⟨s, hs⟩ := quoted.exists_string rest
      exact ⟨.str s, by rw [List.cons_append, readValue, hs]; rfl⟩

/-- Every value of the grammar is read, whatever follows it that does not continue a number. -/
theorem IsValue.isRead (h : IsValue cs) : IsRead (readValue .standard) cs := by
  refine IsValue.rec (motive_1 := fun cs _ => IsRead (readValue .standard) cs)
    (motive_2 := fun cs _ => IsRead (readItems .standard) cs)
    (motive_3 := fun cs _ => IsRead (readFields .standard) cs)
    ?null ?yes ?no ?number ?string ?emptyArray ?array ?emptyObject ?object ?lastItem ?nextItem
    ?lastField ?nextField h
  case null => exact isRead_of_scalar (by decide) fun rest _ => ⟨.null, rfl⟩
  case yes => exact isRead_of_scalar (by decide) fun rest _ => ⟨.bool Bool.true, rfl⟩
  case no => exact isRead_of_scalar (by decide) fun rest _ => ⟨.bool Bool.false, rfl⟩
  case number =>
    intro cs hnumber
    obtain ⟨c, ds, rfl, hc⟩ := hnumber.exists_cons
    exact isRead_of_scalar hc fun rest hrest => hnumber.exists_scalar hrest
  case string => exact fun hstring => isRead_string hstring
  case emptyArray => exact fun hgap => (isRead_empty hgap).1
  case array => exact fun hgap hitems ih => isRead_array hgap hitems ih
  case emptyObject => exact fun hgap => (isRead_empty hgap).2
  case object => exact fun hgap hfields ih => isRead_object hgap hfields ih
  case lastItem => exact fun _ hgap ih => isRead_items_last ih hgap
  case nextItem =>
    exact fun _ hgap hgap' hmore ih ihmore => isRead_items_next ih hgap (hmore.skipSpace_gap hgap')
      (List.length_append ▸ Nat.le_add_left _ _) ihmore
  case lastField =>
    exact fun hname hgap hgap' hvalue hgap'' ih =>
      isRead_fields_last hname hgap hgap' hvalue ih hgap''
  case nextField =>
    exact fun hname hgap hgap' hvalue hgap'' hgap₃ hmore ih ihmore =>
      isRead_fields_next hname hgap hgap' hvalue ih hgap'' (hmore.skipSpace_gap hgap₃)
        (List.length_append ▸ Nat.le_add_left _ _) ihmore

end Values

/-- The standard dialect reads exactly the well-formed texts. -/
theorem isText_iff {cs : List Char} : IsText cs ↔ ∃ value, readChars .standard cs = .ok value := by
  refine ⟨?_, fun ⟨_, h⟩ => isText_of_readChars h⟩
  rintro ⟨hgap, hvalue, hgap'⟩
  rename_i gap piece gap'
  have hmark : ¬ (gap ++ (piece ++ gap')).head? = some '\uFEFF' := by
    obtain ⟨c, ds, rfl, hc⟩ := hvalue.exists_cons
    cases gap with
    | nil => exact fun h => hc.noMark (Option.some.inj h)
    | cons d gap =>
        intro h
        cases h
        exact absurd (hgap '\uFEFF' List.mem_cons_self) (by decide)
  have hend : EndsNumber (gap' ++ []) := endsNumber_gap hgap' nofun
  rw [List.append_nil] at hend
  have hpiece : IsRead (readValue .standard) piece := hvalue.isRead
  obtain ⟨value, hread⟩ := hpiece ((gap ++ (piece ++ gap')).length + 1) gap' hend
    (by simp only [List.length_append]; omega)
  have hblank : skipSpace gap' = [] := List.dropWhile_eq_nil_iff.mpr hgap'
  refine ⟨value, ?_⟩
  rw [readChars, if_neg hmark, hvalue.skipSpace_gap hgap, hread]
  simp only [bind, Except.bind, hblank]
  rfl

end PropSchema.Json
