import PropSchema.Proofs.Json.RoundTrip
import PropSchema.Proofs.Numeral
import PropSchema.Proofs.Sequences
/-!
The grammar of standard JSON text, told apart from the reader. The standard dialect reads texts of the
grammar only, so a text that it reads is well formed; in the tolerant dialect this fails, as it also
reads the names of the special numbers.
-/
namespace PropSchema.Json
open Sequences (ok_of_bind)

/-- What may stand between two parts of a text. -/
def IsGap (cs : List Char) : Prop := ∀ c ∈ cs, isSpace c

/-- One digit or more. -/
structure IsDigits (cs : List Char) : Prop where
  some : cs ≠ []
  all : ∀ c ∈ cs, c.isDigit

/-- Nothing, or a point and digits. -/
inductive IsFraction : List Char → Prop
  | none : IsFraction []
  | point {ds : List Char} (hds : IsDigits ds) : IsFraction ('.' :: ds)

/-- Nothing, or an exponent mark and digits with a sign or none. -/
inductive IsExponent : List Char → Prop
  | none : IsExponent []
  | mark {mark : Char} {sign ds : List Char} (hmark : mark = 'e' ∨ mark = 'E')
      (hsign : sign ∈ [[], ['+'], ['-']]) (hds : IsDigits ds) : IsExponent (mark :: (sign ++ ds))

inductive IsNumber : List Char → Prop
  | mk {sign whole fraction exponent : List Char} (hsign : sign ∈ [[], ['-']])
      (hwhole : IsWhole whole) (hfraction : IsFraction fraction) (hexponent : IsExponent exponent) :
      IsNumber (sign ++ (whole ++ (fraction ++ exponent)))

/-- What follows the opening quote of a string, up to the closing one. -/
inductive IsQuoted : List Char → Prop
  | close : IsQuoted ['"']
  | plain {c : Char} {cs : List Char} (noControl : 0x20 ≤ c.toNat) (noQuote : c ≠ '"')
      (noSlash : c ≠ '\\') (more : IsQuoted cs) : IsQuoted (c :: cs)
  | escape {c : Char} {cs : List Char} (known : (simpleEscape? c).isSome) (more : IsQuoted cs) :
      IsQuoted ('\\' :: c :: cs)
  | unit {a b c d : Char} {cs : List Char} (digits : ∀ x ∈ [a, b, c, d], (hexValue? x).isSome)
      (more : IsQuoted cs) : IsQuoted ('\\' :: 'u' :: a :: b :: c :: d :: cs)

inductive IsString : List Char → Prop
  | mk {cs : List Char} (quoted : IsQuoted cs) : IsString ('"' :: cs)

mutual

inductive IsValue : List Char → Prop
  | null : IsValue "null".toList
  | true : IsValue "true".toList
  | false : IsValue "false".toList
  | number {cs : List Char} (h : IsNumber cs) : IsValue cs
  | string {cs : List Char} (h : IsString cs) : IsValue cs
  | emptyArray {gap : List Char} (hgap : IsGap gap) : IsValue ('[' :: (gap ++ [']']))
  | array {gap cs : List Char} (hgap : IsGap gap) (items : IsItems cs) : IsValue ('[' :: (gap ++ cs))
  | emptyObject {gap : List Char} (hgap : IsGap gap) : IsValue ('{' :: (gap ++ ['}']))
  | object {gap cs : List Char} (hgap : IsGap gap) (fields : IsFields cs) :
      IsValue ('{' :: (gap ++ cs))

/-- Items up to the closing bracket. -/
inductive IsItems : List Char → Prop
  | last {item gap : List Char} (hitem : IsValue item) (hgap : IsGap gap) :
      IsItems (item ++ (gap ++ [']']))
  | next {item gap gap' cs : List Char} (hitem : IsValue item) (hgap : IsGap gap)
      (hgap' : IsGap gap') (more : IsItems cs) : IsItems (item ++ (gap ++ ',' :: (gap' ++ cs)))

/-- Fields up to the closing brace. -/
inductive IsFields : List Char → Prop
  | last {name gap gap' value gap'' : List Char} (hname : IsString name) (hgap : IsGap gap)
      (hgap' : IsGap gap') (hvalue : IsValue value) (hgap'' : IsGap gap'') :
      IsFields (name ++ (gap ++ ':' :: (gap' ++ (value ++ (gap'' ++ ['}'])))))
  | next {name gap gap' value gap'' gap₃ cs : List Char} (hname : IsString name) (hgap : IsGap gap)
      (hgap' : IsGap gap') (hvalue : IsValue value) (hgap'' : IsGap gap'') (hgap₃ : IsGap gap₃)
      (more : IsFields cs) :
      IsFields (name ++ (gap ++ ':' :: (gap' ++ (value ++ (gap'' ++ ',' :: (gap₃ ++ cs))))))

end

/-- A whole text: a value with nothing but blanks around it. -/
inductive IsText : List Char → Prop
  | mk {gap value gap' : List Char} (hgap : IsGap gap) (hvalue : IsValue value)
      (hgap' : IsGap gap') : IsText (gap ++ (value ++ gap'))

/-- A text begins with a piece of some form, and what follows the piece. -/
def Begins (form : List Char → Prop) (cs rest : List Char) : Prop :=
  ∃ piece, form piece ∧ cs = piece ++ rest

theorem Begins.imp {form form' : List Char → Prop} (himp : ∀ cs, form cs → form' cs)
    {cs rest : List Char} (h : Begins form cs rest) : Begins form' cs rest := by
  obtain ⟨piece, hpiece, rfl⟩ := h
  exact ⟨piece, himp piece hpiece, rfl⟩

theorem begins_takeWhile (p : Char → Bool) (cs : List Char) :
    Begins (fun piece => ∀ c ∈ piece, p c) cs (cs.dropWhile p) :=
  ⟨cs.takeWhile p, fun _ => List.mem_takeWhile_imp, List.takeWhile_append_dropWhile.symm⟩

theorem begins_gap (cs : List Char) : Begins IsGap cs (skipSpace cs) := begins_takeWhile isSpace cs

section Numbers
variable {cs rest run : List Char}

/-- The digits in front, if there are any. -/
theorem begins_digits (h : (cs.takeWhile isDigit).isEmpty = false) :
    Begins IsDigits cs (cs.drop (cs.takeWhile isDigit).length) :=
  ⟨cs.takeWhile isDigit,
    ⟨List.isEmpty_eq_false_iff.mp h, fun _ => List.mem_takeWhile_imp (p := isDigit)⟩,
    (List.prefix_iff_eq_append.mp (List.takeWhile_prefix isDigit)).symm⟩

theorem begins_whole {whole : List Char} (h : integerDigits cs = some (whole, rest)) :
    Begins IsWhole cs rest := by
  rw [integerDigits.eq_def] at h
  split at h
  · cases h
    exact ⟨['0'], .zero, rfl⟩
  · next hzero =>
      dsimp only at h
      split at h
      · cases h
      · next hsome =>
          cases h
          obtain ⟨ds, hds, heq⟩ := begins_digits (Bool.eq_false_of_not_eq_true hsome)
          obtain ⟨c, ds, rfl⟩ := List.exists_cons_of_ne_nil hds.some
          refine ⟨c :: ds, .digits ?_ hds.all, heq⟩
          rintro rfl
          exact hzero _ heq

theorem begins_fraction (cs : List Char) : Begins IsFraction cs (fractionDigits cs).2 := by
  rw [fractionDigits.eq_def]
  split
  · next rest =>
      dsimp only
      split
      · exact ⟨[], .none, rfl⟩
      · next hsome =>
          obtain ⟨ds, hds, heq⟩ := begins_digits (Bool.eq_false_of_not_eq_true hsome)
          exact ⟨'.' :: ds, .point hds, congrArg _ heq⟩
  · exact ⟨[], .none, rfl⟩

theorem begins_sign (cs : List Char) :
    Begins (· ∈ [[], ['+'], ['-']]) cs (Numeral.splitSign cs).2 := by
  obtain ⟨sign, hsign, heq, -⟩ := Numeral.exists_sign cs
  exact ⟨sign, hsign, heq⟩

theorem begins_exponent (cs : List Char) : Begins IsExponent cs (exponentDigits cs).2 := by
  have hnone : ∀ cs, Begins IsExponent cs cs := fun cs => ⟨[], .none, rfl⟩
  rw [exponentDigits.eq_def]
  split
  · next c rest =>
      split
      · next hmark =>
          dsimp only
          split
          · exact hnone _
          · next hsome =>
              obtain ⟨sign, hsign, heq⟩ := begins_sign rest
              obtain ⟨ds, hds, heq'⟩ := begins_digits (Bool.eq_false_of_not_eq_true hsome)
              rw [heq'] at heq
              refine ⟨c :: (sign ++ ds), .mark (by simpa using hmark) hsign hds, ?_⟩
              rw [List.cons_append, List.append_assoc, ← heq]
      · exact hnone _
  · exact hnone _

theorem begins_signOf (cs : List Char) : Begins (· ∈ [[], ['-']]) cs (signOf cs).2 := by
  rw [signOf.eq_def]
  split
  · exact ⟨['-'], by decide, rfl⟩
  · exact ⟨[], by decide, rfl⟩

/-- What is read as a number is one. -/
theorem begins_number {negative : Bool} {n : Numeral} {sign : List Char} (hsign : sign ∈ [[], ['-']])
    (h : readNumber negative cs = some (n, rest)) : Begins IsNumber (sign ++ cs) rest := by
  obtain ⟨⟨whole, afterWhole⟩, hwhole, h⟩ := Option.bind_eq_some_iff.mp h
  have hrest : (exponentDigits (fractionDigits afterWhole).2).2 = rest := by
    dsimp only at h
    split at h <;> exact congrArg Prod.snd (Option.some.inj h)
  obtain ⟨ws, hws, rfl⟩ := begins_whole hwhole
  obtain ⟨fs, hfs, hfraction⟩ := begins_fraction afterWhole
  obtain ⟨es, hes, hexponent⟩ := begins_exponent (fractionDigits afterWhole).2
  rw [hrest] at hexponent
  rw [hexponent] at hfraction
  refine ⟨_, .mk hsign hws hfs hes, ?_⟩
  rw [hfraction]
  simp only [List.append_assoc]

end Numbers

theorem isSome_of_unit? {a b c d : Char} {n : Nat} (h : unit? a b c d = some n) :
    ∀ x ∈ [a, b, c, d], (hexValue? x).isSome := by
  obtain ⟨_, ha, h⟩ := Option.bind_eq_some_iff.mp h
  obtain ⟨_, hb, h⟩ := Option.bind_eq_some_iff.mp h
  obtain ⟨_, hc, h⟩ := Option.bind_eq_some_iff.mp h
  obtain ⟨_, hd, -⟩ := Option.bind_eq_some_iff.mp h
  simp only [List.forall_mem_cons, ha, hb, hc, hd, Option.isSome_some]
  exact ⟨trivial, trivial, trivial, trivial, nofun⟩

/-- What is read up to a closing quote is quoted. -/
theorem begins_quoted {opening : Nat} {cs rest : List Char} {units : List Nat}
    (h : stringUnits opening cs = .ok (units, rest)) : Begins IsQuoted cs rest := by
  fun_induction stringUnits opening cs generalizing units with
  | case1 => cases h
  | case2 after =>
      cases h
      exact ⟨['"'], .close, rfl⟩
  | case3 a b c d after hunit => cases h
  | case4 a b c d after n hunit ih =>
      obtain ⟨⟨ns, tail⟩, hns, h⟩ := ok_of_bind h
      cases h
      obtain ⟨piece, hpiece, rfl⟩ := ih hns
      exact ⟨_, .unit (isSome_of_unit? hunit) hpiece, rfl⟩
  | case5 => cases h
  | case6 => cases h
  | case7 e after hunit c hescape ih =>
      obtain ⟨⟨ns, tail⟩, hns, h⟩ := ok_of_bind h
      cases h
      obtain ⟨piece, hpiece, rfl⟩ := ih hns
      exact ⟨_, .escape (Option.isSome_of_mem hescape) hpiece, rfl⟩
  | case8 => cases h
  | case9 c after hquote hunit hslash hcontrol ih =>
      obtain ⟨⟨ns, tail⟩, hns, h⟩ := ok_of_bind h
      cases h
      have hplain : c ≠ '\\' := by
        rintro rfl
        -- a backslash at the very end leaves the string open
        cases after with
        | nil =>
            rw [stringUnits] at hns
            cases hns
        | cons e after => exact hslash e after rfl rfl
      obtain ⟨piece, hpiece, rfl⟩ := ih hns
      exact ⟨_, .plain (Nat.not_lt.mp hcontrol) hquote hplain hpiece, rfl⟩

theorem begins_string {dialect : Dialect} {cs rest : List Char} {s : String}
    (h : readString dialect cs = .ok (s, rest)) : Begins IsString ('"' :: cs) rest := by
  obtain ⟨⟨units, tail⟩, hunits, h⟩ := ok_of_bind h
  dsimp only at h
  split at h
  · cases h
  cases h
  obtain ⟨piece, hpiece, rfl⟩ := begins_quoted hunits
  exact ⟨_, .mk hpiece, rfl⟩

theorem begins_word {word : String} {cs rest : List Char} (h : afterWord? word cs = some rest) :
    cs = word.toList ++ rest := by
  unfold afterWord? at h
  split at h
  · next hword =>
      cases h
      obtain ⟨tail, rfl⟩ := List.isPrefixOf_iff_prefix.mp hword
      rw [← String.length_toList, List.drop_left]
  · cases h

/-- What the standard dialect reads as a scalar is a value. -/
theorem begins_scalar {cs rest : List Char} {value : Json}
    (h : readScalar .standard cs = .ok (value, rest)) : Begins IsValue cs rest := by
  have hspecial : ∀ word cs, (if Dialect.standard.specials then afterWord? word cs else none) = none :=
    fun _ _ => rfl
  unfold readScalar at h
  simp only [hspecial] at h
  split at h
  · next hword =>
      cases h
      exact ⟨_, .null, begins_word hword⟩
  split at h
  · next hword =>
      cases h
      exact ⟨_, .true, begins_word hword⟩
  split at h
  · next hword =>
      cases h
      exact ⟨_, .false, begins_word hword⟩
  split at h
  · next hread =>
      split at h
      case h_2 => cases h
      cases h
      change readNumber (signOf cs).1 (signOf cs).2 = _ at hread
      obtain ⟨sign, hsign, heq⟩ := begins_signOf cs
      have hnumber := begins_number hsign hread
      rw [← heq] at hnumber
      exact hnumber.imp fun _ => .number
  · cases h

/-- What the standard dialect reads with some fuel is of the grammar. -/
structure ReadsStandard (fuel : Nat) : Prop where
  value : ∀ {cs value rest}, readValue .standard fuel cs = .ok (value, rest) →
    Begins IsValue cs rest
  items : ∀ {cs items rest}, readItems .standard fuel cs = .ok (items, rest) →
    Begins IsItems cs rest
  fields : ∀ {cs fields rest}, readFields .standard fuel cs = .ok (fields, rest) →
    Begins IsFields cs rest

namespace ReadsStandard
variable {fuel : Nat} {cs rest : List Char}

theorem readValue (h : ReadsStandard fuel) {value : Json}
    (hread : readValue .standard (fuel + 1) cs = .ok (value, rest)) : Begins IsValue cs rest := by
  rw [Json.readValue.eq_def] at hread
  dsimp only at hread
  split at hread
  · obtain ⟨⟨s, tail⟩, hs, hread⟩ := ok_of_bind hread
    cases hread
    exact (begins_string hs).imp fun _ => .string
  · next after =>
      obtain ⟨gap, hgap, heq⟩ := begins_gap after
      rw [heq]
      split at hread
      · next hclose =>
          cases hread
          rw [hclose]
          exact ⟨_, .emptyArray hgap, by simp⟩
      · obtain ⟨⟨items, tail⟩, hitems, hread⟩ := ok_of_bind hread
        cases hread
        obtain ⟨piece, hpiece, hskip⟩ := h.items hitems
        rw [hskip]
        exact ⟨_, .array hgap hpiece, by simp⟩
  · next after =>
      obtain ⟨gap, hgap, heq⟩ := begins_gap after
      rw [heq]
      split at hread
      · next hclose =>
          cases hread
          rw [hclose]
          exact ⟨_, .emptyObject hgap, by simp⟩
      · obtain ⟨⟨fields, tail⟩, hfields, hread⟩ := ok_of_bind hread
        cases hread
        obtain ⟨piece, hpiece, hskip⟩ := h.fields hfields
        rw [hskip]
        exact ⟨_, .object hgap hpiece, by simp⟩
  · exact begins_scalar hread

theorem readItems (h : ReadsStandard fuel) {items : List Json}
    (hread : readItems .standard (fuel + 1) cs = .ok (items, rest)) : Begins IsItems cs rest := by
  rw [Json.readItems] at hread
  obtain ⟨⟨first, more⟩, hfirst, hread⟩ := ok_of_bind hread
  obtain ⟨item, hitem, hstart⟩ := h.value hfirst
  obtain ⟨gap, hgap, heq⟩ := begins_gap more
  rw [hstart, heq]
  dsimp only at hread
  split at hread
  · next hclose =>
      cases hread
      rw [hclose]
      exact ⟨_, .last hitem hgap, by simp⟩
  · next after hcomma =>
      obtain ⟨⟨others, _⟩, hothers, hread⟩ := ok_of_bind hread
      cases hread
      obtain ⟨gap', hgap', heq'⟩ := begins_gap after
      obtain ⟨piece, hpiece, hskip⟩ := h.items hothers
      rw [hcomma, heq', hskip]
      exact ⟨_, .next hitem hgap hgap' hpiece, by simp⟩
  · cases hread

theorem readFields (h : ReadsStandard fuel) {fields : List (String × Json)}
    (hread : readFields .standard (fuel + 1) cs = .ok (fields, rest)) : Begins IsFields cs rest := by
  rw [Json.readFields.eq_def] at hread
  dsimp only at hread
  split at hread
  case h_2 =>
    obtain ⟨_, hfail, -⟩ := ok_of_bind hread
    cases hfail
  obtain ⟨⟨name, afterName⟩, hname, hread⟩ := ok_of_bind hread
  obtain ⟨nameChars, hnameChars, hstart⟩ := begins_string hname
  obtain ⟨gap, hgap, heq⟩ := begins_gap afterName
  dsimp only at hread
  split at hread
  case h_2 =>
    obtain ⟨_, hfail, -⟩ := ok_of_bind hread
    cases hfail
  next colonTail hcolon =>
  obtain ⟨afterColon, hafter, hread⟩ := ok_of_bind hread
  cases hafter
  obtain ⟨gap', hgap', heq'⟩ := begins_gap colonTail
  obtain ⟨⟨first, more⟩, hfirst, hread⟩ := ok_of_bind hread
  obtain ⟨value, hvalue, hskip⟩ := h.value hfirst
  obtain ⟨gap'', hgap'', heq''⟩ := begins_gap more
  rw [hstart, heq, hcolon, heq', hskip, heq'']
  dsimp only at hread
  split at hread
  · next hclose =>
      cases hread
      rw [hclose]
      exact ⟨_, .last hnameChars hgap hgap' hvalue hgap'', by simp⟩
  · next after hcomma =>
      obtain ⟨⟨others, _⟩, hothers, hread⟩ := ok_of_bind hread
      cases hread
      obtain ⟨gap₃, hgap₃, heq₃⟩ := begins_gap after
      obtain ⟨piece, hpiece, hskip'⟩ := h.fields hothers
      rw [hcomma, heq₃, hskip']
      exact ⟨_, .next hnameChars hgap hgap' hvalue hgap'' hgap₃ hpiece, by simp⟩
  · cases hread

end ReadsStandard

theorem readsStandard (fuel : Nat) : ReadsStandard fuel := by
  induction fuel with
  | zero =>
      refine ⟨fun h => ?_, fun h => ?_, fun h => ?_⟩
      · rw [readValue] at h
        cases h
      · rw [readItems] at h
        cases h
      · rw [readFields] at h
        cases h
  | succ fuel ih => exact ⟨ih.readValue, ih.readItems, ih.readFields⟩

/-- The standard dialect is strict: it reads well-formed texts only. -/
theorem isText_of_readChars {cs : List Char} {value : Json} (h : readChars .standard cs = .ok value) :
    IsText cs := by
  rw [readChars] at h
  split at h
  · cases h
  obtain ⟨⟨found, rest⟩, hfound, h⟩ := ok_of_bind h
  obtain ⟨gap, hgap, heq⟩ := begins_gap cs
  obtain ⟨piece, hpiece, hskip⟩ := (readsStandard _).value hfound
  obtain ⟨gap', hgap', heq'⟩ := begins_gap rest
  dsimp only at h
  split at h
  · next hend =>
      rw [hend, List.append_nil] at heq'
      rw [heq, hskip]
      exact .mk hgap hpiece (heq' ▸ hgap')
  · cases h

/-- The text of a value of finite numbers is standard, and the value is read from it. -/
theorem Distinct.standard_of_render {j : Json} (h : Distinct j) (hfinite : j.Finite)
    {indent : Option Nat} {written : String} (hj : j.render indent = some written) :
    IsText written.toList ∧ readChars .standard written.toList = .ok j := by
  obtain ⟨-, rfl⟩ := render_eq_some_iff.mp hj
  rw [text, String.toList_ofList]
  have hread : readChars .standard (chars indent 0 j) = .ok j :=
    h.readChars_chars ⟨.inr hfinite, .inl rfl⟩ indent
  exact ⟨isText_of_readChars hread, hread⟩

end PropSchema.Json
