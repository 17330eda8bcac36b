import Mathlib.Data.List.Induction
import Mathlib.Data.List.TakeWhile
import PropSchema.Numeral
import PropSchema.Proofs.Sequences
/-!
Numbers in source text. A text is read as a number if and only if it spells one when underscores
and spaces are left out: digits in a base that is marked, a decimal, or the name of an infinity or
of not a number, each with a sign or none. Integer literals, which are told apart from the reader,
are read as the integers that they stand for.
-/
namespace PropSchema.Numeral
variable {base n : Nat} {value? : Char → Option Nat} {cs ds rest : List Char}

section Digits

theorem digits?_singleton (base : Nat) (value? : Char → Option Nat) (c : Char) :
    digits? base value? [c] = (value? c).bind fun d => if d < base then some d else none := by
  cases hd : value? c <;> simp [digits?, hd]

theorem digits?_append_singleton (hne : cs ≠ []) (base : Nat) (value? : Char → Option Nat)
    (c : Char) :
    digits? base value? (cs ++ [c]) = (digits? base value? cs).bind fun n =>
      (value? c).bind fun d => if d < base then some (n * base + d) else none := by
  have hempty : (cs ++ [c]).isEmpty = false := List.isEmpty_eq_false_iff.mpr (by simp)
  simp only [digits?, hempty, List.isEmpty_eq_false_iff.mpr hne, Bool.false_eq_true, if_false,
    List.foldl_append, List.foldl_cons, List.foldl_nil]
  rfl

/-- A numeral is one digit or more, and all of its characters are digits. -/
theorem digits?_isSome_iff : (digits? base value? cs).isSome ↔
    cs ≠ [] ∧ ∀ c ∈ cs, ∃ d < base, value? c = some d := by
  induction cs using List.reverseRecOn with
  | nil => simp [digits?]
  | append_singleton cs c ih =>
      have hdigit : ((value? c).bind fun d => if d < base then some d else none).isSome ↔
          ∃ d < base, value? c = some d := by
        cases value? c <;> simp
      by_cases hne : cs = []
      · rw [hne, List.nil_append, digits?_singleton, hdigit]
        simp
      · rw [digits?_append_singleton hne]
        have hstep : ((digits? base value? cs).bind fun n => (value? c).bind fun d =>
            if d < base then some (n * base + d) else none).isSome ↔
              (digits? base value? cs).isSome ∧ ∃ d < base, value? c = some d := by
          cases digits? base value? cs <;> cases value? c <;> simp
        rw [hstep, ih]
        simp [hne, or_imp, forall_and]

end Digits

section Grammar

/-- The marks of bases. -/
def marks : List (Char × Nat) :=
  [('x', 16), ('X', 16), ('o', 8), ('O', 8), ('b', 2), ('B', 2)]

/-- The digits that a base has; letters are digits in base sixteen only. -/
def digitIn (base : Nat) : Char → Option Nat := if base = 16 then hexDigit? else Text.digit?

/-- Decimal digits of any script. -/
def AreDigits (cs : List Char) : Prop := ∀ c ∈ cs, (Text.digit? c).isSome

/-- Nothing, or a point and digits, if there are any. -/
inductive IsFraction : List Char → Prop
  | absent : IsFraction []
  | point {ds : List Char} (hds : AreDigits ds) : IsFraction ('.' :: ds)

/-- Nothing, or an exponent mark and digits with a sign or none. -/
inductive IsExponent : List Char → Prop
  | absent : IsExponent []
  | mark {mark : Char} {sign ds : List Char} (hmark : mark = 'e' ∨ mark = 'E')
      (hsign : sign ∈ [[], ['+'], ['-']]) (hne : ds ≠ []) (hds : AreDigits ds) :
      IsExponent (mark :: (sign ++ ds))

/-- Digits with a fraction and an exponent or without; there is a digit before the exponent. -/
inductive IsDecimal : List Char → Prop
  | mk {whole fraction exponent : List Char} (hwhole : AreDigits whole)
      (hfraction : IsFraction fraction) (hsome : ∃ c ∈ whole ++ fraction, (Text.digit? c).isSome)
      (hexponent : IsExponent exponent) : IsDecimal (whole ++ (fraction ++ exponent))

/-- What spells a number without sign. -/
inductive IsUnsigned : List Char → Prop
  | based {mark : Char} {base : Nat} {ds : List Char} (hmark : (mark, base) ∈ marks)
      (hne : ds ≠ []) (hds : ∀ c ∈ ds, ∃ d < base, digitIn base c = some d) :
      IsUnsigned ('0' :: mark :: ds)
  | decimal {cs : List Char} (h : IsDecimal cs) : IsUnsigned cs
  | name {cs : List Char} (hname : Text.lower (String.ofList cs) ∈ ["inf", "infinity", "nan"]) :
      IsUnsigned cs

/-- What is left without underscores and spaces. -/
def ungrouped (cs : List Char) : List Char := cs.filter fun c => c != '_' && c != ' '

/-- What is left of a text without these, and without blanks at its ends. -/
def bare (text : String) : List Char := Text.trimChars (ungrouped text.toList)

/-- Whether a text spells a number. -/
def Spells (text : String) : Prop := IsUnsigned (splitSign (bare text)).2

end Grammar

section Signs
variable {sign : List Char}

theorem exists_sign (cs : List Char) : ∃ sign ∈ [[], ['+'], ['-']],
    cs = sign ++ (splitSign cs).2 ∧ (splitSign cs).1 = decide (sign = ['-']) := by
  rw [splitSign.eq_def]
  split
  · exact ⟨['-'], by decide, rfl, rfl⟩
  · exact ⟨['+'], by decide, rfl, rfl⟩
  · exact ⟨[], by decide, rfl, rfl⟩

theorem splitSign_append (hsign : sign ∈ [[], ['+'], ['-']])
    (hcs : ∀ c ∈ cs.head?, c ≠ '+' ∧ c ≠ '-') :
    splitSign (sign ++ cs) = (decide (sign = ['-']), cs) := by
  simp only [List.mem_cons, List.not_mem_nil, or_false] at hsign
  obtain rfl | rfl | rfl := hsign
  · cases cs with
    | nil => rfl
    | cons c cs =>
        obtain ⟨hplus, hminus⟩ := hcs c rfl
        rw [List.nil_append, splitSign]
        · rfl
        · rintro _ ⟨⟩
          exact hminus rfl
        · rintro _ ⟨⟩
          exact hplus rfl
  · rfl
  · rfl

end Signs

section Decimals

theorem AreDigits.head_ne (h : AreDigits cs) : ∀ c ∈ cs.head?, c ≠ '+' ∧ c ≠ '-' := by
  intro c hc
  have hdigit := h c (List.mem_of_mem_head? hc)
  constructor
  · rintro rfl
    revert hdigit
    decide
  · rintro rfl
    revert hdigit
    decide

theorem AreDigits.filterMap_isEmpty (h : AreDigits cs) :
    (cs.filterMap Text.digit?).isEmpty = cs.isEmpty := by
  cases cs with
  | nil => rfl
  | cons c cs =>
      obtain ⟨d, hd⟩ := Option.isSome_iff_exists.mp (h c List.mem_cons_self)
      rw [List.filterMap_cons_some hd]
      rfl

/-- The digits in front are all that there are. -/
theorem exists_spanDigits (cs : List Char) : ∃ run rest, cs = run ++ rest ∧ AreDigits run ∧
    spanDigits cs = (run.filterMap Text.digit?, rest) := by
  refine ⟨cs.takeWhile fun c => (Text.digit? c).isSome, _, ?_, fun c hc => ?_, rfl⟩
  · exact (List.prefix_iff_eq_append.mp (List.takeWhile_prefix _)).symm
  · exact List.mem_takeWhile_imp (p := fun c => (Text.digit? c).isSome) hc

theorem spanDigits_append (hds : AreDigits ds)
    (hrest : ∀ c ∈ rest.head?, Text.digit? c = none) :
    spanDigits (ds ++ rest) = (ds.filterMap Text.digit?, rest) := by
  have hrun : (ds ++ rest).takeWhile (fun c => (Text.digit? c).isSome) = ds :=
    Sequences.takeWhile_append hds fun c hc => Option.isSome_eq_false_iff.mpr (by simp [hrest c hc])
  rw [spanDigits, hrun, List.drop_left]

theorem exponent?_cons_isSome_iff {c : Char} : (exponent? (c :: rest)).isSome ↔
    (c = 'e' ∨ c = 'E') ∧ (spanDigits (splitSign rest).2).1 ≠ [] ∧
      (spanDigits (splitSign rest).2).2 = [] := by
  rw [exponent?]
  split
  · next hmark =>
      have hmark : c = 'e' ∨ c = 'E' := by simpa using hmark
      dsimp only
      rcases spanDigits (splitSign rest).2 with ⟨_ | ⟨d, ds⟩, _ | ⟨after, more⟩⟩ <;> simp [hmark]
  · next hmark =>
      have hmark : ¬(c = 'e' ∨ c = 'E') := by simpa using hmark
      simp [hmark]

theorem exponent?_isSome_iff : (exponent? cs).isSome ↔ IsExponent cs := by
  cases cs with
  | nil => exact ⟨fun _ => .absent, fun _ => rfl⟩
  | cons c rest =>
      rw [exponent?_cons_isSome_iff]
      constructor
      · rintro ⟨hmark, hsome, hend⟩
        obtain ⟨sign, hsign, heq, -⟩ := exists_sign rest
        obtain ⟨run, after, happend, hrun, hspan⟩ := exists_spanDigits (splitSign rest).2
        rw [hspan] at hsome hend
        obtain rfl : after = [] := hend
        rw [heq, happend, List.append_nil]
        refine .mark hmark hsign ?_ hrun
        rintro rfl
        exact hsome rfl
      · intro h
        cases h with
        | @mark _ sign ds hmark hsign hne hds =>
            have hspan : spanDigits ds = (ds.filterMap Text.digit?, []) := by
              have hnone : ∀ c ∈ ([] : List Char).head?, Text.digit? c = none := nofun
              have happend := spanDigits_append hds hnone
              rwa [List.append_nil] at happend
            have hempty : (ds.filterMap Text.digit?).isEmpty = false :=
              hds.filterMap_isEmpty.trans (List.isEmpty_eq_false_iff.mpr hne)
            rw [splitSign_append hsign hds.head_ne]
            dsimp only
            rw [hspan]
            exact ⟨hmark, List.isEmpty_eq_false_iff.mp hempty, rfl⟩

/-- The digits of a fraction and what follows it. -/
def fractionDigits (cs : List Char) : List Nat × List Char :=
  match cs with
  | '.' :: rest => spanDigits rest
  | rest => ([], rest)

theorem exists_fractionDigits (cs : List Char) : ∃ fraction rest, cs = fraction ++ rest ∧
    IsFraction fraction ∧ fractionDigits cs = (fraction.filterMap Text.digit?, rest) := by
  unfold fractionDigits
  split
  · next after =>
      obtain ⟨run, rest, rfl, hrun, hspan⟩ := exists_spanDigits after
      exact ⟨'.' :: run, rest, rfl, .point hrun, hspan⟩
  · exact ⟨[], cs, rfl, .absent, rfl⟩

theorem fractionDigits_append {fraction : List Char} (hfraction : IsFraction fraction)
    (hrest : ∀ c ∈ rest.head?, Text.digit? c = none ∧ c ≠ '.') :
    fractionDigits (fraction ++ rest) = (fraction.filterMap Text.digit?, rest) := by
  cases hfraction with
  | absent =>
      rw [List.nil_append]
      unfold fractionDigits
      split
      · exact absurd rfl (hrest '.' rfl).2
      · rfl
  | point hds => exact spanDigits_append hds fun c hc => (hrest c hc).1

theorem IsExponent.head_ne (h : IsExponent cs) :
    ∀ c ∈ cs.head?, Text.digit? c = none ∧ c ≠ '.' := by
  cases h with
  | absent => nofun
  | mark hmark =>
      rintro c ⟨⟩
      obtain rfl | rfl := hmark <;> decide

theorem IsFraction.head_ne (h : IsFraction cs) : ∀ c ∈ cs.head?, Text.digit? c = none := by
  cases h with
  | absent => nofun
  | point =>
      rintro c ⟨⟩
      decide

theorem decimal?_eq (negative : Bool) (cs : List Char) : decimal? negative cs =
    if ((spanDigits cs).1.isEmpty && (fractionDigits (spanDigits cs).2).1.isEmpty) = true then none
    else (exponent? (fractionDigits (spanDigits cs).2).2).map fun exponent =>
      Binary64.ofDecimal negative
        (ofDigits ((spanDigits cs).1 ++ (fractionDigits (spanDigits cs).2).1))
        (exponent - (fractionDigits (spanDigits cs).2).1.length) := by
  unfold decimal?
  change (if ((spanDigits cs).1.isEmpty && (fractionDigits (spanDigits cs).2).1.isEmpty) = true
    then _ else _) = _
  split
  · rfl
  · rw [Option.map_eq_bind]
    rfl

theorem decimal?_isSome_iff (negative : Bool) : (decimal? negative cs).isSome ↔ IsDecimal cs := by
  have hdigits : ∀ whole fraction : List Char,
      ((whole.filterMap Text.digit?).isEmpty && (fraction.filterMap Text.digit?).isEmpty) = false ↔
        ∃ c ∈ whole ++ fraction, (Text.digit? c).isSome := by
    intro whole fraction
    rw [Bool.and_eq_false_iff, List.isEmpty_eq_false_iff, List.isEmpty_eq_false_iff, ne_eq, ne_eq,
      List.filterMap_eq_nil_iff, List.filterMap_eq_nil_iff]
    simp only [List.mem_append, Option.isSome_iff_ne_none]
    grind
  rw [decimal?_eq]
  constructor
  · intro h
    obtain ⟨whole, after, rfl, hwhole, hspan⟩ := exists_spanDigits cs
    obtain ⟨fraction, exponent, rfl, hfraction, hsplit⟩ := exists_fractionDigits after
    simp only [hspan, hsplit] at h
    split at h
    · cases h
    · next hsome =>
        rw [Option.isSome_map, exponent?_isSome_iff] at h
        exact .mk hwhole hfraction ((hdigits _ _).mp (Bool.of_not_eq_true hsome)) h
  · rintro @⟨whole, fraction, exponent, hwhole, hfraction, hsome, hexponent⟩
    have hhead : ∀ c ∈ (fraction ++ exponent).head?, Text.digit? c = none := by
      rw [List.head?_append]
      intro c hc
      obtain hc | ⟨-, hc⟩ := Option.or_eq_some_iff.mp hc
      · exact hfraction.head_ne c hc
      · exact (hexponent.head_ne c hc).1
    rw [spanDigits_append hwhole hhead, fractionDigits_append hfraction hexponent.head_ne,
      (hdigits _ _).mpr hsome, if_neg Bool.false_ne_true, Option.isSome_map]
    exact exponent?_isSome_iff.mpr hexponent

end Decimals

section Reading

theorem magnitude?_based {mark : Char} (hmark : (mark, base) ∈ marks) (ds : List Char) :
    magnitude? ('0' :: mark :: ds) = digits? base (digitIn base) ds := by
  simp only [marks, List.mem_cons, Prod.mk.injEq, List.not_mem_nil, or_false] at hmark
  obtain ⟨rfl, rfl⟩ | ⟨rfl, rfl⟩ | ⟨rfl, rfl⟩ | ⟨rfl, rfl⟩ | ⟨rfl, rfl⟩ | ⟨rfl, rfl⟩ := hmark
  all_goals rfl

/-- Without a mark, an integer is decimal, not too long, and without zeros in front. -/
theorem magnitude?_plain (h : ∀ mark ∈ marks.map Prod.fst, ∀ ds, cs ≠ '0' :: mark :: ds) :
    magnitude? cs = (digits? 10 Text.digit? cs).bind fun n => cs.head?.bind fun first =>
      if decimalLimit < cs.length then none
      else if first == '0' ∧ n ≠ 0 then none
      else some n := by
  unfold magnitude?
  split
  · exact absurd rfl (h 'x' (by decide) _)
  · exact absurd rfl (h 'X' (by decide) _)
  · exact absurd rfl (h 'o' (by decide) _)
  · exact absurd rfl (h 'O' (by decide) _)
  · exact absurd rfl (h 'b' (by decide) _)
  · exact absurd rfl (h 'B' (by decide) _)
  · rfl

theorem isUnsigned_of_magnitude? (h : (magnitude? cs).isSome) : IsUnsigned cs := by
  by_cases hmarked : ∃ mark ∈ marks.map Prod.fst, ∃ ds, cs = '0' :: mark :: ds
  · obtain ⟨mark, hmark, ds, rfl⟩ := hmarked
    obtain ⟨⟨mark, base⟩, hmem, rfl⟩ := List.mem_map.mp hmark
    rw [magnitude?_based hmem, digits?_isSome_iff] at h
    exact .based hmem h.1 h.2
  · push Not at hmarked
    rw [magnitude?_plain hmarked] at h
    have hdigits : (digits? 10 Text.digit? cs).isSome := by
      cases hd : digits? 10 Text.digit? cs with
      | none =>
          rw [hd] at h
          cases h
      | some n => rfl
    obtain ⟨hne, hall⟩ := digits?_isSome_iff.mp hdigits
    have hwhole : AreDigits cs := by
      intro c hc
      obtain ⟨d, -, hd⟩ := hall c hc
      rw [hd]
      rfl
    obtain ⟨c, rest, rfl⟩ := List.exists_cons_of_ne_nil hne
    have hdecimal : IsDecimal (c :: rest ++ ([] ++ [])) :=
      .mk hwhole .absent ⟨c, by simp, hwhole c List.mem_cons_self⟩ .absent
    rw [List.append_nil, List.append_nil] at hdecimal
    exact .decimal hdecimal

theorem int?_ungrouped (text : String) : int? (String.ofList (ungrouped text.toList)) =
    (magnitude? (splitSign (bare text)).2).map (signed (splitSign (bare text)).1) := by
  rw [int?, String.toList_ofList]
  rfl

theorem float?_ungrouped_isSome_iff (text : String) :
    (float? (String.ofList (ungrouped text.toList))).isSome ↔
    Text.lower (String.ofList (splitSign (bare text)).2) ∈ ["inf", "infinity", "nan"] ∨
      IsDecimal (splitSign (bare text)).2 := by
  rw [← decimal?_isSome_iff (splitSign (bare text)).1]
  simp only [float?, String.toList_ofList, List.mem_cons, List.not_mem_nil, or_false]
  rw [← bare]
  generalize Text.lower (String.ofList (splitSign (bare text)).2) = word
  split
  · next hname =>
      simp only [Bool.or_eq_true, beq_iff_eq] at hname
      simp only [Option.isSome_some, true_iff]
      exact .inl (or_assoc.mp (.inl hname))
  · split <;> simp_all

/-- A text is read as a number if and only if it spells one. -/
theorem read?_isSome_iff (text : String) : (read? text).isSome ↔ Spells text := by
  have hread : (read? text).isSome ↔
      (magnitude? (splitSign (bare text)).2).isSome ∨
        (float? (String.ofList (ungrouped text.toList))).isSome := by
    simp only [read?]
    rw [← ungrouped, int?_ungrouped]
    cases magnitude? (splitSign (bare text)).2 <;> simp
  rw [hread, float?_ungrouped_isSome_iff, Spells]
  constructor
  · rintro (h | h | h)
    · exact isUnsigned_of_magnitude? h
    · exact .name h
    · exact .decimal h
  · intro h
    generalize (splitSign (bare text)).2 = cs at h
    cases h with
    | based hmark hne hds =>
        rw [magnitude?_based hmark]
        exact .inl (digits?_isSome_iff.mpr ⟨hne, hds⟩)
    | decimal h => exact .inr (.inr h)
    | name hname => exact .inr (.inl hname)

end Reading

section Literals

def lowerDigits : List Char :=
  ['0', '1', '2', '3', '4', '5', '6', '7', '8', '9', 'a', 'b', 'c', 'd', 'e', 'f']

def upperDigits : List Char :=
  ['0', '1', '2', '3', '4', '5', '6', '7', '8', '9', 'A', 'B', 'C', 'D', 'E', 'F']

/-- The digits of literals; letters count on from nine, in either case. -/
def Writes (c : Char) (d : Nat) : Prop := lowerDigits[d]? = some c ∨ upperDigits[d]? = some c

/-- Digits in a base, underscores between them allowed, and the number that they write. -/
inductive Digits (base : Nat) : List Char → Nat → Prop
  | one {c : Char} {d : Nat} (hd : Writes c d) (hlt : d < base) : Digits base [c] d
  | next {cs : List Char} {c : Char} {n d : Nat} (h : Digits base cs n) (hd : Writes c d)
      (hlt : d < base) : Digits base (cs ++ [c]) (n * base + d)
  | apart {cs : List Char} {c : Char} {n d : Nat} (h : Digits base cs n) (hd : Writes c d)
      (hlt : d < base) : Digits base (cs ++ ['_', c]) (n * base + d)

/-- An integer literal without sign. A decimal one begins with zero only if it is zero. -/
inductive IsLiteral : List Char → Nat → Prop
  | zero : IsLiteral ['0'] 0
  | decimal {c : Char} {cs : List Char} {n : Nat} (hc : c ≠ '0') (h : Digits 10 (c :: cs) n) :
      IsLiteral (c :: cs) n
  | based {mark : Char} {base : Nat} {ds : List Char} {n : Nat} (hmark : (mark, base) ∈ marks)
      (h : Digits base ds n) : IsLiteral ('0' :: mark :: ds) n

/-- The characters of literals. -/
def literalChars : List Char := '_' :: (marks.map Prod.fst ++ (lowerDigits ++ upperDigits))

variable {c : Char} {d : Nat}

theorem Writes.mem (h : Writes c d) : c ∈ lowerDigits ++ upperDigits :=
  List.mem_append.mpr (h.imp List.mem_of_getElem? List.mem_of_getElem?)

theorem Writes.lt (h : Writes c d) : d < 16 := by
  obtain h | h := h
  · exact (List.getElem?_eq_some_iff.mp h).1
  · exact (List.getElem?_eq_some_iff.mp h).1

theorem Writes.digitIn_eq (h : Writes c d) (hlt : d < base) (hbase : base = 16 ∨ base ≤ 10) :
    digitIn base c = some d := by
  have hhex : ∀ d < 16, lowerDigits[d]?.bind hexDigit? = some d ∧
      upperDigits[d]?.bind hexDigit? = some d := by decide
  have hten : ∀ d < 10, lowerDigits[d]?.bind Text.digit? = some d ∧
      upperDigits[d]?.bind Text.digit? = some d := by decide
  obtain hbase | hbase := hbase
  · rw [digitIn, if_pos hbase]
    obtain ⟨hlower, hupper⟩ := hhex d h.lt
    obtain h | h := h
    · rwa [h, Option.bind_some] at hlower
    · rwa [h, Option.bind_some] at hupper
  · rw [digitIn, if_neg (by omega)]
    obtain ⟨hlower, hupper⟩ := hten d (by omega)
    obtain h | h := h
    · rwa [h, Option.bind_some] at hlower
    · rwa [h, Option.bind_some] at hupper

theorem Writes.ungrouped_eq (h : Writes c d) : ungrouped [c] = [c] := by
  have hkept : (lowerDigits ++ upperDigits).Forall fun c => ungrouped [c] = [c] := by decide
  exact List.forall_iff_forall_mem.mp hkept c h.mem

theorem ungrouped_append (cs ds : List Char) :
    ungrouped (cs ++ ds) = ungrouped cs ++ ungrouped ds :=
  List.filter_append ..

theorem base_of_mark {mark : Char} (hmark : (mark, base) ∈ marks) : base = 16 ∨ base ≤ 10 := by
  have hall : ∀ entry ∈ marks, entry.2 = 16 ∨ entry.2 ≤ 10 := by decide
  exact hall _ hmark

namespace Digits

theorem mem_chars (h : Digits base cs n) : ∀ c ∈ cs, c ∈ literalChars := by
  have hdigit : ∀ {c d}, Writes c d → c ∈ literalChars := fun hd =>
    List.mem_cons_of_mem _ (List.mem_append_right _ hd.mem)
  induction h with
  | one hd => simpa using hdigit hd
  | next _ hd _ ih =>
      intro c hc
      obtain hc | hc := List.mem_append.mp hc
      · exact ih c hc
      · exact List.mem_singleton.mp hc ▸ hdigit hd
  | apart _ hd _ ih =>
      intro c hc
      simp only [List.mem_append, List.mem_cons, List.not_mem_nil, or_false] at hc
      obtain hc | rfl | rfl := hc
      · exact ih c hc
      · exact List.mem_cons_self
      · exact hdigit hd

/-- Digits are read as the number that they write. -/
theorem digits?_eq (h : Digits base cs n) (hbase : base = 16 ∨ base ≤ 10) :
    ungrouped cs ≠ [] ∧ digits? base (digitIn base) (ungrouped cs) = some n := by
  have hnext : ∀ {cs n c d}, ungrouped cs ≠ [] ∧
      digits? base (digitIn base) (ungrouped cs) = some n → Writes c d → d < base →
      ungrouped cs ++ [c] ≠ [] ∧
        digits? base (digitIn base) (ungrouped cs ++ [c]) = some (n * base + d) := by
    rintro cs n c d ⟨hne, heq⟩ hd hlt
    refine ⟨by simp, ?_⟩
    rw [digits?_append_singleton hne, heq, hd.digitIn_eq hlt hbase, Option.bind_some,
      Option.bind_some, if_pos hlt]
  induction h with
  | @one c d hd hlt =>
      rw [hd.ungrouped_eq, digits?_singleton, hd.digitIn_eq hlt hbase, Option.bind_some, if_pos hlt]
      exact ⟨by simp, rfl⟩
  | next _ hd hlt ih =>
      rw [ungrouped_append, hd.ungrouped_eq]
      exact hnext ih hd hlt
  | @apart cs c n d _ hd hlt ih =>
      have hgroup : ungrouped ['_', c] = ungrouped [c] := rfl
      rw [ungrouped_append, hgroup, hd.ungrouped_eq]
      exact hnext ih hd hlt

theorem ne_nil (h : Digits base cs n) : cs ≠ [] := by
  cases h <;> simp

/-- There is no underscore in front. -/
theorem exists_writes (h : Digits base (c :: cs) n) : ∃ d, Writes c d := by
  generalize hcs : c :: cs = ds at h
  induction h generalizing c cs with
  | one hd =>
      cases hcs
      exact ⟨_, hd⟩
  | @next ds c' n d h _ _ ih =>
      cases ds with
      | nil => exact absurd rfl h.ne_nil
      | cons first ds =>
          obtain ⟨rfl, -⟩ := List.cons.inj hcs
          exact ih rfl
  | @apart ds c' n d h _ _ ih =>
      cases ds with
      | nil => exact absurd rfl h.ne_nil
      | cons first ds =>
          obtain ⟨rfl, -⟩ := List.cons.inj hcs
          exact ih rfl

end Digits

namespace IsLiteral

theorem mem_chars (h : IsLiteral cs n) : ∀ c ∈ cs, c ∈ literalChars := by
  cases h with
  | zero => exact List.forall_mem_singleton.mpr (by decide)
  | decimal _ h => exact h.mem_chars
  | based hmark h =>
      refine List.forall_mem_cons.mpr ⟨by decide, List.forall_mem_cons.mpr ⟨?_, h.mem_chars⟩⟩
      exact List.mem_cons_of_mem _ (List.mem_append_left _ (List.mem_map_of_mem hmark))

/-- A literal is read as its number, a decimal one if it is not too long. -/
theorem magnitude?_eq (h : IsLiteral cs n)
    (hshort : ∀ m, Digits 10 cs m → (ungrouped cs).length ≤ decimalLimit) :
    magnitude? (ungrouped cs) = some n := by
  cases h with
  | zero => decide
  | @decimal c cs n hc h =>
      obtain ⟨d, hd⟩ := h.exists_writes
      have hcons : ungrouped (c :: cs) = c :: ungrouped cs := by
        rw [← List.singleton_append, ungrouped_append, hd.ungrouped_eq]
        rfl
      have hten : digitIn 10 = Text.digit? := rfl
      obtain ⟨-, hread⟩ := h.digits?_eq (.inr (Nat.le_refl 10))
      have hshort := hshort n h
      rw [hcons] at hread hshort ⊢
      rw [magnitude?_plain (fun mark _ ds heq => hc (List.cons.inj heq).1), ← hten, hread,
        Option.bind_some, List.head?_cons, Option.bind_some, if_neg (Nat.not_lt_of_le hshort),
        if_neg (by simp [hc])]
  | @based mark base ds n hmark h =>
      have hkept : (marks.map Prod.fst).Forall fun mark => ungrouped [mark] = [mark] := by decide
      have hmem : mark ∈ marks.map Prod.fst := List.mem_map_of_mem hmark
      have hcons : ungrouped ('0' :: mark :: ds) = '0' :: mark :: ungrouped ds := by
        have hsplit : '0' :: mark :: ds = ['0'] ++ ([mark] ++ ds) := rfl
        rw [hsplit, ungrouped_append, ungrouped_append,
          List.forall_iff_forall_mem.mp hkept mark hmem]
        rfl
      rw [hcons, magnitude?_based hmark]
      exact (h.digits?_eq (base_of_mark hmark)).2

end IsLiteral

/-- A text that begins otherwise or holds another character is no literal. -/
theorem not_isLiteral (h : cs.head? = some '_' ∨ ∃ c ∈ cs, c ∉ literalChars) :
    ¬ IsLiteral cs n := by
  intro hliteral
  obtain hhead | ⟨c, hc, hother⟩ := h
  · have hdigits : '_' ∉ lowerDigits ++ upperDigits := by decide
    cases hliteral with
    | zero => cases hhead
    | decimal _ h =>
        cases hhead
        obtain ⟨d, hd⟩ := h.exists_writes
        exact hdigits hd.mem
    | based => cases hhead
  · exact hother (hliteral.mem_chars c hc)

theorem trimChars_of_all (h : ∀ c ∈ cs, Text.isBlank c = false) : Text.trimChars cs = cs := by
  have hdrop : ∀ cs : List Char, (∀ c ∈ cs, Text.isBlank c = false) →
      cs.dropWhile Text.isBlank = cs := by
    intro cs h
    cases cs with
    | nil => rfl
    | cons c cs => rw [List.dropWhile_cons_of_neg (by simp [h c List.mem_cons_self])]
  rw [Text.trimChars, hdrop cs h, Text.dropRightWhile,
    hdrop cs.reverse (fun c hc => h c (List.mem_reverse.mp hc)), List.reverse_reverse]

/-- A literal with a sign or none is read as its number, if nothing but spaces is between them. -/
theorem read?_of_literal {text : String} (h : IsLiteral cs n)
    (hshort : ∀ m, Digits 10 cs m → (ungrouped cs).length ≤ decimalLimit)
    (hspaced : cs = (splitSign text.toList).2.dropWhile (· == ' ')) :
    read? text = some (.int (signed (splitSign text.toList).1 n)) := by
  obtain ⟨sign, hsign, heq, hnegative⟩ := exists_sign text.toList
  have htext : ungrouped text.toList = sign ++ ungrouped cs := by
    have hsigns : ∀ sign ∈ [[], ['+'], ['-']], ungrouped sign = sign := by decide
    have hspaces : ungrouped ((splitSign text.toList).2.takeWhile (· == ' ')) = [] := by
      rw [ungrouped, List.filter_eq_nil_iff]
      intro c hc
      obtain rfl : c = ' ' := beq_iff_eq.mp (List.mem_takeWhile_imp (p := (· == ' ')) hc)
      decide
    calc ungrouped text.toList
        = ungrouped sign ++ (ungrouped ((splitSign text.toList).2.takeWhile (· == ' ')) ++
            ungrouped ((splitSign text.toList).2.dropWhile (· == ' '))) := by
          rw [← ungrouped_append, ← ungrouped_append, List.takeWhile_append_dropWhile, ← heq]
      _ = sign ++ ungrouped cs := by rw [hsigns sign hsign, hspaces, ← hspaced, List.nil_append]
  have hchars : literalChars.Forall fun c => Text.isBlank c = false ∧ c ≠ '+' ∧ c ≠ '-' := by
    decide
  have hmem : ∀ c ∈ ungrouped cs, Text.isBlank c = false ∧ c ≠ '+' ∧ c ≠ '-' := fun c hc =>
    List.forall_iff_forall_mem.mp hchars c (h.mem_chars c (List.mem_filter.mp hc).1)
  have hblank : ∀ c ∈ sign ++ ungrouped cs, Text.isBlank c = false := by
    have hsigns : ∀ sign ∈ [[], ['+'], ['-']], sign.Forall fun c => Text.isBlank c = false := by
      decide
    intro c hc
    obtain hc | hc := List.mem_append.mp hc
    · exact List.forall_iff_forall_mem.mp (hsigns sign hsign) c hc
    · exact (hmem c hc).1
  have hbare : splitSign (bare text) = ((splitSign text.toList).1, ungrouped cs) := by
    rw [bare, htext, trimChars_of_all hblank, splitSign_append hsign, ← hnegative]
    exact fun c hc => (hmem c (List.mem_of_mem_head? hc)).2
  simp only [read?]
  rw [← ungrouped, int?_ungrouped, hbare, h.magnitude?_eq hshort]
  rfl

end Literals

end PropSchema.Numeral
