import PropSchema.Proofs.Entries
import PropSchema.Proofs.Json.Scalars
import PropSchema.Proofs.Json.Strings
/-!
The text of a value is read as the value, whatever its indent, if no object names a field twice and
the dialect has names for the special numbers in it and reads integers as long as those in it.
-/
namespace PropSchema

namespace Json

-- the equations of the readers are made here, before the proofs that open them
attribute [local simp] readValue readItems readFields

/-- No object names a field twice, at any depth. -/
inductive Distinct : Json → Prop
  | null : Distinct .null
  | bool (b : Bool) : Distinct (.bool b)
  | int (n : Int) : Distinct (.int n)
  | float (x : Binary64) : Distinct (.float x)
  | str (s : String) : Distinct (.str s)
  | arr {items : List Json} (all : ∀ item ∈ items, Distinct item) : Distinct (.arr items)
  | obj {fields : List (String × Json)} (names : (Entries.keys fields).Nodup)
      (all : ∀ field ∈ fields, Distinct field.2) : Distinct (.obj fields)

/-- Every binary64 number in a value, at any depth, is finite. -/
inductive Finite : Json → Prop
  | null : Finite .null
  | bool (b : Bool) : Finite (.bool b)
  | int (n : Int) : Finite (.int n)
  | float {x : Binary64} (h : x.isFinite = true) : Finite (.float x)
  | str (s : String) : Finite (.str s)
  | arr {items : List Json} (all : ∀ item ∈ items, Finite item) : Finite (.arr items)
  | obj {fields : List (String × Json)} (all : ∀ field ∈ fields, Finite field.2) :
      Finite (.obj fields)

theorem areWritable_iff {items : List Json} :
    areWritable items = true ↔ ∀ item ∈ items, item.isWritable = true := by
  induction items with
  | nil => exact ⟨fun _ => nofun, fun _ => rfl⟩
  | cons item items ih => rw [areWritable, Bool.and_eq_true, ih, List.forall_mem_cons]

theorem fieldsWritable_iff {fields : List (String × Json)} :
    fieldsWritable fields = true ↔ ∀ field ∈ fields, field.2.isWritable = true := by
  induction fields with
  | nil => exact ⟨fun _ => nofun, fun _ => rfl⟩
  | cons field fields ih => rw [fieldsWritable, Bool.and_eq_true, ih, List.forall_mem_cons]

/-- The numbers of a value all have a text that is read in a dialect. -/
structure Dialect.Writes (dialect : Dialect) (j : Json) : Prop where
  floats : dialect.specials = true ∨ j.Finite
  integers : dialect.longIntegers = true ∨ j.isWritable = true

namespace Dialect.Writes
variable {dialect : Dialect}

theorem int {n : Int} (h : dialect.Writes (.int n)) :
    dialect.longIntegers = true ∨ Numeral.isWritable n = true :=
  h.integers.imp_right fun h => by rwa [isWritable] at h

theorem float {x : Binary64} (h : dialect.Writes (.float x)) :
    dialect.specials = true ∨ x.isFinite = true :=
  h.floats.imp_right fun h => by cases h; assumption

theorem item {items : List Json} (h : dialect.Writes (.arr items)) :
    ∀ item ∈ items, dialect.Writes item := fun item hitem =>
  { floats := h.floats.imp_right fun h => by cases h with | arr all => exact all item hitem
    integers := h.integers.imp_right fun h =>
      areWritable_iff.mp (by rwa [isWritable] at h) item hitem }

theorem field {fields : List (String × Json)} (h : dialect.Writes (.obj fields)) :
    ∀ field ∈ fields, dialect.Writes field.2 := fun field hfield =>
  { floats := h.floats.imp_right fun h => by cases h with | obj all => exact all field hfield
    integers := h.integers.imp_right fun h =>
      fieldsWritable_iff.mp (by rwa [isWritable] at h) field hfield }

end Dialect.Writes

/-- A character that can begin a value. -/
structure BeginsValue (c : Char) : Prop where
  noSpace : isSpace c = false
  noBracket : c ≠ ']'
  noMark : c ≠ '\uFEFF'

instance (c : Char) : Decidable (BeginsValue c) :=
  decidable_of_iff (isSpace c = false ∧ c ≠ ']' ∧ c ≠ '\uFEFF')
    ⟨fun h => ⟨h.1, h.2.1, h.2.2⟩, fun h => ⟨h.noSpace, h.noBracket, h.noMark⟩⟩

/-- A character that begins a scalar: no quote and no opening bracket. -/
structure BeginsScalar (c : Char) : Prop extends BeginsValue c where
  noQuote : c ≠ '"'
  noList : c ≠ '['
  noObject : c ≠ '{'

instance (c : Char) : Decidable (BeginsScalar c) :=
  decidable_of_iff (BeginsValue c ∧ c ≠ '"' ∧ c ≠ '[' ∧ c ≠ '{')
    ⟨fun h => ⟨h.1, h.2.1, h.2.2.1, h.2.2.2⟩,
      fun h => ⟨h.toBeginsValue, h.noQuote, h.noList, h.noObject⟩⟩

theorem BeginsScalar.of_isDigit {c : Char} (h : c.isDigit) : BeginsScalar c where
  noSpace := by
    simp only [isSpace, beq_false_of_ne (ne_of_isDigit (d := ' ') h rfl),
      beq_false_of_ne (ne_of_isDigit (d := '\t') h rfl),
      beq_false_of_ne (ne_of_isDigit (d := '\n') h rfl),
      beq_false_of_ne (ne_of_isDigit (d := '\r') h rfl), Bool.or_false]
  noBracket := ne_of_isDigit h rfl
  noMark := ne_of_isDigit h rfl
  noQuote := ne_of_isDigit h rfl
  noList := ne_of_isDigit h rfl
  noObject := ne_of_isDigit h rfl

theorem exists_cons_number {n : NumberParts} (hn : n.WellFormed) (negative : Bool) :
    ∃ c cs, Binary64.signChars negative ++ n.chars = c :: cs ∧ BeginsScalar c := by
  obtain ⟨c, cs, hcs, hc⟩ := hn.whole.exists_cons
  cases negative with
  | false => exact ⟨c, _, by rw [NumberParts.chars, hcs]; rfl, .of_isDigit hc⟩
  | true => exact ⟨'-', _, rfl, by decide⟩

/-- The values that are neither strings nor containers. -/
inductive IsScalar : Json → Prop
  | null : IsScalar .null
  | bool (b : Bool) : IsScalar (.bool b)
  | int (n : Int) : IsScalar (.int n)
  | float (x : Binary64) : IsScalar (.float x)

namespace IsScalar
variable {j : Json} {dialect : Dialect} {rest : List Char} {indent : Option Nat} {depth : Nat}

theorem exists_cons (h : IsScalar j) (indent : Option Nat) (depth : Nat) :
    ∃ c cs, chars indent depth j = c :: cs ∧ BeginsScalar c := by
  cases h with
  | null => exact ⟨_, _, by rw [chars]; rfl, by decide⟩
  | bool b => cases b <;> exact ⟨_, _, by rw [chars]; rfl, by decide⟩
  | int i =>
      obtain ⟨n, hn, hchars, -⟩ := exists_int i
      obtain ⟨c, cs, hcs, hc⟩ := exists_cons_number hn (decide (i < 0))
      exact ⟨c, cs, by rw [chars, hchars, hcs], hc⟩
  | float x =>
      cases x with
      | finite negative rank =>
          obtain ⟨n, hn, hchars, -⟩ := exists_finite negative rank
          obtain ⟨c, cs, hcs, hc⟩ := exists_cons_number hn negative
          exact ⟨c, cs, by rw [chars, hchars, hcs], hc⟩
      | infinite negative => cases negative <;> exact ⟨_, _, by rw [chars]; rfl, by decide⟩
      | nan => exact ⟨_, _, by rw [chars]; rfl, by decide⟩

theorem readScalar_chars (h : IsScalar j) (hd : dialect.Writes j) (indent : Option Nat)
    (depth : Nat) (hrest : EndsNumber rest) :
    readScalar dialect (chars indent depth j ++ rest) = .ok (j, rest) := by
  cases h with
  | null => rw [chars]; rfl
  | bool b => cases b <;> (rw [chars]; rfl)
  | int i => rw [chars, readScalar_intChars hd.int hrest]
  | float x => rw [chars, readScalar_floatChars hd.float hrest]

theorem readValue_chars (h : IsScalar j) (hd : dialect.Writes j) (hrest : EndsNumber rest)
    (fuel : Nat) : readValue dialect (fuel + 1) (chars indent depth j ++ rest) = .ok (j, rest) := by
  have hread := h.readScalar_chars hd indent depth hrest
  obtain ⟨c, cs, hcs, hc⟩ := h.exists_cons indent depth
  rw [hcs, List.cons_append] at hread ⊢
  rw [readValue, hread]
  · rintro - ⟨⟩
    exact hc.noQuote rfl
  · rintro - ⟨⟩
    exact hc.noList rfl
  · rintro - ⟨⟩
    exact hc.noObject rfl

end IsScalar

theorem exists_cons_chars (indent : Option Nat) (depth : Nat) (j : Json) :
    ∃ c cs, chars indent depth j = c :: cs ∧ BeginsValue c := by
  have hscalar : IsScalar j → ∃ c cs, chars indent depth j = c :: cs ∧ BeginsValue c := by
    intro h
    obtain ⟨c, cs, hcs, hc⟩ := h.exists_cons indent depth
    exact ⟨c, cs, hcs, hc.toBeginsValue⟩
  cases j with
  | null => exact hscalar .null
  | bool b => exact hscalar (.bool b)
  | int n => exact hscalar (.int n)
  | float x => exact hscalar (.float x)
  | str s => exact ⟨'"', _, by rw [chars, stringChars], by decide⟩
  | arr items =>
      cases items with
      | nil => exact ⟨'[', _, by rw [chars], by decide⟩
      | cons item items => exact ⟨'[', _, by rw [chars], by decide⟩
  | obj fields =>
      cases fields with
      | nil => exact ⟨'{', _, by rw [chars], by decide⟩
      | cons field fields => exact ⟨'{', _, by rw [chars], by decide⟩

section Gaps
variable {gap cs : List Char} {c : Char}

theorem skipSpace_cons (h : isSpace c = false) (cs : List Char) : skipSpace (c :: cs) = c :: cs :=
  List.dropWhile_cons_of_neg (h ▸ Bool.false_ne_true)

theorem skipSpace_append (hgap : ∀ c ∈ gap, isSpace c) (hc : isSpace c = false) (cs : List Char) :
    skipSpace (gap ++ c :: cs) = c :: cs := by
  rw [skipSpace, List.dropWhile_append_of_pos (p := isSpace) hgap]
  exact skipSpace_cons hc cs

theorem isSpace_of_mem_breakChars {indent : Option Nat} {depth : Nat}
    (h : c ∈ breakChars indent depth) :
    isSpace c := by
  cases indent with
  | none => nomatch h
  | some width =>
      rcases List.mem_cons.mp h with rfl | h
      · rfl
      · rw [List.eq_of_mem_replicate h]
        rfl

/-- A comma and a gap stand between two items. -/
theorem exists_separator (indent : Option Nat) (depth : Nat) :
    ∃ gap, separatorChars indent depth = ',' :: gap ∧ ∀ c ∈ gap, isSpace c := by
  cases indent with
  | none => exact ⟨[' '], rfl, List.forall_mem_singleton.mpr rfl⟩
  | some width => exact ⟨breakChars (some width) depth, rfl, fun c => isSpace_of_mem_breakChars⟩

theorem endsNumber_cons (hdigit : c.isDigit = false) (hpoint : c ≠ '.') (he : c ≠ 'e')
    (hE : c ≠ 'E') :
    EndsNumber (c :: cs) := by
  rintro d ⟨⟩
  exact ⟨hdigit, hpoint, he, hE⟩

theorem endsNumber_gap (hgap : ∀ c ∈ gap, isSpace c) (h : EndsNumber cs) :
    EndsNumber (gap ++ cs) := by
  cases gap with
  | nil => exact h
  | cons d gap =>
      have hd := hgap d List.mem_cons_self
      simp only [isSpace, Bool.or_eq_true, beq_iff_eq] at hd
      rcases hd with ((rfl | rfl) | rfl) | rfl <;>
        exact endsNumber_cons rfl (by decide) (by decide) (by decide)

end Gaps

section Steps
variable {dialect : Dialect} {fuel : Nat} {item value : Json} {name : String}
  {cs more tail rest : List Char} {items : List Json} {fields : List (String × Json)}

theorem skipSpace_gap_chars (gap : List Char) (hgap : ∀ c ∈ gap, isSpace c) {indent : Option Nat}
    {depth : Nat} : skipSpace (gap ++ (chars indent depth item ++ rest)) =
      chars indent depth item ++ rest := by
  obtain ⟨c, cs, hcs, hc⟩ := exists_cons_chars indent depth item
  rw [hcs]
  exact skipSpace_append hgap hc.noSpace _

theorem readItems_last (hitem : readValue dialect fuel cs = .ok (item, more))
    (hmore : skipSpace more = ']' :: rest) :
    readItems dialect (fuel + 1) cs = .ok ([item], rest) := by
  rw [readItems, hitem]
  simp only [bind, Except.bind, hmore]
  rfl

theorem readItems_next (hitem : readValue dialect fuel cs = .ok (item, more))
    (hmore : skipSpace more = ',' :: tail)
    (hitems : readItems dialect fuel (skipSpace tail) = .ok (items, rest)) :
    readItems dialect (fuel + 1) cs = .ok (item :: items, rest) := by
  rw [readItems, hitem]
  simp only [bind, Except.bind, hmore, hitems]
  rfl

section Fields
variable {quoted afterName before : List Char}
  (hname : readString dialect quoted = .ok (name, afterName))
  (hcolon : skipSpace afterName = ':' :: before) (hbefore : skipSpace before = cs)
  (hvalue : readValue dialect fuel cs = .ok (value, more))
include hname hcolon hbefore hvalue

theorem readFields_last (hmore : skipSpace more = '}' :: rest) :
    readFields dialect (fuel + 1) ('"' :: quoted) = .ok ([(name, value)], rest) := by
  rw [readFields]
  simp only [hname, bind, Except.bind, pure, Except.pure, hcolon, hbefore, hvalue, hmore]

theorem readFields_next (hmore : skipSpace more = ',' :: tail)
    (hfields : readFields dialect fuel (skipSpace tail) = .ok (fields, rest)) :
    readFields dialect (fuel + 1) ('"' :: quoted) = .ok ((name, value) :: fields, rest) := by
  rw [readFields]
  simp only [hname, bind, Except.bind, pure, Except.pure, hcolon, hbefore, hvalue, hmore, hfields]

end Fields

theorem stringChars_append (s : String) (cs : List Char) :
    stringChars s ++ cs = '"' :: (s.toList.flatMap escapeChar ++ '"' :: cs) := by
  rw [stringChars, List.cons_append, List.append_assoc, List.singleton_append]

theorem readValue_str (dialect : Dialect) (fuel : Nat) (s : String) (rest : List Char) :
    readValue dialect (fuel + 1) (stringChars s ++ rest) = .ok (.str s, rest) := by
  rw [stringChars_append, readValue, readString_quoted]
  rfl

theorem readValue_arr (hitems : readItems dialect fuel (skipSpace tail) = .ok (items, rest))
    (hfront : (skipSpace tail).head? ≠ some ']') :
    readValue dialect (fuel + 1) ('[' :: tail) = .ok (.arr items, rest) := by
  rw [readValue]
  split
  · next heq => exact absurd (congrArg List.head? heq) hfront
  · rw [hitems]
    rfl

theorem readValue_obj (hfields : readFields dialect fuel (skipSpace tail) = .ok (fields, rest))
    (hfront : (skipSpace tail).head? ≠ some '}') :
    readValue dialect (fuel + 1) ('{' :: tail) = .ok (.obj (Entries.ofPairs fields), rest) := by
  rw [readValue]
  split
  · next heq => exact absurd (congrArg List.head? heq) hfront
  · rw [hfields]
    rfl

end Steps

/-- The text of a value is read as it, with as much fuel as the text is long. -/
def Reads (dialect : Dialect) (j : Json) : Prop :=
  ∀ (indent : Option Nat) (depth fuel : Nat) (rest : List Char), EndsNumber rest →
    (chars indent depth j).length ≤ fuel →
    readValue dialect fuel (chars indent depth j ++ rest) = .ok (j, rest)

section Containers
variable {dialect : Dialect} {indent : Option Nat} {depth fuel : Nat} {gap rest : List Char}

theorem endsNumber_items (indent : Option Nat) (depth : Nat) (items : List Json)
    (hgap : ∀ c ∈ gap, isSpace c) (rest : List Char) :
    EndsNumber (itemsChars indent depth items ++ (gap ++ ']' :: rest)) := by
  cases items with
  | nil =>
      rw [itemsChars, List.nil_append]
      exact endsNumber_gap hgap (endsNumber_cons rfl (by decide) (by decide) (by decide))
  | cons item items =>
      obtain ⟨_, hsep, -⟩ := exists_separator indent depth
      rw [itemsChars, hsep]
      exact endsNumber_cons rfl (by decide) (by decide) (by decide)

theorem endsNumber_fields (indent : Option Nat) (depth : Nat) (fields : List (String × Json))
    (hgap : ∀ c ∈ gap, isSpace c) (rest : List Char) :
    EndsNumber (fieldsChars indent depth fields ++ (gap ++ '}' :: rest)) := by
  cases fields with
  | nil =>
      rw [fieldsChars, List.nil_append]
      exact endsNumber_gap hgap (endsNumber_cons rfl (by decide) (by decide) (by decide))
  | cons field fields =>
      obtain ⟨_, hsep, -⟩ := exists_separator indent depth
      rw [fieldsChars, hsep]
      exact endsNumber_cons rfl (by decide) (by decide) (by decide)

/-- The items of a list are read one after the other. -/
theorem readItems_chars (indent : Option Nat) (depth : Nat) {items : List Json}
    (hgap : ∀ c ∈ gap, isSpace c) (rest : List Char) :
    ∀ {item : Json} (fuel : Nat), (∀ j ∈ item :: items, Reads dialect j) →
      (chars indent depth item ++ itemsChars indent depth items).length < fuel →
      readItems dialect fuel
        (chars indent depth item ++ (itemsChars indent depth items ++ (gap ++ ']' :: rest))) =
        .ok (item :: items, rest) := by
  induction items with
  | nil =>
      intro item fuel hreads hfuel
      obtain ⟨fuel, rfl⟩ : ∃ k, fuel = k + 1 := ⟨fuel - 1, by omega⟩
      rw [List.length_append] at hfuel
      have hitem := hreads item List.mem_cons_self indent depth fuel _
        (endsNumber_items indent depth [] hgap rest) (by omega)
      exact readItems_last hitem (skipSpace_append hgap rfl rest)
  | cons next items ih =>
      intro item fuel hreads hfuel
      obtain ⟨fuel, rfl⟩ : ∃ k, fuel = k + 1 := ⟨fuel - 1, by omega⟩
      obtain ⟨between, hsep, hbetween⟩ := exists_separator indent depth
      obtain ⟨c, cs, hcs, -⟩ := exists_cons_chars indent depth item
      have hlength : (chars indent depth next ++ itemsChars indent depth items).length < fuel := by
        simp only [itemsChars, hsep, hcs, List.length_append, List.length_cons] at hfuel ⊢
        omega
      have hitems := ih fuel (fun j hj => hreads j (List.mem_cons_of_mem item hj)) hlength
      rw [List.length_append] at hfuel
      have hitem := hreads item List.mem_cons_self indent depth fuel _
        (endsNumber_items indent depth (next :: items) hgap rest) (by omega)
      rw [← skipSpace_gap_chars between hbetween] at hitems
      refine readItems_next hitem ?_ hitems
      rw [itemsChars, hsep, List.append_assoc, List.append_assoc]
      exact skipSpace_cons rfl _

/-- The fields of an object are read one after the other. -/
theorem readFields_chars (indent : Option Nat) (depth : Nat) {fields : List (String × Json)}
    (hgap : ∀ c ∈ gap, isSpace c) (rest : List Char) :
    ∀ {name : String} {value : Json} (fuel : Nat), (∀ f ∈ (name, value) :: fields, Reads dialect f.2) →
      (stringChars name ++ ':' :: ' ' :: (chars indent depth value ++
        fieldsChars indent depth fields)).length < fuel →
      readFields dialect fuel (stringChars name ++ ':' :: ' ' :: (chars indent depth value ++
        (fieldsChars indent depth fields ++ (gap ++ '}' :: rest)))) =
        .ok ((name, value) :: fields, rest) := by
  induction fields with
  | nil =>
      intro name value fuel hreads hfuel
      obtain ⟨fuel, rfl⟩ : ∃ k, fuel = k + 1 := ⟨fuel - 1, by omega⟩
      simp only [List.length_append, List.length_cons] at hfuel
      have hvalue := hreads (name, value) List.mem_cons_self indent depth fuel _
        (endsNumber_fields indent depth [] hgap rest) (by dsimp only; omega)
      rw [stringChars_append]
      exact readFields_last (readString_quoted _ name _) (skipSpace_cons rfl _)
        (skipSpace_gap_chars [' '] (List.forall_mem_singleton.mpr rfl)) hvalue
        (skipSpace_append hgap rfl rest)
  | cons next fields ih =>
      intro name value fuel hreads hfuel
      obtain ⟨fuel, rfl⟩ : ∃ k, fuel = k + 1 := ⟨fuel - 1, by omega⟩
      obtain ⟨between, hsep, hbetween⟩ := exists_separator indent depth
      have hlength : (stringChars next.1 ++ ':' :: ' ' :: (chars indent depth next.2 ++
          fieldsChars indent depth fields)).length < fuel := by
        simp only [fieldsChars, hsep, List.length_append, List.length_cons] at hfuel ⊢
        omega
      have hfields := ih fuel (fun f hf => hreads f (List.mem_cons_of_mem _ hf)) hlength
      simp only [List.length_append, List.length_cons] at hfuel
      have hvalue := hreads (name, value) List.mem_cons_self indent depth fuel _
        (endsNumber_fields indent depth (next :: fields) hgap rest) (by dsimp only; omega)
      rw [stringChars, List.cons_append, ← skipSpace_append hbetween rfl] at hfields
      rw [stringChars_append]
      refine readFields_next (readString_quoted _ name _) (skipSpace_cons rfl _)
        (skipSpace_gap_chars [' '] (List.forall_mem_singleton.mpr rfl)) hvalue ?_ hfields
      rw [fieldsChars, hsep]
      simp only [List.append_assoc, List.cons_append, List.nil_append, stringChars]
      exact skipSpace_cons rfl _

end Containers

section Reads
variable {dialect : Dialect}

/-- A text takes a character at least, so there is fuel for one step. -/
theorem exists_fuel {indent : Option Nat} {depth fuel : Nat} {j : Json}
    (h : (chars indent depth j).length ≤ fuel) : ∃ k, fuel = k + 1 := by
  obtain ⟨c, cs, hcs, -⟩ := exists_cons_chars indent depth j
  rw [hcs, List.length_cons] at h
  exact ⟨fuel - 1, by omega⟩

theorem IsScalar.reads {j : Json} (h : IsScalar j) (hd : dialect.Writes j) : Reads dialect j := by
  intro indent depth fuel rest hrest hfuel
  obtain ⟨fuel, rfl⟩ := exists_fuel hfuel
  exact h.readValue_chars hd hrest fuel

theorem reads_str (s : String) : Reads dialect (.str s) := by
  intro indent depth fuel rest _ hfuel
  obtain ⟨fuel, rfl⟩ := exists_fuel hfuel
  rw [chars]
  exact readValue_str dialect fuel s rest

theorem reads_arr {items : List Json} (h : ∀ item ∈ items, Reads dialect item) :
    Reads dialect (.arr items) := by
  intro indent depth fuel rest _ hfuel
  obtain ⟨fuel, rfl⟩ := exists_fuel hfuel
  cases items with
  | nil => rw [chars]; rfl
  | cons item items =>
      obtain ⟨c, cs, hcs, hc⟩ := exists_cons_chars indent (depth + 1) item
      have hbreak : ∀ {k}, ∀ c ∈ breakChars indent k, isSpace c := fun c =>
        isSpace_of_mem_breakChars
      have hitems := readItems_chars indent (depth + 1) (hbreak (k := depth)) rest fuel h (by
          simp only [chars, List.length_append, List.length_cons] at hfuel ⊢
          omega)
      rw [chars]
      simp only [List.cons_append, List.append_assoc, List.nil_append]
      rw [← skipSpace_gap_chars _ (hbreak (k := depth + 1))] at hitems
      refine readValue_arr hitems ?_
      rw [skipSpace_gap_chars _ hbreak, hcs]
      exact fun h => hc.noBracket (Option.some.inj h)

theorem reads_obj {fields : List (String × Json)} (names : (Entries.keys fields).Nodup)
    (h : ∀ field ∈ fields, Reads dialect field.2) : Reads dialect (.obj fields) := by
  intro indent depth fuel rest _ hfuel
  obtain ⟨fuel, rfl⟩ := exists_fuel hfuel
  cases fields with
  | nil => rw [chars]; rfl
  | cons field fields =>
      obtain ⟨name, value⟩ := field
      have hbreak : ∀ {k}, ∀ c ∈ breakChars indent k, isSpace c := fun c =>
        isSpace_of_mem_breakChars
      have hfields := readFields_chars indent (depth + 1) (hbreak (k := depth)) rest fuel h (by
          simp only [chars, List.length_append, List.length_cons, List.length_nil] at hfuel ⊢
          omega)
      rw [chars]
      simp only [List.cons_append, List.append_assoc, List.nil_append, stringChars] at hfields ⊢
      have hskip := skipSpace_append (c := '"') (hbreak (k := depth + 1)) rfl
      rw [← hskip] at hfields
      conv_rhs => rw [← Entries.ofPairs_of_nodup names]
      refine readValue_obj hfields ?_
      rw [hskip]
      exact fun h => nomatch h

/-- The text of a value without repeated field names is read as the value. -/
theorem Distinct.reads {j : Json} (h : Distinct j) (hd : dialect.Writes j) : Reads dialect j := by
  induction h with
  | null => exact IsScalar.null.reads hd
  | bool b => exact (IsScalar.bool b).reads hd
  | int n => exact (IsScalar.int n).reads hd
  | float x => exact (IsScalar.float x).reads hd
  | str s => exact reads_str s
  | arr _ ih => exact reads_arr fun item hitem => ih item hitem (hd.item item hitem)
  | obj names _ ih => exact reads_obj names fun field hfield => ih field hfield (hd.field field hfield)

end Reads

/-- The text of a value without repeated field names is read as the value. -/
theorem Distinct.readChars_chars {dialect : Dialect} {j : Json} (h : Distinct j)
    (hd : dialect.Writes j) (indent : Option Nat) :
    readChars dialect (chars indent 0 j) = .ok j := by
  obtain ⟨c, cs, hcs, hc⟩ := exists_cons_chars indent 0 j
  have hread := h.reads hd indent 0 ((chars indent 0 j).length + 1) [] nofun (by omega)
  rw [List.append_nil, hcs] at hread
  have hmark : ¬ (c :: cs).head? = some '\uFEFF' := fun h => hc.noMark (Option.some.inj h)
  rw [hcs, readChars, if_neg hmark, skipSpace_cons hc.noSpace, hread]
  rfl

theorem render_eq_some_iff {j : Json} {indent : Option Nat} {written : String} :
    j.render indent = some written ↔ j.isWritable = true ∧ j.text indent = written := by
  rw [render]
  split
  · next h => rw [Option.some.injEq, and_iff_right h]
  · next h => exact iff_of_false nofun fun hj => h hj.1

theorem isSome_render (j : Json) (indent : Option Nat) :
    (j.render indent).isSome = j.isWritable := by
  rw [render]
  cases j.isWritable <;> rfl

/-- What has a text is read from it. -/
theorem Distinct.read_render {j : Json} (h : Distinct j) {indent : Option Nat} {written : String}
    (hj : j.render indent = some written) : read written = .ok j := by
  obtain ⟨hwritable, rfl⟩ := render_eq_some_iff.mp hj
  rw [read, text, String.toList_ofList]
  exact h.readChars_chars ⟨.inl rfl, .inr hwritable⟩ indent

end Json

end PropSchema
