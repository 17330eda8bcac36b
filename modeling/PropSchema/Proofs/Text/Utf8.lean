import PropSchema.Text.Utf8
/-!
Bytes and the characters that they form. Bytes are decoded if and only if they are what characters
are encoded as, and then these are the characters. A file that holds printable characters is read as
the text that they make.
-/
namespace PropSchema.Utf8

theorem isContinuation_iff {b : UInt8} : isContinuation b ↔ 0x80 ≤ b.toNat ∧ b.toNat < 0xC0 := by
  rw [isContinuation, Bool.and_eq_true, decide_eq_true_iff, decide_eq_true_iff, UInt8.le_iff_toNat_le,
    UInt8.lt_iff_toNat_lt]
  rfl

theorem isSecond_iff {a b : UInt8} : isSecond a b ↔ (0x80 ≤ b.toNat ∧ b.toNat < 0xC0) ∧
    (a.toNat = 0xE0 → 0xA0 ≤ b.toNat) ∧ (a.toNat = 0xED → b.toNat < 0xA0) ∧
    (a.toNat = 0xF0 → 0x90 ≤ b.toNat) ∧ (a.toNat = 0xF4 → b.toNat < 0x90) := by
  simp only [isSecond, Bool.and_eq_true, Bool.or_eq_true, bne_iff_ne, ne_eq, decide_eq_true_iff,
    isContinuation_iff, UInt8.le_iff_toNat_le, UInt8.lt_iff_toNat_lt, ← UInt8.toNat_inj,
    ← Decidable.imp_iff_not_or, and_assoc]
  rfl

/-- Bytes that form the character of a number: as few as there can be. -/
inductive Forms : List UInt8 → Nat → Prop
  | one {a : UInt8} (ha : a.toNat < 0x80) : Forms [a] a.toNat
  | two {a b : UInt8} (ha : 0xC2 ≤ a.toNat ∧ a.toNat < 0xE0) (hb : isSecond a b) :
      Forms [a, b] (more (a.toNat - 0xC0) b)
  | three {a b c : UInt8} (ha : 0xE0 ≤ a.toNat ∧ a.toNat < 0xF0) (hb : isSecond a b)
      (hc : isContinuation c) : Forms [a, b, c] (more (more (a.toNat - 0xE0) b) c)
  | four {a b c d : UInt8} (ha : 0xF0 ≤ a.toNat ∧ a.toNat < 0xF5) (hb : isSecond a b)
      (hc : isContinuation c) (hd : isContinuation d) :
      Forms [a, b, c, d] (more (more (more (a.toNat - 0xF0) b) c) d)

variable {bytes rest : List UInt8} {n position : Nat} {cs : List Char}

theorem toNat_val_ofNat (h : n.isValidChar) : (Char.ofNat n).val.toNat = n := by
  rw [Char.ofNat, dif_pos h]
  rfl

theorem ofNat_eq {m : Nat} {a : UInt8} (h : m = a.toNat) : UInt8.ofNat m = a := by
  rw [h, UInt8.ofNat_toNat]

/-- The number is that of a character, and the character is encoded as the bytes. -/
theorem Forms.encode (h : Forms bytes n) :
    n.isValidChar ∧ String.utf8EncodeChar (Char.ofNat n) = bytes := by
  have hvalid : n.isValidChar := by
    cases h with
    | one ha => exact .inl (by omega)
    | two ha hb =>
        rw [isSecond_iff] at hb
        exact .inl (by unfold more; omega)
    | three ha hb hc =>
        rw [isSecond_iff] at hb
        rw [isContinuation_iff] at hc
        unfold Nat.isValidChar more
        omega
    | four ha hb hc hd =>
        rw [isSecond_iff] at hb
        rw [isContinuation_iff] at hc hd
        unfold Nat.isValidChar more
        omega
  refine ⟨hvalid, ?_⟩
  rw [String.utf8EncodeChar, toNat_val_ofNat hvalid]
  cases h with
  | one ha => rw [if_pos (by omega), UInt8.ofNat_toNat]
  | @two a b ha hb =>
      rw [isSecond_iff] at hb
      unfold more
      rw [if_neg (by omega), if_pos (by omega), ofNat_eq (a := a) (by omega),
        ofNat_eq (a := b) (by omega)]
  | @three a b c ha hb hc =>
      rw [isSecond_iff] at hb
      rw [isContinuation_iff] at hc
      unfold more
      rw [if_neg (by omega), if_neg (by omega), if_pos (by omega), ofNat_eq (a := a) (by omega),
        ofNat_eq (a := b) (by omega), ofNat_eq (a := c) (by omega)]
  | @four a b c d ha hb hc hd =>
      rw [isSecond_iff] at hb
      rw [isContinuation_iff] at hc hd
      unfold more
      rw [if_neg (by omega), if_neg (by omega), if_neg (by omega), ofNat_eq (a := a) (by omega),
        ofNat_eq (a := b) (by omega), ofNat_eq (a := c) (by omega), ofNat_eq (a := d) (by omega)]

theorem toNat_ofNat {m : Nat} (h : m < 256) : (UInt8.ofNat m).toNat = m := by
  rw [UInt8.toNat_ofNat', Nat.mod_eq_of_lt h]

theorem isContinuation_ofNat (m : Nat) : isContinuation (UInt8.ofNat (m % 64 + 128)) := by
  rw [isContinuation_iff, toNat_ofNat (by omega)]
  omega

theorem more_ofNat (n m : Nat) : more n (UInt8.ofNat (m % 64 + 128)) = n * 64 + m % 64 := by
  have hbyte := toNat_ofNat (m := m % 64 + 128) (by omega)
  unfold more
  omega

/-- Every character is encoded as bytes that form it. -/
theorem forms_utf8EncodeChar (c : Char) : Forms (String.utf8EncodeChar c) c.toNat := by
  have hvalid : c.toNat.isValidChar := c.valid
  rw [String.utf8EncodeChar, show c.val.toNat = c.toNat from rfl]
  generalize c.toNat = n at hvalid
  -- which numbers are none of a character tells which second bytes cannot come
  unfold Nat.isValidChar at hvalid
  have hlast := isContinuation_ofNat n
  split
  · have hbyte := toNat_ofNat (m := n) (by omega)
    have hform := Forms.one (a := UInt8.ofNat n) (by omega)
    rwa [hbyte] at hform
  split
  · have ha := toNat_ofNat (m := n / 64 % 32 + 192) (by omega)
    have hb := toNat_ofNat (m := n % 64 + 128) (by omega)
    have hform := Forms.two (a := UInt8.ofNat (n / 64 % 32 + 192)) (b := UInt8.ofNat (n % 64 + 128))
      (by omega) (isSecond_iff.mpr (by omega))
    rwa [more_ofNat, ha, show (n / 64 % 32 + 192 - 192) * 64 + n % 64 = n by omega] at hform
  split
  · have ha := toNat_ofNat (m := n / 4096 % 16 + 224) (by omega)
    have hb := toNat_ofNat (m := n / 64 % 64 + 128) (by omega)
    have hform := Forms.three (a := UInt8.ofNat (n / 4096 % 16 + 224))
      (b := UInt8.ofNat (n / 64 % 64 + 128)) (by omega) (isSecond_iff.mpr (by omega)) hlast
    rwa [more_ofNat, more_ofNat, ha, show ((n / 4096 % 16 + 224 - 224) * 64 + n / 64 % 64) * 64 +
      n % 64 = n by omega] at hform
  · have ha := toNat_ofNat (m := n / 262144 % 8 + 240) (by omega)
    have hb := toNat_ofNat (m := n / 4096 % 64 + 128) (by omega)
    have hform := Forms.four (a := UInt8.ofNat (n / 262144 % 8 + 240))
      (b := UInt8.ofNat (n / 4096 % 64 + 128)) (by omega) (isSecond_iff.mpr (by omega))
      (isContinuation_ofNat (n / 64)) hlast
    rwa [more_ofNat, more_ofNat, more_ofNat, ha,
      show (((n / 262144 % 8 + 240 - 240) * 64 + n / 4096 % 64) * 64 + n / 64 % 64) * 64 + n % 64 =
        n by omega] at hform

theorem begins_more {a : UInt8} (hle : 0xC2 ≤ a.toNat) (hlt : a.toNat < 0xF5) :
    ¬a < 0x80 ∧ ¬(a < 0xC2 || 0xF5 ≤ a) = true := by
  rw [Bool.or_eq_true, decide_eq_true_iff, decide_eq_true_iff, UInt8.lt_iff_toNat_lt,
    UInt8.lt_iff_toNat_lt, UInt8.le_iff_toNat_le]
  exact ⟨Nat.not_lt.mpr (Nat.le_trans (by decide) hle),
    fun h => h.elim (Nat.not_lt.mpr hle) (Nat.not_le.mpr hlt)⟩

/-- Bytes that form a character are decoded as the character, whatever follows. -/
theorem Forms.decodeFrom (h : Forms bytes n) (position : Nat) (rest : List UInt8) :
    decodeFrom position (bytes ++ rest) =
      (Char.ofNat n :: ·) <$> decodeFrom (position + bytes.length) rest := by
  cases h with
  | one ha =>
      rw [List.singleton_append, decodeFrom.eq_def]
      dsimp only
      rw [if_pos (UInt8.lt_iff_toNat_lt.mpr ha)]
      rfl
  | two ha hb =>
      obtain ⟨hone, hstart⟩ := begins_more ha.1 (by omega)
      rw [List.cons_append, List.singleton_append, decodeFrom.eq_def]
      dsimp only
      rw [if_neg hone, if_neg hstart, if_neg (by rw [hb]; decide),
        if_pos (UInt8.lt_iff_toNat_lt.mpr ha.2)]
      rfl
  | @three a b c ha hb hc =>
      obtain ⟨hone, hstart⟩ := begins_more (a := a) (by omega) (by omega)
      rw [List.cons_append, List.cons_append, List.singleton_append, decodeFrom.eq_def]
      dsimp only
      rw [if_neg hone, if_neg hstart, if_neg (by rw [hb]; decide),
        if_neg fun hlt => Nat.not_lt.mpr ha.1 (UInt8.lt_iff_toNat_lt.mp hlt),
        if_neg (by rw [hc]; decide), if_pos (UInt8.lt_iff_toNat_lt.mpr ha.2)]
      rfl
  | @four a b c d ha hb hc hd =>
      obtain ⟨hone, hstart⟩ := begins_more (a := a) (by omega) ha.2
      have hthree : ¬a < 0xF0 := fun hlt => Nat.not_lt.mpr ha.1 (UInt8.lt_iff_toNat_lt.mp hlt)
      have htwo : ¬a < 0xE0 := fun hlt => hthree (UInt8.lt_trans hlt (by decide))
      rw [List.cons_append, List.cons_append, List.cons_append, List.singleton_append,
        decodeFrom.eq_def]
      dsimp only
      rw [if_neg hone, if_neg hstart, if_neg (by rw [hb]; decide), if_neg htwo,
        if_neg (by rw [hc]; decide), if_neg hthree, if_neg (by rw [hd]; decide)]
      rfl

theorem ok_of_cons {m : Except Fault (List Char)} {c : Char}
    (h : (do pure (c :: (← m))) = Except.ok (ε := Fault) cs) : ∃ cs', cs = c :: cs' ∧ m = .ok cs' := by
  cases m with
  | error fault => cases h
  | ok cs' =>
      cases h
      exact ⟨cs', rfl, rfl⟩

theorem forms_of_decodeFrom {a : UInt8} (h : decodeFrom position (a :: rest) = .ok cs) :
    ∃ first n rest' cs', Forms first n ∧ a :: rest = first ++ rest' ∧ cs = Char.ofNat n :: cs' ∧
      decodeFrom (position + first.length) rest' = .ok cs' := by
  rw [decodeFrom.eq_def] at h
  dsimp only at h
  split at h
  next hone =>
    obtain ⟨cs', hcs, hrest⟩ := ok_of_cons h
    exact ⟨[a], _, rest, cs', .one (UInt8.lt_iff_toNat_lt.mp hone), rfl, hcs, hrest⟩
  split at h
  next => cases h
  next _ hstart =>
  rw [Bool.or_eq_true, decide_eq_true_iff, decide_eq_true_iff, UInt8.lt_iff_toNat_lt,
    UInt8.le_iff_toNat_le, not_or, Nat.not_lt, Nat.not_le] at hstart
  split at h
  next => cases h
  next b rest =>
  split at h
  next => cases h
  next hb =>
  rw [Bool.not_eq_true, Bool.not_eq_false'] at hb
  split at h
  next htwo =>
    obtain ⟨cs', hcs, hrest⟩ := ok_of_cons h
    exact ⟨[a, b], _, rest, cs', .two ⟨hstart.1, UInt8.lt_iff_toNat_lt.mp htwo⟩ hb, rfl, hcs, hrest⟩
  next htwo =>
  rw [UInt8.lt_iff_toNat_lt, Nat.not_lt] at htwo
  split at h
  next => cases h
  next c rest =>
  split at h
  next => cases h
  next hc =>
  rw [Bool.not_eq_true, Bool.not_eq_false'] at hc
  split at h
  next hthree =>
    obtain ⟨cs', hcs, hrest⟩ := ok_of_cons h
    exact ⟨[a, b, c], _, rest, cs', .three ⟨htwo, UInt8.lt_iff_toNat_lt.mp hthree⟩ hb hc, rfl, hcs,
      hrest⟩
  next hthree =>
  rw [UInt8.lt_iff_toNat_lt, Nat.not_lt] at hthree
  split at h
  next => cases h
  next d rest =>
  split at h
  next => cases h
  next hd =>
  rw [Bool.not_eq_true, Bool.not_eq_false'] at hd
  obtain ⟨cs', hcs, hrest⟩ := ok_of_cons h
  exact ⟨[a, b, c, d], _, rest, cs', .four ⟨hthree, hstart.2⟩ hb hc hd, rfl, hcs, hrest⟩

theorem decodeFrom_encoded (cs : List Char) (position : Nat) :
    decodeFrom position (cs.flatMap String.utf8EncodeChar) = .ok cs := by
  induction cs generalizing position with
  | nil => rw [List.flatMap_nil, decodeFrom]
  | cons c cs ih =>
      rw [List.flatMap_cons, (forms_utf8EncodeChar c).decodeFrom, ih, Char.ofNat_toNat]
      rfl

/-- Only what characters are encoded as is decoded as the characters. By induction on the length of
the bytes, whose first ones form the first character. -/
theorem encoded_of_decodeFrom (h : decodeFrom position bytes = .ok cs) :
    bytes = cs.flatMap String.utf8EncodeChar := by
  induction hlength : bytes.length using Nat.strongRecOn generalizing bytes position cs with
  | ind length ih =>
  cases bytes with
  | nil =>
      rw [decodeFrom] at h
      cases h
      rfl
  | cons a rest =>
      obtain ⟨first, n, rest', cs', hforms, hbytes, rfl, hrest⟩ := forms_of_decodeFrom h
      have hlt : rest'.length < length := by
        rw [← hlength, hbytes, List.length_append]
        cases hforms <;> simp only [List.length_cons] <;> omega
      rw [hbytes, ih _ hlt hrest rfl, List.flatMap_cons, hforms.encode.2]

theorem toList_loop (b : ByteArray) (i : Nat) (r : List UInt8) :
    ByteArray.toList.loop b i r = r.reverse ++ b.data.toList.drop i := by
  have hlength : b.data.toList.length = b.size := by rw [Array.length_toList, ByteArray.size_data]
  fun_induction ByteArray.toList.loop b i r with
  | case1 i r hlt ih =>
      have hin : i < b.data.toList.length := hlength ▸ hlt
      have hget : b.get! i = b.data.toList[i] := by
        rw [Array.getElem_toList]
        exact getElem!_pos b.data i hlt
      rw [ih, List.drop_eq_getElem_cons hin, hget, List.reverse_cons, List.append_assoc]
      rfl
  | case2 i r hge => rw [List.drop_eq_nil_of_le (by omega), List.append_nil]

theorem toList_toByteArray (bytes : List UInt8) : bytes.toByteArray.toList = bytes := by
  rw [ByteArray.toList, toList_loop, List.data_toByteArray]
  rfl

theorem toList_toUTF8 (cs : List Char) :
    (String.ofList cs).toUTF8.toList = cs.flatMap String.utf8EncodeChar := by
  rw [String.toUTF8_eq_toByteArray, String.toByteArray_ofList, List.utf8Encode, toList_toByteArray]

/-- Bytes are decoded exactly if they are those of a text. -/
theorem decode_eq_ok_iff : decode bytes = .ok cs ↔ bytes = (String.ofList cs).toUTF8.toList := by
  rw [toList_toUTF8, decode]
  constructor
  · exact encoded_of_decodeFrom
  · rintro rfl
    exact decodeFrom_encoded cs 0

/-- Whether bytes are those of a text. -/
def IsText (bytes : List UInt8) : Prop := ∃ text : String, bytes = text.toUTF8.toList

theorem isText_iff : IsText bytes ↔ ∃ cs, decode bytes = .ok cs := by
  constructor
  · rintro ⟨text, rfl⟩
    exact ⟨text.toList, decode_eq_ok_iff.mpr (by rw [String.ofList_toList])⟩
  · rintro ⟨cs, h⟩
    exact ⟨String.ofList cs, decode_eq_ok_iff.mp h⟩

end PropSchema.Utf8

namespace PropSchema.Text

/-- A line feed or a printable character of ASCII. -/
def IsPrintable (c : Char) : Prop := c = '\n' ∨ ' ' ≤ c ∧ c ≤ '~'

instance (c : Char) : Decidable (IsPrintable c) := by unfold IsPrintable; infer_instance

namespace IsPrintable
variable {c : Char}

theorem of_isDigit (h : c.isDigit) : IsPrintable c := by
  simp only [Char.isDigit, Bool.and_eq_true, decide_eq_true_eq] at h
  refine .inr ⟨?_, ?_⟩
  · exact Nat.le_trans (by decide) h.1
  · exact Nat.le_trans h.2 (by decide)

theorem ne_return (h : IsPrintable c) : c ≠ '\r' := by
  rintro rfl
  revert h
  decide

end IsPrintable

theorem universalNewlines_of_printable {cs : List Char} (h : ∀ c ∈ cs, IsPrintable c) :
    universalNewlines cs = cs := by
  induction cs with
  | nil => rfl
  | cons c cs ih =>
      have hc : c ≠ '\r' := (h c List.mem_cons_self).ne_return
      rw [universalNewlines, ih fun d hd => h d (List.mem_cons_of_mem c hd)]
      · rintro - rfl -
        exact hc rfl
      · exact fun heq => hc heq

end PropSchema.Text

namespace PropSchema.Utf8
open Text (IsPrintable)

/-- A file that holds a text of printable characters is read as the text. -/
theorem readText_printable {cs : List Char} (h : ∀ c ∈ cs, IsPrintable c) :
    readText (String.ofList cs).toUTF8.toList = .ok (String.ofList cs) := by
  rw [readText, decode_eq_ok_iff.mpr rfl]
  change Except.ok (String.ofList (Text.universalNewlines cs)) = _
  rw [Text.universalNewlines_of_printable h]

end PropSchema.Utf8
