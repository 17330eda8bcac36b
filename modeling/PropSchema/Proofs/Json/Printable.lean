import PropSchema.Proofs.Json.Sorted
import PropSchema.Proofs.Text.Utf8
/-!
The text of a value has printable characters only, so it is read from a file as it is.
-/
namespace PropSchema.Json
open Text (IsPrintable)

/-- All characters of a piece of text are printable. -/
def Plain (cs : List Char) : Prop := ∀ c ∈ cs, IsPrintable c

instance (cs : List Char) : Decidable (Plain cs) := List.decidableBAll _ cs

namespace Plain
variable {cs ds : List Char} {c : Char}

theorem nil : Plain [] := fun _ h => nomatch h

theorem cons (hc : IsPrintable c) (hcs : Plain cs) : Plain (c :: cs) :=
  List.forall_mem_cons.mpr ⟨hc, hcs⟩

theorem append (hcs : Plain cs) (hds : Plain ds) : Plain (cs ++ ds) :=
  List.forall_mem_append.mpr ⟨hcs, hds⟩

theorem flatMap {α : Type} {f : α → List Char} (h : ∀ a, Plain (f a)) (as : List α) :
    Plain (as.flatMap f) := by
  intro c hc
  obtain ⟨a, -, ha⟩ := List.mem_flatMap.mp hc
  exact h a c ha

theorem of_digits (h : ∀ c ∈ cs, c.isDigit) : Plain cs := fun c hc => .of_isDigit (h c hc)

end Plain

section Numbers

theorem IsWhole.plain {ds : List Char} (h : IsWhole ds) : Plain ds := by
  cases h with
  | zero => exact .of_digits (List.forall_mem_singleton.mpr rfl)
  | digits _ all => exact .of_digits all

theorem plain_fractionChars {fraction : List Char} (h : ∀ c ∈ fraction, c.isDigit) :
    Plain (NumberParts.fractionChars fraction) := by
  cases fraction with
  | nil => exact .nil
  | cons c cs => exact .cons (by decide) (.of_digits h)

theorem plain_exponentChars (exponent : Option Int) : Plain (NumberParts.exponentChars exponent) := by
  cases exponent with
  | none => exact .nil
  | some e =>
      have hrun : Plain (NumberParts.exponentRun e) :=
        .of_digits fun c => NumberParts.isDigit_of_mem_exponentRun
      rw [NumberParts.exponentChars, Binary64.exponentChars]
      refine .cons (by decide) (.cons ?_ hrun)
      split <;> decide

theorem NumberParts.WellFormed.plain {n : NumberParts} (hn : n.WellFormed) (negative : Bool) :
    Plain (Binary64.signChars negative ++ n.chars) := by
  refine .append (by cases negative <;> decide) (.append hn.whole.plain ?_)
  exact .append (plain_fractionChars hn.fraction) (plain_exponentChars n.exponent)

end Numbers

section Strings

theorem plain_unitEscape {n : Nat} (h : n < 0x10000) : Plain (unitEscape n) := by
  have hdigit : ∀ d < 16, IsPrintable (Nat.digitChar d) := by decide
  rw [unitEscape_eq h]
  refine .cons (by decide) (.cons (by decide) (.cons ?_ (.cons ?_ (.cons ?_ (.cons ?_ .nil)))))
  all_goals exact hdigit _ (by omega)

theorem plain_escapeChar (c : Char) : Plain (escapeChar c) := by
  have hc := toNat_lt c
  unfold escapeChar
  repeat' split
  all_goals first
    | decide
    | exact .cons (.inr ‹_›) .nil
    | exact plain_unitEscape (by omega)
    | exact .append (plain_unitEscape (by omega)) (plain_unitEscape (by omega))

theorem plain_stringChars (s : String) : Plain (stringChars s) :=
  .cons (by decide) (.append (.flatMap plain_escapeChar s.toList) (by decide))

end Strings

section Containers
variable {indent : Option Nat}

theorem plain_breakChars (indent : Option Nat) (depth : Nat) : Plain (breakChars indent depth) := by
  cases indent with
  | none => exact .nil
  | some width =>
      refine .cons (by decide) fun c hc => ?_
      rw [List.eq_of_mem_replicate hc]
      decide

theorem plain_separatorChars (indent : Option Nat) (depth : Nat) :
    Plain (separatorChars indent depth) := by
  cases indent with
  | none => exact .cons (by decide) (.cons (by decide) .nil)
  | some width => exact .cons (by decide) (plain_breakChars _ depth)

theorem plain_itemsChars {items : List Json} {depth : Nat}
    (h : ∀ item ∈ items, Plain (chars indent depth item)) :
    Plain (itemsChars indent depth items) := by
  induction items with
  | nil => rw [itemsChars]; exact .nil
  | cons item items ih =>
      obtain ⟨hitem, hitems⟩ := List.forall_mem_cons.mp h
      rw [itemsChars]
      exact .append (.append (plain_separatorChars indent depth) hitem) (ih hitems)

theorem plain_fieldsChars {fields : List (String × Json)} {depth : Nat}
    (h : ∀ field ∈ fields, Plain (chars indent depth field.2)) :
    Plain (fieldsChars indent depth fields) := by
  induction fields with
  | nil => rw [fieldsChars]; exact .nil
  | cons field fields ih =>
      obtain ⟨hfield, hfields⟩ := List.forall_mem_cons.mp h
      rw [fieldsChars]
      exact .append (.append (.append (.append (plain_separatorChars indent depth)
        (plain_stringChars field.1)) (by decide)) hfield) (ih hfields)

end Containers

theorem Distinct.plain {j : Json} (h : Distinct j) (indent : Option Nat) (depth : Nat) :
    Plain (chars indent depth j) := by
  induction h generalizing depth with
  | null => rw [chars]; decide
  | bool b => cases b <;> (rw [chars]; decide)
  | int n =>
      obtain ⟨parts, hparts, hchars, -⟩ := exists_int n
      rw [chars, hchars]
      exact hparts.plain _
  | float x =>
      rw [chars]
      cases x with
      | finite negative rank =>
          obtain ⟨parts, hparts, hchars, -⟩ := exists_finite negative rank
          rw [hchars]
          exact hparts.plain _
      | infinite negative => cases negative <;> decide
      | nan => decide
  | str s => rw [chars]; exact plain_stringChars s
  | @arr items _ ih =>
      cases items with
      | nil => rw [chars]; decide
      | cons item items =>
          obtain ⟨hitem, hitems⟩ := List.forall_mem_cons.mp ih
          rw [chars]
          exact .cons (by decide) (.append (.append (.append (.append (plain_breakChars _ _)
            (hitem _)) (plain_itemsChars fun item h => hitems item h _)) (plain_breakChars _ _))
            (by decide))
  | @obj fields _ _ ih =>
      cases fields with
      | nil => rw [chars]; decide
      | cons field fields =>
          obtain ⟨hfield, hfields⟩ := List.forall_mem_cons.mp ih
          obtain ⟨name, value⟩ := field
          rw [chars]
          exact .cons (by decide) (.append (.append (.append (.append (.append (.append
            (plain_breakChars _ _) (plain_stringChars name)) (by decide)) (hfield _))
            (plain_fieldsChars fun field h => hfields field h _)) (plain_breakChars _ _)) (by decide))

/-- A file that holds the text of a value is read as that text. -/
theorem Distinct.readText_render {j : Json} (h : Distinct j) {indent : Option Nat}
    {written : String} (hj : j.render indent = some written) :
    Utf8.readText written.toUTF8.toList = .ok written := by
  obtain ⟨-, rfl⟩ := render_eq_some_iff.mp hj
  exact Utf8.readText_printable (h.plain indent 0)

end PropSchema.Json
