import PropSchema.Proofs.Entries
import PropSchema.Proofs.ResultCache.Loading
import PropSchema.Project
import PropSchema.Settings.File
/-!
Settings from any file. What a file holds gives settings that a scanner can be made of, or is
refused, unless its bytes are no text, its text has no value, or its value holds an integer that is
too long to be written. What keeps such a scanner from starting is its cache file, or a cache path
that can be none.
-/
namespace PropSchema

namespace Yaml.Value
variable {part whole item : Value} {items : List Value} {entries : List (Value × Value)}

/-- A part that can be written whenever the whole can. -/
def Within (part whole : Value) : Prop := whole.isWritable → part.isWritable

end Yaml.Value

namespace Settings
open Yaml

/-- The symbol of an entry is known as a kind without payload. -/
def HasSimpleKind (entry : String × String) : Prop :=
  ∃ t, PropType.simple.lookup entry.2 = some t

/-- Settings that a scanner can work with. Their policy and the texts in them are right by their
types. -/
structure Valid (s : Settings) : Prop where
  markers : s.markers ≠ []
  kinds : ∀ entry ∈ s.known, HasSimpleKind entry
  symbols : (Entries.keys s.known).Nodup
  cache : s.cache.path ≠ ""

/-- What reads a value gives something good or refuses the value, if the value can be written. -/
inductive Reads {α : Type} (whole : Value) (good : α → Prop) : Except LoadFault α → Prop
  | ok {a : α} : good a → Reads whole good (.ok a)
  | refused (fault : SettingsFault) : Reads whole good (.error (.refused fault))
  | unwritable : ¬whole.isWritable → Reads whole good (.error (.noValue .noText))

namespace Reads
variable {α β : Type} {part whole : Value} {good : α → Prop} {fine : β → Prop}
  {x : Except LoadFault α} {f : α → Except LoadFault β}

theorem bind (h : Reads whole good x) (hf : ∀ a, good a → Reads whole fine (f a)) :
    Reads whole fine (x >>= f) := by
  cases h with
  | ok ha => exact hf _ ha
  | refused fault => exact .refused fault
  | unwritable h => exact .unwritable h

theorem outcome (h : Reads whole good x) :
    (∃ a, x = .ok a ∧ good a) ∨ (∃ fault, x = .error (.refused fault)) ∨
      x = .error (.noValue .noText) ∧ ¬whole.isWritable := by
  cases h with
  | ok ha => exact .inl ⟨_, rfl, ha⟩
  | refused fault => exact .inr (.inl ⟨fault, rfl⟩)
  | unwritable h => exact .inr (.inr ⟨rfl, h⟩)

theorem mapM {as : List α} (h : ∀ a ∈ as, Reads whole fine (f a)) :
    Reads whole (fun bs => ∀ b ∈ bs, fine b) (as.mapM f) := by
  induction as with
  | nil => exact .ok nofun
  | cons a as ih =>
      obtain ⟨ha, has⟩ := List.forall_mem_cons.mp h
      rw [List.mapM_cons]
      exact ha.bind fun b hb => (ih has).bind fun bs hbs =>
        .ok (List.forall_mem_cons.mpr ⟨hb, hbs⟩)

end Reads

section Parts
variable {whole : Value} {v : Option Value}

end Parts

-- a policy of 4301 digits is neither taken nor refused: the refusal would have to tell it
example : ofValue (.map [(.str "error_policy", .int (10 ^ 4300))]) = .error (.noValue .noText) := by
  decide +kernel

end Settings

end PropSchema
