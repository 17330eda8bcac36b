import PropSchema.Proofs.Classify.Lenient
import PropSchema.Proofs.TypeScript.Changes.Declared
/-!
The graphs that resolution makes. The shared primitives stay in their places, every type is made of
earlier ones, and the properties of all records say where they are declared.
-/
namespace PropSchema

/-- A graph as resolution makes it. Only bounds, arguments and properties lead to later types. -/
structure TypeGraph.Sound (g : TypeGraph) : Prop where
  primitives : g.HasPrimitives
  parts : ∀ {a b}, b ∈ (g.form a).parts → b < a
  declared : g.Declared

namespace TypeScript

/-- Only what is no primitive is completed, and it stays without parts and properties. -/
theorem Completes.apart {old new : TypeForm} (h : Completes old new) :
    (∀ name, old ≠ .primitive name) ∧ new.parts = [] ∧ ∀ record, new ≠ .record record := by
  cases h <;> exact ⟨nofun, rfl, nofun⟩

end TypeScript

open TypeScript

namespace TypeGraph.Sound
variable {g g' : TypeGraph} {id : NodeId} {form : TypeForm}

theorem initial : TypeGraph.initial.Sound := by
  refine ⟨fun _ _ => rfl, fun {a b} hb => ?_, fun {a record} hrecord => ?_⟩
  · obtain ⟨name, he⟩ | he := form_initial_cases a
    · rw [he] at hb
      cases hb
    · rw [he] at hb
      cases hb
  · obtain ⟨name, he⟩ | he := form_initial_cases a
    · rw [he] at hrecord
      cases hrecord
    · rw [he] at hrecord
      cases hrecord

/-- A node that is no primitive comes after the shared ones. -/
theorem shared_le (h : g.Sound) (hid : ∀ name, g.form id ≠ .primitive name) :
    primitiveNames.length ≤ id := by
  by_contra hlt
  have hlt := Nat.lt_of_not_le hlt
  refine hid primitiveNames[id] ?_
  rw [h.primitives id hlt]
  exact form_initial (List.getElem?_eq_getElem hlt)

/-- One node gets another form. -/
theorem update (h : g.Sound)
    (hform : ∀ other, g'.form other = if other = id then form else g.form other)
    (hid : ∀ name, g.form id ≠ .primitive name) (hparts : ∀ part ∈ form.parts, part < id)
    (hdeclared : ∀ {record}, form = .record record →
      ∀ p ∈ record.properties, p.declaration.isSome) : g'.Sound := by
  refine ⟨fun other hother => ?_, fun {a b} hb => ?_, fun {a record} hrecord => ?_⟩
  · rw [hform, if_neg (Nat.ne_of_lt (Nat.lt_of_lt_of_le hother (h.shared_le hid)))]
    exact h.primitives other hother
  · rw [hform] at hb
    split at hb
    · next ha => exact ha ▸ hparts b hb
    · exact h.parts hb
  · rw [hform] at hrecord
    split at hrecord
    · exact hdeclared hrecord
    · exact h.declared hrecord

theorem push (h : g.Sound) {location : Option Location}
    (hparts : ∀ part ∈ form.parts, part < g.size)
    (hdeclared : ∀ {record}, form = .record record →
      ∀ p ∈ record.properties, p.declaration.isSome) : (g.push form location).2.Sound := by
  refine h.update (form_push g form location) (fun name => ?_) hparts hdeclared
  rw [form_of_size_le (Nat.le_refl _)]
  nofun

theorem change {sc : Scope} {P : String → Prop} {bound : Nat} {r r' : Resolution}
    (hchange : Change sc P bound r r') (h : r.graph.Sound) : r'.graph.Sound := by
  cases hchange with
  | push plain => exact h.push plain.parts plain.declared
  | tables graph => exact graph ▸ h
  | remember => exact h
  | complete _ known completes =>
      obtain ⟨hold, hparts, hrecord⟩ := completes.apart
      exact h.update (form_setForm known _) hold (by simp [hparts]) fun he => absurd he (hrecord _)
  | declare location =>
      refine h.push nofun ?_
      rintro record ⟨⟩ p hp
      cases hp
  | extend _ form declared =>
      refine h.update (form_setForm (lt_of_record form) _) (by rw [form]; nofun) nofun ?_
      rintro _ ⟨⟩ p hp
      obtain hp | ⟨other, source, hsource, hp⟩ := declared p hp
      · exact hp
      · exact h.declared hsource p hp

end TypeGraph.Sound

/-- All lookups together make a sound graph. -/
theorem TypeScript.Source.Reached.sound {src : Source} {r : Resolution} (h : src.Reached r) :
    r.graph.Sound :=
  h.run.1.invariant (I := fun r => r.graph.Sound) TypeGraph.Sound.change TypeGraph.Sound.initial

end PropSchema
