import PropSchema.Proofs.Classify.Props
/-!
What a table says after any requests, those that failed included. A record that could not be
classified has left its slot empty; every slot that is filled says what the type says that it is for.
-/
namespace PropSchema

namespace Classify
variable {r : Rules} {g : TypeGraph} {depth : Nat}

/-- The memo numbers the slots, and what is filled says what its type says. -/
structure Truthful (r : Rules) (g : TypeGraph) (c : Context) : Prop where
  numbered : c.Numbered
  described : ∀ {identity slot record}, c.lookup identity = some slot →
    c.slots[slot]? = some (some record) → Describes r g c.lookup identity record

namespace Truthful
variable {c c' : Context}

theorem fresh (r : Rules) (g : TypeGraph) : Truthful r g .fresh :=
  ⟨Context.numbered_fresh, by simp [Context.fresh]⟩

theorem course (owners : List String) (notes : List Note) (h : Truthful r g c) :
    Truthful r g { c with owners, notes } :=
  ⟨⟨h.numbered.slots, h.numbered.identities⟩, h.described⟩

/-- A slot that is reserved is empty. -/
theorem reserve (h : Truthful r g c) {identity : TypeIdentity} (hnew : c.lookup identity = none) :
    Truthful r g (c.reserve identity).2 := by
  have hext := Context.extends_reserve hnew
  refine ⟨hext.numbered h.numbered, ?_⟩
  intro other slot record hl hs
  rw [Context.lookup_reserve] at hl
  split at hl
  · cases hl
    simp [Context.reserve] at hs
  · have hlt := h.numbered.lookup_lt hl
    rw [hext.slot_eq hlt] at hs
    exact (h.described hl hs).mono hext

/-- The slot of a type is filled with what the type says. -/
theorem fill (h : Truthful r g c) {identity : TypeIdentity} {slot : Nat} {record : RecordSpec}
    (hl : c.lookup identity = some slot) (hd : Describes r g c.lookup identity record) :
    Truthful r g { c with slots := c.slots.set slot (some record) } := by
  refine ⟨⟨by simpa using h.numbered.slots, h.numbered.identities⟩, ?_⟩
  intro other slot' record' hl' hs
  have hl' : c.lookup other = some slot' := hl'
  by_cases heq : slot = slot'
  · subst heq
    obtain rfl := h.numbered.lookup_injective hl hl'
    have hlt := h.numbered.lookup_lt hl
    have hrecord : record = record' := by simpa [hlt] using hs
    exact hrecord ▸ hd
  · rw [List.getElem?_set_ne heq] at hs
    exact h.described hl' hs

end Truthful

/-- A record is entered as its members say, or its slot stays empty. -/
theorem slotTo_keeps_truthful (h : ∀ p, (memberTo r g depth p).Keeps (Truthful r g))
    (use : TypeUse) : (slotTo r g (depth + 1) use).Keeps (Truthful r g) := by
  intro c hc
  rw [slotTo_run]
  cases hk : c.lookup (use.identity c) with
  | some slot => exact hc
  | none =>
      have hreserved := hc.reserve hk
      have hmembers : (membersTo r g depth use c.slots.length).Keeps (Truthful r g) :=
        .bind (.written _) fun _ => .bind (.note Truthful.course _) fun _ => .mapM h _
      have hafter := hmembers _ hreserved
      have hextends := membersTo_extending (extendingTo r g depth).2.2.2 use c.slots.length
        (c.reserve (use.identity c)).2
      rcases hrun : (membersTo r g depth use c.slots.length).run
        (c.reserve (use.identity c)).2 with ⟨outcome, c'⟩
      rw [hrun] at hafter hextends
      cases outcome with
      | error fault =>
          simp only [entryTo_of_error hrun]
          exact hafter
      | ok members =>
          have hslot : (c.reserve (use.identity c)).2.lookup (use.identity c) =
              some c.slots.length := by rw [Context.lookup_reserve, if_pos rfl]
          obtain ⟨-, htitle, hreads⟩ :=
            membersTo_tells (tellsTo r g depth).2.2.2 use c.slots.length hrun
          have hd : Describes r g c'.lookup (use.identity c) ⟨g.declaredNameOf use, members⟩ := by
            cases use with
            | node id => exact ⟨rfl, hreads, htitle⟩
            | union leaves => exact ⟨rfl, hreads, trivial⟩
          simp only [entryTo_of_ok hrun hextends.reserved]
          exact hafter.fill (hextends.kept hslot) hd

end Classify

namespace Request
open Classify
variable {r : ComponentRules} {g : TypeGraph}

theorem truthful_afterAll (r : ComponentRules) (g : TypeGraph) (earlier : List Request) :
    Truthful r.toRules g (afterAll r g .fresh earlier) :=
  afterAll_keeps (I := Truthful r.toRules g) Truthful.course (fun _ => slotTo_keeps_truthful)
    (.fresh _ g) earlier

end Request

end PropSchema
