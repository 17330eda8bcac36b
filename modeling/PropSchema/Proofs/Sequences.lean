import Mathlib.Data.List.Forall2
import Mathlib.Data.List.Induction
import Mathlib.Data.List.Nodup
import Mathlib.Data.Option.Basic
import PropSchema.Text
/-!
Steps in a row, any of which may have no result, lists that are worked through element by element,
lists that correspond place by place, and lists sorted by texts.
-/
namespace PropSchema.Sequences
variable {α β γ : Type}

/-- All steps of a list have results if they are those of the elements, one by one. -/
theorem mapM_eq_some_iff {f : α → Option β} {as : List α} {bs : List β} :
    as.mapM f = some bs ↔ List.Forall₂ (fun a b => f a = some b) as bs := by
  induction as generalizing bs with
  | nil => cases bs <;> simp
  | cons a as ih =>
      rw [List.mapM_cons]
      cases ha : f a with
      | none => cases bs <;> simp [ha]
      | some b =>
          cases hrest : as.mapM f with
          | none =>
              cases bs with
              | nil => simp
              | cons b' bs => simp [ha, ← ih, hrest]
          | some bs' =>
              cases bs with
              | nil => simp
              | cons b' bs => simp [ha, ← ih, hrest]

/-- Steps in a row depend on what they do at the elements that there are. -/
theorem mapM_congr {m : Type → Type} [Monad m] [LawfulMonad m] {f f' : α → m β} {as : List α}
    (h : ∀ a ∈ as, f a = f' a) : as.mapM f = as.mapM f' := by
  induction as with
  | nil => rfl
  | cons a as ih =>
      rw [List.forall_mem_cons] at h
      rw [List.mapM_cons, List.mapM_cons, h.1, ih h.2]

theorem isSome_mapM_iff {f : α → Option β} {as : List α} :
    (as.mapM f).isSome ↔ ∀ a ∈ as, (f a).isSome := by
  induction as with
  | nil => simp
  | cons a as ih =>
      rw [List.mapM_cons, List.forall_mem_cons, ← ih]
      cases f a with
      | none => simp
      | some b => cases as.mapM f <;> simp

/-- Elements are taken as far as they pass, and no further. -/
theorem takeWhile_append {p : α → Bool} {as rest : List α} (has : ∀ a ∈ as, p a)
    (hrest : ∀ a ∈ rest.head?, p a = false) : (as ++ rest).takeWhile p = as := by
  rw [List.takeWhile_append_of_pos has]
  cases rest with
  | nil => rw [List.takeWhile_nil, List.append_nil]
  | cons a rest => rw [List.takeWhile_cons_of_neg (by simp [hrest a rfl]), List.append_nil]

/-- Steps for the elements of lists are steps for the elements of the joined list. -/
theorem forM_flatMap {m : Type → Type} [Monad m] [LawfulMonad m] {as : List α} {f : α → List β}
    {step : β → m PUnit} : forM (as.flatMap f) step = forM as fun a => forM (f a) step := by
  induction as with
  | nil => rfl
  | cons a as ih => rw [List.flatMap_cons, List.forM_append, ih, List.forM_cons]

/-- Steps that give nothing can be left out of what steps in a row give together. -/
theorem flatten_mapM_filter {m : Type → Type} [Monad m] [LawfulMonad m] {f : α → m (List β)}
    {p : α → Bool} (h : ∀ a, p a = false → f a = pure []) (as : List α) :
    List.flatten <$> as.mapM f = List.flatten <$> (as.filter p).mapM f := by
  induction as with
  | nil => rfl
  | cons a as ih =>
      have hrest : ∀ bs : List β, (List.flatten <$> as.mapM f >>= fun cs => pure (bs ++ cs)) =
          List.flatten <$> (as.filter p).mapM f >>= fun cs => pure (bs ++ cs) := fun bs => by rw [ih]
      simp only [map_eq_pure_bind, bind_assoc, pure_bind] at hrest ih ⊢
      cases hp : p a with
      | true =>
          rw [List.filter_cons_of_pos hp]
          simp only [List.mapM_cons, bind_assoc, pure_bind, List.flatten_cons, hrest]
      | false =>
          rw [List.filter_cons_of_neg (by simp [hp]), ← ih]
          simp only [List.mapM_cons, h a hp, bind_assoc, pure_bind, List.flatten_cons,
            List.nil_append]

/-- What is left out gives nothing. -/
theorem flatMap_filter {p : α → Bool} {f : α → List β} {l : List α}
    (h : ∀ a ∈ l, f a ≠ [] → p a = true) : (l.filter p).flatMap f = l.flatMap f := by
  induction l with
  | nil => rfl
  | cons a l ih =>
      obtain ⟨ha, hl⟩ := List.forall_mem_cons.mp h
      rw [List.flatMap_cons, ← ih hl]
      by_cases hp : p a = true
      · rw [List.filter_cons_of_pos hp, List.flatMap_cons]
      · rw [List.filter_cons_of_neg hp, not_ne_iff.mp fun hne => hp (ha hne), List.nil_append]

/-- What only one of some elements with different names gives is all that they give. -/
theorem flatMap_eq_of_nodup {f : α → List β} (key : α → γ) {l : List α} {a : α}
    (hnodup : (l.map key).Nodup) (ha : a ∈ l) (hothers : ∀ b ∈ l, key b ≠ key a → f b = []) :
    l.flatMap f = f a := by
  obtain ⟨before, after, rfl⟩ := List.append_of_mem ha
  rw [List.map_append, List.map_cons] at hnodup
  have hnil : ∀ b ∈ before ++ after, f b = [] := by
    intro b hb
    have hmem : b ∈ before ++ a :: after := by
      rcases List.mem_append.mp hb with hb | hb
      · exact List.mem_append_left _ hb
      · exact List.mem_append_right _ (List.mem_cons_of_mem _ hb)
    refine hothers b hmem fun heq => (List.nodup_middle.mp hnodup).notMem ?_
    rw [← heq, ← List.map_append]
    exact List.mem_map_of_mem hb
  rw [List.flatMap_append, List.flatMap_cons,
    List.flatMap_eq_nil_iff.mpr fun b hb => hnil b (List.mem_append_left _ hb),
    List.flatMap_eq_nil_iff.mpr fun b hb => hnil b (List.mem_append_right _ hb),
    List.nil_append, List.append_nil]

/-- Two steps in a row succeed by the success of both. -/
theorem ok_of_bind {ε : Type} {m : Except ε α} {f : α → Except ε β} {b : β} (h : m >>= f = .ok b) :
    ∃ a, m = .ok a ∧ f a = .ok b := by
  cases m with
  | ok a => exact ⟨a, rfl, h⟩
  | error fault => cases h

/-- What a step that may fail gave was given for an element. -/
theorem exists_of_mapM {ε : Type} {f : α → Except ε β} {as : List α} {bs : List β}
    (h : as.mapM f = .ok bs) {b : β} (hb : b ∈ bs) : ∃ a ∈ as, f a = .ok b := by
  induction as generalizing bs with
  | nil =>
      cases h
      nomatch hb
  | cons a as ih =>
      rw [List.mapM_cons] at h
      obtain ⟨first, ha, h⟩ := ok_of_bind h
      obtain ⟨rest, hrest, h⟩ := ok_of_bind h
      obtain rfl : first :: rest = bs := Except.ok.inj h
      rcases List.mem_cons.mp hb with rfl | hb
      · exact ⟨a, List.mem_cons_self, ha⟩
      · obtain ⟨a', hmem, ha'⟩ := ih hrest hb
        exact ⟨a', List.mem_cons_of_mem a hmem, ha'⟩

/-- What steps in a row give are results of the steps, one by one. -/
theorem forall₂_of_mapM {σ : Type} {f : α → StateT σ Option β} {as : List α} {bs : List β}
    {s s' : σ} (h : as.mapM f s = some (bs, s')) :
    List.Forall₂ (fun a b => ∃ before after, f a before = some (b, after)) as bs := by
  induction as generalizing s bs with
  | nil =>
      cases h
      exact .nil
  | cons a as ih =>
      rw [List.mapM_cons] at h
      obtain ⟨⟨b, s₁⟩, ha, h⟩ := Option.bind_eq_some_iff.mp h
      obtain ⟨⟨bs', s₂⟩, has, h⟩ := Option.bind_eq_some_iff.mp h
      cases h
      exact .cons ⟨s, s₁, ha⟩ (ih has)

/-- What is in the second of two lists in step has a partner in the first. -/
theorem exists_of_forall₂ {R : α → β → Prop} {as : List α} {bs : List β}
    (h : List.Forall₂ R as bs) {b : β} (hb : b ∈ bs) : ∃ a ∈ as, R a b := by
  induction h with
  | nil => cases hb
  | cons hab _ ih =>
      cases hb with
      | head => exact ⟨_, List.mem_cons_self, hab⟩
      | tail _ hb =>
          obtain ⟨a, ha, hr⟩ := ih hb
          exact ⟨a, List.mem_cons_of_mem _ ha, hr⟩

variable {R S : α → β → Prop}

theorem optionRel_imp (h : ∀ a b, R a b → S a b) {x : Option α} {y : Option β}
    (hxy : Option.Rel R x y) : Option.Rel S x y := by
  cases hxy with
  | some hr => exact .some (h _ _ hr)
  | none => exact .none

/-- Two lists that agree with a third agree through it. -/
theorem forall₂_common {T : γ → β → Prop} {as : List α} {bs : List β} {cs : List γ}
    (h : List.Forall₂ R as bs) (h' : List.Forall₂ T cs bs) :
    List.Forall₂ (fun a c => ∃ b, R a b ∧ T c b) as cs := by
  induction h generalizing cs with
  | nil =>
      cases h'
      exact .nil
  | cons hab _ ih =>
      cases h' with
      | cons hcb h' => exact .cons ⟨_, hab, hcb⟩ (ih h')

theorem optionRel_common {T : γ → β → Prop} {x : Option α} {y : Option β} {z : Option γ}
    (h : Option.Rel R x y) (h' : Option.Rel T z y) :
    Option.Rel (fun a c => ∃ b, R a b ∧ T c b) x z := by
  cases h with
  | some hr =>
      cases h' with
      | some ht => exact .some ⟨_, hr, ht⟩
  | none =>
      cases h'
      exact .none

/-- What is in step with two lists in step brings together what is in step with it. -/
theorem forall₂_through {δ : Type} {P : α → γ → Prop} {Q : β → δ → Prop} {T : γ → δ → Prop}
    (hstep : ∀ a b c d, R a b → P a c → Q b d → T c d) {as : List α} {bs : List β} {cs : List γ}
    {ds : List δ} (h : List.Forall₂ R as bs) (hp : List.Forall₂ P as cs)
    (hq : List.Forall₂ Q bs ds) : List.Forall₂ T cs ds := by
  induction h generalizing cs ds with
  | nil =>
      cases hp
      cases hq
      exact .nil
  | cons hab _ ih =>
      cases hp with
      | cons hac hp =>
          cases hq with
          | cons hbd hq => exact .cons (hstep _ _ _ _ hab hac hbd) (ih hp hq)

/-- What each element of either list has on its own can be told with the pairs. -/
theorem forall₂_and {P : α → Prop} {Q : β → Prop} {as : List α} {bs : List β}
    (h : List.Forall₂ R as bs) (hp : ∀ a ∈ as, P a) (hq : ∀ b ∈ bs, Q b) :
    List.Forall₂ (fun a b => R a b ∧ P a ∧ Q b) as bs := by
  induction h with
  | nil => exact .nil
  | cons hab _ ih =>
      rw [List.forall_mem_cons] at hp hq
      exact .cons ⟨hab, hp.1, hq.1⟩ (ih hp.2 hq.2)

/-- A list corresponds to itself with one element changed. -/
theorem forall₂_modify {R : α → α → Prop} (hrefl : ∀ a, R a a) {change : α → α} {as : List α}
    {i : Nat} (hi : ∀ a, as[i]? = some a → R a (change a)) : List.Forall₂ R as (as.modify i change) := by
  induction as generalizing i with
  | nil =>
      rw [List.modify_nil]
      exact .nil
  | cons a as ih =>
      cases i with
      | zero =>
          rw [List.modify_zero_cons]
          exact .cons (hi a rfl) (List.forall₂_same.mpr fun b _ => hrefl b)
      | succ i =>
          rw [List.modify_succ_cons]
          exact .cons (hrefl a) (ih hi)

/-- If one element of a list is changed, so is one result. -/
theorem eq_modify_of_forall₂ {f : α → Option β} {change : α → α} {change' : β → β} {as : List α}
    {bs bs' : List β} {i : Nat} (h : List.Forall₂ (fun a b => f a = some b) as bs)
    (h' : List.Forall₂ (fun a b => f a = some b) (as.modify i change) bs')
    (hi : ∀ a b b', as[i]? = some a → f a = some b → f (change a) = some b' → b' = change' b) :
    bs' = bs.modify i change' := by
  induction h generalizing i bs' with
  | nil =>
      rw [List.modify_nil] at h' ⊢
      cases h'
      rfl
  | @cons a b as bs hab hrest ih =>
      cases i with
      | zero =>
          rw [List.modify_zero_cons] at h' ⊢
          cases h' with
          | @cons _ b' _ bs' hab' hrest' =>
              have hsame : bs' = bs := by
                rw [← mapM_eq_some_iff] at hrest hrest'
                exact Option.some.inj (hrest'.symm.trans hrest)
              rw [hi a b b' rfl hab hab', hsame]
      | succ i =>
          rw [List.modify_succ_cons] at h' ⊢
          cases h' with
          | @cons _ b' _ bs' hab' hrest' =>
              rw [Option.some.inj (hab'.symm.trans hab), ih hrest' hi]

theorem all_eq {p : α → Bool} {q : β → Bool} (hpq : ∀ a b, R a b → p a = q b) {as : List α}
    {bs : List β} (h : List.Forall₂ R as bs) : as.all p = bs.all q := by
  induction h with
  | nil => rfl
  | cons hab _ ih => rw [List.all_cons, List.all_cons, hpq _ _ hab, ih]

theorem any_eq {p : α → Bool} {q : β → Bool} (hpq : ∀ a b, R a b → p a = q b) {as : List α}
    {bs : List β} (h : List.Forall₂ R as bs) : as.any p = bs.any q := by
  induction h with
  | nil => rfl
  | cons hab _ ih => rw [List.any_cons, List.any_cons, hpq _ _ hab, ih]

/-- What is one to one with another is in a list if the other is in the list in step. -/
theorem contains_eq [BEq α] [LawfulBEq α] [BEq β] [LawfulBEq β]
    (hinj : ∀ {a b a' b'}, R a b → R a' b' → (a = a' ↔ b = b')) {as : List α} {bs : List β}
    (h : List.Forall₂ R as bs) {a : α} {b : β} (hab : R a b) : as.contains a = bs.contains b := by
  induction h with
  | nil => rfl
  | @cons x y _ _ hxy _ ih =>
      have he : (a == x) = (b == y) := by
        rw [Bool.eq_iff_iff, beq_iff_eq, beq_iff_eq]
        exact hinj hab hxy
      rw [List.contains_cons, List.contains_cons, ih, he]

theorem find?_rel {p : α → Bool} {q : β → Bool} (hpq : ∀ a b, R a b → p a = q b) {as : List α}
    {bs : List β} (h : List.Forall₂ R as bs) : Option.Rel R (as.find? p) (bs.find? q) := by
  induction h with
  | nil => exact .none
  | @cons a b _ _ hab _ ih =>
      rw [List.find?_cons, List.find?_cons, hpq a b hab]
      cases q b with
      | true => exact .some hab
      | false => exact ih

/-- What tables in step have under keys that correspond, if those are one to one. -/
theorem lookup_rel {κ κ' : Type} [BEq κ] [LawfulBEq κ] [BEq κ'] [LawfulBEq κ']
    {P : κ → κ' → Prop} (hinj : ∀ {k k' l l'}, P k k' → P l l' → (k = l ↔ k' = l'))
    {table : List (κ × α)} {table' : List (κ' × β)}
    (h : List.Forall₂ (fun e e' => P e.1 e'.1 ∧ R e.2 e'.2) table table') {key : κ} {key' : κ'}
    (hkey : P key key') : Option.Rel R (table.lookup key) (table'.lookup key') := by
  induction h with
  | nil => exact .none
  | @cons e e' _ _ he _ ih =>
      have heq : (key == e.1) = (key' == e'.1) := by
        rw [Bool.eq_iff_iff, beq_iff_eq, beq_iff_eq]
        exact hinj hkey he.1
      rw [List.lookup_cons, List.lookup_cons, heq]
      cases key' == e'.1 with
      | true => exact .some he.2
      | false => exact ih

/-- What tables of the same values have under keys that correspond. -/
theorem lookup_eq {κ κ' : Type} [BEq κ] [LawfulBEq κ] [BEq κ'] [LawfulBEq κ']
    {P : κ → κ' → Prop} (hinj : ∀ {k k' l l'}, P k k' → P l l' → (k = l ↔ k' = l'))
    {table : List (κ × α)} {table' : List (κ' × α)}
    (h : List.Forall₂ (fun e e' => P e.1 e'.1 ∧ e.2 = e'.2) table table') {key : κ} {key' : κ'}
    (hkey : P key key') : table.lookup key = table'.lookup key' := by
  have hrel : Option.Rel Eq (table.lookup key) (table'.lookup key') := lookup_rel hinj h hkey
  generalize table.lookup key = x at hrel ⊢
  generalize table'.lookup key' = y at hrel ⊢
  cases hrel with
  | none => rfl
  | some he => rw [he]

theorem head?_rel {as : List α} {bs : List β} (h : List.Forall₂ R as bs) :
    Option.Rel R as.head? bs.head? := by
  cases h with
  | nil => exact .none
  | cons hab _ => exact .some hab

theorem isEmpty_eq {as : List α} {bs : List β} (h : List.Forall₂ R as bs) :
    as.isEmpty = bs.isEmpty := by
  cases h <;> rfl

/-- Where no key comes twice, an element is found by its key. -/
theorem find?_of_nodup {κ : Type} [BEq κ] [LawfulBEq κ] (key : α → κ) {as : List α}
    (h : (as.map key).Nodup) {a : α} (ha : a ∈ as) : as.find? (key · == key a) = some a := by
  induction as with
  | nil => nomatch ha
  | cons first rest ih =>
      rw [List.map_cons, List.nodup_cons] at h
      obtain rfl | hrest := List.mem_cons.mp ha
      · rw [List.find?_cons_of_pos (by simp)]
      · have hne : key first ≠ key a := fun heq => h.1 (heq ▸ List.mem_map_of_mem hrest)
        rw [List.find?_cons_of_neg (by simpa using hne)]
        exact ih h.2 hrest

section Added

/-- The elements of both lists, those of the second only where the first has none like them. -/
def addNew (same : α → α → Bool) (kept xs : List α) : List α :=
  xs.foldl (fun kept x => if kept.any (same · x) then kept else kept ++ [x]) kept

variable {same : α → α → Bool}

theorem addNew_append (kept xs ys : List α) :
    addNew same kept (xs ++ ys) = addNew same (addNew same kept xs) ys :=
  List.foldl_append

theorem addNew_concat (kept xs : List α) (x : α) :
    addNew same kept (xs ++ [x]) =
      if (addNew same kept xs).any (same · x) then addNew same kept xs
      else addNew same kept xs ++ [x] :=
  addNew_append kept xs [x]

/-- What is like an element of either list is like one that is kept. -/
theorem any_addNew (htrans : ∀ x y z, same x y → same y z → same x z)
    {kept xs : List α} {x y : α} (hx : x ∈ kept ∨ x ∈ xs) (hxy : same x y) :
    (addNew same kept xs).any (same · y) := by
  induction xs using List.reverseRecOn with
  | nil => exact List.any_eq_true.mpr ⟨x, hx.resolve_right List.not_mem_nil, hxy⟩
  | append_singleton xs z ih =>
      rw [addNew_concat]
      rw [List.mem_append, List.mem_singleton, ← or_assoc] at hx
      obtain hx | rfl := hx
      · have hany := ih hx
        split
        · exact hany
        · rw [List.any_append, hany, Bool.true_or]
      · split
        · next hany =>
            obtain ⟨w, hw, hwx⟩ := List.any_eq_true.mp hany
            exact List.any_eq_true.mpr ⟨w, hw, htrans _ _ _ hwx hxy⟩
        · rw [List.any_append, List.any_cons, hxy, Bool.true_or, Bool.or_true]

/-- To add what was collected elsewhere first is to add all of it. -/
theorem addNew_addNew (htrans : ∀ x y z, same x y → same y z → same x z)
    (kept xs ys : List α) :
    addNew same kept (addNew same xs ys) = addNew same (addNew same kept xs) ys := by
  induction ys using List.reverseRecOn with
  | nil => rfl
  | append_singleton ys y ih =>
      rw [addNew_concat, addNew_concat, ← ih]
      split
      · next hany =>
          obtain ⟨x, hx, hxy⟩ := List.any_eq_true.mp hany
          rw [if_pos (any_addNew htrans (.inr hx) hxy)]
      · rw [addNew_concat]

/-- A change that keeps what is alike commutes with leaving out what is there already. -/
theorem addNew_map {f : α → α} (hf : ∀ x y, same (f x) (f y) = same x y) (kept xs : List α) :
    addNew same (kept.map f) (xs.map f) = (addNew same kept xs).map f := by
  induction xs using List.reverseRecOn with
  | nil => rfl
  | append_singleton xs x ih =>
      have hany : ((addNew same kept xs).map f).any (same · (f x)) =
          (addNew same kept xs).any (same · x) := by
        rw [List.any_map]
        exact congrArg (List.any _) (funext fun y => hf y x)
      rw [List.map_append, List.map_singleton, addNew_concat, ih, hany, addNew_concat]
      split
      · rfl
      · rw [List.map_append, List.map_singleton]

/-- Nothing is added that is like what is there. -/
theorem addNew_of_any {kept xs : List α} (h : ∀ x ∈ xs, kept.any (same · x)) :
    addNew same kept xs = kept := by
  induction xs using List.reverseRecOn with
  | nil => rfl
  | append_singleton xs x ih =>
      rw [List.forall_mem_append] at h
      rw [addNew_concat, ih h.1, if_pos (h.2 x (List.mem_singleton_self x))]

/-- What each part has more than once may be left out first. -/
theorem addNew_flatMap (htrans : ∀ x y z, same x y → same y z → same x z) (kept : List α)
    (parts : List β) (f : β → List α) :
    addNew same kept (parts.flatMap fun b => addNew same [] (f b)) =
      addNew same kept (parts.flatMap f) := by
  induction parts generalizing kept with
  | nil => rfl
  | cons b parts ih =>
      rw [List.flatMap_cons, List.flatMap_cons, addNew_append, addNew_append,
        addNew_addNew htrans, ih]
      rfl

end Added

theorem textLe_iff {s t : String} : Text.le s t = true ↔ s ≤ t := by
  rw [Text.le, decide_eq_true_iff, String.not_lt]

/-- What is sorted by texts stands in their order. -/
theorem pairwise_mergeSort (text : α → String) (as : List α) :
    (as.mergeSort fun a b => Text.le (text a) (text b)).Pairwise fun a b => text a ≤ text b := by
  have hsorted : (as.mergeSort fun a b => Text.le (text a) (text b)).Pairwise
      fun a b => Text.le (text a) (text b) := by
    apply List.pairwise_mergeSort
    · exact fun _ _ _ hab hbc => textLe_iff.mpr
        (String.le_trans (textLe_iff.mp hab) (textLe_iff.mp hbc))
    · intro a b
      rw [Bool.or_eq_true, textLe_iff, textLe_iff]
      exact String.le_total _ _
  exact hsorted.imp textLe_iff.mp

end PropSchema.Sequences
