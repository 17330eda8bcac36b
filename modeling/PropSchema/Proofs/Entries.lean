import Mathlib.Data.List.Nodup
import PropSchema.Entries
/-!
Lists of entries whose keys differ. Such a list is a finite map: what a key has does not depend on
the order of the entries.
-/
namespace PropSchema.Entries
variable {α β γ : Type} [BEq α] [LawfulBEq α] {key : α} {value : β} {entries entries' : List (α × β)}

theorem mem_of_lookup (h : entries.lookup key = some value) : (key, value) ∈ entries := by
  induction entries with
  | nil => nomatch h
  | cons entry rest ih =>
      obtain ⟨k, v⟩ := entry
      rw [List.lookup_cons] at h
      by_cases hk : key = k
      · subst hk
        rw [beq_self_eq_true] at h
        cases h
        exact List.mem_cons_self
      · rw [beq_false_of_ne hk] at h
        exact List.mem_cons_of_mem _ (ih h)

theorem lookup_of_mem (hnodup : (keys entries).Nodup) (h : (key, value) ∈ entries) :
    entries.lookup key = some value := by
  induction entries with
  | nil => nomatch h
  | cons entry rest ih =>
      obtain ⟨k, v⟩ := entry
      obtain ⟨hfresh, hnodup⟩ := List.nodup_cons.mp hnodup
      rw [List.lookup_cons]
      rcases List.mem_cons.mp h with heq | h
      · cases heq
        rw [beq_self_eq_true]
      · have hmem : key ∈ keys rest := List.mem_map.mpr ⟨_, h, rfl⟩
        have hne : key ≠ k := fun heq => hfresh (heq ▸ hmem)
        rw [beq_false_of_ne hne]
        exact ih hnodup h

theorem lookup_eq_some_iff (hnodup : (keys entries).Nodup) :
    entries.lookup key = some value ↔ (key, value) ∈ entries :=
  ⟨mem_of_lookup, lookup_of_mem hnodup⟩

theorem lookup_perm (h : entries.Perm entries') (hnodup : (keys entries).Nodup) :
    entries.lookup key = entries'.lookup key := by
  have hnodup' : (keys entries').Nodup := (h.map Prod.fst).nodup_iff.mp hnodup
  refine Option.ext fun value => ?_
  rw [lookup_eq_some_iff hnodup, lookup_eq_some_iff hnodup', h.mem_iff]

theorem lookup_filter (p : α → Bool) (key : α) (entries : List (α × β)) :
    (entries.filter fun entry => p entry.1).lookup key =
      if p key then entries.lookup key else none := by
  induction entries with
  | nil => exact (ite_self none).symm
  | cons entry rest ih =>
      obtain ⟨k, v⟩ := entry
      rw [List.filter_cons, List.lookup_cons]
      dsimp only
      by_cases hk : key = k
      · subst hk
        rw [beq_self_eq_true]
        cases hp : p key with
        | true => rw [if_pos rfl, if_pos rfl, List.lookup_cons_self]
        | false => rw [if_neg Bool.false_ne_true, if_neg Bool.false_ne_true, ih, hp]; rfl
      · rw [beq_false_of_ne hk, ← ih]
        cases p k with
        | true => rw [if_pos rfl, List.lookup_cons, beq_false_of_ne hk]
        | false => rw [if_neg Bool.false_ne_true]

theorem mem_keys_iff : key ∈ keys entries ↔ (entries.lookup key).isSome := by
  rw [List.lookup_isSome_iff, keys, List.mem_map]
  exact exists_congr fun entry => and_congr_right fun _ => by rw [beq_iff_eq, eq_comm]

omit [LawfulBEq α] in
theorem lookup_map (f : β → γ) (key : α) (entries : List (α × β)) :
    (entries.map fun entry => (entry.1, f entry.2)).lookup key = (entries.lookup key).map f := by
  induction entries with
  | nil => rfl
  | cons entry rest ih =>
      rw [List.map_cons, List.lookup_cons, List.lookup_cons, ih]
      split <;> rfl

omit [LawfulBEq α] in
theorem put_map (f : β → γ) (key : α) (value : β) (entries : List (α × β)) :
    put key (f value) (entries.map fun entry => (entry.1, f entry.2)) =
      (put key value entries).map fun entry => (entry.1, f entry.2) := by
  induction entries with
  | nil => rfl
  | cons entry rest ih =>
      rw [List.map_cons, put, put, ih]
      split <;> rfl

omit [LawfulBEq α] in
theorem ofPairs_map (f : β → γ) (pairs : List (α × β)) :
    ofPairs (pairs.map fun pair => (pair.1, f pair.2)) =
      (ofPairs pairs).map fun entry => (entry.1, f entry.2) := by
  have hfold : ∀ entries : List (α × β),
      (pairs.map fun pair => (pair.1, f pair.2)).foldl
          (fun entries pair => put pair.1 pair.2 entries)
          (entries.map fun entry => (entry.1, f entry.2)) =
        (pairs.foldl (fun entries pair => put pair.1 pair.2 entries) entries).map
          fun entry => (entry.1, f entry.2) := by
    induction pairs with
    | nil => exact fun _ => rfl
    | cons pair pairs ih =>
        intro entries
        rw [List.map_cons, List.foldl_cons, List.foldl_cons]
        dsimp only
        rw [put_map, ih]
  exact hfold []

theorem put_of_notMem (h : key ∉ keys entries) (value : β) :
    put key value entries = entries ++ [(key, value)] := by
  induction entries with
  | nil => rfl
  | cons entry rest ih =>
      obtain ⟨k, v⟩ := entry
      have hne : k ≠ key := fun heq => h (heq ▸ List.mem_cons_self)
      have hrest : key ∉ keys rest := fun hmem => h (List.mem_cons_of_mem k hmem)
      rw [put, if_neg (mt beq_iff_eq.mp hne), ih hrest]
      rfl

theorem keys_put_of_mem (h : key ∈ keys entries) (value : β) :
    keys (put key value entries) = keys entries := by
  induction entries with
  | nil => nomatch h
  | cons entry rest ih =>
      obtain ⟨k, v⟩ := entry
      by_cases hk : k = key
      · rw [put, if_pos (beq_iff_eq.mpr hk)]
        rfl
      · rw [put, if_neg (mt beq_iff_eq.mp hk)]
        have hrest := (List.mem_cons.mp h).resolve_left (Ne.symm hk)
        exact congrArg (k :: ·) (ih hrest)

/-- Putting a value keeps the keys apart. -/
theorem nodup_put (h : (keys entries).Nodup) (key : α) (value : β) :
    (keys (put key value entries)).Nodup := by
  by_cases hmem : key ∈ keys entries
  · rw [keys_put_of_mem hmem]
    exact h
  · rw [put_of_notMem hmem, keys, List.map_append]
    refine List.nodup_append.mpr ⟨h, List.nodup_singleton key, fun k hk l hl heq => hmem ?_⟩
    have hkey : l = key := List.mem_singleton.mp hl
    rw [← hkey, ← heq]
    exact hk

theorem mem_put {entry : α × β} (h : entry ∈ put key value entries) :
    entry = (key, value) ∨ entry ∈ entries := by
  induction entries with
  | nil => exact .inl (List.mem_singleton.mp h)
  | cons first rest ih =>
      obtain ⟨k, v⟩ := first
      by_cases hk : k = key
      · rw [put, if_pos (beq_iff_eq.mpr hk), hk] at h
        exact (List.mem_cons.mp h).imp_right (List.mem_cons_of_mem _)
      · rw [put, if_neg (mt beq_iff_eq.mp hk)] at h
        rcases List.mem_cons.mp h with h | h
        · exact .inr (h ▸ List.mem_cons_self)
        · exact (ih h).imp_right (List.mem_cons_of_mem _)

theorem nodup_foldl_put (pairs : List (α × β)) (h : (keys entries).Nodup) :
    (keys (pairs.foldl (fun entries (key, value) => put key value entries) entries)).Nodup := by
  induction pairs generalizing entries with
  | nil => exact h
  | cons pair pairs ih => exact ih (nodup_put h pair.1 pair.2)

theorem nodup_ofPairs (pairs : List (α × β)) : (keys (ofPairs pairs)).Nodup :=
  nodup_foldl_put pairs List.nodup_nil

theorem mem_foldl_put (pairs : List (α × β)) {entry : α × β}
    (h : entry ∈ pairs.foldl (fun entries (key, value) => put key value entries) entries) :
    entry ∈ pairs ∨ entry ∈ entries := by
  induction pairs generalizing entries with
  | nil => exact .inr h
  | cons pair pairs ih =>
      rcases ih h with h | h
      · exact .inl (List.mem_cons_of_mem pair h)
      · rcases mem_put h with rfl | h
        · exact .inl List.mem_cons_self
        · exact .inr h

theorem mem_of_mem_ofPairs {pairs : List (α × β)} {entry : α × β} (h : entry ∈ ofPairs pairs) :
    entry ∈ pairs :=
  (mem_foldl_put pairs h).resolve_right List.not_mem_nil

/-- Pairs of different keys are kept as they are. -/
theorem ofPairs_of_nodup {pairs : List (α × β)} (h : (keys pairs).Nodup) :
    ofPairs pairs = pairs := by
  have hfold : ∀ before : List (α × β), (keys (before ++ pairs)).Nodup →
      pairs.foldl (fun entries (key, value) => put key value entries) before = before ++ pairs := by
    clear h
    induction pairs with
    | nil => exact fun before _ => (List.append_nil before).symm
    | cons pair pairs ih =>
        intro before hnodup
        obtain ⟨key, value⟩ := pair
        have hfresh : key ∉ keys before := by
          rw [keys, List.map_append, List.nodup_append] at hnodup
          exact fun hmem => hnodup.2.2 _ hmem _ List.mem_cons_self rfl
        rw [List.append_cons] at hnodup
        rw [List.foldl_cons]
        dsimp only
        rw [put_of_notMem hfresh, ih _ hnodup, List.append_assoc]
        rfl
  exact hfold [] h

end PropSchema.Entries
