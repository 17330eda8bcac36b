/-!
Lists of keys with values that are filled one by one. A key stands at the place where it was put
first and has the value that was put last.
-/
namespace PropSchema.Entries

variable {α β : Type} [BEq α]

/-- The entries with a value put under a key: in place if the key is there, else at the end. -/
def put (key : α) (value : β) : List (α × β) → List (α × β)
  | [] => [(key, value)]
  | (k, v) :: rest => if k == key then (k, value) :: rest else (k, v) :: put key value rest

/-- The entries that putting pairs one after the other gives. -/
def ofPairs (pairs : List (α × β)) : List (α × β) :=
  pairs.foldl (fun entries (key, value) => put key value entries) []

def erase (key : α) (entries : List (α × β)) : List (α × β) :=
  entries.filter fun (k, _) => !(k == key)

def keys (entries : List (α × β)) : List α := entries.map Prod.fst

theorem lookup_put_self [LawfulBEq α] (key : α) (value : β) (entries : List (α × β)) :
    (put key value entries).lookup key = some value := by
  induction entries with
  | nil => simp [put]
  | cons entry rest ih =>
    obtain ⟨k, v⟩ := entry
    by_cases h : k = key
    · simp [put, h]
    · have h' : (key == k) = false := beq_false_of_ne (Ne.symm h)
      simp [put, h, List.lookup_cons, h', ih]

theorem lookup_put_of_ne [LawfulBEq α] {key other : α} (h : other ≠ key) (value : β)
    (entries : List (α × β)) : (put key value entries).lookup other = entries.lookup other := by
  have h' : (other == key) = false := beq_false_of_ne h
  induction entries with
  | nil => simp [put, List.lookup_cons, h']
  | cons entry rest ih =>
    obtain ⟨k, v⟩ := entry
    by_cases hk : k = key
    · simp [put, hk, List.lookup_cons, h']
    · simp [put, hk, List.lookup_cons, ih]

end PropSchema.Entries
