/-!
# Ordered dictionaries

A dictionary that keeps the order in which its keys first came is a list of
pairs.  `insert` gives a known key a new value in its old place and puts a new
key at the end, so it never makes a key occur twice.  `find?` takes the first
entry of a key.

That the keys are distinct is a property and not part of the type.  Everything
here is defined for any list of pairs.
-/

namespace DataShape

/-- The entries of a dictionary in order. -/
abbrev Entries (α : Type) := List (String × α)

namespace Entries

variable {α : Type}

/-- The keys in order. -/
def keys (entries : Entries α) : List String := entries.map Prod.fst

/-- What is stored under a key. -/
def find? (key : String) : Entries α → Option α
  | [] => none
  | (k, a) :: rest => if k = key then some a else find? key rest

/-- Whether a key occurs. -/
def has (entries : Entries α) (key : String) : Bool := (entries.find? key).isSome

/-- Store a value under a key. -/
def insert (key : String) (a : α) : Entries α → Entries α
  | [] => [(key, a)]
  | (k, b) :: rest => if k = key then (k, a) :: rest else (k, b) :: insert key a rest

/-- The dictionary made by storing pairs one after the other. -/
def ofPairs (pairs : List (String × α)) : Entries α :=
  pairs.foldl (fun entries (key, a) => entries.insert key a) []

/-! ## Keys and lookups -/

@[simp] theorem find?_nil (key : String) : find? key ([] : Entries α) = none := rfl

@[simp] theorem find?_cons (key k : String) (a : α) (rest : Entries α) :
    find? key ((k, a) :: rest) = if k = key then some a else find? key rest := rfl

/-- A key is found exactly if it is one of the keys. -/
theorem has_iff_mem_keys (key : String) (entries : Entries α) :
    entries.has key = true ↔ key ∈ keys entries := by
  induction entries with
  | nil => simp [has, keys]
  | cons entry rest ih =>
      obtain ⟨k, a⟩ := entry
      simp only [has, find?_cons, keys, List.map_cons, List.mem_cons] at ih ⊢
      by_cases h : k = key
      · simp [h]
      · rw [if_neg h, ih]
        exact ⟨Or.inr, fun hk => hk.resolve_left (Ne.symm h)⟩

theorem find?_eq_none_iff {key : String} {entries : Entries α} :
    entries.find? key = none ↔ key ∉ keys entries := by
  rw [← has_iff_mem_keys, has, Bool.not_eq_true, Option.isSome_eq_false_iff,
    Option.isNone_iff_eq_none]

/-- What is found under a key is stored under it. -/
theorem mem_of_find? {key : String} {a : α} {entries : Entries α}
    (found : entries.find? key = some a) : (key, a) ∈ entries := by
  induction entries with
  | nil => simp at found
  | cons entry rest ih =>
      obtain ⟨k, b⟩ := entry
      rw [find?_cons] at found
      by_cases h : k = key
      · rw [if_pos h] at found
        simp [h, Option.some.inj found]
      · rw [if_neg h] at found
        exact .tail _ (ih found)

/-- If no key occurs twice, then everything that is stored is found. -/
theorem find?_eq_some_iff {key : String} {a : α} {entries : Entries α}
    (distinct : (keys entries).Nodup) : entries.find? key = some a ↔ (key, a) ∈ entries := by
  refine ⟨mem_of_find?, ?_⟩
  induction entries with
  | nil => intro mem; cases mem
  | cons entry rest ih =>
      obtain ⟨k, b⟩ := entry
      obtain ⟨fresh, distinct⟩ := List.nodup_cons.1 distinct
      intro mem
      rw [find?_cons]
      rcases List.mem_cons.1 mem with eq | mem
      · cases eq
        exact if_pos rfl
      · rw [if_neg fun h => fresh (List.mem_map.2 ⟨_, mem, h.symm⟩)]
        exact ih distinct mem

/-- Storing under a known key keeps the keys, and a new key comes last. -/
theorem keys_insert (key : String) (a : α) (entries : Entries α) :
    keys (insert key a entries) = if key ∈ keys entries then keys entries
      else keys entries ++ [key] := by
  induction entries with
  | nil => rfl
  | cons entry rest ih =>
      obtain ⟨k, b⟩ := entry
      by_cases h : k = key
      · subst h
        simp [insert, keys]
      · have hk : ¬ key = k := fun e => h e.symm
        simp only [keys] at ih
        by_cases hm : key ∈ List.map Prod.fst rest <;>
          simp [insert, keys, h, hk, hm, ih]

/-! ## Storing several pairs -/

theorem insert_of_not_mem_keys {key : String} {a : α} {entries : Entries α}
    (fresh : key ∉ keys entries) : insert key a entries = entries ++ [(key, a)] := by
  induction entries with
  | nil => rfl
  | cons entry rest ih =>
      have fresh : key ≠ entry.1 ∧ key ∉ keys rest := by simpa [keys] using fresh
      rw [insert, if_neg (Ne.symm fresh.1), ih fresh.2, List.cons_append]

/-- Store a pair. -/
def store (entries : Entries α) (pair : String × α) : Entries α := insert pair.1 pair.2 entries

/-- Pairs stored behind entries stay as they are if all keys are distinct, and else
some are lost. -/
theorem foldl_store_cases (pairs : List (String × α)) (entries : Entries α)
    (distinct : (keys entries).Nodup) :
    ((keys (entries ++ pairs)).Nodup ∧ pairs.foldl store entries = entries ++ pairs) ∨
      (¬ (keys (entries ++ pairs)).Nodup ∧
        (pairs.foldl store entries).length < entries.length + pairs.length) := by
  induction pairs generalizing entries with
  | nil => exact .inl (by simpa using distinct)
  | cons pair pairs ih =>
      have stored : keys (store entries pair) = _ := keys_insert pair.1 pair.2 entries
      rw [List.foldl_cons, List.length_cons]
      by_cases known : pair.1 ∈ keys entries
      · rw [if_pos known] at stored
        have length : (store entries pair).length = entries.length := by
          simpa [keys] using congrArg List.length stored
        have twice : ¬ (keys (entries ++ pair :: pairs)).Nodup := by
          rw [keys, List.map_append]
          exact fun nodup => (List.nodup_append.1 nodup).2.2 _ known pair.1 (by simp) rfl
        right
        rcases ih _ (stored ▸ distinct) with ⟨-, eq⟩ | ⟨-, less⟩
        · rw [eq, List.length_append]
          exact ⟨twice, by omega⟩
        · exact ⟨twice, by omega⟩
      · rw [if_neg known] at stored
        have fresh : store entries pair = entries ++ [pair] := insert_of_not_mem_keys known
        have distinct : (keys (entries ++ [pair])).Nodup := by
          rw [← fresh, stored]
          exact List.nodup_append.2 ⟨distinct, by simp, fun k mem _ single eq =>
            known (List.mem_singleton.1 single ▸ eq ▸ mem)⟩
        simpa [fresh, Nat.add_assoc, Nat.add_comm 1] using ih _ distinct

/-- Pairs are stored as they are if their keys are distinct, and else some are lost. -/
theorem ofPairs_cases (pairs : List (String × α)) :
    ((keys pairs).Nodup ∧ ofPairs pairs = pairs) ∨
      (¬ (keys pairs).Nodup ∧ (ofPairs pairs).length < pairs.length) := by
  have cases := foldl_store_cases pairs [] List.nodup_nil
  rwa [List.nil_append, List.length_nil, Nat.zero_add] at cases

theorem ofPairs_of_nodup {pairs : List (String × α)} (distinct : (keys pairs).Nodup) :
    ofPairs pairs = pairs := by
  rcases ofPairs_cases pairs with ⟨-, stored⟩ | ⟨twice, -⟩
  · exact stored
  · exact absurd distinct twice

end Entries

end DataShape
