import Std.Data.TreeMap

/-!
# Ordered entries

Attributes, objects and properties keep their entries in the order in which the keys first arrived:
to insert a key that is present replaces its value and keeps its place. Where many keys are looked
up in the same entries, an index gives the same answers (`getElem?_index`).
-/

namespace TagTree

/-- Entries in order of their keys' first arrival. -/
abbrev Entries (α : Type) := List (String × α)

namespace Entries

variable {α : Type}

/-- The value of a key. -/
def get? (key : String) : Entries α → Option α
  | [] => none
  | (present, value) :: rest => if present = key then some value else get? key rest

/-- The entries with the key's value set: in place if the key is present, at the end otherwise. -/
def insert (key : String) (value : α) : Entries α → Entries α
  | [] => [(key, value)]
  | (present, old) :: rest =>
    if present = key then (present, value) :: rest else (present, old) :: insert key value rest

/-- The values by their keys, for repeated look-up. -/
def index (entries : Entries α) : Std.TreeMap String α :=
  entries.foldr (fun entry index => index.insert entry.1 entry.2) ∅

/-- The keys in order. -/
def keys (entries : Entries α) : List String :=
  entries.map Prod.fst

variable {key : String} {value : α} {entries : Entries α}

/-- A value that is found belongs to its key. -/
theorem mem_of_get? (h : entries.get? key = some value) : (key, value) ∈ entries := by
  induction entries with
  | nil => simp [get?] at h
  | cons entry rest ih =>
    obtain ⟨present, old⟩ := entry
    by_cases hp : present = key
    · simp only [get?, hp, if_true, Option.some.injEq] at h
      simp [hp, h]
    · simp only [get?, hp, if_false] at h
      exact List.mem_cons_of_mem _ (ih h)

/-- The index finds what the entries have. -/
@[simp] theorem getElem?_index (entries : Entries α) (key : String) :
    entries.index[key]? = entries.get? key := by
  induction entries with
  | nil => simp [index, get?]
  | cons entry rest ih =>
    obtain ⟨present, value⟩ := entry
    rw [index] at ih
    simp only [index, List.foldr_cons, Std.TreeMap.getElem?_insert, get?, ih,
      Std.LawfulEqCmp.compare_eq_iff_eq]

/-- The key just inserted has its new value. -/
@[simp] theorem get?_insert_self (key : String) (value : α) (entries : Entries α) :
    get? key (insert key value entries) = some value := by
  induction entries with
  | nil => simp [insert, get?]
  | cons entry rest ih =>
    obtain ⟨present, old⟩ := entry
    by_cases h : present = key <;> simp [insert, get?, h, ih]

/-- Inserting a key leaves the values of the others. -/
theorem get?_insert_of_ne {other : String} (h : key ≠ other) (value : α) (entries : Entries α) :
    get? other (insert key value entries) = get? other entries := by
  induction entries with
  | nil => simp [insert, get?, h]
  | cons entry rest ih =>
    obtain ⟨present, old⟩ := entry
    by_cases hp : present = key
    · subst hp; simp [insert, get?, h]
    · simp only [insert, hp, if_false, get?, ih]

/-- The later of two insertions of a key counts. -/
@[simp] theorem insert_insert_self (key : String) (first second : α) (entries : Entries α) :
    insert key second (insert key first entries) = insert key second entries := by
  induction entries with
  | nil => simp [insert]
  | cons entry rest ih =>
    obtain ⟨present, old⟩ := entry
    by_cases h : present = key <;> simp [insert, h, ih]

/-- An entry after an insertion is the new one, or was there before. -/
theorem mem_of_mem_insert {entry : String × α}
    (h : entry ∈ insert key value entries) : entry = (key, value) ∨ entry ∈ entries := by
  induction entries with
  | nil => exact .inl (List.mem_singleton.mp h)
  | cons first rest ih =>
    obtain ⟨present, old⟩ := first
    by_cases hp : present = key
    · rw [insert, if_pos hp] at h
      rcases List.mem_cons.mp h with rfl | h
      · exact .inl (by rw [hp])
      · exact .inr (List.mem_cons_of_mem _ h)
    · rw [insert, if_neg hp] at h
      rcases List.mem_cons.mp h with rfl | h
      · exact .inr (List.mem_cons_self ..)
      · exact (ih h).imp_right (List.mem_cons_of_mem _)

/-- The keys after an insertion: unchanged if the key was present, else with the key at the end. -/
theorem keys_insert (key : String) (value : α) (entries : Entries α) :
    keys (insert key value entries) =
      if key ∈ keys entries then keys entries else keys entries ++ [key] := by
  induction entries with
  | nil => simp [insert, keys]
  | cons entry rest ih =>
    obtain ⟨present, old⟩ := entry
    simp only [keys, List.map_cons] at ih ⊢
    by_cases hp : present = key
    · simp [insert, hp]
    · have hp' : ¬ key = present := fun h => hp h.symm
      by_cases hk : key ∈ rest.map Prod.fst
      · simp [insert, hp, ih, hk]
      · simp [insert, hp, hp', ih, hk]

/-- An entry has a key if and only if the key has a value. -/
theorem mem_keys_iff : key ∈ entries.keys ↔ (entries.get? key).isSome = true := by
  induction entries with
  | nil => simp [keys, get?]
  | cons entry rest ih =>
    by_cases hp : entry.1 = key
    · simp [keys, get?, hp]
    · simpa [keys, get?, hp, Ne.symm hp] using ih

/-- A key that no entry has has no value. -/
theorem get?_eq_none (h : key ∉ entries.keys) : entries.get? key = none := by
  simpa [mem_keys_iff] using h

theorem get?_of_mem (h : entries.keys.Nodup) {entry : String × α}
    (hmem : entry ∈ entries) : entries.get? entry.1 = some entry.2 := by
  induction entries with
  | nil => cases hmem
  | cons first rest ih =>
    obtain ⟨hfirst, hrest⟩ := List.nodup_cons.mp h
    rcases List.mem_cons.mp hmem with rfl | hmem
    · rw [get?, if_pos rfl]
    · have hne : first.1 ≠ entry.1 := fun heq => hfirst (heq ▸ List.mem_map_of_mem hmem)
      rw [get?, if_neg hne, ih hrest hmem]

/-- A key that no entry has goes to the end. -/
theorem insert_of_not_mem (h : key ∉ entries.keys)
    (value : α) : insert key value entries = entries ++ [(key, value)] := by
  induction entries with
  | nil => rfl
  | cons entry rest ih =>
    simp only [keys, List.map_cons, List.mem_cons, not_or] at h
    simp [insert, Ne.symm h.1, ih h.2]

/-- A key that is present keeps its place. -/
theorem insert_of_first {place : Nat} (h : entries.keys[place]? = some key)
    (first : ∀ other, entries.keys[other]? = some key → place ≤ other) (value : α) :
    insert key value entries = entries.modify place fun entry => (entry.1, value) := by
  induction entries generalizing place with
  | nil => simp [keys] at h
  | cons entry rest ih =>
    by_cases hp : entry.1 = key
    · have := first 0 (by simp [keys, hp])
      obtain rfl : place = 0 := by omega
      simp [insert, hp]
    · cases place with
      | zero => simp_all [keys]
      | succ place =>
        simp only [insert, hp, if_false, List.modify_succ_cons]
        exact congrArg (entry :: ·) (ih (by simpa [keys] using h) fun other ho => by
          have := first (other + 1) (by simpa [keys] using ho)
          omega)

/-- Distinct keys stay distinct. -/
theorem nodup_keys_insert (h : entries.keys.Nodup) : (insert key value entries).keys.Nodup := by
  rw [keys_insert]
  split
  · exact h
  · rename_i hnew
    refine List.nodup_append.mpr ⟨h, List.pairwise_singleton _ _, ?_⟩
    rintro first hfirst _ hlast rfl
    rw [List.mem_singleton] at hlast
    exact hnew (hlast ▸ hfirst)

end Entries

end TagTree
