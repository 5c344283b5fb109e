import TagTree.Entries

/-!
# Registers

A register holds entries that are still being gathered, in the order in which their keys first
arrived. It knows the place of every key, so that neither look-up nor insertion searches. To insert
into a register does to its list of entries what `Entries.insert` does (`toList_insert`).
-/

namespace TagTree

variable {α : Type} {key : String}

/-- Entries in order of their keys' first arrival, with the place of every key. -/
structure Register (α : Type) where
  entries : Array (String × α)
  places : Std.TreeMap String Nat
  /-- A key has the place at which it stands among the entries. -/
  places_iff : ∀ (key : String) (place : Nat),
    places[key]? = some place ↔ (entries[place]?).map Prod.fst = some key

namespace Register

/-- The register without entries. -/
def empty : Register α :=
  ⟨#[], ∅, by simp⟩

instance : EmptyCollection (Register α) := ⟨empty⟩

/-- The value of a key. -/
def get? (register : Register α) (key : String) : Option α := do
  let place ← register.places[key]?
  let entry ← register.entries[place]?
  return entry.2

/-- The key has a value. -/
def contains (register : Register α) (key : String) : Bool :=
  register.places.contains key

/-- The entries in order. -/
def toList (register : Register α) : Entries α :=
  register.entries.toList

theorem places_iff_modify (register : Register α) (changed : Nat) (f : α → α) (key : String)
    (place : Nat) :
    register.places[key]? = some place ↔
      ((register.entries.modify changed fun entry => (entry.1, f entry.2))[place]?).map Prod.fst =
        some key := by
  rw [register.places_iff, Array.getElem?_modify]
  split <;> simp [Function.comp_def]

theorem places_iff_push (register : Register α) (fresh : register.places[key]? = none) (value : α)
    (other : String) (place : Nat) :
    (register.places.insert key register.entries.size)[other]? = some place ↔
      ((register.entries.push (key, value))[place]?).map Prod.fst = some other := by
  simp only [Std.TreeMap.getElem?_insert, Array.getElem?_push, Std.LawfulEqCmp.compare_eq_iff_eq]
  by_cases hp : place = register.entries.size
  · by_cases hk : key = other
    · simp [hp, hk]
    · have := register.places_iff other place
      simp_all
  · by_cases hk : key = other
    · have := register.places_iff key place
      simp_all [Ne.symm hp]
    · simp [hp, hk, register.places_iff]

/-- The register with the key's value set: in place if the key is present, at the end otherwise. -/
def insert (register : Register α) (key : String) (value : α) : Register α :=
  match h : register.places[key]? with
  | some place =>
    { entries := register.entries.modify place fun entry => (entry.1, value)
      places := register.places
      places_iff := register.places_iff_modify place fun _ => value }
  | none =>
    let place := register.entries.size
    { entries := register.entries.push (key, value)
      places := register.places.insert key place
      places_iff := register.places_iff_push h value }

/-- The register with the value of a key changed, if the key is present. -/
def modify (register : Register α) (key : String) (f : α → α) : Register α :=
  match register.places[key]? with
  | some place =>
    { entries := register.entries.modify place fun entry => (entry.1, f entry.2)
      places := register.places
      places_iff := register.places_iff_modify place f }
  | none => register

/-- The register that arises from inserting the pairs one after the other. -/
def ofPairs (pairs : List (String × α)) : Register α :=
  pairs.foldl (fun register pair => register.insert pair.1 pair.2) ∅

/-- A key has a place if and only if it stands there in the list of keys. -/
theorem place_iff (register : Register α) (key : String) (place : Nat) :
    register.places[key]? = some place ↔ register.toList.keys[place]? = some key := by
  rw [register.places_iff, toList, Entries.keys, List.getElem?_map, Array.getElem?_toList]

/-- A key without a place is in no entry. -/
theorem not_mem_keys {register : Register α} (h : register.places[key]? = none) :
    key ∉ register.toList.keys := by
  intro hmem
  obtain ⟨place, hplace⟩ := List.mem_iff_getElem?.mp hmem
  rw [← place_iff, h] at hplace
  cases hplace

/-- The place of a key is the only one that it has. -/
theorem place_le {register : Register α} {place : Nat} (h : register.places[key]? = some place)
    (other : Nat) (ho : register.toList.keys[other]? = some key) : place ≤ other := by
  rw [← place_iff, h] at ho
  exact Nat.le_of_eq (Option.some.inj ho)

/-- No two entries have the same key. -/
theorem nodup_keys (register : Register α) : register.toList.keys.Nodup := by
  refine List.pairwise_iff_getElem.mpr ?_
  intro first second hfirst hsecond hlt hsame
  have hplace := (register.place_iff _ first).mpr (List.getElem?_eq_getElem hfirst)
  have hother := (register.place_iff _ second).mpr (List.getElem?_eq_getElem hsecond)
  rw [hsame, hother] at hplace
  have := Option.some.inj hplace
  omega

/-- A look-up finds what the entries have. -/
theorem get?_eq (register : Register α) (key : String) :
    register.get? key = register.toList.get? key := by
  cases h : register.places[key]? with
  | none => simp [get?, h, Entries.get?_eq_none (not_mem_keys h)]
  | some place =>
    obtain ⟨⟨present, value⟩, hentry, rfl⟩ :=
      Option.map_eq_some_iff.mp ((register.places_iff key place).mp h)
    rw [Entries.get?_of_mem register.nodup_keys (Array.mem_of_getElem? hentry).val]
    simp [get?, h, hentry]

/-- Inserting into a register inserts into its entries. -/
theorem toList_insert (register : Register α) (key : String) (value : α) :
    (register.insert key value).toList = register.toList.insert key value := by
  unfold insert
  split
  · rename_i place h
    rw [Entries.insert_of_first ((place_iff ..).mp h) (place_le h)]
    simp [toList]
  · rename_i h
    rw [Entries.insert_of_not_mem (not_mem_keys h)]
    simp [toList]

/-- Changing the value of a key inserts the new value, if there is an old one. -/
theorem toList_modify (register : Register α) (key : String) (f : α → α) :
    (register.modify key f).toList =
      match register.toList.get? key with
      | some value => register.toList.insert key (f value)
      | none => register.toList := by
  unfold modify
  cases h : register.places[key]? with
  | none => simp [Entries.get?_eq_none (not_mem_keys h)]
  | some place =>
    obtain ⟨⟨present, value⟩, hentry, rfl⟩ :=
      Option.map_eq_some_iff.mp ((register.places_iff key place).mp h)
    have hinsert := Entries.insert_of_first ((place_iff ..).mp h) (place_le h) (f value)
    rw [Entries.get?_of_mem register.nodup_keys (Array.mem_of_getElem? hentry).val]
    show (register.entries.modify place fun entry => (entry.1, f entry.2)).toList =
      Entries.insert present (f value) register.toList
    rw [hinsert, Array.toList_modify, toList]
    refine List.ext_getElem? fun other => ?_
    rw [List.getElem?_modify, List.getElem?_modify]
    by_cases ho : place = other
    · subst ho
      simp [hentry]
    · simp [ho]

/-- A register has a key if and only if a look-up finds a value. -/
theorem contains_eq (register : Register α) (key : String) :
    register.contains key = (register.toList.get? key).isSome := by
  rw [← get?_eq, contains, Std.TreeMap.contains_eq_isSome_getElem?, get?]
  cases h : register.places[key]? with
  | none => rfl
  | some place =>
    obtain ⟨entry, hentry, _⟩ := Option.map_eq_some_iff.mp ((register.places_iff key place).mp h)
    simp [hentry]

end Register

/-- The entries that arise from inserting the pairs one after the other. -/
def Entries.ofPairs {α : Type} (pairs : List (String × α)) : Entries α :=
  (Register.ofPairs pairs).toList

/-- The pairs are inserted from front to back. -/
theorem Entries.ofPairs_eq (pairs : List (String × α)) :
    ofPairs pairs = pairs.foldl (fun entries pair => Entries.insert pair.1 pair.2 entries) [] := by
  suffices h : ∀ register : Register α,
      (pairs.foldl (fun register pair => register.insert pair.1 pair.2) register).toList =
        pairs.foldl (fun entries pair => Entries.insert pair.1 pair.2 entries) register.toList by
    exact h ∅
  intro register
  induction pairs generalizing register with
  | nil => rfl
  | cons pair rest ih => rw [List.foldl_cons, List.foldl_cons, ih, Register.toList_insert]

/-- Pairs with distinct keys are the entries. -/
theorem Entries.ofPairs_of_nodup {pairs : List (String × α)} (h : (Entries.keys pairs).Nodup) :
    ofPairs pairs = pairs := by
  suffices hinsert : ∀ entries : Entries α, (Entries.keys (entries ++ pairs)).Nodup →
      pairs.foldl (fun entries pair => Entries.insert pair.1 pair.2 entries) entries =
        entries ++ pairs by
    rw [ofPairs_eq]
    exact hinsert [] h
  clear h
  induction pairs with
  | nil => exact fun entries _ => (List.append_nil entries).symm
  | cons pair rest ih =>
    intro entries h
    have hsplit : entries ++ pair :: rest = (entries ++ [pair]) ++ rest := by simp
    have hfresh : pair.1 ∉ Entries.keys entries := by
      rw [Entries.keys, List.map_append, List.map_cons] at h
      exact fun hmem => (List.nodup_append.mp h).2.2 _ hmem _ (List.mem_cons_self ..) rfl
    rw [List.foldl_cons, insert_of_not_mem hfresh, hsplit]
    rw [hsplit] at h
    exact ih _ h

/-- The entries that arise from pairs are among them. -/
theorem Entries.mem_of_mem_ofPairs {pairs : List (String × α)} {entry : String × α}
    (h : entry ∈ ofPairs pairs) : entry ∈ pairs := by
  suffices hinsert : ∀ entries : Entries α,
      entry ∈ pairs.foldl (fun entries pair => Entries.insert pair.1 pair.2 entries) entries →
        entry ∈ entries ∨ entry ∈ pairs by
    rw [ofPairs_eq] at h
    exact (hinsert [] h).resolve_left List.not_mem_nil
  clear h
  induction pairs with
  | nil => exact fun entries h => .inl h
  | cons pair rest ih =>
    intro entries h
    rcases ih _ h with hmem | hmem
    · rcases mem_of_mem_insert hmem with rfl | hold
      · exact .inr (List.mem_cons_self ..)
      · exact .inl hold
    · exact .inr (List.mem_cons_of_mem _ hmem)

end TagTree
