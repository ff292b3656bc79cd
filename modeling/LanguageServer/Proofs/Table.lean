set_option autoImplicit false

/-! # Tables

A table is a list of entries, each a key with its value, in which the first entry of a key counts.
These are the ways in which tables change: an entry is put at the end, all entries of a key are
taken out, or values are replaced where they stand. -/

namespace LanguageServer

variable {κ α : Type} [DecidableEq κ]

theorem mem_keys_iff {table : List (κ × α)} {key : κ} :
    key ∈ table.map Prod.fst ↔ table.lookup key ≠ none := by
  rw [Ne, List.lookup_eq_none_iff]
  constructor
  · intro hkey hnone
    obtain ⟨entry, hentry, rfl⟩ := List.mem_map.1 hkey
    simpa using hnone entry hentry
  · intro hsome
    simp only [Classical.not_forall, bne_iff_ne, ne_eq, Decidable.not_not] at hsome
    obtain ⟨entry, hentry, rfl⟩ := hsome
    exact List.mem_map_of_mem hentry

theorem lookup_eq_some_iff_mem {table : List (κ × α)} (hnodup : (table.map Prod.fst).Nodup)
    {key : κ} {value : α} : table.lookup key = some value ↔ (key, value) ∈ table := by
  induction table with
  | nil => simp
  | cons entry table ih =>
      rw [List.map_cons, List.nodup_cons] at hnodup
      rw [List.lookup_cons, List.mem_cons]
      by_cases hkey : key = entry.1
      · -- The entry is the only one of its key.
        have hrest : (key, value) ∉ table := fun hmem => hnodup.1 (hkey ▸ List.mem_map_of_mem hmem)
        simp [hkey ▸ hrest, hkey, Prod.ext_iff, eq_comm]
      · have hother : (key, value) ≠ entry := fun heq => hkey (congrArg Prod.fst heq)
        rw [beq_eq_false_iff_ne.2 hkey, ih hnodup.2]
        simp [hother]

theorem lookup_concat (table : List (κ × α)) (name : κ) (value : α) (key : κ) :
    (table ++ [(name, value)]).lookup key =
      (table.lookup key).or (if key = name then some value else none) := by
  rw [List.lookup_append, List.lookup_cons, List.lookup_nil]
  by_cases hkey : key = name
  · simp [hkey]
  · simp [hkey, beq_eq_false_iff_ne.2 hkey]

theorem lookup_filter_ne (table : List (κ × α)) (name key : κ) :
    (table.filter fun entry => entry.1 ≠ name).lookup key =
      if key = name then none else table.lookup key := by
  induction table with
  | nil => simp
  | cons entry table ih =>
      obtain ⟨other, value⟩ := entry
      by_cases hname : other = name
      · rw [List.filter_cons_of_neg (by simpa using hname), ih]
        split
        · rfl
        · next hkey => simp [List.lookup_cons, hname, beq_eq_false_iff_ne.2 hkey]
      · rw [List.filter_cons_of_pos (by simpa using hname), List.lookup_cons, ih]
        split
        · next hfound =>
            have hkey : key = other := eq_of_beq hfound
            rw [if_neg (hkey ▸ hname), List.lookup_cons, hfound]
        · next hfound => simp [List.lookup_cons, hfound]

theorem lookup_map (table : List (κ × α)) (change : κ → α → α) (key : κ) :
    (table.map fun entry => (entry.1, change entry.1 entry.2)).lookup key =
      (table.lookup key).map (change key) := by
  induction table with
  | nil => simp
  | cons entry table ih =>
      obtain ⟨other, value⟩ := entry
      by_cases hkey : key = other
      · simp [hkey]
      · simp [List.lookup_cons, beq_eq_false_iff_ne.2 hkey, ih]

end LanguageServer
