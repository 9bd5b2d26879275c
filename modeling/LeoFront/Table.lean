namespace LeoFront

namespace Table

def lookup {κ α : Type} [DecidableEq κ] (key : κ) : List (κ × α) → Option α
  | [] => none
  | (first, value) :: rest => if first = key then some value else lookup key rest

def replace {κ α : Type} [DecidableEq κ] (key : κ) (value : α) : List (κ × α) → List (κ × α)
  | [] => [(key, value)]
  | (first, old) :: rest =>
    if first = key then (first, value) :: rest else (first, old) :: replace key value rest

theorem keys_replace {κ α : Type} [DecidableEq κ] (key : κ) (value : α) (entries : List (κ × α)) :
    (replace key value entries).map Prod.fst =
      if key ∈ entries.map Prod.fst then entries.map Prod.fst
      else entries.map Prod.fst ++ [key] := by
  induction entries with
  | nil => simp [replace]
  | cons entry rest ih => grind [replace]

theorem lookup_replace {κ α : Type} [DecidableEq κ] (key other : κ) (value : α)
    (entries : List (κ × α)) :
    lookup other (replace key value entries) =
      if key = other then some value else lookup other entries := by
  induction entries with
  | nil => simp [replace, lookup]
  | cons entry rest ih => grind [replace, lookup]

theorem lookup_eq_some_iff {κ α : Type} [DecidableEq κ] {key : κ} {value : α}
    {entries : List (κ × α)} (nodup : (entries.map Prod.fst).Nodup) :
    lookup key entries = some value ↔ (key, value) ∈ entries := by
  induction entries with
  | nil => simp [lookup]
  | cons entry rest ih =>
    obtain ⟨absent, nodup⟩ := List.nodup_cons.mp nodup
    have other : (key, value) ∈ rest → entry.1 ≠ key := by
      rintro member rfl
      exact absent (List.mem_map.mpr ⟨_, member, rfl⟩)
    grind [lookup]

theorem lookup_isSome {κ α : Type} [DecidableEq κ] (key : κ) (entries : List (κ × α)) :
    (lookup key entries).isSome = true ↔ key ∈ entries.map Prod.fst := by
  induction entries with
  | nil => simp [lookup]
  | cons entry rest ih => grind [lookup]

theorem lookup_none_of_not_mem {κ α : Type} [DecidableEq κ] {key : κ} {entries : List (κ × α)}
    (absent : key ∉ entries.map Prod.fst) : lookup key entries = none := by
  rw [← Option.not_isSome_iff_eq_none, lookup_isSome]
  exact absent

end Table

/-- A table of values by key, in the order in which the keys came in. -/
structure Table (κ α : Type) where
  entries : List (κ × α)
  nodup : (entries.map Prod.fst).Nodup

namespace Table
variable {κ α : Type}

@[ext] theorem ext {a b : Table κ α} (h : a.entries = b.entries) : a = b := by
  cases a
  cases b
  cases h
  rfl

def empty : Table κ α := ⟨[], List.nodup_nil⟩

@[simp] theorem entries_empty : (empty : Table κ α).entries = [] := rfl

def keys (table : Table κ α) : List κ := table.entries.map Prod.fst

def values (table : Table κ α) : List α := table.entries.map Prod.snd

def size (table : Table κ α) : Nat := table.entries.length

def filterKeys (table : Table κ α) (keep : κ → Bool) : Table κ α where
  entries := table.entries.filter (keep ·.1)
  nodup := table.nodup.sublist (List.filter_sublist.map _)

variable [DecidableEq κ]

def get? (table : Table κ α) (key : κ) : Option α := lookup key table.entries

def contains (table : Table κ α) (key : κ) : Bool := (table.get? key).isSome

def insert (table : Table κ α) (key : κ) (value : α) : Table κ α where
  entries := replace key value table.entries
  nodup := by
    have nodup := table.nodup
    rw [keys_replace]
    split
    · exact nodup
    · next absent =>
      rw [List.nodup_append]
      refine ⟨nodup, by simp, fun a mem b last => ?_⟩
      rintro rfl
      simp only [List.mem_singleton] at last
      exact absent (last ▸ mem)

@[simp] theorem get?_empty (key : κ) : (empty : Table κ α).get? key = none := rfl

theorem get?_insert (table : Table κ α) (key other : κ) (value : α) :
    (table.insert key value).get? other = if key = other then some value else table.get? other :=
  lookup_replace key other value table.entries

theorem keys_insert (table : Table κ α) (key : κ) (value : α) :
    (table.insert key value).keys =
      if key ∈ table.keys then table.keys else table.keys ++ [key] :=
  keys_replace key value table.entries

theorem get?_eq_some_iff (table : Table κ α) {key : κ} {value : α} :
    table.get? key = some value ↔ (key, value) ∈ table.entries :=
  lookup_eq_some_iff table.nodup

theorem mem_keys_iff (table : Table κ α) {key : κ} :
    key ∈ table.keys ↔ ∃ value, table.get? key = some value := by
  simp only [get?_eq_some_iff, keys, List.mem_map]
  exact ⟨fun ⟨entry, member, same⟩ => ⟨entry.2, same ▸ member⟩, fun ⟨_, member⟩ => ⟨_, member, rfl⟩⟩

theorem mem_values_iff (table : Table κ α) {value : α} :
    value ∈ table.values ↔ ∃ key, table.get? key = some value := by
  simp only [get?_eq_some_iff, values, List.mem_map]
  exact ⟨fun ⟨entry, member, same⟩ => ⟨entry.1, same ▸ member⟩, fun ⟨_, member⟩ => ⟨_, member, rfl⟩⟩

theorem get?_foldl_insert (entries : List (κ × α)) (nodup : (entries.map Prod.fst).Nodup)
    (table : Table κ α) (key : κ) :
    (entries.foldl (fun table entry => table.insert entry.1 entry.2) table).get? key =
      (lookup key entries).or (table.get? key) := by
  induction entries generalizing table with
  | nil => simp [lookup]
  | cons entry rest ih =>
    obtain ⟨absent, nodup⟩ := List.nodup_cons.mp nodup
    have last (same : entry.1 = key) : lookup key rest = none :=
      lookup_none_of_not_mem (same ▸ absent)
    rw [List.foldl_cons, ih nodup, get?_insert]
    by_cases same : entry.1 = key
    · simp [lookup, same, last same]
    · simp [lookup, same]

theorem contains_iff (table : Table κ α) (key : κ) :
    table.contains key = true ↔ key ∈ table.keys :=
  lookup_isSome key table.entries

end Table

abbrev NameTable := Table String

end LeoFront
