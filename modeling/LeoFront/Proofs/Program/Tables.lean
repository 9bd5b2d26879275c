import LeoFront.Table
import Mathlib.Data.List.Induction
import Mathlib.Data.List.Nodup

namespace LeoFront.Table
variable {α κ : Type} [DecidableEq κ]

theorem eraseDups_concat (keys : List κ) (last : κ) :
    (keys ++ [last]).eraseDups =
      if last ∈ keys then keys.eraseDups else keys.eraseDups ++ [last] := by
  rw [List.eraseDups_append]
  by_cases known : last ∈ keys <;> simp [List.cons_removeAll, List.eraseDups_cons, known]

theorem eraseDups_of_nodup {keys : List κ} (nodup : keys.Nodup) : keys.eraseDups = keys := by
  induction keys using List.reverseRecOn with
  | nil => rfl
  | append_singleton keys last ih =>
    obtain ⟨nodup, -, other⟩ := List.nodup_append.mp nodup
    have new : last ∉ keys := fun known => other last known last (List.mem_singleton_self last) rfl
    rw [eraseDups_concat, if_neg new, ih nodup]

theorem eraseDups_append_eraseDups (keys others : List κ) :
    (keys ++ others.eraseDups).eraseDups = (keys ++ others).eraseDups := by
  induction others using List.reverseRecOn with
  | nil => rfl
  | append_singleton others last ih =>
    rw [← List.append_assoc, eraseDups_concat, eraseDups_concat]
    by_cases known : last ∈ others
    · rw [if_pos known, if_pos (List.mem_append_right _ known), ih]
    · rw [if_neg known, ← List.append_assoc, eraseDups_concat, ih]
      simp only [List.mem_append, List.mem_eraseDups]

theorem eraseDups_append_of_subset {keys others : List κ} (known : others ⊆ keys) :
    (keys ++ others).eraseDups = keys.eraseDups := by
  induction others using List.reverseRecOn with
  | nil => rw [List.append_nil]
  | append_singleton others last ih =>
    obtain ⟨others, here⟩ := List.append_subset.mp known
    have here := here (List.mem_singleton_self last)
    rw [← List.append_assoc, eraseDups_concat, if_pos (List.mem_append_left _ here), ih others]

theorem entries_ext {first second : List (κ × α)} (nodup : (first.map Prod.fst).Nodup)
    (keys : first.map Prod.fst = second.map Prod.fst)
    (same : ∀ key, lookup key first = lookup key second) : first = second := by
  induction first generalizing second with
  | nil => simpa using keys.symm
  | cons entry rest ih =>
    cases second with
    | nil => simp at keys
    | cons entry' rest' =>
      obtain ⟨key, value⟩ := entry
      obtain ⟨key', value'⟩ := entry'
      obtain ⟨rfl, others⟩ := List.cons.inj keys
      obtain ⟨absent, nodup⟩ := List.nodup_cons.mp nodup
      have here : value = value' := by simpa [lookup] using same key
      have there (other : κ) : lookup other rest = lookup other rest' := by
        by_cases again : key = other
        · subst again
          rw [lookup_none_of_not_mem absent, lookup_none_of_not_mem (others ▸ absent)]
        · simpa [lookup, again] using same other
      rw [here, ih nodup others there]

theorem ext_get? {first second : Table κ α} (keys : first.keys = second.keys)
    (same : ∀ key, first.get? key = second.get? key) : first = second :=
  Table.ext (entries_ext first.nodup keys same)

def write (table : Table κ α) (writes : List (κ × α)) : Table κ α :=
  writes.foldl (fun table entry => table.insert entry.1 entry.2) table

theorem write_append (table : Table κ α) (writes others : List (κ × α)) :
    table.write (writes ++ others) = (table.write writes).write others :=
  List.foldl_append ..

theorem write_concat (table : Table κ α) (writes : List (κ × α)) (last : κ × α) :
    table.write (writes ++ [last]) = (table.write writes).insert last.1 last.2 :=
  List.foldl_concat ..

theorem keys_write (table : Table κ α) (writes : List (κ × α)) :
    (table.write writes).keys = (table.keys ++ writes.map Prod.fst).eraseDups := by
  induction writes using List.reverseRecOn with
  | nil =>
    rw [List.map_nil, List.append_nil]
    exact (eraseDups_of_nodup table.nodup).symm
  | append_singleton writes last ih =>
    rw [write_concat, keys_insert, ih, List.map_append, List.map_singleton,
      ← List.append_assoc, eraseDups_concat]
    simp only [List.mem_eraseDups]

theorem get?_write (table : Table κ α) (writes : List (κ × α)) (key : κ) :
    (table.write writes).get? key =
      ((writes.filter (·.1 = key)).getLast?.map Prod.snd).or (table.get? key) := by
  induction writes using List.reverseRecOn with
  | nil => rfl
  | append_singleton writes last ih =>
    rw [write_concat, get?_insert, List.filter_append, List.getLast?_append]
    by_cases same : last.1 = key
    · simp [same]
    · simp [same, ih]

theorem keys_prefix_write (table : Table κ α) (writes : List (κ × α)) :
    table.keys <+: (table.write writes).keys := by
  rw [keys_write, List.eraseDups_append]
  have same : table.keys.eraseDups = table.keys := eraseDups_of_nodup table.nodup
  rw [same]
  exact List.prefix_append ..

theorem keys_write_of_subset {table : Table κ α} {writes : List (κ × α)}
    (known : writes.map Prod.fst ⊆ table.keys) : (table.write writes).keys = table.keys := by
  rw [keys_write, eraseDups_append_of_subset known]
  exact eraseDups_of_nodup table.nodup

theorem write_write (table : Table κ α) (writes : List (κ × α)) :
    (table.write writes).write writes = table.write writes := by
  apply ext_get?
  · refine keys_write_of_subset fun key written => ?_
    rw [keys_write]
    exact List.mem_eraseDups.mpr (List.mem_append_right _ written)
  · intro key
    rw [get?_write, get?_write]
    cases (writes.filter (·.1 = key)).getLast? <;> rfl

def collect (key : α → κ) (values : List α) : Table κ α :=
  empty.write (values.map fun value => (key value, value))

def update (table other : Table κ α) : Table κ α := table.write other.entries

theorem keys_collect (key : α → κ) (values : List α) :
    (collect key values).keys = (values.map key).eraseDups := by
  rw [collect, keys_write, List.map_map]
  rfl

theorem get?_collect (key : α → κ) (values : List α) (name : κ) :
    (collect key values).get? name = (values.filter (key · = name)).getLast? := by
  rw [collect, get?_write, List.filter_map, List.getLast?_map, Option.map_map, get?_empty,
    Option.or_none]
  exact Option.map_id'

theorem get?_update (table other : Table κ α) (key : κ) :
    (table.update other).get? key = (other.get? key).or (table.get? key) :=
  get?_foldl_insert other.entries other.nodup table key

theorem write_eq_update (table : Table κ α) (writes : List (κ × α)) :
    table.write writes = table.update (empty.write writes) := by
  refine ext_get? ?_ fun key => ?_
  · have written : (empty.write writes).entries.map Prod.fst = (writes.map Prod.fst).eraseDups :=
      keys_write empty writes
    rw [update, keys_write, keys_write, written, eraseDups_append_eraseDups]
  · rw [get?_update, get?_write, get?_write, get?_empty, Option.or_none]

theorem collect_append (key : α → κ) (first second : List α) :
    collect key (first ++ second) = (collect key first).update (collect key second) := by
  rw [collect, List.map_append, write_append, write_eq_update]
  rfl

theorem mem_of_mem_values_collect {key : α → κ} {values : List α} {value : α}
    (member : value ∈ (collect key values).values) : value ∈ values := by
  obtain ⟨name, found⟩ := (collect key values).mem_values_iff.mp member
  rw [get?_collect] at found
  exact (List.mem_filter.mp (List.mem_of_getLast? found)).1

end LeoFront.Table
