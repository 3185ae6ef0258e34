-- Tables with a primary key, where an insert takes the place of the row of its key.
-- What such a table owes to a log of inserts: each row of the log is there, or a
-- later row of its key is. A table that starts empty holds the last row of each key.
import TickPipeline.Lib.EventLog
import Mathlib.Data.List.Induction
import Mathlib.Data.List.Basic
import Mathlib.Data.List.Nodup

namespace keyed_table

open event_log

variable {ρ κ : Type*} (key : ρ → κ)

/-- Each row of the log is in the table, or is followed by a row of its key that is. -/
def Covered (log table : List ρ) : Prop :=
  ∀ before row after, log = before ++ row :: after →
    ∃ later ∈ row :: after, key later = key row ∧ later ∈ table

variable {key}

theorem covered_nil (table : List ρ) : Covered key [] table := by
  intro before row after h
  simp at h

theorem covered_append {log rows table : List ρ} (h1 : Covered key log table)
    (h2 : Covered key rows table) : Covered key (log ++ rows) table := by
  intro before row after heq
  rcases List.append_eq_append_iff.mp heq with ⟨pre, _, hrows⟩ | ⟨post, hlog, hafter⟩
  · exact h2 pre row after hrows
  · rcases post with _ | ⟨row', post⟩
    · exact h2 [] row after (by simpa using hafter.symm)
    · obtain ⟨rfl, rfl⟩ := List.cons.inj hafter
      obtain ⟨later, hmem, hkey⟩ := h1 before row post hlog
      exact ⟨later, List.mem_append_left rows hmem, hkey⟩

/-- The rows at the end of a log are covered on their own. -/
theorem covered_of_append {log rows table : List ρ} (h : Covered key (log ++ rows) table) :
    Covered key rows table := by
  intro before row after heq
  exact h (log ++ before) row after (by rw [heq, List.append_assoc])

/-! ## Inserts -/

variable [DecidableEq κ] (key)

/-- An insert that replaces the row of its key. -/
def replace (table : List ρ) (row : ρ) : List ρ := table.filter (fun r => key r ≠ key row) ++ [row]

/-- The inserts of a list of rows, one by one. -/
def replaceAll (table rows : List ρ) : List ρ := rows.foldl (replace key) table

@[simp] theorem replaceAll_nil (table : List ρ) : replaceAll key table [] = table := rfl

theorem replaceAll_snoc (table rows : List ρ) (row : ρ) :
    replaceAll key table (rows ++ [row]) = replace key (replaceAll key table rows) row := by
  simp [replaceAll]

theorem replaceAll_append (table xs ys : List ρ) :
    replaceAll key table (xs ++ ys) = replaceAll key (replaceAll key table xs) ys :=
  List.foldl_append

theorem mem_replace {table : List ρ} {row r : ρ} :
    r ∈ replace key table row ↔ r ∈ table ∧ key r ≠ key row ∨ r = row := by
  simp [replace]

variable {key}

theorem covered_replace {log table : List ρ} (h : Covered key log table) (row : ρ) :
    Covered key (log ++ [row]) (replace key table row) := by
  intro before r after heq
  rcases after.eq_nil_or_concat with rfl | ⟨after', row', rfl⟩
  · obtain ⟨_, h2⟩ := List.append_inj' heq rfl
    obtain rfl : row = r := by simpa using h2
    exact ⟨row, by simp, rfl, (mem_replace key).mpr (Or.inr rfl)⟩
  · rw [List.concat_eq_append, ← List.cons_append, ← List.append_assoc] at heq
    obtain ⟨h1, h2⟩ := List.append_inj' heq rfl
    obtain rfl : row = row' := by simpa using h2
    obtain ⟨later, hmem, hkey, htable⟩ := h before r after' h1
    by_cases hrow : key later = key row
    · exact ⟨row, by simp, hrow ▸ hkey, (mem_replace key).mpr (Or.inr rfl)⟩
    · refine ⟨later, ?_, hkey, (mem_replace key).mpr (Or.inl ⟨htable, hrow⟩)⟩
      rw [List.concat_eq_append]
      exact List.mem_append_left [row] hmem

/-- A table that covers a log covers it together with what is inserted next. -/
theorem covered_replaceAll {log table : List ρ} (h : Covered key log table) (rows : List ρ) :
    Covered key (log ++ rows) (replaceAll key table rows) := by
  induction rows using List.reverseRecOn with
  | nil => simpa using h
  | append_singleton rows row ih =>
    rw [← List.append_assoc, replaceAll_snoc]
    exact covered_replace ih row

/-! ## The last writer wins -/

/-- A row is what a lookup of its key finds. -/
theorem find_of_nodup {table : List ρ} (h : (table.map key).Nodup) {row : ρ} (hrow : row ∈ table) :
    table.find? (fun r => key r = key row) = some row := by
  cases hfind : table.find? (fun r => key r = key row) with
  | none => simpa using List.find?_eq_none.mp hfind row hrow
  | some r =>
    have hkey : key r = key row := by simpa using List.find?_some hfind
    rw [List.inj_on_of_nodup_map h (List.mem_of_find?_eq_some hfind) hrow hkey]

/-- A table with one row for each key of a log, the last of that key. -/
structure LastWins (key : ρ → κ) (log table : List ρ) : Prop where
  keys_nodup : (table.map key).Nodup
  find_eq : ∀ k, table.find? (fun r => key r = k) = lastOf key k log

theorem find_replace (table : List ρ) (row : ρ) (k : κ) :
    (replace key table row).find? (fun r => key r = k) =
      if key row = k then some row else table.find? (fun r => key r = k) := by
  unfold replace
  rw [List.find?_append]
  by_cases hk : key row = k
  · have hnone : (table.filter (fun r => key r ≠ key row)).find? (fun r => key r = k) = none := by
      rw [List.find?_eq_none]
      intro r hr
      simpa [hk] using (List.mem_filter.mp hr).2
    rw [hnone, if_pos hk]
    simp [hk]
  · have hsame : (table.filter (fun r => key r ≠ key row)).find? (fun r => key r = k) =
        table.find? (fun r => key r = k) := by
      rw [List.find?_filter]
      congr 1
      funext r
      by_cases hr : key r = k
      · simp [hr, Ne.symm hk]
      · simp [hr]
    rw [hsame, if_neg hk]
    simp [hk]

theorem lastWins_replace {log table : List ρ} (h : LastWins key log table) (row : ρ) :
    LastWins key (log ++ [row]) (replace key table row) := by
  refine ⟨?_, ?_⟩
  · unfold replace
    rw [List.map_append, List.nodup_append]
    refine ⟨h.keys_nodup.sublist (List.filter_sublist.map key), by simp, ?_⟩
    intro k hk k' hk'
    obtain ⟨r, hr, rfl⟩ := List.mem_map.mp hk
    rw [List.map_singleton, List.mem_singleton] at hk'
    simpa [hk'] using (List.mem_filter.mp hr).2
  · intro k
    rw [find_replace]
    by_cases hk : key row = k
    · rw [if_pos hk, lastOf_snoc_self key log row hk]
    · rw [if_neg hk, lastOf_snoc_ne key log row hk, h.find_eq]

theorem lastWins_replaceAll (rows : List ρ) : LastWins key rows (replaceAll key [] rows) := by
  induction rows using List.reverseRecOn with
  | nil => exact ⟨by simp, fun k => rfl⟩
  | append_singleton rows row ih =>
    rw [replaceAll_snoc]
    exact lastWins_replace ih row

/-- The rows of the table are the last rows of their keys. -/
theorem LastWins.mem_iff {log table : List ρ} (h : LastWins key log table) (row : ρ) :
    row ∈ table ↔ lastOf key (key row) log = some row := by
  rw [← h.find_eq]
  exact ⟨fun hrow => find_of_nodup h.keys_nodup hrow, List.mem_of_find?_eq_some⟩

end keyed_table
