import Mathlib.Data.List.Nodup

/-!
# Tables with a unique key

A table is a list of rows; `update key k f rows` is the statement `UPDATE … WHERE key = k`.  When
the key is unique the statement rewrites at most one row, and `update_split` exhibits it: counts,
sums and membership after an update all follow from that one decomposition.
-/

namespace Rows

open List

variable {ρ κ : Type*} [DecidableEq κ] (key : ρ → κ)

def update (k : κ) (f : ρ → ρ) (rows : List ρ) : List ρ :=
  rows.map fun row => if key row = k then f row else row

def lookup (k : κ) (rows : List ρ) : Option ρ := rows.find? fun row => decide (key row = k)

variable {key} {rows : List ρ} {f : ρ → ρ} {k : κ}

theorem lookup_eq_some {row : ρ} (h : lookup key k rows = some row) : row ∈ rows ∧ key row = k := by
  unfold lookup at h
  exact ⟨mem_of_find?_eq_some h, by simpa using find?_some h⟩

theorem lookup_eq_none (h : lookup key k rows = none) {row : ρ} (mem : row ∈ rows) :
    key row ≠ k := by
  unfold lookup at h
  simpa using find?_eq_none.1 h row mem

theorem lookup_of_mem (unique : (rows.map key).Nodup) {row : ρ} (mem : row ∈ rows) :
    lookup key (key row) rows = some row := by
  cases found : lookup key (key row) rows with
  | none => exact absurd rfl (lookup_eq_none found mem)
  | some _ =>
    obtain ⟨mem', same⟩ := lookup_eq_some found
    rw [inj_on_of_nodup_map unique mem' mem same]

theorem update_of_notMem (absent : k ∉ rows.map key) : update key k f rows = rows := by
  unfold update
  rw [map_congr_left (g := id) fun row mem => ?_, map_id]
  exact if_neg fun same => absent (mem_map.2 ⟨row, mem, same⟩)

theorem update_split {row : ρ} (unique : (rows.map key).Nodup) (mem : row ∈ rows) :
    ∃ before after, rows = before ++ row :: after ∧
      update key (key row) f rows = before ++ f row :: after := by
  obtain ⟨before, after, rfl⟩ := append_of_mem mem
  refine ⟨before, after, rfl, ?_⟩
  simp only [map_append, map_cons, nodup_append, nodup_cons] at unique
  obtain ⟨_, ⟨notAfter, _⟩, apart⟩ := unique
  have notBefore : key row ∉ before.map key := fun found => apart _ found _ (by simp) rfl
  have parts : update key (key row) f (before ++ row :: after) =
      update key (key row) f before ++ f row :: update key (key row) f after := by
    simp [update]
  rw [parts, update_of_notMem notBefore, update_of_notMem notAfter]

theorem map_update {γ : Type*} {column : ρ → γ} (k : κ)
    (keeps : ∀ row, column (f row) = column row) (rows : List ρ) :
    (update key k f rows).map column = rows.map column := by
  unfold update
  rw [map_map]
  refine map_congr_left fun row _ => ?_
  by_cases same : key row = k <;> simp [same, keeps]

theorem mem_update_of_ne {row : ρ} (mem : row ∈ rows) (ne : key row ≠ k) :
    row ∈ update key k f rows :=
  mem_map.2 ⟨row, mem, if_neg ne⟩

theorem mem_update_of_eq {row : ρ} (mem : row ∈ rows) (eq : key row = k) :
    f row ∈ update key k f rows :=
  mem_map.2 ⟨row, mem, if_pos eq⟩

theorem mem_update {row : ρ} (mem : row ∈ update key k f rows) :
    (row ∈ rows ∧ key row ≠ k) ∨ ∃ old ∈ rows, key old = k ∧ row = f old := by
  obtain ⟨old, found, rfl⟩ := mem_map.1 mem
  by_cases same : key old = k
  · exact .inr ⟨old, found, same, if_pos same⟩
  · rw [if_neg same]; exact .inl ⟨found, same⟩

/-! ### Any condition -/

section

variable {p : ρ → Bool}

def updateWhere (p : ρ → Bool) (f : ρ → ρ) (rows : List ρ) : List ρ :=
  rows.map fun row => if p row then f row else row

theorem mem_updateWhere {row : ρ} (mem : row ∈ updateWhere p f rows) :
    (row ∈ rows ∧ p row = false) ∨ ∃ old ∈ rows, p old = true ∧ row = f old := by
  obtain ⟨old, found, rfl⟩ := mem_map.1 mem
  by_cases holds : p old = true
  · exact .inr ⟨old, found, holds, if_pos holds⟩
  · rw [if_neg holds]; exact .inl ⟨found, by simpa using holds⟩

theorem map_updateWhere {γ : Type*} {column : ρ → γ}
    (keeps : ∀ row, p row = true → column (f row) = column row) :
    (updateWhere p f rows).map column = rows.map column := by
  unfold updateWhere
  rw [map_map]
  refine map_congr_left fun row _ => ?_
  by_cases holds : p row = true
  · simp [holds, keeps row holds]
  · simp [holds]

end

end Rows
