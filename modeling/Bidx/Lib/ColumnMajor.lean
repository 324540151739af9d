import Mathlib.Data.List.Induction

/-!
# Rows kept column by column

A table of rows of one width can be kept as one list for each column: a new row
appends one value to every column.  Reading the values at one position across the
columns gives the row back, so nothing is lost (`toRows_ofRows`), and the columns
always have one length (`length_of_mem_ofRows`).
-/

namespace ColumnMajor

variable {α : Type*}

/-- One value to the end of every column. -/
def appendRow (cols : List (List α)) (row : List α) : List (List α) :=
  List.zipWith (fun col v => col ++ [v]) cols row

/-- The columns after appending rows of width `n`. -/
def ofRows (n : Nat) (rows : List (List α)) : List (List α) :=
  rows.foldl appendRow (List.replicate n [])

/-- The values at one position. -/
def rowAt (cols : List (List α)) (k : Nat) : List α := cols.filterMap fun col => col[k]?

/-- The first `count` rows. -/
def toRows (count : Nat) (cols : List (List α)) : List (List α) :=
  (List.range count).map (rowAt cols)

@[simp] theorem ofRows_nil (n : Nat) : ofRows n ([] : List (List α)) = List.replicate n [] := rfl

@[simp] theorem ofRows_concat (n : Nat) (rows : List (List α)) (row : List α) :
    ofRows n (rows ++ [row]) = appendRow (ofRows n rows) row := by
  rw [ofRows, List.foldl_append]
  rfl

section Append

variable {cols : List (List α)} {row : List α} {m : Nat}

theorem length_appendRow (hrow : row.length = cols.length) :
    (appendRow cols row).length = cols.length := by
  rw [appendRow, List.length_zipWith, hrow, Nat.min_self]

theorem length_of_mem_appendRow (hcols : ∀ col ∈ cols, col.length = m) :
    ∀ col ∈ appendRow cols row, col.length = m + 1 := by
  induction cols generalizing row with
  | nil => simp [appendRow]
  | cons col cols ih =>
      rw [List.forall_mem_cons] at hcols
      cases row with
      | nil => simp [appendRow]
      | cons v row =>
          intro col' hcol'
          rw [appendRow, List.zipWith_cons_cons] at hcol'
          rcases List.mem_cons.mp hcol' with rfl | hrest
          · rw [List.length_append, hcols.1, List.length_singleton]
          · exact ih hcols.2 col' hrest

/-- The rows before are where they were. -/
theorem rowAt_appendRow_of_lt (hcols : ∀ col ∈ cols, col.length = m)
    (hrow : row.length = cols.length) {k : Nat} (hk : k < m) :
    rowAt (appendRow cols row) k = rowAt cols k := by
  induction cols generalizing row with
  | nil => simp [appendRow, rowAt]
  | cons col cols ih =>
      rw [List.forall_mem_cons] at hcols
      obtain ⟨v, row, rfl⟩ := List.exists_cons_of_length_eq_add_one hrow
      have hold : (col ++ [v])[k]? = col[k]? := List.getElem?_append_left (by omega)
      have hrest := ih hcols.2 (by simpa using hrow)
      rw [appendRow, rowAt, rowAt] at hrest
      simp only [appendRow, rowAt, List.zipWith_cons_cons, List.filterMap_cons, hold, hrest]

/-- The new row stands behind them. -/
theorem rowAt_appendRow_self (hcols : ∀ col ∈ cols, col.length = m)
    (hrow : row.length = cols.length) : rowAt (appendRow cols row) m = row := by
  induction cols generalizing row with
  | nil =>
      obtain rfl := List.length_eq_zero_iff.mp hrow
      rfl
  | cons col cols ih =>
      rw [List.forall_mem_cons] at hcols
      obtain ⟨v, row, rfl⟩ := List.exists_cons_of_length_eq_add_one hrow
      have hnew : (col ++ [v])[m]? = some v := by rw [← hcols.1, List.getElem?_concat_length]
      have hrest := ih hcols.2 (by simpa using hrow)
      rw [appendRow, rowAt] at hrest
      simp only [appendRow, rowAt, List.zipWith_cons_cons, List.filterMap_cons, hnew, hrest]

end Append

section Rows

variable {n : Nat} {rows : List (List α)}

/-- One column for each place of a row, each as long as there are rows. -/
theorem ofRows_shape (hrows : ∀ row ∈ rows, row.length = n) :
    (ofRows n rows).length = n ∧ ∀ col ∈ ofRows n rows, col.length = rows.length := by
  induction rows using List.reverseRecOn with
  | nil => simp
  | append_singleton rows row ih =>
      obtain ⟨hlen, hcols⟩ := ih fun r hr => hrows r (List.mem_append_left _ hr)
      have hrow := hrows row (by simp)
      rw [ofRows_concat, List.length_append, List.length_singleton]
      exact ⟨by rw [length_appendRow (by omega), hlen], length_of_mem_appendRow hcols⟩

/-- The rows are read back in the order they were appended in. -/
theorem toRows_ofRows (hrows : ∀ row ∈ rows, row.length = n) :
    toRows rows.length (ofRows n rows) = rows := by
  induction rows using List.reverseRecOn with
  | nil => rfl
  | append_singleton rows row ih =>
      have hbefore : ∀ r ∈ rows, r.length = n := fun r hr => hrows r (List.mem_append_left _ hr)
      obtain ⟨hlen, hcols⟩ := ofRows_shape hbefore
      have hrow : row.length = (ofRows n rows).length := by rw [hlen, hrows row (by simp)]
      have hold : ∀ k ∈ List.range rows.length,
          rowAt (appendRow (ofRows n rows) row) k = rowAt (ofRows n rows) k :=
        fun k hk => rowAt_appendRow_of_lt hcols hrow (List.mem_range.mp hk)
      rw [toRows, ofRows_concat, List.length_append, List.length_singleton, List.range_succ,
        List.map_append, List.map_congr_left hold, List.map_singleton,
        rowAt_appendRow_self hcols hrow]
      congr 1
      exact ih hbefore

end Rows

end ColumnMajor
