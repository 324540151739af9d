import Mathlib.Algebra.BigOperators.Group.List.Basic
import Mathlib.Algebra.Order.BigOperators.Group.List
import Mathlib.Algebra.Order.Field.Basic
import Mathlib.Tactic.Linarith
import Mathlib.Tactic.Ring

/-!
# The least-squares line through a list of points

`slope` and `intercept` are the usual closed forms over the sums of a list of
points.  The denominator of the slope is `spread`, the sum of the squared
distances between the first coordinates, so it is at least the square of their
smallest distance (`le_spread`).  Through points that lie on one line the fit is
that line.
-/

namespace LeastSquares

variable {K : Type*} [Field K]

/-- `n Σx² - (Σx)²`. -/
def spread (xs : List K) : K :=
  xs.length * (xs.map fun x => x * x).sum - xs.sum * xs.sum

/-- The slope of the fit. -/
def slope (pts : List (K × K)) : K :=
  (pts.length * (pts.map fun p => p.1 * p.2).sum - (pts.map Prod.fst).sum * (pts.map Prod.snd).sum) /
    spread (pts.map Prod.fst)

/-- The intercept of the fit. -/
def intercept (pts : List (K × K)) : K :=
  ((pts.map Prod.snd).sum - slope pts * (pts.map Prod.fst).sum) / pts.length

/-! ## The spread -/

theorem sum_map_sub_sq (x : K) (xs : List K) :
    (xs.map fun y => (x - y) * (x - y)).sum =
      xs.length * (x * x) - 2 * x * xs.sum + (xs.map fun y => y * y).sum := by
  induction xs with
  | nil => simp
  | cons y ys ih =>
      simp only [List.map_cons, List.sum_cons, List.length_cons, Nat.cast_add, Nat.cast_one, ih]
      ring

/-- A further point adds its squared distances to the others. -/
theorem spread_cons (x : K) (xs : List K) :
    spread (x :: xs) = spread xs + (xs.map fun y => (x - y) * (x - y)).sum := by
  rw [sum_map_sub_sq]
  simp only [spread, List.map_cons, List.sum_cons, List.length_cons, Nat.cast_add, Nat.cast_one]
  ring

section Ordered

variable [LinearOrder K] [IsStrictOrderedRing K] {xs : List K}

theorem sum_map_sub_sq_nonneg (x : K) (xs : List K) :
    0 ≤ (xs.map fun y => (x - y) * (x - y)).sum := by
  apply List.sum_nonneg
  intro d hd
  obtain ⟨y, -, rfl⟩ := List.mem_map.mp hd
  exact mul_self_nonneg _

theorem spread_nonneg (xs : List K) : 0 ≤ spread xs := by
  induction xs with
  | nil => simp [spread]
  | cons x xs ih =>
      rw [spread_cons]
      exact add_nonneg ih (sum_map_sub_sq_nonneg x xs)

/-- Two points at a distance already spread the list. -/
theorem le_spread {d : K} (hsep : xs.Pairwise fun x y => d ≤ (x - y) * (x - y))
    (hlen : 2 ≤ xs.length) : d ≤ spread xs := by
  obtain _ | ⟨x, _ | ⟨y, xs⟩⟩ := xs
  · simp at hlen
  · simp at hlen
  · have hd : d ≤ (x - y) * (x - y) := List.rel_of_pairwise_cons hsep List.mem_cons_self
    have hrest := spread_nonneg (y :: xs)
    have hothers := sum_map_sub_sq_nonneg x xs
    rw [spread_cons, List.map_cons, List.sum_cons]
    linarith

end Ordered

/-! ## Points on one line -/

section Collinear

variable {pts : List (K × K)} {a b : K}

theorem sum_snd_of_collinear (h : ∀ p ∈ pts, p.2 = a + b * p.1) :
    (pts.map Prod.snd).sum = pts.length * a + b * (pts.map Prod.fst).sum := by
  induction pts with
  | nil => simp
  | cons p pts ih =>
      rw [List.forall_mem_cons] at h
      simp only [List.map_cons, List.sum_cons, List.length_cons, Nat.cast_add, Nat.cast_one, h.1,
        ih h.2]
      ring

theorem sum_mul_of_collinear (h : ∀ p ∈ pts, p.2 = a + b * p.1) :
    (pts.map fun p => p.1 * p.2).sum =
      a * (pts.map Prod.fst).sum + b * ((pts.map Prod.fst).map fun x => x * x).sum := by
  induction pts with
  | nil => simp
  | cons p pts ih =>
      rw [List.forall_mem_cons] at h
      simp only [List.map_cons, List.sum_cons, h.1, ih h.2]
      ring

theorem slope_of_collinear (h : ∀ p ∈ pts, p.2 = a + b * p.1)
    (hspread : spread (pts.map Prod.fst) ≠ 0) : slope pts = b := by
  rw [slope, div_eq_iff hspread, sum_mul_of_collinear h, sum_snd_of_collinear h, spread,
    List.length_map]
  ring

theorem intercept_of_collinear [CharZero K] (h : ∀ p ∈ pts, p.2 = a + b * p.1)
    (hspread : spread (pts.map Prod.fst) ≠ 0) : intercept pts = a := by
  have hlen : (pts.length : K) ≠ 0 := by
    rw [Nat.cast_ne_zero]
    intro hzero
    rw [List.length_eq_zero_iff.mp hzero] at hspread
    simp [spread] at hspread
  rw [intercept, slope_of_collinear h hspread, sum_snd_of_collinear h, add_sub_cancel_right,
    mul_div_cancel_left₀ a hlen]

end Collinear

end LeastSquares
