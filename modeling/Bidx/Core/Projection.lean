import Mathlib.Data.Rat.Floor
import Bidx.Core.Disk
import Bidx.Lib.LeastSquares

/-!
# The growth projection

Before it starts, the disk guard fits a line `bytes = a + b * height` through the
recorded checkpoints and reads off the index size at the node's tip.  The floating
point arithmetic is read as exact arithmetic over the rationals; the final cast
truncates and saturates as the source's does.

With two or more checkpoints the fit of points on a line is that line.  A single
checkpoint takes a branch of its own, which returns its size in the place of the
slope.
-/

namespace Bidx

open LeastSquares

/-! ## The fit -/

/-- `f64::EPSILON`. -/
def f64Epsilon : ℚ := 1 / 2 ^ 52

/-- The sums of `linreg`. -/
structure LinregSums where
  sx : ℚ
  sy : ℚ
  sxy : ℚ
  sxx : ℚ

/-- One round of the loop of `linreg`. -/
def LinregSums.add (s : LinregSums) (p : DiskCheckpoint) : LinregSums :=
  let x : ℚ := p.height.toNat
  let y : ℚ := p.totalBytes.toNat
  { sx := s.sx + x, sy := s.sy + y, sxy := s.sxy + x * y, sxx := s.sxx + x * x }

/-- `linreg`. -/
def linreg (pts : List DiskCheckpoint) : ℚ × ℚ :=
  match pts with
  | [] => (0, 0)
  | [p] => (0, p.totalBytes.toNat)
  | pts =>
      let n : ℚ := pts.length
      let s := pts.foldl LinregSums.add ⟨0, 0, 0, 0⟩
      let denom := n * s.sxx - s.sx * s.sx
      if |denom| < f64Epsilon then
        (0, s.sy / n)
      else
        let b := (n * s.sxy - s.sx * s.sy) / denom
        let a := (s.sy - b * s.sx) / n
        (a, max b 0)

/-- The cast `as u64`: towards zero, saturating. -/
def asU64 (x : ℚ) : UInt64 := UInt64.ofNat (min ⌊x⌋₊ (2 ^ 64 - 1))

/-- `projected_total_bytes`. -/
def projectedTotalBytes (pts : List DiskCheckpoint) (targetHeight : UInt32) : UInt64 :=
  let (a, b) := linreg pts
  asU64 (max (a + b * targetHeight.toNat) 0)

/-! ## The cast -/

theorem asU64_toNat (x : ℚ) : (asU64 x).toNat = min ⌊x⌋₊ (2 ^ 64 - 1) := by
  rw [asU64, UInt64.toNat_ofNat', Nat.mod_eq_of_lt]
  omega

theorem asU64_toNat_natCast (n : Nat) : (asU64 n).toNat = min n (2 ^ 64 - 1) := by
  rw [asU64_toNat, Nat.floor_natCast]

/-- A size survives the way through the rationals. -/
theorem asU64_natCast (size : UInt64) : asU64 size.toNat = size := by
  apply UInt64.toNat_inj.mp
  have hlt := size.toNat_lt
  rw [asU64_toNat_natCast]
  omega

theorem asU64_mono {x y : ℚ} (h : x ≤ y) : asU64 x ≤ asU64 y := by
  rw [UInt64.le_iff_toNat_le, asU64_toNat, asU64_toNat]
  exact min_le_min_right _ (Nat.floor_mono h)

theorem foldl_sy_nonneg (pts : List DiskCheckpoint) {s : LinregSums} (h : 0 ≤ s.sy) :
    0 ≤ (pts.foldl LinregSums.add s).sy := by
  induction pts generalizing s with
  | nil => exact h
  | cons p pts ih => exact ih (add_nonneg h (Nat.cast_nonneg _))

/-- No branch of the fit has a negative slope. -/
theorem linreg_slope_nonneg (pts : List DiskCheckpoint) : 0 ≤ (linreg pts).2 := by
  unfold linreg
  split
  · exact le_rfl
  · exact Nat.cast_nonneg _
  · dsimp only
    split_ifs
    · exact div_nonneg (foldl_sy_nonneg _ le_rfl) (Nat.cast_nonneg _)
    · exact le_max_right _ _

/-- A later target never projects a smaller index, whatever the history. -/
theorem projected_mono (pts : List DiskCheckpoint) {h h' : UInt32} (hle : h ≤ h') :
    projectedTotalBytes pts h ≤ projectedTotalBytes pts h' := by
  have hslope := linreg_slope_nonneg pts
  have hcast : (h.toNat : ℚ) ≤ h'.toNat := Nat.cast_le.mpr (UInt32.le_iff_toNat_le.mp hle)
  apply asU64_mono
  gcongr

/-! ## The general branch is the least-squares fit -/

/-- A checkpoint as a point. -/
def DiskCheckpoint.point (p : DiskCheckpoint) : ℚ × ℚ := (p.height.toNat, p.totalBytes.toNat)

theorem foldl_linregSums (pts : List DiskCheckpoint) (s : LinregSums) :
    pts.foldl LinregSums.add s = {
      sx := s.sx + ((pts.map DiskCheckpoint.point).map Prod.fst).sum
      sy := s.sy + ((pts.map DiskCheckpoint.point).map Prod.snd).sum
      sxy := s.sxy + ((pts.map DiskCheckpoint.point).map fun p => p.1 * p.2).sum
      sxx := s.sxx + (((pts.map DiskCheckpoint.point).map Prod.fst).map fun x => x * x).sum } := by
  induction pts generalizing s with
  | nil => simp
  | cons p pts ih =>
      rw [List.foldl_cons, ih]
      simp only [LinregSums.add, DiskCheckpoint.point, List.map_cons, List.sum_cons, add_assoc]

/-- Distinct heights are at least one apart. -/
theorem one_le_spread {pts : List DiskCheckpoint} (hnodup : (pts.map DiskCheckpoint.height).Nodup)
    (hlen : 2 ≤ pts.length) : 1 ≤ spread ((pts.map DiskCheckpoint.point).map Prod.fst) := by
  apply le_spread
  · rw [List.map_map, List.pairwise_map]
    refine (List.pairwise_map.mp hnodup).imp fun {p q} hne => ?_
    have hgap : (p.height.toNat : ℤ) - q.height.toNat ≠ 0 := by
      rw [sub_ne_zero]
      exact fun h => hne (UInt32.toNat_inj.mp (Nat.cast_injective h))
    have hsq := Int.cast_le (R := ℚ).mpr (Int.add_one_le_of_lt (mul_self_pos.mpr hgap))
    push_cast at hsq
    exact hsq
  · simpa using hlen

theorem linreg_eq_fit {pts : List DiskCheckpoint} (hlen : 2 ≤ pts.length)
    (hspread : 1 ≤ spread ((pts.map DiskCheckpoint.point).map Prod.fst)) :
    linreg pts = (intercept (pts.map DiskCheckpoint.point),
      max (slope (pts.map DiskCheckpoint.point)) 0) := by
  have hdenom : ¬|spread ((pts.map DiskCheckpoint.point).map Prod.fst)| < f64Epsilon := by
    rw [abs_of_pos (by linarith), not_lt]
    exact le_trans (by norm_num [f64Epsilon]) hspread
  unfold linreg
  split
  · simp at hlen
  · simp at hlen
  · simp only [foldl_linregSums, zero_add]
    rw [if_neg (by simpa [spread] using hdenom)]
    simp only [intercept, LeastSquares.slope, spread, List.length_map]

/-! ## When the projection fits its history -/

/-- Distinct positive heights, with sizes on one line that does not fall. -/
structure LinearHistory (pts : List DiskCheckpoint) : Prop where
  ne_nil : pts ≠ []
  heights_nodup : (pts.map DiskCheckpoint.height).Nodup
  heights_pos : ∀ p ∈ pts, 0 < p.height
  on_line : ∃ a b : ℚ, 0 ≤ b ∧ ∀ p ∈ pts, (p.totalBytes.toNat : ℚ) = a + b * p.height.toNat

/-- The projection gives back every recorded size and grows with the target. -/
structure FitsHistory (pts : List DiskCheckpoint) : Prop where
  recorded : ∀ p ∈ pts, projectedTotalBytes pts p.height = p.totalBytes
  monotone : ∀ h h', h ≤ h' → projectedTotalBytes pts h ≤ projectedTotalBytes pts h'

section Fit

variable {pts : List DiskCheckpoint}

/-- Two checkpoints are enough for the fit to be the line itself. -/
theorem LinearHistory.linreg_eq (h : LinearHistory pts) (hlen : 2 ≤ pts.length) {a b : ℚ}
    (hb : 0 ≤ b) (hline : ∀ p ∈ pts, (p.totalBytes.toNat : ℚ) = a + b * p.height.toNat) :
    linreg pts = (a, b) := by
  have hspread := one_le_spread h.heights_nodup hlen
  have hne : spread ((pts.map DiskCheckpoint.point).map Prod.fst) ≠ 0 := by linarith
  have hpoints : ∀ q ∈ pts.map DiskCheckpoint.point, q.2 = a + b * q.1 :=
    List.forall_mem_map.mpr hline
  rw [linreg_eq_fit hlen hspread, intercept_of_collinear hpoints hne,
    slope_of_collinear hpoints hne, max_eq_left hb]

theorem LinearHistory.fits_of_two_le (h : LinearHistory pts) (hlen : 2 ≤ pts.length) :
    FitsHistory pts where
  recorded := by
    intro p hp
    obtain ⟨a, b, hb, hline⟩ := h.on_line
    rw [projectedTotalBytes, h.linreg_eq hlen hb hline]
    simp only
    rw [← hline p hp, max_eq_left (Nat.cast_nonneg _), asU64_natCast]
  monotone := fun _ _ hle => projected_mono pts hle

theorem linreg_singleton (p : DiskCheckpoint) : linreg [p] = (0, (p.totalBytes.toNat : ℚ)) := rfl

/-- The single checkpoint's size is read as the size of one block. -/
theorem projected_singleton (p : DiskCheckpoint) (h : UInt32) :
    (projectedTotalBytes [p] h).toNat = min (p.totalBytes.toNat * h.toNat) (2 ^ 64 - 1) := by
  rw [projectedTotalBytes, linreg_singleton]
  simp only
  rw [zero_add, ← Nat.cast_mul, max_eq_left (Nat.cast_nonneg _), asU64_toNat_natCast]

theorem min_mul_eq_self_iff {size height bound : Nat} (hpos : 0 < height) (hle : size ≤ bound) :
    min (size * height) bound = size ↔ height = 1 ∨ size = 0 ∨ size = bound := by
  have hmul : size ≤ size * height := Nat.le_mul_of_pos_right size hpos
  constructor
  · intro h
    by_cases hsize : size = 0
    · exact .inr (.inl hsize)
    · by_cases hbound : size * height ≤ bound
      · rw [min_eq_left hbound, Nat.mul_eq_left hsize] at h
        exact .inl h
      · rw [min_eq_right (by omega)] at h
        exact .inr (.inr h.symm)
  · rintro (rfl | rfl | rfl)
    · rw [Nat.mul_one, min_eq_left hle]
    · rw [Nat.zero_mul, Nat.zero_min]
    · rw [min_eq_right hmul]

/-- What is left for a single checkpoint to be projected onto itself. -/
theorem projected_singleton_self_iff {p : DiskCheckpoint} (hpos : 0 < p.height) :
    projectedTotalBytes [p] p.height = p.totalBytes ↔
      p.height = 1 ∨ p.totalBytes = 0 ∨ p.totalBytes = UInt64.ofNat (2 ^ 64 - 1) := by
  have hlt := p.totalBytes.toNat_lt
  have hheight : 0 < p.height.toNat := hpos
  simp only [← UInt64.toNat_inj, ← UInt32.toNat_inj, projected_singleton]
  exact min_mul_eq_self_iff hheight (by omega)

/-- A linear history is projected onto itself unless its only checkpoint has both a
height above 1 and a size that the height scales. -/
theorem projection_fits_iff (h : LinearHistory pts) :
    FitsHistory pts ↔ ∀ p, pts = [p] →
      p.height = 1 ∨ p.totalBytes = 0 ∨ p.totalBytes = UInt64.ofNat (2 ^ 64 - 1) := by
  constructor
  · rintro hfits p rfl
    have hpos := h.heights_pos p List.mem_cons_self
    exact (projected_singleton_self_iff hpos).mp (hfits.recorded p List.mem_cons_self)
  · intro hsingle
    by_cases hlen : 2 ≤ pts.length
    · exact h.fits_of_two_le hlen
    · have hpos := List.length_pos_iff.mpr h.ne_nil
      obtain ⟨p, rfl⟩ := List.length_eq_one_iff.mp (show pts.length = 1 by omega)
      refine ⟨fun q hq => ?_, fun _ _ hle => projected_mono [p] hle⟩
      obtain rfl := List.mem_singleton.mp hq
      exact (projected_singleton_self_iff (h.heights_pos q hq)).mpr (hsingle q rfl)

end Fit

/-- The history after the first checkpoint of a chain: one GiB at height 100000. -/
def firstCheckpoint : DiskCheckpoint := ⟨100000, UInt64.ofNat (2 ^ 30)⟩

theorem linearHistory_firstCheckpoint : LinearHistory [firstCheckpoint] where
  ne_nil := by simp
  heights_nodup := by simp
  heights_pos := by simp [firstCheckpoint]
  on_line := by
    refine ⟨firstCheckpoint.totalBytes.toNat, 0, le_rfl, ?_⟩
    simp

/-- The first restart projects a hundred thousand times the recorded size. -/
theorem projection_misses_firstCheckpoint :
    LinearHistory [firstCheckpoint] ∧ ¬FitsHistory [firstCheckpoint] := by
  refine ⟨linearHistory_firstCheckpoint, fun hfits => ?_⟩
  have hself := hfits.recorded firstCheckpoint List.mem_cons_self
  have hpos : 0 < firstCheckpoint.height := by decide
  exact absurd ((projected_singleton_self_iff hpos).mp hself) (by decide)

/-- Two checkpoints of a chain that grows by ten bytes a block. -/
def growingHistory : List DiskCheckpoint := [⟨100000, 1000000⟩, ⟨200000, 2000000⟩]

theorem linearHistory_growingHistory : LinearHistory growingHistory where
  ne_nil := by simp [growingHistory]
  heights_nodup := by simp [growingHistory]
  heights_pos := by simp [growingHistory]
  on_line := by
    refine ⟨0, 10, by norm_num, ?_⟩
    simp [growingHistory]
    norm_num

theorem projection_fits_growing : LinearHistory growingHistory ∧ FitsHistory growingHistory :=
  ⟨linearHistory_growingHistory,
    (projection_fits_iff linearHistory_growingHistory).mpr (by simp [growingHistory])⟩

end Bidx
