import Truthcoin.Float64

/-!
# Rounding of rational numbers

What the operations of doubles that round do when rational numbers stand in for doubles.
-/

namespace Truthcoin.RationalRounding

theorem floor_intCast_add_half (k : ℤ) : Rat.floor ((k : Rat) + 1 / 2) = k := by
  show ⌊(k : Rat) + 1 / 2⌋ = k
  refine Int.floor_eq_iff.mpr ⟨?_, ?_⟩
  · linarith
  · linarith

theorem roundRat_intCast (k : ℤ) : roundRat k = k := by
  unfold roundRat
  split
  · have hneg := floor_intCast_add_half (-k)
    rw [Int.cast_neg] at hneg
    rw [hneg, Int.cast_neg, neg_neg]
  · rw [floor_intCast_add_half]

theorem exists_roundRat_eq (x : Rat) : ∃ k : ℤ, roundRat x = k := by
  unfold roundRat
  split
  · exact ⟨-(-x + 1 / 2).floor, (Int.cast_neg _).symm⟩
  · exact ⟨_, rfl⟩

theorem abs_floor_add_half_sub_le (x : Rat) : |((x + 1 / 2).floor : Rat) - x| ≤ 1 / 2 := by
  have hle : ((x + 1 / 2).floor : Rat) ≤ x + 1 / 2 := Int.floor_le _
  have hlt : x + 1 / 2 < ((x + 1 / 2).floor : Rat) + 1 := Int.lt_floor_add_one _
  rw [abs_le]
  constructor
  · linarith
  · linarith

theorem abs_roundRat_sub_le (x : Rat) : |roundRat x - x| ≤ 1 / 2 := by
  unfold roundRat
  split
  · rw [← abs_neg, neg_sub, sub_neg_eq_add, add_comm, ← sub_neg_eq_add]
    exact abs_floor_add_half_sub_le (-x)
  · exact abs_floor_add_half_sub_le x

theorem roundRat_eq_floor {x : Rat} (hx : 0 ≤ x) : roundRat x = ⌊x + 1 / 2⌋ :=
  if_neg hx.not_gt

theorem truncRat_of_nonneg {low high : Int} {x : Rat} (hlow : low ≤ 0) (hx : 0 ≤ x)
    (hhigh : ⌊x⌋ ≤ high) : truncRat low high x = ⌊x⌋ := by
  have hfloor : 0 ≤ ⌊x⌋ := Int.floor_nonneg.mpr hx
  rw [truncRat, if_neg hx.not_gt]
  change max low (min high ⌊x⌋) = _
  rw [min_eq_right hhigh, max_eq_right (hlow.trans hfloor)]

theorem abs_eq (x : Rat) : F64.abs x = |x| := by
  change (if x < 0 then -x else x) = |x|
  split
  · rename_i hneg
    exact (abs_of_neg hneg).symm
  · rename_i hpos
    exact (abs_of_nonneg (not_lt.mp hpos)).symm

theorem sum_eq (xs : List Rat) : F64.sum xs = xs.sum :=
  List.sum_eq_foldl.symm

end Truthcoin.RationalRounding
