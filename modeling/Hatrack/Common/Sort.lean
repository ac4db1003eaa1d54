import Mathlib.Algebra.Group.Int

/-! `hatrack_quicksort_cmp` (`hatrack_common.c`), the comparator `qsort` uses to order the entries
of a hash-table view by `sort_epoch`. -/

namespace Hatrack

/-- A `hatrack_view_t` entry as the comparator reads it: only its 64-bit `sort_epoch`. -/
structure HatrackView where
  sortEpoch : BitVec 64
  deriving Repr, DecidableEq

/-- `hatrack_quicksort_cmp`: the 64-bit difference of the two `sort_epoch` fields, returned as an
`int`. The conversion keeps the low 32 bits of the difference, read as a signed value, which is
what gcc and clang do with a value out of the range of `int`. -/
def hatrackQuicksortCmp (item1 item2 : HatrackView) : Int :=
  ((item1.sortEpoch - item2.sortEpoch).setWidth 32).toInt

/-- The comparator returns the difference of the two epochs reduced to the range of `int`: the
wrap of the 64-bit subtraction is lost again in the 32 bits kept. -/
theorem hatrackQuicksortCmp_eq_bmod (item1 item2 : HatrackView) :
    hatrackQuicksortCmp item1 item2 =
      Int.bmod ((item1.sortEpoch.toNat : Int) - item2.sortEpoch.toNat) (2 ^ 32) := by
  -- Both sides depend on the difference modulo `2 ^ 32` only.
  have bound := item2.sortEpoch.isLt
  rw [hatrackQuicksortCmp, BitVec.toInt_eq_toNat_bmod, ← Int.emod_bmod_congr, eq_comm,
    ← Int.emod_bmod_congr]
  congr 1
  simp only [BitVec.toNat_setWidth, BitVec.toNat_sub]
  omega

/-- Epochs less than `2 ^ 31` apart compare by their exact difference, so with the sign of
their numeric order. -/
theorem hatrackQuicksortCmp_of_close {item1 item2 : HatrackView}
    (close : -2 ^ 31 ≤ (item1.sortEpoch.toNat : Int) - item2.sortEpoch.toNat ∧
      (item1.sortEpoch.toNat : Int) - item2.sortEpoch.toNat < 2 ^ 31) :
    hatrackQuicksortCmp item1 item2 = (item1.sortEpoch.toNat : Int) - item2.sortEpoch.toNat := by
  rw [hatrackQuicksortCmp_eq_bmod, Int.bmod_def]
  split <;> omega

/-- Epochs `2 ^ 31` and 0 compare as if the first came first, and epochs `2 ^ 32` and 0 compare
equal: both pairs lie in `[0, 2 ^ 63)`. -/
theorem farEpochs_compare_wrongly :
    hatrackQuicksortCmp ⟨0x80000000#64⟩ ⟨0#64⟩ < 0 ∧
      hatrackQuicksortCmp ⟨0x100000000#64⟩ ⟨0#64⟩ = 0 := by
  decide

end Hatrack
