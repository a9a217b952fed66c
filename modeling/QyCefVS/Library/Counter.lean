import Mathlib.Algebra.Ring.Int.Defs
import Mathlib.Data.List.Induction
import Mathlib.Order.Bounds.Basic
import Mathlib.Tactic.Common

/-! A counter that follows its increments but never goes below zero. What is lost at zero is
lost for good, so its value is the largest sum over the last increments, of however many. -/

namespace Counter

def follow (n : ℕ) (x : ℤ) : ℕ := (n + x).toNat

def value (xs : List ℤ) : ℕ := xs.foldl follow 0

lemma value_snoc (xs : List ℤ) (x : ℤ) : value (xs ++ [x]) = (value xs + x).toNat := by
  rw [value, List.foldl_append]
  rfl

def suffixSums (xs : List ℤ) : Set ℤ := { k | ∃ ys, ys <:+ xs ∧ k = ys.sum }

theorem value_greatest (xs : List ℤ) : IsGreatest (suffixSums xs) (value xs) := by
  induction xs using List.reverseRecOn with
  | nil =>
    refine ⟨⟨[], List.suffix_rfl, rfl⟩, ?_⟩
    rintro k ⟨ys, hy, rfl⟩
    rw [List.suffix_nil.mp hy]
    exact le_rfl
  | append_singleton xs x ih =>
    obtain ⟨⟨zs, hz, hv⟩, hu⟩ := ih
    rw [value_snoc]
    constructor
    · by_cases hx : 0 ≤ (value xs : ℤ) + x
      · refine ⟨zs ++ [x], List.suffix_concat_iff.mpr (Or.inr ⟨zs, rfl, hz⟩), ?_⟩
        rw [Int.toNat_of_nonneg hx, hv, List.sum_append, List.sum_singleton]
      · refine ⟨[], List.nil_suffix, ?_⟩
        rw [Int.toNat_of_nonpos (by omega)]
        rfl
    · rintro k ⟨ys, hy, rfl⟩
      rcases List.suffix_concat_iff.mp hy with rfl | ⟨ws, rfl, hw⟩
      · exact Int.natCast_nonneg _
      · have hle := hu ⟨ws, hw, rfl⟩
        rw [List.sum_append, List.sum_singleton]
        omega

end Counter
