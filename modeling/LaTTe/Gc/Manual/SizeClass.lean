import LaTTe.Gc.Manual.FreeLists

namespace LaTTe.Gc.Manual

/-! The assertions of `size_class`, and what its callers rely on. -/

/-- The assertions of `size_class`.  The last two stand behind the halving loop, which is not
reached for small sizes and for the largest ones. -/
structure SizeClassAsserts (size : Nat) : Prop where
  positive : 0 < size
  aligned : size % (2 * memAlign) = 0
  looped : sizeClassMaxSmallSize < size →
    size ≤ sizeClassMaxSmallSize * 2 ^ sizeClassMaxExponent →
    sizeClassMaxSmallSize / (2 * memAlign) < sizeClass size ∧ sizeClass size < sizeClasses - 1

/-- `size_class` is right for a size: its assertions hold, and the lumps of a larger class are
large enough. -/
structure SizeClassRight (size : Nat) : Prop where
  asserts : SizeClassAsserts size
  below : sizeClass size < sizeClasses
  mono : ∀ larger, size ≤ larger → sizeClass size ≤ sizeClass larger
  fits : ∀ lump, sizeClass size < sizeClass lump → size ≤ lump

theorem halvings_le_iff {fuel exponent : Nat} (enough : exponent < fuel) (size : Nat) :
    halvings fuel size ≤ exponent ↔ size / 2 ^ exponent ≤ sizeClassMaxSmallSize := by
  induction fuel generalizing exponent size with
  | zero => exact absurd enough (Nat.not_lt_zero exponent)
  | succ fuel ih =>
      rw [halvings]
      split
      · rename_i large
        cases exponent with
        | zero =>
            rw [Nat.pow_zero, Nat.div_one]
            exact iff_of_false (by omega) (by omega)
        | succ exponent =>
            rw [Nat.succ_le_succ_iff, ih (by omega), Nat.pow_succ, Nat.mul_comm,
              Nat.div_div_eq_div_mul]
      · rename_i small
        have shrunk := Nat.div_le_self size (2 ^ exponent)
        exact iff_of_true (Nat.zero_le _) (by omega)

theorem sizeClass_looped {size : Nat} (large : sizeClassMaxSmallSize < size)
    (bounded : size ≤ sizeClassMaxSmallSize * 2 ^ sizeClassMaxExponent) :
    (sizeClassMaxSmallSize / (2 * memAlign) < sizeClass size ∧
      sizeClass size < sizeClasses - 1) ↔
      size < (sizeClassMaxSmallSize + 1) * 2 ^ (sizeClassMaxExponent - 1) := by
  have cls : sizeClass size = sizeClassMaxSmallSize / (2 * memAlign) + halvings 32 size := by
    rw [sizeClass, if_neg (Nat.not_le_of_lt large), if_neg (Nat.not_lt_of_le bounded)]
  have some : ¬ halvings 32 size ≤ 0 := by
    rw [halvings_le_iff (by decide), Nat.pow_zero, Nat.div_one]
    exact Nat.not_le_of_lt large
  have most : halvings 32 size ≤ sizeClassMaxExponent - 1 ↔
      size < (sizeClassMaxSmallSize + 1) * 2 ^ (sizeClassMaxExponent - 1) := by
    rw [halvings_le_iff (by decide), ← Nat.lt_succ_iff, Nat.div_lt_iff_lt_mul (by decide)]
  rw [cls, ← most]
  unfold sizeClasses sizeClassMaxSmallSize sizeClassMaxExponent memAlign
  omega

theorem size_class_right_iff (size : Nat) (positive : 0 < size)
    (aligned : size % (2 * memAlign) = 0) :
    SizeClassRight size ↔
      size < (sizeClassMaxSmallSize + 1) * 2 ^ (sizeClassMaxExponent - 1) ∨
        sizeClassMaxSmallSize * 2 ^ sizeClassMaxExponent < size := by
  constructor
  · intro right
    rcases Nat.lt_or_ge (sizeClassMaxSmallSize * 2 ^ sizeClassMaxExponent) size with huge | bounded
    · exact .inr huge
    · refine .inl ?_
      rcases Nat.lt_or_ge sizeClassMaxSmallSize size with large | small
      · exact (sizeClass_looped large bounded).mp (right.asserts.looped large bounded)
      · exact Nat.lt_of_le_of_lt small (by decide)
  · intro condition
    refine ⟨⟨positive, aligned, ?_⟩, sizeClass_lt size, fun _ => sizeClass_mono, ?_⟩
    · intro large bounded
      apply (sizeClass_looped large bounded).mpr
      exact condition.resolve_right (Nat.not_lt_of_le bounded)
    · intro lump greater
      refine Nat.le_of_not_lt fun smaller => ?_
      exact absurd greater (Nat.not_lt_of_le (sizeClass_mono (Nat.le_of_lt smaller)))

theorem size_class_right_iff_small :
    SizeClassRight 2048 ↔
      2048 < (sizeClassMaxSmallSize + 1) * 2 ^ (sizeClassMaxExponent - 1) ∨
        sizeClassMaxSmallSize * 2 ^ sizeClassMaxExponent < 2048 :=
  size_class_right_iff 2048 (by decide) (by decide)

/-- The largest size that the loop is made for. -/
theorem size_class_asserts_too_little :
    ¬ ∀ size, 0 < size → size % (2 * memAlign) = 0 → size < wordSize → SizeClassRight size := by
  intro claim
  have right := claim (2 ^ 26) (by decide) (by decide) (by decide)
  have bound := right.asserts.looped (by decide) (by decide)
  exact absurd bound.2 (by decide)

end LaTTe.Gc.Manual
