import Mathlib.Algebra.Group.Nat.Defs
import Mathlib.Data.Nat.Basic

/-!
Words that pack a field of contiguous bits between flag bits. `Field mask lo hi` says that
a mask selects the bits `lo .. hi`. A value that is aligned to the field and fits in it is
read back from it, and the flags around it are read back without it.
-/
namespace RtosBitField
open BitVec

variable {w : Nat}

def Field (mask : BitVec w) (lo hi : Nat) : Prop :=
  ∀ i, i < w → mask.getLsbD i = decide (lo ≤ i ∧ i < hi)

instance (mask : BitVec w) (lo hi : Nat) : Decidable (Field mask lo hi) :=
  inferInstanceAs (Decidable (∀ i, i < w → mask.getLsbD i = decide (lo ≤ i ∧ i < hi)))

theorem bit_of_aligned {x : BitVec w} (aligned : 2 ^ lo ∣ x.toNat) (small : x.toNat < 2 ^ hi)
    (set : x.getLsbD i = true) : lo ≤ i ∧ i < hi := by
  rw [getLsbD] at set
  constructor
  · obtain ⟨k, shape⟩ := aligned
    rw [shape, Nat.testBit_two_pow_mul] at set
    simp only [Bool.and_eq_true, decide_eq_true_eq] at set
    exact set.1
  by_contra above
  have bound : x.toNat < 2 ^ i :=
    Nat.lt_of_lt_of_le small (Nat.pow_le_pow_right (by omega) (by omega))
  rw [Nat.testBit_lt_two_pow bound] at set
  exact absurd set (by simp)

theorem and_field (lo hi : Nat) (field : Field mask lo hi) (aligned : 2 ^ lo ∣ x.toNat)
    (small : x.toNat < 2 ^ hi) : x &&& mask = x := by
  apply eq_of_getLsbD_eq
  intro i bound
  rw [getLsbD_and, field i bound]
  cases set : x.getLsbD i with
  | false => rfl
  | true => simpa using bit_of_aligned aligned small set

theorem and_field_value {x : BitVec w} (field : Field mask lo hi) (aligned : 2 ^ lo ∣ x.toNat) :
    (x &&& mask).toNat = x.toNat % 2 ^ hi := by
  apply Nat.eq_of_testBit_eq
  intro i
  rw [Nat.testBit_mod_two_pow]
  change (x &&& mask).getLsbD i = (decide (i < hi) && x.getLsbD i)
  by_cases inside : i < w
  · rw [getLsbD_and, field i inside]
    cases set : x.getLsbD i with
    | false => simp
    | true => simp [(bit_of_aligned aligned x.isLt set).1]
  · rw [getLsbD_of_ge _ _ (by omega), getLsbD_of_ge _ _ (by omega), Bool.and_false]

theorem and_high_field {x : BitVec w} (lo : Nat) (field : Field mask lo w) :
    (x &&& mask).toNat = x.toNat / 2 ^ lo * 2 ^ lo := by
  apply Nat.eq_of_testBit_eq
  intro i
  rw [Nat.testBit_mul_two_pow, Nat.testBit_div_two_pow]
  change (x &&& mask).getLsbD i = (decide (lo ≤ i) && x.getLsbD (i - lo + lo))
  by_cases inside : i < w
  · rw [getLsbD_and, field i inside]
    by_cases high : lo ≤ i
    · simp [high, inside]
    · simp [high]
  rw [getLsbD_of_ge _ _ (by omega)]
  by_cases high : lo ≤ i
  · simp [high, getLsbD_of_ge x i (by omega)]
  · simp [high]

theorem masked_or (x y mask : BitVec w) : (x ||| y) &&& mask = (x &&& mask) ||| (y &&& mask) := by
  apply eq_of_getLsbD_eq
  intro i _
  simp only [getLsbD_and, getLsbD_or, Bool.and_or_distrib_right]

theorem field_read_back (x : BitVec w) (clear : flags &&& mask = 0#w) :
    (flags ||| (x &&& mask)) &&& mask = x &&& mask := by
  rw [masked_or, clear, BitVec.and_assoc, BitVec.and_self, zero_or]

theorem flags_read_back (x : BitVec w) (apart : mask &&& rest = 0#w) (inside : flags &&& rest = flags) :
    (flags ||| (x &&& mask)) &&& rest = flags := by
  rw [masked_or, inside, BitVec.and_assoc, apart, and_zero, or_zero]

end RtosBitField
