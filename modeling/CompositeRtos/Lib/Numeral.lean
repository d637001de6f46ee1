import Mathlib.Data.Nat.Digits.Defs
import Mathlib.Data.Nat.Digits.Lemmas

/-!
Numerals: the digits of a number in a base, most significant first, with one digit for 0.
They are what a loop that divides by the base leaves, read against the order of the steps.
-/
namespace RtosNumeral
open List

def numeral (base n : Nat) : List Nat := if n = 0 then [0] else (Nat.digits base n).reverse

variable {base : Nat} (wide : 1 < base)

theorem numeral_ne_nil : numeral base n ≠ [] := by
  unfold numeral
  split
  · exact cons_ne_nil _ _
  rename_i positive
  intro empty
  exact Nat.digits_ne_nil_iff_ne_zero.mpr positive (reverse_eq_nil_iff.mp empty)

include wide

theorem numeral_step (n : Nat) :
    numeral base n = (if n / base = 0 then [] else numeral base (n / base)) ++ [n % base] := by
  unfold numeral
  by_cases zero : n = 0
  · subst zero
    simp
  rw [if_neg zero, Nat.digits_def' wide (Nat.pos_of_ne_zero zero), reverse_cons]
  by_cases small : n / base = 0
  · rw [if_pos small, small, Nat.digits_zero, reverse_nil]
  · rw [if_neg small, if_neg small]

theorem numeral_length_le_iff (positive : 0 < k) (n : Nat) : (numeral base n).length ≤ k ↔ n < base ^ k := by
  unfold numeral
  split
  · rename_i zero
    subst zero
    exact ⟨fun _ => Nat.pow_pos (by omega), fun _ => positive⟩
  · rw [length_reverse]
    exact Nat.digits_length_le_iff wide n

theorem numeral_digit_lt (member : d ∈ numeral base n) : d < base := by
  unfold numeral at member
  split at member
  · rw [mem_singleton.mp member]
    omega
  · exact Nat.digits_lt_base wide (mem_reverse.mp member)

end RtosNumeral
