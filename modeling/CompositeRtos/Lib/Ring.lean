import Mathlib.Data.List.Basic
import Mathlib.Data.Nat.ModEq

/-!
Rings of fixed capacity addressed by free-running counters. Cell `n % cap` carries the
item with running number `n`; at most `cap` items are live at once. Counters are kept
as unbounded numbers here, and the last section says when a counter truncated to a
machine word still selects the same cell and still tells empty from nonempty.
-/
namespace RtosRing

variable {α : Type}

def Holds (cells : List α) (first : Nat) (items : List α) : Prop :=
  items.length ≤ cells.length ∧
    ∀ i, i < items.length → cells[(first + i) % cells.length]? = items[i]?

theorem holds_nil : Holds cells first [] :=
  ⟨Nat.zero_le _, by intro i hi; simp at hi⟩

theorem holds_head (h : Holds cells first (x :: items)) : cells[first % cells.length]? = some x := by
  have first_cell := h.2 0 (by simp)
  simpa using first_cell

theorem holds_tail (h : Holds cells first (x :: items)) : Holds cells (first + 1) items := by
  refine ⟨by have := h.1; simp at this; omega, ?_⟩
  intro i hi
  have cell := h.2 (i + 1) (by simp; omega)
  rw [show first + 1 + i = first + (i + 1) by omega]
  simpa using cell

theorem distinct_cells (first : Nat) (hi : i < cap) (hj : j < cap) (ne : i ≠ j) :
    (first + i) % cap ≠ (first + j) % cap := by
  intro same
  have shifted : i % cap = j % cap := Nat.ModEq.add_left_cancel' first same
  rw [Nat.mod_eq_of_lt hi, Nat.mod_eq_of_lt hj] at shifted
  exact ne shifted

theorem holds_push (x : α) (h : Holds cells first items) (room : items.length < cells.length) :
    Holds (cells.set ((first + items.length) % cells.length) x) first (items ++ [x]) := by
  refine ⟨by simp; omega, ?_⟩
  intro i hi
  simp only [List.length_append, List.length_cons, List.length_nil] at hi
  rw [List.length_set]
  by_cases last : i = items.length
  · subst last
    rw [List.getElem?_set_self (Nat.mod_lt _ (by omega))]
    simp
  · have apart := distinct_cells first room (show i < cells.length by omega) (Ne.symm last)
    rw [List.getElem?_set_ne apart, h.2 i (by omega), List.getElem?_append_left (by omega)]

def window (cells : List α) (blank : α) (first n : Nat) : List α :=
  (List.range n).map fun k => cells.getD ((first + k) % cells.length) blank

theorem window_length (cells : List α) (blank : α) (first n : Nat) : (window cells blank first n).length = n := by
  simp [window]

theorem holds_window (blank : α) (few : n ≤ cells.length) : Holds cells first (window cells blank first n) := by
  refine ⟨by rw [window_length]; exact few, ?_⟩
  intro i hi
  rw [window_length] at hi
  have inside : (first + i) % cells.length < cells.length := Nat.mod_lt _ (by omega)
  simp [window, hi, List.getElem?_eq_getElem inside]

theorem masked_counter (n : Nat) (fits : bits ≤ w) :
    (BitVec.ofNat w n &&& BitVec.ofNat w (2 ^ bits - 1)).toNat = n % 2 ^ bits := by
  have small : 2 ^ bits - 1 < 2 ^ w := by
    have le := Nat.pow_le_pow_right (show 0 < 2 by omega) fits
    have pos := Nat.pow_pos (n := bits) (show 0 < 2 by omega)
    omega
  rw [BitVec.toNat_and, BitVec.toNat_ofNat, BitVec.toNat_ofNat, Nat.mod_eq_of_lt small,
    Nat.and_two_pow_sub_one_eq_mod, Nat.mod_mod_of_dvd _ (Nat.pow_dvd_pow 2 fits)]

theorem truncated_counters_agree (le : a ≤ b) (near : b < a + 2 ^ w) :
    BitVec.ofNat w a = BitVec.ofNat w b ↔ a = b := by
  constructor
  · intro same
    have mods : a % 2 ^ w = b % 2 ^ w := by
      have := congrArg BitVec.toNat same
      simpa using this
    have gap : (b - a) % 2 ^ w = 0 := Nat.sub_mod_eq_zero_of_mod_eq mods.symm
    rw [Nat.mod_eq_of_lt (by omega)] at gap
    omega
  · intro same
    rw [same]

end RtosRing
