import Mathlib.Data.List.Basic
import Mathlib.Tactic.IntervalCases

/-!
Little-endian 64-bit words over a byte memory. The address type is arbitrary: a word is
read through `cells`, which gives the address of its byte number `k`. The two laws a
program proof needs are that a store is read back and that it is not seen elsewhere. A
word can also be stored and loaded as two 32-bit halves. A run of bytes is written by
`patch`, and two runs written one behind the other are one.
-/
namespace RtosByteMemory
open BitVec

section Patch
variable {B : Type}

def patch (mem : Nat → B) (start : Nat) (data : List B) : Nat → B :=
  fun a => if start ≤ a then (data[a - start]?).getD (mem a) else mem a

theorem patch_nil : patch mem start [] = mem := by
  funext a
  simp [patch]

theorem patch_inside (mem : Nat → B) (start : Nat) (inside : k < data.length) :
    patch mem start data (start + k) = data[k] := by
  rw [patch, if_pos (Nat.le_add_right _ _), Nat.add_sub_cancel_left, List.getElem?_eq_getElem inside,
    Option.getD_some]

theorem patch_outside (mem : Nat → B) (outside : a < start ∨ start + data.length ≤ a) :
    patch mem start data a = mem a := by
  unfold patch
  split
  · rw [List.getElem?_eq_none (by omega), Option.getD_none]
  · rfl

theorem patch_append :
    patch (patch mem start first) (start + first.length) second = patch mem start (first ++ second) := by
  funext a
  rcases Nat.lt_or_ge a (start + first.length) with early | late
  · rw [patch_outside _ (Or.inl early)]
    unfold patch
    split
    · rw [List.getElem?_append_left (by omega)]
    · rfl
  · rw [patch, if_pos late, patch_outside _ (Or.inr late), patch, if_pos (by omega),
      List.getElem?_append_right (by omega), Nat.sub_add_eq]

end Patch

variable {A : Type} [DecidableEq A]

def loadWord (mem : A → BitVec 8) (cells : Nat → A) : BitVec 64 :=
  mem (cells 7) ++ mem (cells 6) ++ mem (cells 5) ++ mem (cells 4) ++
    mem (cells 3) ++ mem (cells 2) ++ mem (cells 1) ++ mem (cells 0)

def storeWord (mem : A → BitVec 8) (cells : Nat → A) (word : BitVec 64) : A → BitVec 8 :=
  fun a =>
    match (List.range 8).find? fun k => cells k = a with
    | some k => word.extractLsb' (8 * k) 8
    | none => mem a

def Spread (cells : Nat → A) : Prop :=
  ∀ j k, j < 8 → k < 8 → cells j = cells k → j = k

def Apart (cells other : Nat → A) : Prop :=
  ∀ j k, j < 8 → k < 8 → cells j ≠ other k

omit [DecidableEq A] in
theorem load_word_bit (mem : A → BitVec 8) (cells : Nat → A) (bound : i < 64) :
    (loadWord mem cells).getLsbD i = (mem (cells (i / 8))).getLsbD (i % 8) := by
  have lane : i / 8 < 8 := by omega
  have split : i = 8 * (i / 8) + i % 8 := by omega
  have small : i % 8 < 8 := by omega
  generalize i / 8 = j at lane split
  generalize i % 8 = k at split small
  subst split
  simp only [loadWord, getLsbD_append]
  interval_cases j <;> grind

omit [DecidableEq A] in
theorem load_word_byte (bound : k < 8) : (loadWord mem cells).extractLsb' (8 * k) 8 = mem (cells k) := by
  apply eq_of_getLsbD_eq
  intro i small
  have lane : (8 * k + i) / 8 = k := by omega
  have rest : (8 * k + i) % 8 = i := by omega
  rw [getLsbD_extractLsb', load_word_bit _ _ (by omega), lane, rest]
  simp [small]

theorem find_outside {cells : Nat → A} (outside : ∀ k, k < n → cells k ≠ a) :
    ((List.range n).find? fun k => cells k = a) = none := by
  apply List.find?_eq_none.mpr
  intro k member
  simpa using outside k (List.mem_range.mp member)

theorem find_inside {cells : Nat → A} (apart : ∀ j k, j < n → k < n → cells j = cells k → j = k) (bound : k < n) :
    ((List.range n).find? fun j => cells j = cells k) = some k := by
  cases found : (List.range n).find? fun j => cells j = cells k with
  | none =>
    have none_matches := List.find?_eq_none.mp found k (List.mem_range.mpr bound)
    simp at none_matches
  | some j =>
    have matched := List.find?_some found
    have member := List.mem_of_find?_eq_some found
    rw [apart j k (List.mem_range.mp member) bound (by simpa using matched)]

theorem store_word_outside (mem : A → BitVec 8) (cells : Nat → A) (word : BitVec 64)
    (outside : ∀ k, k < 8 → cells k ≠ a) : storeWord mem cells word a = mem a := by
  simp only [storeWord, find_outside outside]

theorem store_word_inside (mem : A → BitVec 8) (spread : Spread cells) (bound : k < 8) :
    storeWord mem cells word (cells k) = word.extractLsb' (8 * k) 8 := by
  simp only [storeWord, find_inside spread bound]

theorem load_store_same (mem : A → BitVec 8) (word : BitVec 64) (spread : Spread cells) :
    loadWord (storeWord mem cells word) cells = word := by
  apply eq_of_getLsbD_eq
  intro i bound
  have lane : i / 8 < 8 := by omega
  have small : i % 8 < 8 := by omega
  have split : 8 * (i / 8) + i % 8 = i := by omega
  rw [load_word_bit _ _ bound]
  simp only [store_word_inside mem spread lane, getLsbD_extractLsb', small, split, decide_true, Bool.true_and]

omit [DecidableEq A] in
theorem load_word_congr (same : ∀ k, k < 8 → mem (cells k) = mem' (cells k)) :
    loadWord mem cells = loadWord mem' cells := by
  apply eq_of_getLsbD_eq
  intro i bound
  rw [load_word_bit _ _ bound, load_word_bit _ _ bound, same (i / 8) (by omega)]

theorem load_store_apart (mem : A → BitVec 8) (word : BitVec 64) (apart : Apart cells other) :
    loadWord (storeWord mem cells word) other = loadWord mem other := by
  apply load_word_congr
  intro k bound
  apply store_word_outside
  intro j inside
  exact apart j k inside bound

def loadHalf (mem : A → BitVec 8) (cells : Nat → A) : BitVec 32 :=
  mem (cells 3) ++ mem (cells 2) ++ mem (cells 1) ++ mem (cells 0)

def storeHalf (mem : A → BitVec 8) (cells : Nat → A) (half : BitVec 32) : A → BitVec 8 :=
  fun a =>
    match (List.range 4).find? fun k => cells k = a with
    | some k => half.extractLsb' (8 * k) 8
    | none => mem a

def upperCells (cells : Nat → A) (k : Nat) : A := cells (k + 4)

omit [DecidableEq A] in
theorem load_halves : loadHalf mem (upperCells cells) ++ loadHalf mem cells = loadWord mem cells := by
  apply eq_of_getLsbD_eq
  intro i bound
  simp only [loadHalf, loadWord, upperCells, getLsbD_append]
  grind

theorem store_half_outside (mem : A → BitVec 8) (cells : Nat → A) (half : BitVec 32)
    (outside : ∀ k, k < 4 → cells k ≠ a) : storeHalf mem cells half a = mem a := by
  simp only [storeHalf, find_outside outside]

theorem store_half_inside (mem : A → BitVec 8) (half : BitVec 32)
    (apart : ∀ j k, j < 4 → k < 4 → cells j = cells k → j = k) (bound : k < 4) :
    storeHalf mem cells half (cells k) = half.extractLsb' (8 * k) 8 := by
  simp only [storeHalf, find_inside apart bound]

theorem store_halves (mem : A → BitVec 8) (spread : Spread cells) (lo hi : BitVec 32) :
    storeHalf (storeHalf mem cells lo) (upperCells cells) hi = storeWord mem cells (hi ++ lo) := by
  funext a
  by_cases inside : ∃ k, k < 8 ∧ cells k = a
  · obtain ⟨k, bound, rfl⟩ := inside
    rw [store_word_inside mem spread bound]
    by_cases low : k < 4
    · rw [store_half_outside, store_half_inside mem lo _ low]
      · apply eq_of_getLsbD_eq
        intro i small
        simp only [getLsbD_extractLsb', getLsbD_append]
        grind
      · intro i j hi hj same
        exact spread i j (by omega) (by omega) same
      intro j hj same
      have := spread (j + 4) k (by omega) bound same
      omega
    · have index : k = (k - 4) + 4 := by omega
      have upper : cells k = upperCells cells (k - 4) := by rw [upperCells, ← index]
      rw [upper, store_half_inside _ hi _ (by omega)]
      · apply eq_of_getLsbD_eq
        intro i small
        simp only [getLsbD_extractLsb', getLsbD_append]
        grind
      intro i j hi hj same
      have := spread (i + 4) (j + 4) (by omega) (by omega) same
      omega
  · have outside : ∀ k, k < 8 → cells k ≠ a := fun k bound same => inside ⟨k, bound, same⟩
    rw [store_word_outside mem cells _ outside, store_half_outside, store_half_outside]
    · exact fun k bound => outside k (by omega)
    · exact fun k bound => outside (k + 4) (by omega)

end RtosByteMemory
