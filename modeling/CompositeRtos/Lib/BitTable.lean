import Mathlib.Logic.Function.Basic
import Mathlib.Data.Nat.Basic

/-!
A set of numbers packed into a table of machine words: number `v` is bit `v % w` of word
`v / w`. The words are searched from the top for the greatest member.
-/
namespace RtosBitTable
open Function BitVec

variable {w : Nat}

abbrev Table (w : Nat) := Nat → BitVec w

def getBit (tab : Table w) (v : Nat) : Bool := (tab (v / w)).getLsbD (v % w)

def setBit (tab : Table w) (v : Nat) : Table w :=
  Function.update tab (v / w) (tab (v / w) ||| BitVec.twoPow w (v % w))

def resetBit (tab : Table w) (v : Nat) : Table w :=
  Function.update tab (v / w) (tab (v / w) &&& ~~~(BitVec.twoPow w (v % w)))

def topBit (word : BitVec w) : Nat := w - 1 - word.clz.toNat

def highest (tab : Table w) : Nat → Option Nat
  | 0 => none
  | i + 1 => if tab i ≠ 0 then some (i * w + topBit (tab i)) else highest tab i

theorem same_bit_iff (words : u / w = v / w) : v % w = u % w ↔ u = v := by
  constructor
  · intro bits
    rw [← Nat.div_add_mod u w, ← Nat.div_add_mod v w, words, bits]
  · rintro rfl
    rfl

theorem get_set_bit (positive : 0 < w) (tab : Table w) (u v : Nat) :
    getBit (setBit tab v) u = (getBit tab u || decide (u = v)) := by
  have inside := Nat.mod_lt v positive
  unfold getBit setBit
  by_cases words : u / w = v / w
  · rw [words, update_self, getLsbD_or, getLsbD_twoPow]
    simp [same_bit_iff words, inside]
  have other : u ≠ v := fun same => words (by rw [same])
  rw [update_of_ne words]
  simp [other]

theorem get_reset_bit (positive : 0 < w) (tab : Table w) :
    getBit (resetBit tab v) u = (getBit tab u && decide (u ≠ v)) := by
  have inside := Nat.mod_lt v positive
  have u_inside := Nat.mod_lt u positive
  unfold getBit resetBit
  by_cases words : u / w = v / w
  · rw [words, update_self, getLsbD_and, getLsbD_not, getLsbD_twoPow]
    simp [same_bit_iff words, inside, u_inside]
  have other : u ≠ v := fun same => words (by rw [same])
  rw [update_of_ne words]
  simp [other]

theorem top_bit_set {word : BitVec w} (nonzero : word ≠ 0) : topBit word < w ∧ word.getLsbD (topBit word) = true := by
  have positive : 0 < w := by
    by_contra none
    have zero : w = 0 := by omega
    subst zero
    exact nonzero (eq_of_zero_length rfl)
  exact ⟨by unfold topBit; omega, getLsbD_true_clz_of_ne_zero positive nonzero⟩

theorem above_top_bit {word : BitVec w} (nonzero : word ≠ 0) {i : Nat} (above : topBit word < i) :
    word.getLsbD i = false := by
  have small : word.toNat < 2 ^ (w - word.clz.toNat) := toNat_lt_two_pow_sub_clz
  have top := (top_bit_set nonzero).1
  unfold topBit at above top
  rw [getLsbD]
  apply Nat.testBit_lt_two_pow
  exact Nat.lt_of_lt_of_le small (Nat.pow_le_pow_right (by omega) (by omega))

theorem highest_spec (positive : 0 < w) (tab : Table w) (n : Nat) :
    match highest tab n with
    | none => ∀ u, u < n * w → getBit tab u = false
    | some v => v < n * w ∧ getBit tab v = true ∧ ∀ u, v < u → u < n * w → getBit tab u = false := by
  induction n with
  | zero =>
    intro u bound
    omega
  | succ i ih =>
    rw [highest]
    have step : (i + 1) * w = i * w + w := Nat.succ_mul i w
    -- the members in word `i`
    have place : ∀ {u}, i * w ≤ u → u < (i + 1) * w → u / w = i ∧ u % w = u - i * w := by
      intro u low high
      have word : u / w = i := Nat.div_eq_of_lt_le low high
      have whole := Nat.div_add_mod u w
      rw [word, Nat.mul_comm] at whole
      exact ⟨word, by omega⟩
    by_cases empty : tab i = 0
    · rw [if_neg (by simpa using empty)]
      have none_here : ∀ u, i * w ≤ u → u < (i + 1) * w → getBit tab u = false := by
        intro u low high
        rw [getBit, (place low high).1, empty, ofNat_eq_ofNat, getLsbD_zero]
      split at ih
      · intro u bound
        rcases Nat.lt_or_ge u (i * w) with below | here
        · exact ih u below
        · exact none_here u here bound
      obtain ⟨bound, member, greatest⟩ := ih
      refine ⟨by omega, member, ?_⟩
      intro u above high
      rcases Nat.lt_or_ge u (i * w) with below | here
      · exact greatest u above below
      · exact none_here u here high
    · rw [if_pos empty]
      obtain ⟨inside, set⟩ := top_bit_set empty
      obtain ⟨word, bit⟩ := place (u := i * w + topBit (tab i)) (by omega) (by omega)
      refine ⟨by omega, ?_, ?_⟩
      · rw [getBit, word, bit, Nat.add_sub_cancel_left]
        exact set
      intro u above high
      obtain ⟨u_word, u_bit⟩ := place (by omega) high
      rw [getBit, u_word, u_bit]
      exact above_top_bit empty (by omega)

theorem highest_none (positive : 0 < w) {tab : Table w} (missing : highest tab n = none) (bound : u < n * w) :
    getBit tab u = false := by
  have spec := highest_spec positive tab n
  rw [missing] at spec
  exact spec u bound

theorem highest_some (positive : 0 < w) {tab : Table w} (found : highest tab n = some v) :
    v < n * w ∧ getBit tab v = true ∧ ∀ u, v < u → u < n * w → getBit tab u = false := by
  have spec := highest_spec positive tab n
  rw [found] at spec
  exact spec

theorem highest_eq (positive : 0 < w) {tab : Table w} (bound : v < n * w) (member : getBit tab v = true)
    (greatest : ∀ u, v < u → u < n * w → getBit tab u = false) : highest tab n = some v := by
  cases found : highest tab n with
  | none =>
    rw [highest_none positive found bound] at member
    cases member
  | some u =>
    obtain ⟨u_bound, u_member, u_greatest⟩ := highest_some positive found
    rcases Nat.lt_trichotomy u v with below | same | above
    · rw [u_greatest v below bound] at member
      cases member
    · rw [same]
    · rw [greatest u above u_bound] at u_member
      cases u_member

end RtosBitTable
