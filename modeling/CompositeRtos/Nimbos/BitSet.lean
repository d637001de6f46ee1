import Mathlib.Data.Finset.Basic
import CompositeRtos.Lib.BitTable
import CompositeRtos.Nimbos.UintrTasks

/-!
`BitSet<N, M>` of the sender table, for any number of bits. Its words are a table in the
sense of the library, and after any sequence of `set` and `clear` the table holds exactly
the indices set and not cleared since. An index outside of the words is a panic.
-/
namespace RtosNimbosBitSet
open RtosTransition RtosBitTable
open RtosNimbosUintrTasks (trailingOnes uintrMaxUittNr)
open BitVec Option

structure BitSet (n m : Nat) where
  bits : Vector (BitVec 64) m

namespace BitSet

variable {n m : Nat}

def new : BitSet n m := ⟨Vector.replicate m 0⟩

def set (s : BitSet n m) (index : Nat) : Option (BitSet n m) :=
  if index < n then
    (s.bits[index / 64]?).map fun word =>
      ⟨s.bits.setIfInBounds (index / 64) (word ||| 1#64 <<< (index % 64))⟩
  else none

def clear (s : BitSet n m) (index : Nat) : Option (BitSet n m) :=
  if index < n then
    (s.bits[index / 64]?).map fun word =>
      ⟨s.bits.setIfInBounds (index / 64) (word &&& ~~~(1#64 <<< (index % 64)))⟩
  else none

def test (s : BitSet n m) (index : Nat) : Option Bool :=
  if index < n then
    (s.bits[index / 64]?).map fun word => (word &&& 1#64 <<< (index % 64)) != 0
  else none

def findZeroFrom (n : Nat) : List (BitVec 64) → Nat → Option Nat
  | [], _ => none
  | word :: rest, wordIdx =>
    if word ≠ -1 ∧ wordIdx * 64 + trailingOnes word < n then some (wordIdx * 64 + trailingOnes word)
    else findZeroFrom n rest (wordIdx + 1)

def findFirstZero (s : BitSet n m) : Option Nat := findZeroFrom n s.bits.toList 0

def isEmpty (s : BitSet n m) : Bool := s.bits.toList.all fun x => x == 0

def isFull (s : BitSet n m) : Option Bool :=
  if (s.bits.toList.take (n / 64)).all (fun x => x == -1) then
    if n % 64 ≠ 0 then (s.bits[n / 64]?).map fun word => word == 1#64 <<< (n % 64) - 1
    else some true
  else some false

def table (s : BitSet n m) : Table 64 := fun i => s.bits[i]?.getD 0

end BitSet

def maskWords (n : Nat) : Nat := (n + 63) / 64

structure Session (n : Nat) where
  set : BitSet n (maskWords n)
  members : Finset Nat

inductive Call where
  | set (index : Nat)
  | clear (index : Nat)

def Session.call {n : Nat} (s : Session n) : Call → Option (Session n)
  | .set index => (s.set.set index).map fun t => ⟨t, insert index s.members⟩
  | .clear index => (s.set.clear index).map fun t => ⟨t, s.members.erase index⟩

def calls (n : Nat) : Machine (Session n) Call where
  start s := s = ⟨BitSet.new, ∅⟩
  next s c t := s.call c = some t

theorem trailing_ones : (∀ k, k < trailingOnes word → word.getLsbD k = true) ∧
      (trailingOnes word < 64 → word.getLsbD (trailingOnes word) = false) := by
  unfold trailingOnes
  cases search : (List.range 64).find? fun i => !word.getLsbD i with
  | none =>
    simp only [getD_none]
    refine ⟨?_, by omega⟩
    intro k bound
    have one := List.find?_eq_none.mp search k (List.mem_range.mpr bound)
    simpa using one
  | some i =>
    obtain ⟨zero, _, ones⟩ := List.find?_range_eq_some.mp search
    simp only [getD_some]
    exact ⟨fun k below => by simpa using ones k below, fun _ => by simpa using zero⟩

theorem full_word_iff (word : BitVec 64) : word = -1 ↔ ∀ k, k < 64 → word.getLsbD k = true := by
  rw [show (-1 : BitVec 64) = allOnes 64 from rfl]
  constructor
  · rintro rfl k bound
    rw [getLsbD_allOnes]
    exact decide_eq_true bound
  intro ones
  apply eq_of_getLsbD_eq
  intro k bound
  rw [ones k bound, getLsbD_allOnes]
  exact (decide_eq_true bound).symm

theorem empty_word_iff (word : BitVec 64) : word = 0 ↔ ∀ k, k < 64 → word.getLsbD k = false := by
  constructor
  · rintro rfl k bound
    exact getLsbD_zero
  intro zeros
  apply eq_of_getLsbD_eq
  intro k bound
  rw [zeros k bound]
  exact getLsbD_zero.symm

theorem low_mask_iff (small : r < 64) :
    word = 1#64 <<< r - 1 ↔ ∀ k, k < 64 → word.getLsbD k = decide (k < r) := by
  have mask : ∀ k, k < 64 → (1#64 <<< r - 1).getLsbD k = decide (k < r) := by
    intro k bound
    have power : 2 ^ r < 2 ^ 64 := Nat.pow_lt_pow_right (by omega) small
    have value : (1#64 <<< r - 1).toNat = 2 ^ r - 1 := by
      have one := Nat.one_le_two_pow (n := r)
      rw [toNat_sub, toNat_shiftLeft, toNat_ofNat, Nat.one_mod, Nat.one_shiftLeft,
        Nat.mod_eq_of_lt power]
      simp only [ofNat_eq_ofNat, toNat_ofNat]
      omega
    rw [getLsbD, value, Nat.testBit_two_pow_sub_one]
  constructor
  · rintro rfl k bound
    exact mask k bound
  intro bits
  apply eq_of_getLsbD_eq
  intro k bound
  rw [bits k bound, mask k bound]

theorem tested_bit (bound : k < 64) : ((word &&& 1#64 <<< k) != 0) = word.getLsbD k := by
  have single : word &&& 1#64 <<< k = word &&& twoPow 64 k := rfl
  have nonzero : twoPow 64 k ≠ 0 := by
    intro zero
    have bit := congrArg (fun w => w.getLsbD k) zero
    simp [bound] at bit
  rw [single, and_twoPow]
  cases word.getLsbD k with
  | true => exact bne_iff_ne.mpr nonzero
  | false => rfl

def Lowest (tab : Table 64) (n low high : Nat) : Option Nat → Prop
  | none => ∀ u, low ≤ u → u < high → u < n → getBit tab u = true
  | some v => low ≤ v ∧ v < n ∧ getBit tab v = false ∧ ∀ u, low ≤ u → u < v → getBit tab u = true

theorem get_bit_in (tab : Table 64) (low : i * 64 ≤ u) (high : u < (i + 1) * 64) :
    getBit tab u = (tab i).getLsbD (u - i * 64) := by
  have word : u / 64 = i := by omega
  have bit : u % 64 = u - i * 64 := by omega
  rw [getBit, word, bit]

theorem find_zero_from (n : Nat) (same : ∀ k word, words[k]? = some word → tab (i + k) = word) :
    Lowest tab n (i * 64) ((i + words.length) * 64) (BitSet.findZeroFrom n words i) := by
  induction words generalizing i with
  | nil =>
    intro u low high
    simp only [List.length_nil] at high
    omega
  | cons word rest ih =>
    have here : tab i = word := same 0 word rfl
    have later : Lowest tab n ((i + 1) * 64) ((i + 1 + rest.length) * 64) (BitSet.findZeroFrom n rest (i + 1)) := by
      apply ih
      intro k w found
      rw [Nat.add_assoc, Nat.add_comm 1 k]
      exact same (k + 1) w found
    obtain ⟨ones, zero⟩ := trailing_ones
    have below : ∀ u, i * 64 ≤ u → u < (i + 1) * 64 → u < i * 64 + trailingOnes word → getBit tab u = true := by
      intro u low high bound
      rw [get_bit_in tab low high, here]
      exact ones _ (by omega)
    rw [BitSet.findZeroFrom]
    split
    · rename_i found
      -- a word that is not full has its first zero among its 64 bits
      have inside : trailingOnes word < 64 := by
        by_contra full
        apply found.1
        rw [full_word_iff]
        exact fun k bound => ones k (by omega)
      refine ⟨by omega, found.2, ?_, ?_⟩
      · rw [get_bit_in tab (i := i) (by omega) (by omega), here, Nat.add_sub_cancel_left]
        exact zero inside
      · intro u low bound
        exact below u low (by omega) bound
    · rename_i passed
      -- every bit of this word below `n` is set
      have set : ∀ u, i * 64 ≤ u → u < (i + 1) * 64 → u < n → getBit tab u = true := by
        intro u low high bound
        by_cases full : word = -1
        · rw [get_bit_in tab low high, here]
          exact (full_word_iff word).mp full _ (by omega)
        have large : n ≤ i * 64 + trailingOnes word := by
          by_contra small
          exact passed ⟨full, by omega⟩
        exact below u low high (by omega)
      simp only [List.length_cons]
      rw [show i + (rest.length + 1) = i + 1 + rest.length by omega]
      cases result : BitSet.findZeroFrom n rest (i + 1) with
      | none =>
        rw [result] at later
        intro u low high bound
        rcases Nat.lt_or_ge u ((i + 1) * 64) with first | second
        · exact set u low first bound
        · exact later u second high bound
      | some v =>
        rw [result] at later
        obtain ⟨start, bound, clear, least⟩ := later
        refine ⟨by omega, bound, clear, ?_⟩
        intro u low under
        rcases Nat.lt_or_ge u ((i + 1) * 64) with first | second
        · exact set u low first (by omega)
        · exact least u second under

namespace BitSet

theorem table_of_word {s : BitSet n m} (found : s.bits[i]? = some word) : s.table i = word := by
  rw [table, found, getD_some]

theorem table_outside {s : BitSet n m} (outside : m ≤ i) : s.table i = 0 := by
  rw [table, Vector.getElem?_eq_none outside, getD_none]

theorem table_update (s : BitSet n m) (bound : i < m) (word : BitVec 64) :
    (⟨s.bits.setIfInBounds i word⟩ : BitSet n m).table = Function.update s.table i word := by
  funext j
  by_cases here : j = i
  · subst here
    rw [Function.update_self]
    simp [table, bound]
  · rw [Function.update_of_ne here]
    simp [table, Ne.symm here]

theorem find_lowest (s : BitSet n m) : Lowest s.table n 0 (m * 64) s.findFirstZero := by
  have same : ∀ k word, s.bits.toList[k]? = some word → s.table (0 + k) = word := by
    intro k word here
    rw [Nat.zero_add]
    exact table_of_word (by simpa using here)
  have found := find_zero_from n same
  rw [Vector.length_toList, Nat.zero_mul, Nat.zero_add] at found
  exact found

end BitSet

structure Represents {n : Nat} (s : Session n) : Prop where
  inside : ∀ i, i ∈ s.members → i < n
  holds : ∀ i, getBit s.set.table i = decide (i ∈ s.members)

section Runs

variable {n : Nat}

theorem word_exists (bound : index < n) : index / 64 < maskWords n := by
  unfold maskWords
  omega

theorem word_at (s : BitSet n (maskWords n)) (bound : index < n) : ∃ word, s.bits[index / 64]? = some word :=
  ⟨_, Vector.getElem?_eq_getElem (word_exists bound)⟩

theorem set_some (s : BitSet n (maskWords n)) (bound : index < n) :
    ∃ t, s.set index = some t ∧ t.table = setBit s.table index := by
  obtain ⟨_, word⟩ := word_at s bound
  rw [BitSet.set, if_pos bound, word]
  refine ⟨_, rfl, ?_⟩
  rw [BitSet.table_update s (word_exists bound), setBit, BitSet.table_of_word word]
  rfl

theorem clear_some (s : BitSet n (maskWords n)) (bound : index < n) :
    ∃ t, s.clear index = some t ∧ t.table = resetBit s.table index := by
  obtain ⟨_, word⟩ := word_at s bound
  rw [BitSet.clear, if_pos bound, word]
  refine ⟨_, rfl, ?_⟩
  rw [BitSet.table_update s (word_exists bound), resetBit, BitSet.table_of_word word]
  rfl

theorem represents_new : Represents (⟨BitSet.new, ∅⟩ : Session n) where
  inside := by simp
  holds := by
    intro i
    have zero : (BitSet.new : BitSet n (maskWords n)).table (i / 64) = 0 := by
      by_cases bound : i / 64 < maskWords n
      · exact BitSet.table_of_word (by simp [BitSet.new, bound])
      · exact BitSet.table_outside (by omega)
    simp [getBit, zero]

theorem represents_set {s : Session n} (inv : Represents s) (step : s.call (.set index) = some t) : Represents t := by
  obtain ⟨after, done, rfl⟩ := map_eq_some_iff.mp step
  have bound : index < n := by
    by_contra large
    rw [BitSet.set, if_neg large] at done
    cases done
  obtain ⟨after', same, updated⟩ := set_some s.set bound
  rw [same] at done
  cases done
  constructor
  · intro i member
    rcases Finset.mem_insert.mp member with here | there
    · rw [here]
      exact bound
    · exact inv.inside i there
  intro i
  simp only [updated]
  rw [get_set_bit (by decide), inv.holds i]
  simp [Bool.or_comm]

theorem represents_clear {s : Session n} (inv : Represents s) (step : s.call (.clear index) = some t) :
    Represents t := by
  obtain ⟨after, done, rfl⟩ := map_eq_some_iff.mp step
  have bound : index < n := by
    by_contra large
    rw [BitSet.clear, if_neg large] at done
    cases done
  obtain ⟨after', same, updated⟩ := clear_some s.set bound
  rw [same] at done
  cases done
  constructor
  · intro i member
    exact inv.inside i (Finset.mem_of_mem_erase member)
  intro i
  simp only [updated]
  rw [get_reset_bit (by decide), inv.holds i]
  simp [Bool.and_comm]

theorem represents_reachable (run : Reachable (calls n) s) : Represents s := by
  apply reachable_invariant Represents _ _ run
  · intro s first
    cases first
    exact represents_new
  intro s c t inv step
  cases c with
  | set index => exact represents_set inv step
  | clear index => exact represents_clear inv step

namespace Represents

variable {s : Session n} (inv : Represents s)
include inv

theorem test_some (bound : i < n) : s.set.test i = some (decide (i ∈ s.members)) := by
  obtain ⟨_, word⟩ := word_at s.set bound
  rw [BitSet.test, if_pos bound, word, map_some, tested_bit (Nat.mod_lt i (by decide)), ← inv.holds i,
    getBit, BitSet.table_of_word word]

theorem find_none_iff : s.set.findFirstZero = none ↔ ∀ i, i < n → i ∈ s.members := by
  have lowest := s.set.find_lowest
  constructor
  · intro missing i bound
    rw [missing] at lowest
    have word := word_exists bound
    have set := lowest i (by omega) (by omega) bound
    rw [inv.holds i] at set
    exact of_decide_eq_true set
  intro full
  cases found : s.set.findFirstZero with
  | none => rfl
  | some v =>
    rw [found] at lowest
    obtain ⟨_, bound, clear, _⟩ := lowest
    rw [inv.holds v, decide_eq_false_iff_not] at clear
    exact absurd (full v bound) clear

theorem find_some_iff (i : Nat) :
    s.set.findFirstZero = some i ↔ i < n ∧ i ∉ s.members ∧ ∀ j, j < i → j ∈ s.members := by
  have lowest := s.set.find_lowest
  constructor
  · intro found
    rw [found] at lowest
    obtain ⟨_, bound, clear, least⟩ := lowest
    rw [inv.holds i, decide_eq_false_iff_not] at clear
    refine ⟨bound, clear, ?_⟩
    intro j below
    have set := least j (by omega) below
    rw [inv.holds j] at set
    exact of_decide_eq_true set
  · rintro ⟨bound, clear, least⟩
    cases found : s.set.findFirstZero with
    | none => exact absurd (inv.find_none_iff.mp found i bound) clear
    | some v =>
      rw [found] at lowest
      obtain ⟨_, v_bound, v_clear, v_least⟩ := lowest
      rw [inv.holds v, decide_eq_false_iff_not] at v_clear
      rcases Nat.lt_trichotomy v i with below | same | above
      · exact absurd (least v below) v_clear
      · rw [same]
      have set := v_least i (by omega) above
      rw [inv.holds i] at set
      exact absurd (of_decide_eq_true set) clear

theorem empty_iff : s.set.isEmpty = true ↔ s.members = ∅ := by
  rw [BitSet.isEmpty, List.all_eq_true]
  constructor
  · intro zeros
    apply Finset.eq_empty_of_forall_notMem
    intro i member
    obtain ⟨_, word⟩ := word_at s.set (inv.inside i member)
    have zero := zeros _ (Vector.mem_toList_iff.mpr (Vector.mem_of_getElem? word))
    have bit := inv.holds i
    rw [getBit, BitSet.table_of_word word, beq_iff_eq.mp zero] at bit
    simp [member] at bit
  · intro none word member
    obtain ⟨i, bound, rfl⟩ := Vector.mem_iff_getElem.mp (Vector.mem_toList_iff.mp member)
    rw [beq_iff_eq, empty_word_iff]
    intro k small
    have bit := inv.holds (i * 64 + k)
    rw [get_bit_in _ (i := i) (by omega) (by omega), Nat.add_sub_cancel_left,
      BitSet.table_of_word (Vector.getElem?_eq_getElem bound), none] at bit
    simpa using bit

theorem word_bit {word : BitVec 64} (found : s.set.bits[i]? = some word) (small : k < 64) :
    word.getLsbD k = decide (i * 64 + k ∈ s.members) := by
  rw [← inv.holds, get_bit_in _ (i := i) (by omega) (by omega), Nat.add_sub_cancel_left, BitSet.table_of_word found]

theorem full_words_iff :
    (s.set.bits.toList.take (n / 64)).all (fun x => x == -1) = true ↔
      ∀ i, i < n / 64 * 64 → i ∈ s.members := by
  rw [List.all_eq_true]
  constructor
  · intro full i bound
    obtain ⟨word, found⟩ := word_at s.set (show i < n by omega)
    have member : word ∈ s.set.bits.toList.take (n / 64) := by
      apply List.mem_of_getElem? (i := i / 64)
      rw [List.getElem?_take_of_lt (by omega)]
      simpa using found
    have ones := (full_word_iff _).mp (beq_iff_eq.mp (full _ member)) (i % 64) (by omega)
    rw [inv.word_bit found (by omega), Nat.div_add_mod' i 64] at ones
    exact of_decide_eq_true ones
  · intro full word member
    obtain ⟨i, found⟩ := List.mem_iff_getElem?.mp member
    have bound : i < n / 64 := by
      by_contra large
      rw [List.getElem?_take_eq_none (by omega)] at found
      cases found
    have listed : s.set.bits.toList[i]? = some word := by
      rw [List.getElem?_take_of_lt bound] at found
      exact found
    rw [beq_iff_eq, full_word_iff]
    intro k small
    rw [inv.word_bit (i := i) (by simpa using listed) small]
    exact decide_eq_true (full _ (by omega))

theorem full_some : s.set.isFull = some (decide (∀ i, i < n → i ∈ s.members)) := by
  unfold BitSet.isFull
  by_cases full : ∀ i, i < n / 64 * 64 → i ∈ s.members
  · rw [if_pos (inv.full_words_iff.mpr full)]
    by_cases rest : n % 64 ≠ 0
    · obtain ⟨_, word⟩ : ∃ word, s.set.bits[n / 64]? = some word :=
        ⟨_, Vector.getElem?_eq_getElem (by unfold maskWords; omega)⟩
      rw [if_pos rest, word, map_some, some_inj, Bool.eq_iff_iff, beq_iff_eq,
        low_mask_iff (Nat.mod_lt n (by decide)), decide_eq_true_eq]
      constructor
      · intro bits i bound
        rcases Nat.lt_or_ge i (n / 64 * 64) with below | last
        · exact full i below
        have bit := bits (i - n / 64 * 64) (by omega)
        rw [inv.word_bit word (by omega), show n / 64 * 64 + (i - n / 64 * 64) = i by omega,
          decide_eq_true (p := i - n / 64 * 64 < n % 64) (by omega)] at bit
        exact of_decide_eq_true bit
      · intro every k small
        rw [inv.word_bit word small, decide_eq_decide]
        constructor
        · intro member
          have := inv.inside _ member
          omega
        · intro low
          exact every _ (by omega)
    · have whole : n / 64 * 64 = n := by omega
      rw [whole] at full
      rw [if_neg rest, decide_eq_true full]
  · have partly : ¬ ∀ i, i < n → i ∈ s.members := fun every => full fun i bound => every i (by omega)
    rw [if_neg (mt inv.full_words_iff.mp full), decide_eq_false partly]

end Represents

/-- In every run the words answer as the set of the indices set and not cleared since. -/
theorem bit_set_is_set {s : Session n} (run : Reachable (calls n) s) :
    (∀ i, i < n → (s.set.set i).isSome = true ∧ (s.set.clear i).isSome = true) ∧
      (∀ i, i < n → s.set.test i = some (decide (i ∈ s.members))) ∧
      (s.set.findFirstZero = none ↔ ∀ i, i < n → i ∈ s.members) ∧
      (∀ i, s.set.findFirstZero = some i ↔ i < n ∧ i ∉ s.members ∧ ∀ j, j < i → j ∈ s.members) ∧
      s.set.isFull = some (decide (∀ i, i < n → i ∈ s.members)) ∧
      (s.set.isEmpty = true ↔ s.members = ∅) := by
  have inv := represents_reachable run
  refine ⟨?_, fun i bound => inv.test_some bound, inv.find_none_iff, inv.find_some_iff, inv.full_some, inv.empty_iff⟩
  intro i bound
  obtain ⟨t, set, _⟩ := set_some s.set bound
  obtain ⟨u, cleared, _⟩ := clear_some s.set bound
  rw [set, cleared]
  exact ⟨rfl, rfl⟩

end Runs

/-- Seventy bits, so that the last word is not used to its end. -/
theorem first_word_filled :
    ∃ s : Session 70, Reachable (calls 70) s ∧ s.set.findFirstZero = some 1 ∧ s.set.isFull = some false := by
  let path : List Call := [.set 0, .set 1, .set 69, .clear 1]
  have done : (path.foldlM Session.call (⟨BitSet.new, ∅⟩ : Session 70)).map Session.members = some {0, 69} := by
    decide +kernel
  obtain ⟨s, ended, members⟩ := Option.map_eq_some_iff.mp done
  have reached : Reachable (calls 70) s :=
    reachable_follow (fun _ _ _ step => step) (reachable_start rfl) ended
  obtain ⟨_, _, _, lowest, full, _⟩ := bit_set_is_set reached
  rw [members] at lowest full
  exact ⟨s, reached, (lowest 1).mpr (by decide), full⟩

theorem mask_find_first_zero : (⟨#v[word]⟩ : BitSet uintrMaxUittNr (maskWords uintrMaxUittNr)).findFirstZero =
      RtosNimbosUintrTasks.findFirstZero word := by
  have list : (⟨#v[word]⟩ : BitSet uintrMaxUittNr (maskWords uintrMaxUittNr)).findFirstZero =
      BitSet.findZeroFrom uintrMaxUittNr [word] 0 := rfl
  rw [list, BitSet.findZeroFrom, BitSet.findZeroFrom, RtosNimbosUintrTasks.findFirstZero, Nat.zero_mul, Nat.zero_add]
  by_cases full : word = -1
  · rw [if_pos full, if_neg (fun both => both.1 full)]
  rw [if_neg full]
  by_cases small : trailingOnes word < uintrMaxUittNr
  · rw [if_pos ⟨full, small⟩, if_pos small]
  · rw [if_neg (fun both => small both.2), if_neg small]

end RtosNimbosBitSet
