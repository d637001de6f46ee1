import Mathlib.Algebra.Group.Nat.Defs
import Mathlib.Data.List.Pairwise

/-!
The clock of the kernel (`drivers/timer/x86_tsc.rs`) and `sys_nanosleep`. Times are `u64`
words: the product in `get_time_ns`, the product and the sum in `total_nano_sec` and the sum
in `sys_nanosleep` are each taken modulo 2^64. The loop of `sys_nanosleep` is given the values
that its calls of `get_time_ns` read from the TSC.
-/
namespace RtosNimbosClock
open BitVec

def nsecPerSec : BitVec 64 := 1000000000

def getTimeNs (cpuFrequency : BitVec 16) (cycle : BitVec 64) : BitVec 64 :=
  cycle * 1000 / cpuFrequency.setWidth 64

structure TimeSpec where
  sec : BitVec 64
  nsec : BitVec 64

def TimeSpec.totalNanoSec (t : TimeSpec) : BitVec 64 := t.sec * nsecPerSec + t.nsec

def sleepLoop (cpuFrequency : BitVec 16) (stopTime : BitVec 64) : List (BitVec 64) → Option (Int × BitVec 64)
  | [] => none
  | cycle :: later =>
    if getTimeNs cpuFrequency cycle < stopTime then sleepLoop cpuFrequency stopTime later else some (0, cycle)

def stopTime (cpuFrequency : BitVec 16) (cycle : BitVec 64) (req : TimeSpec) : BitVec 64 :=
  getTimeNs cpuFrequency cycle + req.totalNanoSec

def sysNanosleep (cpuFrequency : BitVec 16) (req : TimeSpec) : List (BitVec 64) → Option (Int × BitVec 64)
  | [] => none
  | cycle :: later => sleepLoop cpuFrequency (stopTime cpuFrequency cycle req) later

def exactNs (cpuFrequency : BitVec 16) (cycle : BitVec 64) : Nat := cycle.toNat * 1000 / cpuFrequency.toNat

def TimeSpec.exact (t : TimeSpec) : Nat := t.sec.toNat * 10 ^ 9 + t.nsec.toNat

def BeforeWrap (cycle : BitVec 64) : Prop := cycle.toNat * 1000 < 2 ^ 64

theorem get_time_exact (before : BeforeWrap cycle) :
    (getTimeNs cpuFrequency cycle).toNat = exactNs cpuFrequency cycle := by
  have frequency : (cpuFrequency.setWidth 64).toNat = cpuFrequency.toNat := by
    rw [toNat_setWidth, Nat.mod_eq_of_lt (Nat.lt_of_lt_of_le cpuFrequency.isLt (by decide))]
  rw [getTimeNs, toNat_udiv, toNat_mul, frequency, show (1000 : BitVec 64).toNat = 1000 from rfl,
    Nat.mod_eq_of_lt before, exactNs]

theorem exact_mono (cpuFrequency : BitVec 16) (order : c₁.toNat ≤ c₂.toNat) :
    exactNs cpuFrequency c₁ ≤ exactNs cpuFrequency c₂ :=
  Nat.div_le_div_right (Nat.mul_le_mul_right 1000 order)

theorem before_wrap_earlier (order : c₁.toNat ≤ c₂.toNat) (before : BeforeWrap c₂) : BeforeWrap c₁ :=
  Nat.lt_of_le_of_lt (Nat.mul_le_mul_right 1000 order) before

def firstWrap : BitVec 64 := 18446744073709552

theorem clock_goes_back (positive : cpuFrequency ≠ 0) :
    getTimeNs cpuFrequency firstWrap < getTimeNs cpuFrequency (firstWrap - 1) := by
  have small := cpuFrequency.isLt
  have some_hertz : 0 < cpuFrequency.toNat := by
    apply Nat.pos_of_ne_zero
    intro zero
    exact positive (eq_of_toNat_eq zero)
  have frequency : (cpuFrequency.setWidth 64).toNat = cpuFrequency.toNat := by
    rw [toNat_setWidth, Nat.mod_eq_of_lt (Nat.lt_of_lt_of_le small (by decide))]
  have after : (getTimeNs cpuFrequency firstWrap).toNat ≤ 384 := by
    rw [getTimeNs, toNat_udiv, show (firstWrap * 1000).toNat = 384 from rfl]
    exact Nat.div_le_self 384 _
  have before : 18446744073709551000 / 65536 ≤ (getTimeNs cpuFrequency (firstWrap - 1)).toNat := by
    rw [getTimeNs, toNat_udiv, show ((firstWrap - 1) * 1000).toNat = 18446744073709551000 from rfl, frequency]
    exact Nat.div_le_div_left (Nat.le_of_lt small) some_hertz
  rw [lt_def]
  omega

theorem clock_monotone_iff (positive : cpuFrequency ≠ 0) (bound : BitVec 64) :
    (∀ c₁ c₂ : BitVec 64, c₁ ≤ c₂ → c₂ ≤ bound → getTimeNs cpuFrequency c₁ ≤ getTimeNs cpuFrequency c₂) ↔
      BeforeWrap bound := by
  constructor
  · intro monotone
    by_contra wraps
    have first : firstWrap.toNat = 18446744073709552 := rfl
    have previous : (firstWrap - 1).toNat = 18446744073709551 := rfl
    unfold BeforeWrap at wraps
    have reached : firstWrap ≤ bound := by
      rw [le_def]
      omega
    have ordered : firstWrap - 1 ≤ firstWrap := by decide
    have kept := monotone (firstWrap - 1) firstWrap ordered reached
    exact BitVec.not_le.mpr (clock_goes_back positive) kept
  · intro before c₁ c₂ order below
    rw [le_def] at order below ⊢
    have before₂ := before_wrap_earlier below before
    rw [get_time_exact before₂, get_time_exact (before_wrap_earlier order before₂)]
    exact exact_mono cpuFrequency order

section Sleep
variable {cpuFrequency : BitVec 16} {req : TimeSpec} {call back first : BitVec 64} {later readings : List (BitVec 64)}

/-- A call at TSC value `call` that reads `readings` and returns 0 at `back`. -/
structure Slept (cpuFrequency : BitVec 16) (req : TimeSpec) (call back : BitVec 64) (readings : List (BitVec 64)) :
    Prop where
  ordered : (call :: (readings ++ [back])).Pairwise (·.toNat ≤ ·.toNat)
  returned : ∃ last, sysNanosleep cpuFrequency req readings = some (0, last)

theorem sleep_loop_returns (returned : sleepLoop cpuFrequency stop later = some (result, last)) :
    last ∈ later ∧ ¬ getTimeNs cpuFrequency last < stop := by
  induction later with
  | nil => cases returned
  | cons cycle later ih =>
    rw [sleepLoop] at returned
    split at returned
    · obtain ⟨member, reached⟩ := ih returned
      exact ⟨.tail _ member, reached⟩
    rename_i reached
    cases returned
    exact ⟨(.head _), reached⟩

theorem total_exact : req.totalNanoSec.toNat = req.exact % 2 ^ 64 := by
  rw [TimeSpec.totalNanoSec, toNat_add, toNat_mul, show nsecPerSec.toNat = 10 ^ 9 from rfl,
    TimeSpec.exact, Nat.mod_add_mod]

theorem stop_time_exact (cpuFrequency : BitVec 16) (req : TimeSpec) (before : BeforeWrap first) :
    (stopTime cpuFrequency first req).toNat = (exactNs cpuFrequency first + req.exact) % 2 ^ 64 := by
  rw [stopTime, toNat_add, get_time_exact before, total_exact, Nat.add_mod_mod]

def Fits (cpuFrequency : BitVec 16) (first : BitVec 64) (req : TimeSpec) : Prop :=
  exactNs cpuFrequency first + req.exact < 2 ^ 64

def Endless (cpuFrequency : BitVec 16) (first : BitVec 64) (req : TimeSpec) : Prop :=
  ∀ cycle : BitVec 64, first ≤ cycle → BeforeWrap cycle →
    getTimeNs cpuFrequency cycle < stopTime cpuFrequency first req

theorem slept_until (slept : Slept cpuFrequency req call back (first :: later)) :
    call.toNat ≤ first.toNat ∧ first.toNat ≤ back.toNat ∧ ∃ last : BitVec 64, first.toNat ≤ last.toNat ∧
      last.toNat ≤ back.toNat ∧ ¬ getTimeNs cpuFrequency last < stopTime cpuFrequency first req := by
  obtain ⟨ordered, last, returned⟩ := slept
  obtain ⟨member, reached⟩ := sleep_loop_returns returned
  rw [List.cons_append, List.pairwise_cons, List.pairwise_cons, List.pairwise_append] at ordered
  obtain ⟨fromCall, fromFirst, _, _, toBack⟩ := ordered
  exact ⟨fromCall first (.head _), fromFirst back (by simp), last, fromFirst last (by simp [member]),
    toBack last member back (by simp), reached⟩

/-- Calls that return before the TSC product wraps have slept long enough just when the
    time to stop at is a `u64`, or is never reached. -/
theorem nanosleep_long_iff (before : BeforeWrap first) (req : TimeSpec) :
    (∀ call later back, Slept cpuFrequency req call back (first :: later) → BeforeWrap back →
      exactNs cpuFrequency call + req.exact ≤ exactNs cpuFrequency back) ↔
      Fits cpuFrequency first req ∨ Endless cpuFrequency first req := by
  have stop := stop_time_exact cpuFrequency req before
  constructor
  · intro long
    by_cases fits : Fits cpuFrequency first req
    · exact Or.inl fits
    right
    intro cycle after early
    by_contra shown
    rw [le_def] at after
    have slept : Slept cpuFrequency req first cycle [first, cycle] := by
      refine ⟨by simp [after], cycle, ?_⟩
      rw [sysNanosleep, sleepLoop, if_neg shown]
    have enough := long first [cycle] cycle slept early
    rw [← get_time_exact early] at enough
    have word := (getTimeNs cpuFrequency cycle).isLt
    unfold Fits at fits
    omega
  · rintro (fits | endless) call later back slept early
    · obtain ⟨called, _, last, _, passed, reached⟩ := slept_until slept
      rw [lt_def, stop, get_time_exact (before_wrap_earlier passed early), Nat.mod_eq_of_lt fits] at reached
      have earlier := exact_mono cpuFrequency called
      have later := exact_mono cpuFrequency passed
      omega
    · obtain ⟨_, _, last, after, passed, reached⟩ := slept_until slept
      exact absurd (endless last (le_def.mpr after) (before_wrap_earlier passed early)) reached

end Sleep

/-- Both halves: the clock up to a TSC value, and the calls that begin at one. -/
theorem clock_and_sleep {cpuFrequency : BitVec 16} (positive : cpuFrequency ≠ 0) :
    (∀ bound, (∀ c₁ c₂ : BitVec 64, c₁ ≤ c₂ → c₂ ≤ bound → getTimeNs cpuFrequency c₁ ≤ getTimeNs cpuFrequency c₂) ↔
      BeforeWrap bound) ∧
    ∀ req first, BeforeWrap first →
      ((∀ call later back, Slept cpuFrequency req call back (first :: later) → BeforeWrap back →
        exactNs cpuFrequency call + req.exact ≤ exactNs cpuFrequency back) ↔
        Fits cpuFrequency first req ∨ Endless cpuFrequency first req) :=
  ⟨clock_monotone_iff positive, fun req _ before => nanosleep_long_iff before req⟩

def defaultFreq : BitVec 16 := 4000

/-- At 4 GHz a call at cycle 0 that asks for one second and returns at cycle 4000000000. -/
theorem one_second_slept : Slept defaultFreq ⟨1, 0⟩ 0 4000000000 [0, 4000000000] ∧
    exactNs defaultFreq 0 + (TimeSpec.mk 1 0).exact ≤ exactNs defaultFreq 4000000000 := by
  have slept : Slept defaultFreq ⟨1, 0⟩ 0 4000000000 [0, 4000000000] := ⟨by decide, 4000000000, by decide⟩
  have start : BeforeWrap 0 := by
    unfold BeforeWrap
    decide
  have stop : BeforeWrap 4000000000 := by
    unfold BeforeWrap
    decide
  have fits : Fits defaultFreq 0 ⟨1, 0⟩ := by
    unfold Fits
    decide
  have long := ((clock_and_sleep (show defaultFreq ≠ 0 by decide)).2 ⟨1, 0⟩ 0 start).mpr (Or.inl fits)
  exact ⟨slept, long 0 [4000000000] 4000000000 slept stop⟩

/-- The clock goes back after 2^64 / 1000 cycles, and a request of 18446744074 seconds is
    over after less than one. -/
theorem clock_wraps_and_sleep_short :
    getTimeNs defaultFreq 18446744073709552 < getTimeNs defaultFreq 18446744073709551 ∧
    Slept defaultFreq ⟨18446744074, 0⟩ 0 4000000000 [0, 4000000000] ∧
    exactNs defaultFreq 4000000000 < exactNs defaultFreq 0 + (TimeSpec.mk 18446744074 0).exact :=
  ⟨by decide, ⟨by decide, 4000000000, by decide⟩, by decide⟩

end RtosNimbosClock
