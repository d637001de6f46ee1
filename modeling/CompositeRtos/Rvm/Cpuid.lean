import Mathlib.Logic.Basic

/-!
CPUID as the guest sees it. The two feature leaves go through `from_bits_truncate`, which
keeps the named flags only: three bits of ECX have no name, and `OSXSAVE` is inserted when
the guest has it but not removed when it has not.
-/
namespace RtosRvmCpuid

inductive FeatureInfoFlag where
  -- ECX flags
  | sse3 | pclmulqdq | dtes64 | monitor | dscpl | vmx | smx | eist | tm2 | ssse3 | cnxtid | fma | cmpxchg16b | pdcm
  | pcid | dca | sse41 | sse42 | x2apic | movbe | popcnt | tscDeadline | aesni | xsave | osxsave | avx | f16c | rdrand
  | hypervisor
  -- EDX flags
  | fpu | vme | de | pse | tsc | msr | pae | mce | cx8 | apic | sep | mtrr | pge | mca | cmov | pat | pse36 | psn
  | clfsh | ds | acpi | mmx | fxsr | sse | sse2 | ss | htt | tm | pbe
  -- 0x80000001
  | svm
  deriving DecidableEq

open FeatureInfoFlag in
/-- The constants of `FeatureInfoFlags` with their bit numbers. -/
def flagBits : List (FeatureInfoFlag × Nat) :=
  [(sse3, 0), (pclmulqdq, 1), (dtes64, 2), (monitor, 3), (dscpl, 4), (vmx, 5), (smx, 6), (eist, 7), (tm2, 8),
   (ssse3, 9), (cnxtid, 10), (fma, 12), (cmpxchg16b, 13), (pdcm, 15), (pcid, 17), (dca, 18), (sse41, 19), (sse42, 20),
   (x2apic, 21), (movbe, 22), (popcnt, 23), (tscDeadline, 24), (aesni, 25), (xsave, 26), (osxsave, 27), (avx, 28),
   (f16c, 29), (rdrand, 30), (hypervisor, 31),
   (fpu, 32 + 0), (vme, 32 + 1), (de, 32 + 2), (pse, 32 + 3), (tsc, 32 + 4), (msr, 32 + 5), (pae, 32 + 6),
   (mce, 32 + 7), (cx8, 32 + 8), (apic, 32 + 9), (sep, 32 + 11), (mtrr, 32 + 12), (pge, 32 + 13), (mca, 32 + 14),
   (cmov, 32 + 15), (pat, 32 + 16), (pse36, 32 + 17), (psn, 32 + 18), (clfsh, 32 + 19), (ds, 32 + 21),
   (acpi, 32 + 22), (mmx, 32 + 23), (fxsr, 32 + 24), (sse, 32 + 25), (sse2, 32 + 26), (ss, 32 + 27), (htt, 32 + 28),
   (tm, 32 + 29), (pbe, 32 + 31),
   (svm, 2)]

def FeatureInfoFlag.bits (f : FeatureInfoFlag) : BitVec 64 :=
  BitVec.twoPow 64 ((flagBits.lookup f).getD 0)

abbrev FeatureInfoFlags := BitVec 64

def FeatureInfoFlags.all : FeatureInfoFlags := flagBits.foldl (fun bits flag => bits ||| flag.1.bits) 0

def FeatureInfoFlags.fromBitsTruncate (bits : BitVec 64) : FeatureInfoFlags := bits &&& FeatureInfoFlags.all

def FeatureInfoFlags.insert (flags : FeatureInfoFlags) (f : FeatureInfoFlag) : FeatureInfoFlags := flags ||| f.bits

def FeatureInfoFlags.remove (flags : FeatureInfoFlags) (f : FeatureInfoFlag) : FeatureInfoFlags := flags &&& ~~~f.bits

inductive CpuIdEax where
  | featureInfo
  | hypervisorInfo
  | hypervisorFeatures
  | amdFeatureInfo

def CpuIdEax.number : CpuIdEax → BitVec 32
  | .featureInfo => 0x1
  | .hypervisorInfo => 0x40000000
  | .hypervisorFeatures => 0x40000001
  | .amdFeatureInfo => 0x80000001

structure CpuIdResult where
  eax : BitVec 32
  ebx : BitVec 32
  ecx : BitVec 32
  edx : BitVec 32

structure GuestRegisters where
  rax : BitVec 64
  rbx : BitVec 64
  rcx : BitVec 64
  rdx : BitVec 64

def osxsaveBit : Nat := 18

def signature : BitVec 32 × BitVec 32 × BitVec 32 := (0x524d5652, 0x56524d56, 0x4d56524d)

def featureFlags (cr4 rcx : BitVec 64) : FeatureInfoFlags :=
  let flags := FeatureInfoFlags.fromBitsTruncate rcx
  let flags := if cr4.getLsbD osxsaveBit then FeatureInfoFlags.insert flags .osxsave else flags
  FeatureInfoFlags.insert (FeatureInfoFlags.remove flags .vmx) .hypervisor

def amdFeatureFlags (rcx : BitVec 64) : FeatureInfoFlags :=
  FeatureInfoFlags.remove (FeatureInfoFlags.fromBitsTruncate rcx) .svm

/-- `handle_cpuid` up to the step over the instruction, for a host that answers as `host`. -/
def handleCpuid (host : BitVec 32 → BitVec 32 → CpuIdResult) (cr4 : BitVec 64) (regs : GuestRegisters) :
    GuestRegisters :=
  let function := regs.rax.setWidth 32
  if function = CpuIdEax.hypervisorInfo.number then
    ⟨CpuIdEax.hypervisorFeatures.number.setWidth 64, signature.1.setWidth 64, signature.2.1.setWidth 64,
      signature.2.2.setWidth 64⟩
  else if function = CpuIdEax.hypervisorFeatures.number then ⟨0, 0, 0, 0⟩
  else
    let res := host function (regs.rcx.setWidth 32)
    let rcx := res.ecx.setWidth 64
    ⟨res.eax.setWidth 64, res.ebx.setWidth 64,
      if function = CpuIdEax.featureInfo.number then featureFlags cr4 rcx
      else if function = CpuIdEax.amdFeatureInfo.number then amdFeatureFlags rcx
      else rcx,
      res.edx.setWidth 64⟩

/-- The ECX that the guest is meant to see: the host's but for the bits named here. -/
def intendedEcx (function : BitVec 32) (cr4 : BitVec 64) (ecx : BitVec 32) (k : Nat) : Bool :=
  if function = CpuIdEax.featureInfo.number then
    if k = 5 then false
    else if k = 31 then true
    else if k = 27 then cr4.getLsbD osxsaveBit
    else ecx.getLsbD k
  else if function = CpuIdEax.amdFeatureInfo.number then
    if k = 2 then false else ecx.getLsbD k
  else ecx.getLsbD k

/-- The guest sees the host's result with the intended ECX. -/
structure Transparent (host : BitVec 32 → BitVec 32 → CpuIdResult) (cr4 : BitVec 64) (regs : GuestRegisters) :
    Prop where
  eax : (handleCpuid host cr4 regs).rax = (host (regs.rax.setWidth 32) (regs.rcx.setWidth 32)).eax.setWidth 64
  ebx : (handleCpuid host cr4 regs).rbx = (host (regs.rax.setWidth 32) (regs.rcx.setWidth 32)).ebx.setWidth 64
  ecx : ∀ k, (handleCpuid host cr4 regs).rcx.getLsbD k =
    intendedEcx (regs.rax.setWidth 32) cr4 (host (regs.rax.setWidth 32) (regs.rcx.setWidth 32)).ecx k
  edx : (handleCpuid host cr4 regs).rdx = (host (regs.rax.setWidth 32) (regs.rcx.setWidth 32)).edx.setWidth 64

def Unnamed (k : Nat) : Prop := k = 11 ∨ k = 14 ∨ k = 16

instance (k : Nat) : Decidable (Unnamed k) := inferInstanceAs (Decidable (_ ∨ _))

theorem all_named : FeatureInfoFlags.all = 0xbfeffbfffffeb7ff := by decide +kernel

theorem named_bit (low : k < 32) : FeatureInfoFlags.all.getLsbD k = !decide (Unnamed k) := by
  rw [all_named]
  have every : ∀ j : Fin 32, (0xbfeffbfffffeb7ff : BitVec 64).getLsbD j = !decide (Unnamed j) := by decide
  exact every ⟨k, low⟩

theorem truncated_bit (ecx : BitVec 32) :
    (FeatureInfoFlags.fromBitsTruncate (ecx.setWidth 64)).getLsbD k = (ecx.getLsbD k && !decide (Unnamed k)) := by
  rw [FeatureInfoFlags.fromBitsTruncate, BitVec.getLsbD_and, BitVec.getLsbD_setWidth]
  by_cases low : k < 32
  · rw [named_bit low, decide_eq_true (show k < 64 by omega), Bool.true_and]
  · rw [BitVec.getLsbD_of_ge ecx k (by omega)]
    simp

theorem flag_bit {f : FeatureInfoFlag} (number : f.bits = BitVec.twoPow 64 n) (small : n < 64) (k : Nat) :
    f.bits.getLsbD k = decide (n = k) := by
  rw [number, BitVec.getLsbD_twoPow]
  simp [small]

theorem insert_bit {f : FeatureInfoFlag} (number : f.bits = BitVec.twoPow 64 n) (small : n < 64) :
    (FeatureInfoFlags.insert flags f).getLsbD k = (flags.getLsbD k || decide (n = k)) := by
  rw [FeatureInfoFlags.insert, BitVec.getLsbD_or, flag_bit number small]

theorem remove_bit {f : FeatureInfoFlag} (number : f.bits = BitVec.twoPow 64 n) (small : n < 64)
    (flags : FeatureInfoFlags) (k : Nat) :
    (FeatureInfoFlags.remove flags f).getLsbD k = (flags.getLsbD k && !decide (n = k)) := by
  rw [FeatureInfoFlags.remove, BitVec.getLsbD_and, BitVec.getLsbD_not, flag_bit number small]
  by_cases low : k < 64
  · simp [low]
  · rw [BitVec.getLsbD_of_ge flags k (by omega)]
    simp

theorem feature_bit (cr4 : BitVec 64) (ecx : BitVec 32) (k : Nat) : (featureFlags cr4 (ecx.setWidth 64)).getLsbD k =
      (((ecx.getLsbD k && !decide (Unnamed k)) || (cr4.getLsbD osxsaveBit && decide (27 = k))) &&
        !decide (5 = k) || decide (31 = k)) := by
  unfold featureFlags
  rw [insert_bit (n := 31) (by decide +kernel) (by decide), remove_bit (n := 5) (by decide +kernel) (by decide)]
  cases cr4.getLsbD osxsaveBit with
  | true =>
    rw [if_pos rfl, insert_bit (n := 27) (by decide +kernel) (by decide), truncated_bit, Bool.true_and]
  | false =>
    rw [if_neg Bool.false_ne_true, truncated_bit, Bool.false_and, Bool.or_false]

theorem amd_feature_bit (ecx : BitVec 32) (k : Nat) : (amdFeatureFlags (ecx.setWidth 64)).getLsbD k =
      (ecx.getLsbD k && !decide (Unnamed k) && !decide (2 = k)) := by
  rw [amdFeatureFlags, remove_bit (n := 2) (by decide +kernel) (by decide), truncated_bit]

section Leaves

variable {host : BitVec 32 → BitVec 32 → CpuIdResult} {cr4 : BitVec 64} {regs : GuestRegisters}

theorem transparent_iff_ecx (outside : regs.rax.setWidth 32 ≠ CpuIdEax.hypervisorInfo.number ∧
      regs.rax.setWidth 32 ≠ CpuIdEax.hypervisorFeatures.number) :
    Transparent host cr4 regs ↔ ∀ k, (handleCpuid host cr4 regs).rcx.getLsbD k =
      intendedEcx (regs.rax.setWidth 32) cr4 (host (regs.rax.setWidth 32) (regs.rcx.setWidth 32)).ecx k := by
  constructor
  · intro whole
    exact whole.ecx
  intro ecx
  refine ⟨?_, ?_, ecx, ?_⟩
  · rw [handleCpuid, if_neg outside.1, if_neg outside.2]
  · rw [handleCpuid, if_neg outside.1, if_neg outside.2]
  · rw [handleCpuid, if_neg outside.1, if_neg outside.2]

theorem feature_leaf_iff (cr4 : BitVec 64) (ecx : BitVec 32) :
    (∀ k, (featureFlags cr4 (ecx.setWidth 64)).getLsbD k = intendedEcx CpuIdEax.featureInfo.number cr4 ecx k) ↔
      (∀ k, Unnamed k → ecx.getLsbD k = false) ∧ (ecx.getLsbD 27 = true → cr4.getLsbD osxsaveBit = true) := by
  have intended : ∀ k, intendedEcx CpuIdEax.featureInfo.number cr4 ecx k =
      if k = 5 then false else if k = 31 then true else if k = 27 then cr4.getLsbD osxsaveBit else ecx.getLsbD k :=
    fun _ => if_pos rfl
  simp only [feature_bit, intended]
  constructor
  · intro same
    constructor
    · intro k unnamed
      have bit := same k
      unfold Unnamed at unnamed
      rw [if_neg (by omega), if_neg (by omega), if_neg (by omega), decide_eq_true (p := Unnamed k) unnamed,
        decide_eq_false (p := 27 = k) (by omega), decide_eq_false (p := 31 = k) (by omega)] at bit
      simpa using bit.symm
    intro set
    have bit := same 27
    simpa [set, Unnamed] using bit.symm
  · rintro ⟨unnamed, osxsave⟩ k
    by_cases vmx : k = 5
    · subst vmx
      simp
    by_cases hypervisor : k = 31
    · subst hypervisor
      simp
    rw [if_neg vmx, if_neg hypervisor, decide_eq_false (p := 5 = k) (Ne.symm vmx),
      decide_eq_false (p := 31 = k) (Ne.symm hypervisor)]
    by_cases here : k = 27
    · subst here
      cases set : ecx.getLsbD 27 with
      | true => simp [osxsave set]
      | false => simp
    rw [if_neg here, decide_eq_false (p := 27 = k) (Ne.symm here)]
    by_cases none : Unnamed k
    · simp [unnamed k none]
    · simp [none]

theorem amd_leaf_iff (cr4 : BitVec 64) (ecx : BitVec 32) :
    (∀ k, (amdFeatureFlags (ecx.setWidth 64)).getLsbD k = intendedEcx CpuIdEax.amdFeatureInfo.number cr4 ecx k) ↔
      ∀ k, Unnamed k → ecx.getLsbD k = false := by
  have intended : ∀ k, intendedEcx CpuIdEax.amdFeatureInfo.number cr4 ecx k =
      if k = 2 then false else ecx.getLsbD k := by
    intro k
    rw [intendedEcx, if_neg (by decide), if_pos rfl]
  simp only [amd_feature_bit, intended]
  constructor
  · intro same k unnamed
    have bit := same k
    unfold Unnamed at unnamed
    rw [if_neg (by omega), decide_eq_true (p := Unnamed k) unnamed] at bit
    simpa using bit.symm
  intro unnamed k
  by_cases svm : k = 2
  · subst svm
    simp
  rw [if_neg svm, decide_eq_false (p := 2 = k) (Ne.symm svm)]
  by_cases none : Unnamed k
  · simp [unnamed k none]
  · simp [none]

/-- The guest sees what it is meant to see if and only if the host has none of the unnamed
    bits in a feature leaf, and has `OSXSAVE` in leaf 1 only while the guest has. -/
theorem cpuid_transparent_iff (outside : regs.rax.setWidth 32 ≠ CpuIdEax.hypervisorInfo.number ∧
      regs.rax.setWidth 32 ≠ CpuIdEax.hypervisorFeatures.number) :
    Transparent host cr4 regs ↔
      (regs.rax.setWidth 32 = CpuIdEax.featureInfo.number ∨ regs.rax.setWidth 32 = CpuIdEax.amdFeatureInfo.number →
        ∀ k, Unnamed k → (host (regs.rax.setWidth 32) (regs.rcx.setWidth 32)).ecx.getLsbD k = false) ∧
      (regs.rax.setWidth 32 = CpuIdEax.featureInfo.number →
        (host (regs.rax.setWidth 32) (regs.rcx.setWidth 32)).ecx.getLsbD 27 = true →
          cr4.getLsbD osxsaveBit = true) := by
  rw [transparent_iff_ecx outside]
  simp only [handleCpuid, if_neg outside.1, if_neg outside.2]
  generalize regs.rax.setWidth 32 = function
  generalize (host function (regs.rcx.setWidth 32)).ecx = ecx
  by_cases feature : function = CpuIdEax.featureInfo.number
  · rw [feature, if_pos rfl, feature_leaf_iff]
    simp
  rw [if_neg feature]
  by_cases amd : function = CpuIdEax.amdFeatureInfo.number
  · rw [amd, if_pos rfl, amd_leaf_iff]
    simp [CpuIdEax.number]
  rw [if_neg amd]
  simp only [feature, amd, false_or, false_implies, and_self, iff_true]
  intro k
  rw [intendedEcx, if_neg feature, if_neg amd, BitVec.getLsbD_setWidth]
  by_cases low : k < 64
  · simp [low]
  · rw [BitVec.getLsbD_of_ge ecx k (by omega)]
    simp

end Leaves

/-- A host without the unnamed bits, and a guest that has enabled XSAVE. -/
theorem xsave_guest_transparent :
    Transparent (fun _ _ => ⟨0x906ea, 0x100800, 0xfefa3203, 0xbfebfbff⟩) 0x40000 ⟨1, 0, 0, 0⟩ := by
  refine (cpuid_transparent_iff ⟨by decide, by decide⟩).mpr ⟨?_, fun _ _ => by decide⟩
  rintro _ k (rfl | rfl | rfl)
  · decide
  · decide
  · decide

/-- Leaf 1 for a guest that has not enabled XSAVE, and the extended leaf of a processor with
    the XOP instructions. -/
theorem osxsave_and_xop_wrong :
    ¬ Transparent (fun _ _ => ⟨0, 0, 0x0c000000, 0⟩) 0 ⟨1, 0, 0, 0⟩ ∧
      ¬ Transparent (fun _ _ => ⟨0, 0, 0x00000800, 0⟩) 0 ⟨0x80000001, 0, 0, 0⟩ := by
  constructor
  · intro whole
    exact absurd (whole.ecx 27) (by decide +kernel)
  · intro whole
    exact absurd (whole.ecx 11) (by decide +kernel)

end RtosRvmCpuid
