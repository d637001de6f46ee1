import Mathlib.Tactic.Common
import CompositeRtos.Scf.Attachment

/-!
Where the parts of the queue lie in its buffer: the addresses of `SyscallQueueBuffer::new`
(`scf/queue.rs`) and those that `nimbos_setup_syscall_buffers` (`libs/scf.c`) computes from
the published capacity. Addresses and sizes are `usize`, so every sum is taken modulo 2^64.
-/
namespace RtosScfQueueLayout
open RtosScfQueue RtosScfIntegrity List

def metadataAlign : Nat := 4
def ringSize : Nat := 2

structure Layout where
  metaBase : Nat
  descBase : Nat
  reqBase : Nat
  rspBase : Nat
  deriving DecidableEq, Repr

def queueLayout (baseVaddr capacity : Nat) : Layout :=
  let metaSize := alignUp metadataSize descriptorAlign
  let descBase := (baseVaddr + metaSize) % 2 ^ 64
  let reqBase := (descBase + capacity * descriptorSize) % 2 ^ 64
  { metaBase := baseVaddr
    descBase
    reqBase
    rspBase := (reqBase + capacity * ringSize) % 2 ^ 64 }

/-- The pointers of `nimbos_setup_syscall_buffers`, from the start of its mapping and
    `meta->capacity`. -/
def daemonLayout (mapping : Nat) (capacity : BitVec 16) : Layout :=
  let desc := (mapping + alignUp 0xc 8) % 2 ^ 64
  let reqRing := (desc + capacity.toNat * 0x18) % 2 ^ 64
  { metaBase := mapping
    descBase := desc
    reqBase := reqRing
    rspBase := (reqRing + capacity.toNat * 2) % 2 ^ 64 }

structure Region where
  base : Nat
  size : Nat
  align : Nat
  deriving DecidableEq, Repr

def Layout.regions (l : Layout) (capacity : Nat) : List Region :=
  [⟨l.metaBase, metadataSize, metadataAlign⟩, ⟨l.descBase, capacity * descriptorSize, descriptorAlign⟩,
    ⟨l.reqBase, capacity * ringSize, ringSize⟩, ⟨l.rspBase, capacity * ringSize, ringSize⟩]

def Region.Apart (a b : Region) : Prop := a.base + a.size ≤ b.base ∨ b.base + b.size ≤ a.base

/-- The metadata, the descriptors and the two rings are disjoint, aligned, and inside the
    buffer and the address space. -/
structure Sound (l : Layout) (capacity baseVaddr bufSize : Nat) : Prop where
  apart : (l.regions capacity).Pairwise Region.Apart
  aligned : ∀ r ∈ l.regions capacity, r.base % r.align = 0
  inside : ∀ r ∈ l.regions capacity, baseVaddr ≤ r.base ∧ r.base + r.size ≤ baseVaddr + bufSize ∧
    r.base + r.size ≤ 2 ^ 64

-- `nextPowerOfTwo` doubles until it has reached its argument, so it stays below twice that
open private Nat.nextPowerOfTwo.go from Init.Data.Nat.Power2.Basic in
theorem doubling_bounds (n power : Nat) (positive : 0 < power) (below : power < 2 * n) :
    n ≤ Nat.nextPowerOfTwo.go n power positive ∧ Nat.nextPowerOfTwo.go n power positive < 2 * n := by
  induction left : n - power using Nat.strongRecOn generalizing power with
  | _ left ih =>
    rw [Nat.nextPowerOfTwo.go.eq_def]
    split
    · exact ih (n - power * 2) (by omega) (power * 2) (by omega) (by omega) rfl
    · omega

open private Nat.nextPowerOfTwo.go from Init.Data.Nat.Power2.Basic in
theorem doubling_ends (n power : Nat) (positive : 0 < power) (reached : n ≤ power) :
    Nat.nextPowerOfTwo.go n power positive = power := by
  rw [Nat.nextPowerOfTwo.go.eq_def, if_neg (by omega)]

theorem next_power_bounds (positive : 0 < n) : n ≤ n.nextPowerOfTwo ∧ n.nextPowerOfTwo < 2 * n :=
  doubling_bounds n 1 (by omega) (by omega)

theorem two_le_of_not_power (not : ¬ n.isPowerOfTwo) (positive : 0 < n) : 2 ≤ n := by
  by_contra small
  apply not
  rw [show n = 1 by omega]
  exact Nat.isPowerOfTwo_one

/-- The room of a buffer too small for one descriptor wraps or gives capacity 1; otherwise
    everything fits. -/
theorem capacity_bounds (usize : bufSize < 2 ^ 64) (accepted : capacityFor bufSize < 65535) :
    16 ≤ bufSize ∧ (44 ≤ bufSize → 16 + 28 * capacityFor bufSize ≤ bufSize) := by
  have header : alignUp metadataSize descriptorAlign = 16 := rfl
  have entry : descriptorSize + 2 * 2 = 28 := rfl
  simp only [capacityFor, header, entry] at accepted ⊢
  generalize room : (bufSize + 2 ^ 64 - 16) % 2 ^ 64 / 28 = capacity at accepted ⊢
  by_cases power : capacity.isPowerOfTwo
  · rw [if_pos power] at accepted ⊢
    omega
  rw [if_neg power] at accepted ⊢
  rcases Nat.eq_zero_or_pos capacity with zero | positive
  · omega
  have two := two_le_of_not_power power positive
  obtain ⟨least, most⟩ := next_power_bounds (n := capacity / 2) (by omega)
  omega

theorem built_capacity (built : SyscallQueueBuffer.new base size stale = some q) :
    0 < capacityFor size ∧ capacityFor size < 65535 ∧ base % 4096 = 0 ∧
      q.shared.magic = syscallQueueBufferMagic ∧ q.shared.capacity = BitVec.ofNat 16 (capacityFor size) := by
  simp only [SyscallQueueBuffer.new] at built
  split at built
  · rename_i checks
    cases built
    exact ⟨checks.1, checks.2.1, checks.2.2, rfl, rfl⟩
  · cases built

theorem rsp_base_eq (base capacity : Nat) :
    (queueLayout base capacity).rspBase = (base + (16 + 26 * capacity)) % 2 ^ 64 := by
  have header : alignUp metadataSize descriptorAlign = 16 := rfl
  simp only [queueLayout, header, descriptorSize, ringSize, Nat.mod_add_mod]
  congr 1
  omega

theorem sound_iff (address : base < 2 ^ 64) (positive : 0 < capacity) (small : capacity < 65535)
    (page : base % 4096 = 0) :
    Sound (queueLayout base capacity) capacity base size ↔
      16 + 28 * capacity ≤ size ∧ base + (16 + 28 * capacity) ≤ 2 ^ 64 := by
  have header : alignUp metadataSize descriptorAlign = 16 := rfl
  constructor
  · intro sound
    have rsp := sound.inside _ (.tail _ (.tail _ (mem_cons_of_mem _
      (.head _))))
    simp only [rsp_base_eq, ringSize] at rsp
    -- a ring that wraps would start below the buffer
    have straight : base + (16 + 26 * capacity) < 2 ^ 64 := by
      by_contra wraps
      rw [Nat.mod_eq_sub_mod (by omega), Nat.mod_eq_of_lt (by omega)] at rsp
      omega
    rw [Nat.mod_eq_of_lt straight] at rsp
    omega
  · rintro ⟨fits, address'⟩
    have desc : (queueLayout base capacity).descBase = base + 16 := by
      simp only [queueLayout, header]
      omega
    have req : (queueLayout base capacity).reqBase = base + 16 + capacity * 24 := by
      simp only [queueLayout, header, descriptorSize]
      omega
    have rsp : (queueLayout base capacity).rspBase = base + 16 + capacity * 26 := by
      rw [rsp_base_eq]
      omega
    have parts : (queueLayout base capacity).regions capacity =
        [⟨base, 12, 4⟩, ⟨base + 16, capacity * 24, 8⟩, ⟨base + 16 + capacity * 24, capacity * 2, 2⟩,
          ⟨base + 16 + capacity * 26, capacity * 2, 2⟩] := by
      rw [Layout.regions, desc, req, rsp]
      rfl
    refine ⟨?_, ?_, ?_⟩
    · rw [parts]
      simp only [pairwise_cons, forall_mem_cons, not_mem_nil, Region.Apart]
      refine ⟨⟨?_, ?_, ?_, ?_⟩, ⟨?_, ?_, ?_⟩, ⟨?_, ?_⟩, ?_⟩ <;> first | omega | simp
    · rw [parts]
      simp only [forall_mem_cons, not_mem_nil]
      refine ⟨?_, ?_, ?_, ?_, ?_⟩ <;> first | omega | simp
    rw [parts]
    simp only [forall_mem_cons, not_mem_nil]
    refine ⟨?_, ?_, ?_, ?_, ?_⟩ <;> first | omega | simp

/-- The kernel and the daemon always agree on the capacity, the mask and the addresses. The
    parts lie inside the buffer just when it has room for the metadata and one descriptor
    with its two ring cells, and does not run over the end of the address space. -/
theorem queue_layout_sound_iff {base size : Nat} (address : base < 2 ^ 64) (usize : size < 2 ^ 64)
    {stale : StalePage} {q : SyscallQueueBuffer} (built : SyscallQueueBuffer.new base size stale = some q) :
    (capacityFor size).isPowerOfTwo ∧ q.shared.capacity.toNat = capacityFor size ∧
    (∃ d, nimbosSetupSyscallBuffers q.shared = .ok d ∧ d.capacityMask = q.capacityMask) ∧
    (∀ mapping, daemonLayout mapping q.shared.capacity = queueLayout mapping (capacityFor size)) ∧
    (Sound (queueLayout base (capacityFor size)) (capacityFor size) base size ↔
      44 ≤ size ∧ base + (16 + 28 * capacityFor size) ≤ 2 ^ 64) := by
  obtain ⟨positive, small, page, magic, capacity⟩ := built_capacity built
  obtain ⟨bits, power, sized⟩ := new_sized built
  obtain ⟨least, fits⟩ := capacity_bounds usize small
  have word : q.shared.capacity.toNat = capacityFor size := by
    rw [capacity, BitVec.toNat_ofNat]
    omega
  refine ⟨capacity_power_of_two size, word, ?_, ?_, ?_⟩
  · rw [power] at capacity
    exact ⟨_, RtosScfAttachment.setup_of_labels sized.small magic capacity, sized.mask.symm⟩
  · intro mapping
    rw [daemonLayout, word]
    rfl
  · rw [sound_iff address positive small page]
    omega

theorem one_slot_layout_sound : Sound (queueLayout 0x1000 (capacityFor 44)) (capacityFor 44) 0x1000 44 := by
  have one : capacityFor 44 = 1 := by decide
  obtain ⟨_, _, _, _, sound⟩ := queue_layout_sound_iff (by decide) (by decide) one_slot_built
  refine sound.mpr ⟨by decide, ?_⟩
  rw [one]
  decide

/-- A buffer of 16 bytes holds the metadata and nothing else; `0.next_power_of_two()` is 1,
    so `new` still makes a queue of one entry, all of it behind the end of the buffer. -/
theorem header_only_buffer_overrun :
    SyscallQueueBuffer.new 0x1000 16 blankPage = some oneSlotQueue ∧
      (queueLayout 0x1000 1).descBase = 0x1000 + 16 ∧
      ¬ Sound (queueLayout 0x1000 1) 1 0x1000 16 := by
  have one : capacityFor 16 = 1 := by
    have room : (16 + 2 ^ 64 - alignUp metadataSize descriptorAlign) % 2 ^ 64 / (descriptorSize + 2 * 2) = 0 := by
      decide
    have none : ¬ Nat.isPowerOfTwo 0 := by
      rintro ⟨bits, zero⟩
      exact absurd zero.symm (Nat.pow_pos (by omega)).ne'
    simp only [capacityFor, room, if_neg none]
    exact doubling_ends 0 1 (by omega) (by omega)
  refine ⟨?_, by decide, ?_⟩
  · simp only [SyscallQueueBuffer.new, one]
    decide
  · rw [sound_iff (by omega) (by omega) (by omega) (by omega)]
    omega

end RtosScfQueueLayout
