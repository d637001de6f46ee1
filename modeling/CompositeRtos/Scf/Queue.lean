import Mathlib.Algebra.Group.Nat.Defs
import Mathlib.Data.List.Basic

/-!
The syscall-forwarding queue shared by the NimbOS kernel (`scf/queue.rs`) and the Linux
daemon (`libs/scf.c`). `SharedQueue` is the shared page: metadata, descriptors and the
two rings. Every operation below runs under `meta.lock`, so it is one function on the
shared page and the caller's private counters. `none` stands for a Rust panic or an
access outside a slice; `u16` fields wrap as in the release build.
-/
namespace RtosScfQueue
open BitVec Option

inductive ScfOpcode where
  | nop | read | write | openFile | close | unknown
  deriving DecidableEq, Repr

def ScfOpcode.toU8 : ScfOpcode → BitVec 8
  | .nop => 0
  | .read => 1
  | .write => 2
  | .openFile => 3
  | .close => 4
  | .unknown => 0xff

abbrev ScfRequestToken := BitVec 64

def defaultToken : ScfRequestToken := 0

structure ScfDescriptor where
  valid : Bool
  opcode : BitVec 8
  args : BitVec 64
  retVal : BitVec 64
  deriving DecidableEq, Repr

structure ScfResponse where
  opcode : BitVec 8
  token : ScfRequestToken
  retVal : BitVec 64
  deriving DecidableEq, Repr

structure SharedQueue where
  magic : BitVec 32
  capacity : BitVec 16
  reqIndex : BitVec 16
  rspIndex : BitVec 16
  desc : List ScfDescriptor
  reqRing : List (BitVec 16)
  rspRing : List (BitVec 16)
  deriving DecidableEq, Repr

structure SyscallQueueBuffer where
  freeCount : BitVec 16
  capacityMask : BitVec 16
  reqIndexShadow : BitVec 16
  rspIndexLast : BitVec 16
  tokens : List ScfRequestToken
  shared : SharedQueue
  deriving DecidableEq, Repr

def syscallQueueBufferMagic : BitVec 32 := 0x4643537f
def metadataSize : Nat := 12
def descriptorSize : Nat := 24
def descriptorAlign : Nat := 8

def alignUp (addr alignment : Nat) : Nat := (addr + alignment - 1) / alignment * alignment

/-- The capacity computed by `SyscallQueueBuffer::new`, with `usize` subtraction modulo
    2^64: a buffer smaller than the metadata gives an absurdly large number. -/
def capacityFor (bufSize : Nat) : Nat :=
  let room := (bufSize + 2 ^ 64 - alignUp metadataSize descriptorAlign) % 2 ^ 64
  let capacity := room / (descriptorSize + 2 * 2)
  if capacity.isPowerOfTwo then capacity else (capacity / 2).nextPowerOfTwo

/-- Whatever the page held before it became a queue. -/
structure StalePage where
  desc : Nat → ScfDescriptor
  reqRing : Nat → BitVec 16
  rspRing : Nat → BitVec 16

def SyscallQueueBuffer.new (baseVaddr bufSize : Nat) (stale : StalePage) :
    Option SyscallQueueBuffer :=
  let capacity := capacityFor bufSize
  if 0 < capacity ∧ capacity < 65535 ∧ baseVaddr % 4096 = 0 then
    some {
      freeCount := BitVec.ofNat 16 capacity
      capacityMask := BitVec.ofNat 16 capacity - 1
      reqIndexShadow := 0
      rspIndexLast := 0
      tokens := List.replicate capacity defaultToken
      shared := {
        magic := syscallQueueBufferMagic
        capacity := BitVec.ofNat 16 capacity
        reqIndex := 0
        rspIndex := 0
        desc := (List.range capacity).map fun i => { stale.desc i with valid := false }
        reqRing := (List.range capacity).map stale.reqRing
        rspRing := (List.range capacity).map stale.rspRing } }
  else none

def storeAt {α : Type} (cells : List α) (i : Nat) (x : α) : Option (List α) :=
  if i < cells.length then some (cells.set i x) else none

namespace SyscallQueueBuffer

def isFull (q : SyscallQueueBuffer) : Bool := q.freeCount == 0

def hasResponse (q : SyscallQueueBuffer) : Bool := q.rspIndexLast != q.shared.rspIndex

def findFreeDescLocked (q : SyscallQueueBuffer) : Option (BitVec 16) :=
  (q.shared.desc.findIdx? fun e => !e.valid).map (BitVec.ofNat 16)

def freeDescLocked (q : SyscallQueueBuffer) (index : BitVec 16) : Option SyscallQueueBuffer :=
  if index ≤ q.capacityMask then do
    let tokens ← storeAt q.tokens index.toNat defaultToken
    let entry ← q.shared.desc[index.toNat]?
    let desc ← storeAt q.shared.desc index.toNat { entry with valid := false }
    some { q with tokens, shared := { q.shared with desc }, freeCount := q.freeCount + 1 }
  else none

def popResponseLocked (q : SyscallQueueBuffer) :
    Option (SyscallQueueBuffer × Option ScfResponse) :=
  if q.hasResponse then do
    let entryIdx ← q.shared.rspRing[(q.rspIndexLast &&& q.capacityMask).toNat]?
    let q := { q with rspIndexLast := q.rspIndexLast + 1 }
    if entryIdx > q.capacityMask then some (q, none)
    else
      let entry ← q.shared.desc[entryIdx.toNat]?
      if !entry.valid then some (q, none)
      else
        let token ← q.tokens[entryIdx.toNat]?
        let rsp : ScfResponse := { opcode := entry.opcode, token, retVal := entry.retVal }
        let q ← q.freeDescLocked entryIdx
        some (q, some rsp)
  else some (q, none)

def sendLocked (q : SyscallQueueBuffer) (opcode : ScfOpcode) (args : BitVec 64)
    (token : ScfRequestToken) : Option (SyscallQueueBuffer × Bool) :=
  if q.isFull then some (q, false)
  else do
    let entryIdx ← q.findFreeDescLocked
    let tokens ← storeAt q.tokens entryIdx.toNat token
    let desc ← storeAt q.shared.desc entryIdx.toNat
      { valid := true, opcode := opcode.toU8, args, retVal := 0 }
    let reqRing ← storeAt q.shared.reqRing (q.reqIndexShadow &&& q.capacityMask).toNat entryIdx
    let shadow := q.reqIndexShadow + 1
    some ({ q with
      tokens, freeCount := q.freeCount - 1, reqIndexShadow := shadow
      shared := { q.shared with desc, reqRing, reqIndex := shadow } }, true)

end SyscallQueueBuffer

/-- The daemon's `struct syscall_queue_buffer`, less its pointers into the page. -/
structure DaemonBuffer where
  capacityMask : BitVec 16
  reqIndexLast : BitVec 16
  rspIndexShadow : BitVec 16
  deriving DecidableEq, Repr

inductive Errno where
  | busy | inval
  deriving DecidableEq, Repr

def nimbosSetupSyscallBuffers (shared : SharedQueue) : Except Errno DaemonBuffer :=
  if shared.magic ≠ syscallQueueBufferMagic then .error .inval
  else if shared.capacity = 0 ∨ shared.capacity &&& (shared.capacity - 1) ≠ 0 then .error .inval
  else .ok {
    capacityMask := shared.capacity - 1
    reqIndexLast := 0
    rspIndexShadow := shared.rspIndex }

def hasRequest (buf : DaemonBuffer) (shared : SharedQueue) : Bool :=
  buf.reqIndexLast != shared.reqIndex

def popSyscallRequest (buf : DaemonBuffer) (shared : SharedQueue) :
    Option (DaemonBuffer × Except Errno (BitVec 16 × ScfDescriptor)) :=
  if hasRequest buf shared then do
    let idx ← shared.reqRing[(buf.reqIndexLast &&& buf.capacityMask).toNat]?
    if idx > buf.capacityMask then some (buf, .error .inval)
    else
      let entry ← shared.desc[idx.toNat]?
      some ({ buf with reqIndexLast := buf.reqIndexLast + 1 }, .ok (idx, entry))
  else some (buf, .error .busy)

def pushSyscallResponse (buf : DaemonBuffer) (shared : SharedQueue) (index : BitVec 16)
    (retVal : BitVec 64) : Option (DaemonBuffer × SharedQueue × Except Errno Unit) :=
  if index > buf.capacityMask then some (buf, shared, .error .inval)
  else do
    let entry ← shared.desc[index.toNat]?
    let desc ← storeAt shared.desc index.toNat { entry with retVal }
    let rspRing ← storeAt shared.rspRing (buf.rspIndexShadow &&& buf.capacityMask).toNat index
    let shadow := buf.rspIndexShadow + 1
    some ({ buf with rspIndexShadow := shadow },
      { shared with desc, rspRing, rspIndex := shadow }, .ok ())

/-- Slices, masks and counters of a queue of capacity `2 ^ bits`. Nothing here can be
    changed by either side once `new` has returned. -/
structure Sized (bits : Nat) (q : SyscallQueueBuffer) : Prop where
  small : bits ≤ 15
  mask : q.capacityMask = BitVec.ofNat 16 (2 ^ bits - 1)
  tokens : q.tokens.length = 2 ^ bits
  desc : q.shared.desc.length = 2 ^ bits
  reqRing : q.shared.reqRing.length = 2 ^ bits
  rspRing : q.shared.rspRing.length = 2 ^ bits

theorem store_at_inside (x : α) (h : i < cells.length) : storeAt cells i x = some (cells.set i x) := by
  simp [storeAt, h]

theorem capacity_power_of_two (bufSize : Nat) : (capacityFor bufSize).isPowerOfTwo := by
  simp only [capacityFor]
  split
  · assumption
  · exact Nat.isPowerOfTwo_nextPowerOfTwo _

theorem new_sized (built : SyscallQueueBuffer.new base size stale = some q) :
    ∃ bits, capacityFor size = 2 ^ bits ∧ Sized bits q := by
  obtain ⟨bits, power⟩ := capacity_power_of_two size
  simp only [SyscallQueueBuffer.new] at built
  split at built
  · rename_i bounds
    have small : bits ≤ 15 := by
      by_contra large
      have le := Nat.pow_le_pow_right (show 0 < 2 by omega) (show 16 ≤ bits by omega)
      omega
    cases built
    refine ⟨bits, power, small, ?_, by simp [power], by simp [power], by simp [power], by simp [power]⟩
    rw [power]
    have pos : 0 < 2 ^ bits := Nat.pow_pos (by omega)
    apply eq_of_toNat_eq
    have le := Nat.pow_le_pow_right (show 0 < 2 by omega) small
    have one : (1 : BitVec 16).toNat = 1 := rfl
    rw [toNat_sub, one, toNat_ofNat, toNat_ofNat]
    omega
  · cases built

namespace Sized

section

variable (sized : Sized bits q)
include sized

theorem capacity_le : 2 ^ bits ≤ 2 ^ 15 :=
  Nat.pow_le_pow_right (by omega) sized.small

theorem mask_value : q.capacityMask.toNat = 2 ^ bits - 1 := by
  have le := sized.capacity_le
  rw [sized.mask, toNat_ofNat]
  omega

theorem within_mask_iff (i : BitVec 16) : i ≤ q.capacityMask ↔ i.toNat < 2 ^ bits := by
  have value := sized.mask_value
  have pos : 0 < 2 ^ bits := Nat.pow_pos (by omega)
  rw [le_def]
  omega

theorem masked_lt (i : BitVec 16) : (i &&& q.capacityMask).toNat < 2 ^ bits := by
  have value := sized.mask_value
  have pos : 0 < 2 ^ bits := Nat.pow_pos (by omega)
  have le : (i &&& q.capacityMask).toNat ≤ q.capacityMask.toNat := by
    rw [toNat_and]
    exact Nat.and_le_right
  omega

theorem slot_index (h : i < 2 ^ bits) : (BitVec.ofNat 16 i).toNat = i := by
  have le := sized.capacity_le
  rw [toNat_ofNat]
  omega

end

end Sized

namespace SyscallQueueBuffer

def takeSlot (q : SyscallQueueBuffer) (i : Nat) (opcode : ScfOpcode) (args : BitVec 64)
    (token : ScfRequestToken) : SyscallQueueBuffer :=
  { q with
    tokens := q.tokens.set i token
    freeCount := q.freeCount - 1
    reqIndexShadow := q.reqIndexShadow + 1
    shared := { q.shared with
      desc := q.shared.desc.set i { valid := true, opcode := opcode.toU8, args, retVal := 0 }
      reqRing := q.shared.reqRing.set (q.reqIndexShadow &&& q.capacityMask).toNat (BitVec.ofNat 16 i)
      reqIndex := q.reqIndexShadow + 1 } }

def skipEntry (q : SyscallQueueBuffer) : SyscallQueueBuffer :=
  { q with rspIndexLast := q.rspIndexLast + 1 }

def releaseSlot (q : SyscallQueueBuffer) (i : Nat) (entry : ScfDescriptor) : SyscallQueueBuffer :=
  { q with
    rspIndexLast := q.rspIndexLast + 1
    tokens := q.tokens.set i defaultToken
    freeCount := q.freeCount + 1
    shared := { q.shared with desc := q.shared.desc.set i { entry with valid := false } } }

end SyscallQueueBuffer

theorem send_cases (sized : Sized bits q) :
    (q.freeCount = 0 ∧ q.sendLocked opcode args token = some (q, false)) ∨
    (q.freeCount ≠ 0 ∧ (∀ e ∈ q.shared.desc, e.valid = true) ∧
      q.sendLocked opcode args token = none) ∨
    (q.freeCount ≠ 0 ∧ ∃ i e, i < 2 ^ bits ∧ q.shared.desc[i]? = some e ∧ e.valid = false ∧
      q.findFreeDescLocked = some (BitVec.ofNat 16 i) ∧
      q.sendLocked opcode args token = some (q.takeSlot i opcode args token, true)) := by
  by_cases full : q.freeCount = 0
  · exact Or.inl ⟨full, by simp [SyscallQueueBuffer.sendLocked, SyscallQueueBuffer.isFull, full]⟩
  right
  have notFull : q.isFull = false := by
    simpa only [SyscallQueueBuffer.isFull, beq_eq_false_iff_ne] using full
  cases found : q.shared.desc.findIdx? fun e => !e.valid with
  | none =>
    left
    have noneFree : q.findFreeDescLocked = none := by
      simp [SyscallQueueBuffer.findFreeDescLocked, found]
    refine ⟨full, ?_, ?_⟩
    · intro e member
      have := List.findIdx?_eq_none_iff.mp found e member
      simpa using this
    · simp [SyscallQueueBuffer.sendLocked, notFull, noneFree]
  | some i =>
    right
    obtain ⟨inside, isFree, _⟩ := List.findIdx?_eq_some_iff_getElem.mp found
    have bound : i < 2 ^ bits := by rw [← sized.desc]; exact inside
    have slot := sized.slot_index bound
    have free : q.findFreeDescLocked = some (BitVec.ofNat 16 i) := by
      simp [SyscallQueueBuffer.findFreeDescLocked, found]
    refine ⟨full, i, q.shared.desc[i], bound, by simp [inside], by simpa using isFree, free, ?_⟩
    have ringRoom := sized.masked_lt q.reqIndexShadow
    have tokenRoom : i < q.tokens.length := by rw [sized.tokens]; exact bound
    simp only [SyscallQueueBuffer.sendLocked, notFull, free, slot, bind_eq_bind,
      bind_some, Bool.false_eq_true, ↓reduceIte]
    rw [store_at_inside _ tokenRoom, store_at_inside _ inside,
      store_at_inside _ (by rw [sized.reqRing]; exact ringRoom)]
    rfl

theorem pop_response_cases (sized : Sized bits q) :
    (q.rspIndexLast = q.shared.rspIndex ∧ q.popResponseLocked = some (q, none)) ∨
    (q.rspIndexLast ≠ q.shared.rspIndex ∧ ∃ index,
      q.shared.rspRing[(q.rspIndexLast &&& q.capacityMask).toNat]? = some index ∧
      ((¬ index.toNat < 2 ^ bits ∧ q.popResponseLocked = some (q.skipEntry, none)) ∨
       (∃ e, q.shared.desc[index.toNat]? = some e ∧ e.valid = false ∧
          q.popResponseLocked = some (q.skipEntry, none)) ∨
       (∃ e token, index.toNat < 2 ^ bits ∧ q.shared.desc[index.toNat]? = some e ∧
          e.valid = true ∧ q.tokens[index.toNat]? = some token ∧
          q.popResponseLocked = some (q.releaseSlot index.toNat e,
            some { opcode := e.opcode, token, retVal := e.retVal })))) := by
  by_cases drained : q.rspIndexLast = q.shared.rspIndex
  · exact Or.inl ⟨drained, by
      simp [SyscallQueueBuffer.popResponseLocked, SyscallQueueBuffer.hasResponse, drained]⟩
  right
  have waiting : q.hasResponse = true := by simp [SyscallQueueBuffer.hasResponse, drained]
  have ringRoom : (q.rspIndexLast &&& q.capacityMask).toNat < q.shared.rspRing.length := by
    rw [sized.rspRing]; exact sized.masked_lt _
  refine ⟨drained, q.shared.rspRing[(q.rspIndexLast &&& q.capacityMask).toNat],
    List.getElem?_eq_getElem ringRoom, ?_⟩
  have entry := List.getElem?_eq_getElem ringRoom
  generalize q.shared.rspRing[(q.rspIndexLast &&& q.capacityMask).toNat] = index at entry ⊢
  by_cases inside : index.toNat < 2 ^ bits
  · right
    have unmasked : ¬ index > q.capacityMask := by
      have := (sized.within_mask_iff index).mpr inside
      simpa using this
    have descRoom : index.toNat < q.shared.desc.length := by rw [sized.desc]; exact inside
    have tokenRoom : index.toNat < q.tokens.length := by rw [sized.tokens]; exact inside
    have desc := List.getElem?_eq_getElem descRoom
    have token := List.getElem?_eq_getElem tokenRoom
    cases live : q.shared.desc[index.toNat].valid with
    | false =>
      left
      refine ⟨_, desc, live, ?_⟩
      simp only [SyscallQueueBuffer.popResponseLocked, waiting, entry, unmasked, desc, live,
        bind_eq_bind, bind_some, Bool.not_false, ↓reduceIte]
      rfl
    | true =>
      right
      refine ⟨_, _, inside, desc, live, token, ?_⟩
      have masked := (sized.within_mask_iff index).mpr inside
      simp only [SyscallQueueBuffer.popResponseLocked, waiting, entry, unmasked, desc, live, token,
        SyscallQueueBuffer.freeDescLocked, masked, bind_eq_bind, bind_some,
        store_at_inside _ tokenRoom, store_at_inside _ descRoom, Bool.not_true,
        Bool.false_eq_true, ↓reduceIte]
      rfl
  · left
    refine ⟨inside, ?_⟩
    have outside : index > q.capacityMask := by
      have := (sized.within_mask_iff index).not.mpr inside
      simpa using this
    simp only [SyscallQueueBuffer.popResponseLocked, waiting, entry, outside,
      bind_eq_bind, bind_some, ↓reduceIte]
    rfl

end RtosScfQueue
