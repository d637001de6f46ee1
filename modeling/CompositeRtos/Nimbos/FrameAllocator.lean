import Mathlib.Data.List.Nodup
import Mathlib.Logic.Function.Basic
import CompositeRtos.Lib.BitField
import CompositeRtos.Lib.FrameMemory

/-!
The free-list allocator, physical memory and the frames handed out of it. `freeList` keeps
the top of the source's stack first. The fields of an allocator carry what its asserts
keep: freed values were handed out before and none is on the list twice. Frame numbers
stay inside the window that the kernel maps at `PHYS_VIRT_OFFSET`, so memory is read and
written by physical address here.
-/
namespace RtosNimbosFrames
open RtosFrameMemory List

inductive Panic where
  | outOfFrames
  | freeOutside
  | freeUnissued
  | freeTwice
  | invalidVa
  | blockEntry
  | noEntry
  | mappedBefore
  | invalidBefore
  | unaligned
  | writeOffset
  | writeLength
  | areaExists
  | emptyRange
  | invalidElf
  | notExecutable
  | invalidArch
  | segmentData
  deriving DecidableEq

def Panic.ofDealloc : Panic → Prop
  | .freeOutside => True
  | .freeUnissued => True
  | .freeTwice => True
  | _ => False

structure FreeListAllocator where
  start : Nat
  stop : Nat
  nextAvailable : Nat
  freeList : List Nat
  ordered : nextAvailable ≤ max start stop
  issued : ∀ v ∈ freeList, start ≤ v ∧ v < nextAvailable
  distinct : freeList.Nodup

namespace FreeListAllocator

def init (start stop : Nat) : FreeListAllocator where
  start := start
  stop := stop
  nextAvailable := start
  freeList := []
  ordered := Nat.le_max_left start stop
  issued := by simp
  distinct := List.nodup_nil

def alloc : FreeListAllocator → Option (Nat × FreeListAllocator)
  | ⟨start, stop, nextAvailable, value :: rest, ordered, issued, distinct⟩ =>
    some (value, ⟨start, stop, nextAvailable, rest, ordered,
      fun v member => issued v (List.mem_cons_of_mem _ member), distinct.of_cons⟩)
  | ⟨start, stop, nextAvailable, [], _, _, _⟩ =>
    if room : nextAvailable ≥ stop then none
    else some (nextAvailable, ⟨start, stop, nextAvailable + 1, [],
      by omega, by simp, List.nodup_nil⟩)

def dealloc (a : FreeListAllocator) (value : Nat) : Except Panic FreeListAllocator :=
  if below : value < a.start then .error .freeOutside
  else if unissued : value ≥ a.nextAvailable then .error .freeUnissued
  else if listed : value ∈ a.freeList then .error .freeTwice
  else .ok { a with
    freeList := value :: a.freeList
    issued := by
      intro v member
      rcases List.mem_cons.mp member with here | there
      · omega
      · exact a.issued v there
    distinct := List.nodup_cons.mpr ⟨listed, a.distinct⟩ }

def availableSpace (a : FreeListAllocator) : Nat := a.freeList.length + a.stop - a.nextAvailable

def Available (a : FreeListAllocator) (v : Nat) : Prop :=
  v ∈ a.freeList ∨ a.nextAvailable ≤ v ∧ v < a.stop

instance (a : FreeListAllocator) (v : Nat) : Decidable (a.Available v) :=
  inferInstanceAs (Decidable (_ ∨ _))

theorem available_below_stop {a : FreeListAllocator} (h : a.Available v) : v < a.stop := by
  rcases h with listed | ahead
  · have := a.issued v listed
    have := a.ordered
    omega
  · exact ahead.2

theorem alloc_cases {a : FreeListAllocator} (h : a.alloc = some (v, a')) : a'.start = a.start ∧ a'.stop = a.stop ∧
      (a.freeList = v :: a'.freeList ∧ a'.nextAvailable = a.nextAvailable ∨
        a.freeList = [] ∧ a'.freeList = [] ∧ v = a.nextAvailable ∧ v < a.stop ∧ a'.nextAvailable = v + 1) := by
  obtain ⟨start, stop, nextAvailable, freeList, ordered, issued, distinct⟩ := a
  cases freeList with
  | cons value rest =>
    obtain ⟨rfl, rfl⟩ := Prod.mk.inj (Option.some.inj h)
    exact ⟨rfl, rfl, Or.inl ⟨rfl, rfl⟩⟩
  | nil =>
    simp only [alloc] at h
    split at h
    · cases h
    rename_i room
    obtain ⟨rfl, rfl⟩ := Prod.mk.inj (Option.some.inj h)
    exact ⟨rfl, rfl, Or.inr ⟨rfl, rfl, rfl, Nat.lt_of_not_ge room, rfl⟩⟩

theorem listed_first {a : FreeListAllocator} (list : a.freeList = v :: rest) :
    v ∉ rest ∧ a.start ≤ v ∧ v < a.nextAvailable := by
  have distinct := a.distinct
  rw [list] at distinct
  exact ⟨(nodup_cons.mp distinct).1, a.issued v (by rw [list]; exact (.head _))⟩

theorem alloc_some {a : FreeListAllocator} (h : a.alloc = some (v, a')) :
    a.Available v ∧ a'.stop = a.stop ∧ ∀ u, a'.Available u ↔ a.Available u ∧ u ≠ v := by
  obtain ⟨_, stop, ⟨list, next⟩ | ⟨list, list', rfl, room, next⟩⟩ := alloc_cases h
  · obtain ⟨unlisted, _, below⟩ := listed_first list
    refine ⟨Or.inl (by rw [list]; exact (.head _)), stop, fun u => ?_⟩
    simp only [Available, list, next, stop, mem_cons]
    grind
  · refine ⟨Or.inr ⟨Nat.le_refl _, room⟩, stop, fun u => ?_⟩
    simp only [Available, list, list', next, stop, not_mem_nil, false_or]
    omega

theorem alloc_none {a : FreeListAllocator} (h : a.alloc = none) : a.availableSpace = 0 := by
  obtain ⟨start, stop, nextAvailable, freeList, ordered, issued, distinct⟩ := a
  cases freeList with
  | cons value rest => cases h
  | nil =>
    simp only [alloc] at h
    split at h
    · simp only [availableSpace, length_nil]
      omega
    · cases h

theorem alloc_space {a : FreeListAllocator} (h : a.alloc = some (v, a')) :
    a.availableSpace ≤ a'.availableSpace + 1 := by
  obtain ⟨_, stop, ⟨list, next⟩ | ⟨list, list', rfl, room, next⟩⟩ := alloc_cases h
  · simp only [availableSpace, list, next, stop, length_cons]
    omega
  · simp only [availableSpace, list, list', next, stop, length_nil]
    omega

def Issued (a : FreeListAllocator) (v : Nat) : Prop :=
  a.start ≤ v ∧ v < a.nextAvailable ∧ v ∉ a.freeList

theorem issued_unavailable {a : FreeListAllocator} (h : a.Issued v) : ¬ a.Available v := by
  rintro (listed | ahead)
  · exact h.2.2 listed
  · have := h.2.1
    omega

theorem alloc_issued {a : FreeListAllocator} (sane : a.start ≤ a.nextAvailable) (h : a.alloc = some (v, a')) :
    (∀ u, a'.Issued u ↔ a.Issued u ∨ u = v) ∧ a.availableSpace = a'.availableSpace + 1 := by
  have ordered := a.ordered
  obtain ⟨start, stop, ⟨list, next⟩ | ⟨list, list', rfl, room, next⟩⟩ := alloc_cases h
  · obtain ⟨unlisted, low, below⟩ := listed_first list
    simp only [Issued, availableSpace, list, next, start, stop, mem_cons, length_cons]
    exact ⟨fun u => by grind, by omega⟩
  · simp only [Issued, availableSpace, list, list', next, start, stop, length_nil, not_mem_nil,
      not_false_eq_true, and_true]
    exact ⟨fun u => by omega, by omega⟩

theorem dealloc_issued {a : FreeListAllocator} (h : a.Issued value) :
    ∃ a', a.dealloc value = .ok a' ∧ (∀ u, a'.Issued u ↔ a.Issued u ∧ u ≠ value) ∧
      a'.availableSpace = a.availableSpace + 1 := by
  obtain ⟨low, high, unlisted⟩ := h
  rw [dealloc, dif_neg (by omega), dif_neg (by omega), dif_neg unlisted]
  refine ⟨_, rfl, ?_, ?_⟩
  · intro u
    simp only [Issued, mem_cons, not_or]
    tauto
  have := a.ordered
  simp only [availableSpace, length_cons]
  omega

theorem dealloc_ok {a : FreeListAllocator} (h : a.dealloc value = .ok a') :
    a'.stop = a.stop ∧ ∀ u, a'.Available u ↔ a.Available u ∨ u = value := by
  unfold dealloc at h
  split at h
  · cases h
  split at h
  · cases h
  split at h
  · cases h
  cases h
  refine ⟨rfl, ?_⟩
  intro u
  simp only [Available, mem_cons]
  tauto

end FreeListAllocator

/-- Physical memory together with `FRAME_ALLOCATOR`. -/
structure Ram where
  bytes : Bytes
  frames : FreeListAllocator
  window : frames.stop ≤ 2 ^ 27

abbrev PhysAddr := BitVec 64

def PhysAddr.new (pa : BitVec 64) : PhysAddr := pa &&& 0xffffffffff

def frameOf (paddr : PhysAddr) : Nat := paddr.toNat / 4096

def startPaddr (value : Nat) : PhysAddr := PhysAddr.new (BitVec.ofNat 64 value * 4096)

namespace Ram

def view (ram : Ram) : Nat → Fin 512 → BitVec 64 := tableView ram.bytes

def Available (ram : Ram) (f : Nat) : Prop := ram.frames.Available f

def availableSpace (ram : Ram) : Nat := ram.frames.availableSpace

instance (ram : Ram) (f : Nat) : Decidable (ram.Available f) :=
  inferInstanceAs (Decidable (ram.frames.Available f))

def alloc (ram : Ram) : Option (Nat × Ram) :=
  match found : ram.frames.alloc with
  | none => none
  | some (value, rest) =>
    some (value, ⟨ram.bytes, rest, by
      rw [(FreeListAllocator.alloc_some found).2.1]
      exact ram.window⟩)

def zero (ram : Ram) (value : Nat) : Ram :=
  { ram with bytes := wipe ram.bytes (frameOf (startPaddr value)) }

def allocZero (ram : Ram) : Option (Nat × Ram) :=
  match ram.alloc with
  | none => none
  | some (value, ram') => some (value, ram'.zero value)

def free (ram : Ram) (value : Nat) : Except Panic Ram :=
  match found : ram.frames.dealloc value with
  | .error e => .error e
  | .ok rest => .ok ⟨ram.bytes, rest, by
      rw [(FreeListAllocator.dealloc_ok found).1]
      exact ram.window⟩

def storeEntry (ram : Ram) (table : PhysAddr) (i : Fin 512) (e : BitVec 64) : Ram :=
  { ram with bytes := RtosFrameMemory.storeEntry ram.bytes (frameOf table) i e }

def write (ram : Ram) (address : Nat) (byte : BitVec 8) : Ram :=
  { ram with bytes := Function.update ram.bytes address byte }

def copy (ram : Ram) (address : Nat) (data : List (BitVec 8)) : Ram :=
  { ram with bytes := fun a => if address ≤ a then data.getD (a - address) (ram.bytes a) else ram.bytes a }

def copyFrame (ram : Ram) (dst src : Nat) : Ram :=
  { ram with bytes := fun a =>
      if a / 4096 = frameOf (startPaddr dst) then ram.bytes (4096 * frameOf (startPaddr src) + a % 4096)
      else ram.bytes a }

end Ram

theorem start_paddr_toNat (small : f < 2 ^ 28) : (startPaddr f).toNat = 4096 * f := by
  have product : (BitVec.ofNat 64 f * 4096).toNat = 4096 * f := by
    rw [BitVec.toNat_mul, BitVec.toNat_ofNat, show (4096 : BitVec 64).toNat = 4096 from rfl]
    omega
  have whole : BitVec.ofNat 64 f * 4096 &&& 0xffffffffff = BitVec.ofNat 64 f * 4096 := by
    apply RtosBitField.and_field 0 40
    · decide
    · simp
    · rw [product]
      omega
  rw [startPaddr, PhysAddr.new, whole, product]

theorem frame_of_start (small : f < 2 ^ 28) : frameOf (startPaddr f) = f := by
  rw [frameOf, start_paddr_toNat small]
  omega

namespace Ram

theorem available_small {ram : Ram} (h : ram.Available f) : f < 2 ^ 27 :=
  Nat.lt_of_lt_of_le (FreeListAllocator.available_below_stop h) ram.window

theorem alloc_some {ram : Ram} (h : ram.alloc = some (f, ram')) :
    ram.Available f ∧ ram'.bytes = ram.bytes ∧ (∀ u, ram'.Available u ↔ ram.Available u ∧ u ≠ f) ∧
      ram.availableSpace ≤ ram'.availableSpace + 1 := by
  unfold alloc at h
  split at h
  · cases h
  rename_i value rest found
  obtain ⟨rfl, rfl⟩ := Prod.mk.inj (Option.some.inj h)
  obtain ⟨available, _, others⟩ := FreeListAllocator.alloc_some found
  exact ⟨available, rfl, others, FreeListAllocator.alloc_space found⟩

theorem alloc_zero_some {ram ram' : Ram} (h : ram.allocZero = some (f, ram')) :
    ram.Available f ∧ ram'.bytes = wipe ram.bytes f ∧ (∀ u, ram'.Available u ↔ ram.Available u ∧ u ≠ f) ∧
      ram.availableSpace ≤ ram'.availableSpace + 1 := by
  unfold allocZero at h
  split at h
  · cases h
  rename_i value ram₁ found
  obtain ⟨rfl, rfl⟩ := Prod.mk.inj (Option.some.inj h)
  obtain ⟨available, same, others, space⟩ := alloc_some found
  refine ⟨available, ?_, others, space⟩
  have small := available_small available
  simp only [zero, same, frame_of_start (show value < 2 ^ 28 by omega)]

theorem alloc_none {ram : Ram} (h : ram.alloc = none) : ram.availableSpace = 0 := by
  unfold alloc at h
  split at h
  · rename_i found
    exact FreeListAllocator.alloc_none found
  · cases h

theorem alloc_zero_none {ram : Ram} (h : ram.allocZero = none) : ram.availableSpace = 0 := by
  unfold allocZero at h
  split at h
  · rename_i missing
    exact alloc_none missing
  · cases h

def Issued (ram : Ram) (f : Nat) : Prop := ram.frames.Issued f

def Sane (ram : Ram) : Prop := ram.frames.start ≤ ram.frames.nextAvailable

theorem sane_of_issued {ram : Ram} (h : ram.Issued f) : ram.Sane :=
  Nat.le_trans h.1 (Nat.le_of_lt h.2.1)

theorem issued_unavailable {ram : Ram} (h : ram.Issued f) : ¬ ram.Available f :=
  FreeListAllocator.issued_unavailable h

theorem issued_small {ram : Ram} (h : ram.Issued f) : f < 2 ^ 27 := by
  have := ram.window
  have := ram.frames.ordered
  have := h.1
  have := h.2.1
  omega

theorem alloc_issued {ram : Ram} (sane : ram.Sane) (h : ram.alloc = some (f, ram')) :
    (∀ u, ram'.Issued u ↔ ram.Issued u ∨ u = f) ∧ ram.availableSpace = ram'.availableSpace + 1 := by
  unfold alloc at h
  split at h
  · cases h
  rename_i value rest found
  obtain ⟨rfl, rfl⟩ := Prod.mk.inj (Option.some.inj h)
  exact FreeListAllocator.alloc_issued sane found

theorem alloc_zero_issued {ram : Ram} (sane : ram.Sane) (h : ram.allocZero = some (f, ram')) :
    (∀ u, ram'.Issued u ↔ ram.Issued u ∨ u = f) ∧ ram.availableSpace = ram'.availableSpace + 1 := by
  unfold allocZero at h
  split at h
  · cases h
  rename_i value ram₁ found
  obtain ⟨rfl, rfl⟩ := Prod.mk.inj (Option.some.inj h)
  obtain ⟨issued, space⟩ := alloc_issued sane found
  exact ⟨issued, space⟩

theorem free_issued {ram : Ram} (h : ram.Issued f) :
    ∃ ram', ram.free f = .ok ram' ∧ (∀ u, ram'.Issued u ↔ ram.Issued u ∧ u ≠ f) ∧
      ram'.availableSpace = ram.availableSpace + 1 := by
  obtain ⟨frames, done, issued, space⟩ := FreeListAllocator.dealloc_issued h
  unfold free
  split
  · rename_i failed
    rw [done] at failed
    cases failed
  rename_i rest found
  have same : rest = frames := Except.ok.inj (found.symm.trans done)
  subst same
  exact ⟨_, rfl, issued, space⟩

theorem free_ok {ram : Ram} (h : ram.free f = .ok ram') :
    ram'.bytes = ram.bytes ∧ ∀ u, ram'.Available u ↔ ram.Available u ∨ u = f := by
  unfold free at h
  split at h
  · cases h
  rename_i rest found
  cases h
  exact ⟨rfl, (FreeListAllocator.dealloc_ok found).2⟩

end Ram

end RtosNimbosFrames
