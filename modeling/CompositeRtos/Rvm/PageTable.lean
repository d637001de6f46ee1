import CompositeRtos.Lib.FrameMemory
import CompositeRtos.Rvm.Pte

/-!
The four-level page table of the RVM hypervisor (`memory/paging.rs`), page by page, over
host memory. A reference to an entry is the address of its table and its index. What an
operation has written before it fails is not kept: no caller goes on with a page table
after an error.
-/
namespace RtosRvmPageTable
open RtosFrameMemory RtosRvmPte

inductive PagingError where
  | noMemory
  | notMapped
  | alreadyMapped
  | mappedToHugePage
  deriving DecidableEq

def PagingError.text : PagingError → String
  | .noMemory => "NoMemory"
  | .notMapped => "NotMapped"
  | .alreadyMapped => "AlreadyMapped"
  | .mappedToHugePage => "MappedToHugePage"

inductive HvErrorNum where
  | enomem
  | efault
  | einval
  deriving DecidableEq

structure HvError where
  num : HvErrorNum
  msg : Option String
  deriving DecidableEq

def HvError.ofPaging : PagingError → HvError
  | .noMemory => ⟨.enomem, none⟩
  | err => ⟨.efault, some err.text⟩

inductive Panic where
  | bitsOutOfRange
  | noRootFrame
  | pageNotAligned
  | pageTooLarge
  | clearFailed
  deriving DecidableEq

inductive Fault (Err : Type) where
  | err (error : Err)
  | panic (cause : Panic)
  deriving DecidableEq

abbrev PagingResult (α : Type) := Except (Fault PagingError) α

abbrev HvResult (α : Type) := Except (Fault HvError) α

def Fault.ofPaging : Fault PagingError → Fault HvError
  | .err error => .err (HvError.ofPaging error)
  | .panic cause => .panic cause

/-! Host memory and its frame allocator. -/

/-- `free` are the free frames in ascending order: the bitmap allocator hands out the lowest
    one. Frames lie below `2 ^ 52`, the limit of a physical address. -/
structure HostMemory where
  bytes : Bytes
  free : List Nat
  ascending : free.Pairwise (· < ·)
  window : ∀ f ∈ free, f < 2 ^ 40

def startPaddr (f : Nat) : PhysAddr := BitVec.ofNat 64 (4096 * f)

def frameOf (p : PhysAddr) : Nat := p.toNat / 4096

structure Slot where
  table : PhysAddr
  index : Fin 512

namespace HostMemory

def view (mem : HostMemory) : Nat → Fin 512 → BitVec 64 := tableView mem.bytes

def entry (mem : HostMemory) (slot : Slot) : BitVec 64 := mem.view (frameOf slot.table) slot.index

def write (mem : HostMemory) (slot : Slot) (e : BitVec 64) : HostMemory :=
  { mem with bytes := storeEntry mem.bytes (frameOf slot.table) slot.index e }

def newZero (mem : HostMemory) : Option (Nat × HostMemory) :=
  match free_eq : mem.free with
  | [] => none
  | f :: rest => some (f,
      { bytes := wipe mem.bytes f
        free := rest
        ascending := by
          have ascending := mem.ascending
          rw [free_eq] at ascending
          exact ascending.of_cons
        window := by
          intro g later
          apply mem.window
          rw [free_eq]
          exact List.mem_cons_of_mem f later })

end HostMemory

/-! Page sizes. -/

inductive PageSize where
  | size4K
  | size2M
  | size1G
  deriving DecidableEq

namespace PageSize

def bits : PageSize → Nat
  | size4K => 12
  | size2M => 21
  | size1G => 30

def bytes : PageSize → BitVec 64
  | size4K => 0x1000
  | size2M => 0x200000
  | size1G => 0x40000000

def pageOffset (size : PageSize) (addr : BitVec 64) : BitVec 64 := addr &&& (size.bytes - 1)

def isAligned (size : PageSize) (addr : BitVec 64) : Bool := size.pageOffset addr == 0

def alignDown (size : PageSize) (addr : BitVec 64) : BitVec 64 := addr &&& ~~~(size.bytes - 1)

def isHuge : PageSize → Bool
  | size4K => false
  | _ => true

end PageSize

/-! Table indices. Masking with `ENTRY_COUNT - 1` is `Fin.ofNat 512`. -/

def p4Index (va : BitVec 64) : Fin 512 := Fin.ofNat 512 (va >>> (12 + 27)).toNat
def p3Index (va : BitVec 64) : Fin 512 := Fin.ofNat 512 (va >>> (12 + 18)).toNat
def p2Index (va : BitVec 64) : Fin 512 := Fin.ofNat 512 (va >>> (12 + 9)).toNat
def p1Index (va : BitVec 64) : Fin 512 := Fin.ofNat 512 (va >>> 12).toNat

def upperIndices (va : BitVec 64) : PageSize → List (Fin 512)
  | .size1G => [p4Index va]
  | .size2M => [p4Index va, p3Index va]
  | .size4K => [p4Index va, p3Index va, p2Index va]

def lastIndex (va : BitVec 64) : PageSize → Fin 512
  | .size1G => p3Index va
  | .size2M => p2Index va
  | .size4K => p1Index va

structure PageTable where
  root : Nat
  intrmTables : List Nat

namespace PageTable

variable (P : GenericPTE)

def rootPaddr (pt : PageTable) : PhysAddr := startPaddr pt.root

def new (mem : HostMemory) : HvResult (PageTable × HostMemory) :=
  match mem.newZero with
  | none => .error (.panic .noRootFrame)
  | some (f, mem) => .ok (⟨f, []⟩, mem)

def nextTableMut (e : BitVec 64) : PagingResult PhysAddr :=
  if !P.isPresent e then .error (.err .notMapped)
  else if P.isHuge e then .error (.err .mappedToHugePage)
  else .ok (P.addr e)

def nextTableMutOrCreate (mem : HostMemory) (pt : PageTable) (slot : Slot) :
    PagingResult (PhysAddr × PageTable × HostMemory) :=
  if isUnused (mem.entry slot) then
    match mem.newZero with
    | none => .error (.err .noMemory)
    | some (f, mem) =>
      match P.setTable (mem.entry slot) (startPaddr f) with
      | none => .error (.panic .bitsOutOfRange)
      | some e => .ok (startPaddr f, { pt with intrmTables := pt.intrmTables ++ [f] }, mem.write slot e)
  else
    match nextTableMut P (mem.entry slot) with
    | .error fault => .error fault
    | .ok next => .ok (next, pt, mem)

def getEntryMut (mem : HostMemory) (pt : PageTable) (va : BitVec 64) : PagingResult (Slot × PageSize) :=
  match nextTableMut P (mem.entry ⟨pt.rootPaddr, p4Index va⟩) with
  | .error fault => .error fault
  | .ok p3 =>
    if P.isHuge (mem.entry ⟨p3, p3Index va⟩) then .ok (⟨p3, p3Index va⟩, .size1G)
    else
      match nextTableMut P (mem.entry ⟨p3, p3Index va⟩) with
      | .error fault => .error fault
      | .ok p2 =>
        if P.isHuge (mem.entry ⟨p2, p2Index va⟩) then .ok (⟨p2, p2Index va⟩, .size2M)
        else
          match nextTableMut P (mem.entry ⟨p2, p2Index va⟩) with
          | .error fault => .error fault
          | .ok p1 => .ok (⟨p1, p1Index va⟩, .size4K)

def descendOrCreate (mem : HostMemory) (pt : PageTable) (table : PhysAddr) :
    List (Fin 512) → PagingResult (PhysAddr × PageTable × HostMemory)
  | [] => .ok (table, pt, mem)
  | i :: rest =>
    match nextTableMutOrCreate P mem pt ⟨table, i⟩ with
    | .error fault => .error fault
    | .ok (next, pt, mem) => descendOrCreate mem pt next rest

def getEntryMutOrCreate (mem : HostMemory) (pt : PageTable) (va : BitVec 64) (size : PageSize) :
    PagingResult (Slot × PageTable × HostMemory) :=
  match descendOrCreate P mem pt pt.rootPaddr (upperIndices va size) with
  | .error fault => .error fault
  | .ok (table, pt, mem) => .ok (⟨table, lastIndex va size⟩, pt, mem)

def query (mem : HostMemory) (pt : PageTable) (va : BitVec 64) :
    PagingResult (PhysAddr × MemFlags × PageSize) :=
  match getEntryMut P mem pt va with
  | .error fault => .error fault
  | .ok (slot, size) =>
    if isUnused (mem.entry slot) then .error (.err .notMapped)
    else .ok (P.addr (mem.entry slot) + size.pageOffset va, P.flags (mem.entry slot), size)

def mapPage (mem : HostMemory) (pt : PageTable) (va : BitVec 64) (size : PageSize) (paddr : PhysAddr)
    (flags : MemFlags) : PagingResult (PageTable × HostMemory) :=
  match getEntryMutOrCreate P mem pt va size with
  | .error fault => .error fault
  | .ok (slot, pt, mem) =>
    if !isUnused (mem.entry slot) then .error (.err .alreadyMapped)
    else
      match P.setAddr (mem.entry slot) (size.alignDown paddr) with
      | none => .error (.panic .bitsOutOfRange)
      | some e =>
        match P.setFlags e flags size.isHuge with
        | none => .error (.panic .bitsOutOfRange)
        | some e => .ok (pt, mem.write slot e)

def unmapPage (mem : HostMemory) (pt : PageTable) (va : BitVec 64) :
    PagingResult (PhysAddr × PageSize × HostMemory) :=
  match getEntryMut P mem pt va with
  | .error fault => .error fault
  | .ok (slot, size) =>
    if isUnused (mem.entry slot) then .error (.err .notMapped)
    else .ok (P.addr (mem.entry slot), size, mem.write slot cleared)

end PageTable

/-! Address arithmetic. -/

theorem start_paddr_value (small : f < 2 ^ 40) : (startPaddr f).toNat = 4096 * f := by
  rw [startPaddr, BitVec.toNat_ofNat, Nat.mod_eq_of_lt (by omega)]

@[simp] theorem frame_of_start (small : f < 2 ^ 40) : frameOf (startPaddr f) = f := by
  rw [frameOf, start_paddr_value small]
  omega

theorem bytes_value (size : PageSize) : size.bytes.toNat = 2 ^ size.bits := by
  cases size <;> rfl

theorem page_offset_value (size : PageSize) (addr : BitVec 64) :
    (size.pageOffset addr).toNat = addr.toNat % 2 ^ size.bits := by
  rw [PageSize.pageOffset, BitVec.toNat_and, ← Nat.and_two_pow_sub_one_eq_mod]
  cases size <;> rfl

theorem aligned_iff (size : PageSize) (addr : BitVec 64) :
    size.isAligned addr = true ↔ 2 ^ size.bits ∣ addr.toNat := by
  rw [PageSize.isAligned, beq_iff_eq, ← BitVec.toNat_inj, page_offset_value, Nat.dvd_iff_mod_eq_zero]
  rfl

theorem align_down_value (size : PageSize) (addr : BitVec 64) :
    (size.alignDown addr).toNat = addr.toNat / 2 ^ size.bits * 2 ^ size.bits := by
  cases size <;> exact RtosBitField.and_high_field _ (by decide)

theorem align_down_aligned (size : PageSize) (addr : BitVec 64) : 2 ^ 12 ∣ (size.alignDown addr).toNat := by
  rw [align_down_value]
  exact Nat.dvd_mul_left_of_dvd (by cases size <;> decide) _

def SameEntry (a : BitVec 64) (s : PageSize) (b : BitVec 64) (t : PageSize) : Prop :=
  upperIndices a s = upperIndices b t ∧ lastIndex a s = lastIndex b t

instance (a : BitVec 64) (s : PageSize) (b : BitVec 64) (t : PageSize) : Decidable (SameEntry a s b t) :=
  inferInstanceAs (Decidable (_ ∧ _))

theorem same_entry_iff : SameEntry a s b t ↔
    s = t ∧ a.toNat / 2 ^ s.bits % 2 ^ (48 - s.bits) = b.toNat / 2 ^ s.bits % 2 ^ (48 - s.bits) := by
  unfold SameEntry
  cases s <;> cases t <;> simp only [upperIndices, lastIndex, List.cons.injEq, Fin.ext_iff, p4Index, p3Index, p2Index,
      p1Index, index_value, PageSize.bits, reduceCtorEq, and_true, true_and, and_false, false_and] <;>
    omega

theorem upper_length (va : BitVec 64) (size : PageSize) :
    (upperIndices va size).length = (48 - size.bits) / 9 - 1 := by
  cases size <;> rfl

end RtosRvmPageTable
