import CompositeRtos.Lib.OrderedMap
import CompositeRtos.Rvm.PageTable

/-!
Memory regions and memory sets of the RVM hypervisor (`memory/mm.rs`, `memory/mapper.rs`
and the region loops of `memory/paging.rs`). A loop runs on a counter of pages. Sizes are
multiples of the smallest page, so the loop has nothing left when the counter is used up.
-/
namespace RtosRvmMemorySet
open RtosOrderedMap RtosRvmPte RtosRvmPageTable

def alignDown (addr : BitVec 64) : BitVec 64 := addr &&& ~~~(0x1000 - 1)

def alignUp (addr : BitVec 64) : BitVec 64 := (addr + 0x1000 - 1) &&& ~~~(0x1000 - 1)

theorem align_down_floor (addr : BitVec 64) : (alignDown addr).toNat = addr.toNat / 2 ^ 12 * 2 ^ 12 := by
  rw [alignDown, RtosBitField.and_high_field 12 (by decide)]

theorem align_up_floor (size : BitVec 64) :
    (alignUp size).toNat = (size.toNat + 4095) % 2 ^ 64 / 2 ^ 12 * 2 ^ 12 := by
  rw [alignUp, RtosBitField.and_high_field 12 (by decide), show size + 0x1000 - 1 = size + 0xfff by bv_omega,
    BitVec.toNat_add]
  rfl

theorem align_down_dvd (addr : BitVec 64) : 2 ^ 12 ∣ (alignDown addr).toNat := by
  rw [align_down_floor]
  exact Nat.dvd_mul_left _ _

inductive Mapper where
  | offset (off : BitVec 64)
  | fixed (paddr : PhysAddr)

def Mapper.mapFn : Mapper → BitVec 64 → PhysAddr
  | .offset off, vaddr => vaddr - off
  | .fixed paddr, _ => paddr

structure MemoryRegion where
  start : BitVec 64
  size : BitVec 64
  flags : MemFlags
  mapper : Mapper
  aligned_start : 2 ^ 12 ∣ start.toNat
  aligned_size : 2 ^ 12 ∣ size.toNat

namespace MemoryRegion

def new (start size : BitVec 64) (flags : MemFlags) (mapper : Mapper) : MemoryRegion where
  start := alignDown start
  size := alignUp size
  flags := flags
  mapper := mapper
  aligned_start := align_down_dvd start
  aligned_size := align_down_dvd (size + 0x1000 - 1)

/-- The parameter is the physical address of the static `EMPTY_PAGE`. -/
def newWithEmptyMapper (emptyPage : PhysAddr) (start size : BitVec 64) (flags : MemFlags) : MemoryRegion :=
  new start size flags (.fixed emptyPage)

def newWithOffsetMapper (startVaddr : BitVec 64) (startPaddr : PhysAddr) (size : BitVec 64)
    (flags : MemFlags) : MemoryRegion :=
  new (alignDown startVaddr) size flags (.offset (alignDown startVaddr - alignDown startPaddr))

def isOverlapWith (region other : MemoryRegion) : Bool :=
  !(decide (region.start + region.size ≤ other.start) || decide (region.start ≥ other.start + other.size))

def choosePageSize (region : MemoryRegion) (vaddr size : BitVec 64) : PageSize :=
  if PageSize.isAligned .size1G vaddr && PageSize.isAligned .size1G (region.mapper.mapFn vaddr)
      && decide (PageSize.bytes .size1G ≤ size) && !contains region.flags MemFlags.noHugepages then .size1G
  else if PageSize.isAligned .size2M vaddr && PageSize.isAligned .size2M (region.mapper.mapFn vaddr)
      && decide (PageSize.bytes .size2M ≤ size) && !contains region.flags MemFlags.noHugepages then .size2M
  else .size4K

end MemoryRegion

section Loops

variable (P : GenericPTE) (region : MemoryRegion)

def mapLoop : Nat → BitVec 64 → BitVec 64 → PageTable → HostMemory → HvResult (PageTable × HostMemory)
  | 0, _, _, pt, mem => .ok (pt, mem)
  | n + 1, vaddr, size, pt, mem =>
    if size = 0 then .ok (pt, mem)
    else
      match PageTable.mapPage P mem pt vaddr (region.choosePageSize vaddr size)
          (region.mapper.mapFn vaddr) region.flags with
      | .error fault => .error fault.ofPaging
      | .ok (pt, mem) =>
        mapLoop n (vaddr + (region.choosePageSize vaddr size).bytes)
          (size - (region.choosePageSize vaddr size).bytes) pt mem

def map (pt : PageTable) (mem : HostMemory) : HvResult (PageTable × HostMemory) :=
  mapLoop P region (region.size.toNat / 4096) region.start region.size pt mem

def unmapLoop (pt : PageTable) : Nat → BitVec 64 → BitVec 64 → HostMemory → HvResult HostMemory
  | 0, _, _, mem => .ok mem
  | n + 1, vaddr, size, mem =>
    if size = 0 then .ok mem
    else
      match PageTable.unmapPage P mem pt vaddr with
      | .error fault => .error fault.ofPaging
      | .ok (_, pageSize, mem) =>
        if !pageSize.isAligned vaddr then .error (.panic .pageNotAligned)
        else if ¬ pageSize.bytes ≤ size then .error (.panic .pageTooLarge)
        else unmapLoop pt n (vaddr + pageSize.bytes) (size - pageSize.bytes) mem

def unmap (pt : PageTable) (mem : HostMemory) : HvResult HostMemory :=
  unmapLoop P pt (region.size.toNat / 4096) region.start region.size mem

end Loops

structure MemorySet where
  regions : OrderedMap Nat MemoryRegion
  pt : PageTable

namespace MemorySet

variable (P : GenericPTE)

def new (mem : HostMemory) : HvResult (MemorySet × HostMemory) :=
  match PageTable.new mem with
  | .error fault => .error fault
  | .ok (pt, mem) => .ok (⟨OrderedMap.empty, pt⟩, mem)

def testFreeArea (set : MemorySet) (other : MemoryRegion) : Bool :=
  (match set.regions.lastBefore other.start.toNat with
    | some (_, before) => !before.isOverlapWith other
    | none => true) &&
  (match set.regions.firstFrom other.start.toNat with
    | some (_, after) => !after.isOverlapWith other
    | none => true)

def insert (set : MemorySet) (mem : HostMemory) (region : MemoryRegion) :
    HvResult (MemorySet × HostMemory) :=
  if region.size = 0 then .ok (set, mem)
  else if !set.testFreeArea region then .error (.err ⟨.einval, none⟩)
  else
    match map P region set.pt mem with
    | .error fault => .error fault
    | .ok (pt, mem) => .ok (⟨set.regions.insert region.start.toNat region, pt⟩, mem)

def hex (addr : BitVec 64) : String := "0x" ++ String.ofList (Nat.toDigits 16 addr.toNat)

def delete (set : MemorySet) (mem : HostMemory) (start : BitVec 64) : HvResult (MemorySet × HostMemory) :=
  match set.regions.lookup start.toNat with
  | some region =>
    match unmap P region set.pt mem with
    | .error fault => .error fault
    | .ok mem => .ok (⟨set.regions.erase start.toNat, set.pt⟩, mem)
  | none => .error (.err ⟨.einval,
      some ("MemorySet::delete(): no memory region starts from " ++ hex start)⟩)

/-- Unmaps the values of the map in key order; `unwrap` turns any failure into a panic. -/
def unmapAll (pt : PageTable) : List (Nat × MemoryRegion) → HostMemory → HvResult HostMemory
  | [], mem => .ok mem
  | (_, region) :: rest, mem =>
    match unmap P region pt mem with
    | .error _ => .error (.panic .clearFailed)
    | .ok mem => unmapAll pt rest mem

def clear (set : MemorySet) (mem : HostMemory) : HvResult (MemorySet × HostMemory) :=
  match unmapAll P set.pt set.regions.entries mem with
  | .error fault => .error fault
  | .ok mem => .ok (⟨OrderedMap.empty, set.pt⟩, mem)

def query (set : MemorySet) (mem : HostMemory) (va : BitVec 64) :
    PagingResult (PhysAddr × MemFlags × PageSize) :=
  PageTable.query P mem set.pt va

end MemorySet

end RtosRvmMemorySet
