import CompositeRtos.Lib.OrderedMap
import CompositeRtos.Nimbos.PageTable

/-!
Address spaces: map areas, memory sets, `load_user` and the kernel's own memory set. The
program headers of an ELF file are taken as the parser returns them. The arithmetic on
`usize` wraps, as in the release build the makefile selects. The loops of the source over
addresses run on a counter that is large enough for every iteration the source makes. A
`PhysFrame` that goes out of scope is freed where the source drops it.
-/
namespace RtosNimbosMemorySet
open RtosOrderedMap RtosNimbosFrames RtosNimbosPageTable

def kernelAspaceBase : BitVec 64 := 0xffffff8000000000
def kernelAspaceSize : BitVec 64 := 0x7ffffff000
def physVirtOffset : BitVec 64 := 0xffffff8000000000
def userStackSize : BitVec 64 := 0x4000
def userStackBase : BitVec 64 := 0x7fff00000000 - userStackSize

inductive Mapper where
  | offset (off : BitVec 64)
  | framed (frames : OrderedMap Nat Nat)

structure MapArea where
  start : VirtAddr
  size : BitVec 64
  flags : MemFlags
  mapper : Mapper

structure MemorySet where
  pt : PageTable
  areas : OrderedMap Nat MapArea

namespace MapArea

def newOffset (start : VirtAddr) (startPaddr : PhysAddr) (size : BitVec 64) (flags : MemFlags) :
    Except Panic MapArea :=
  if !isAligned start then .error .unaligned
  else if !isAligned startPaddr then .error .unaligned
  else if !isAligned size then .error .unaligned
  else .ok ⟨start, size, flags, .offset (start - startPaddr)⟩

def newFramed (start : VirtAddr) (size : BitVec 64) (flags : MemFlags) : Except Panic MapArea :=
  if !isAligned start then .error .unaligned
  else if !isAligned size then .error .unaligned
  else .ok ⟨start, size, flags, .framed OrderedMap.empty⟩

def map (area : MapArea) (ram : Ram) (vaddr : VirtAddr) : Except Panic (PhysAddr × MapArea × Ram) :=
  if !isAligned vaddr then .error .unaligned
  else
    match area.mapper with
    | .offset off => .ok (PhysAddr.new (vaddr - off), area, ram)
    | .framed frames =>
      match frames.lookup vaddr.toNat with
      | some frame => .ok (startPaddr frame, area, ram)
      | none =>
        match ram.allocZero with
        | none => .error .outOfFrames
        | some (frame, ram') =>
          .ok (startPaddr frame, { area with mapper := .framed (frames.insert vaddr.toNat frame) }, ram')

def dupLoop (ram : Ram) (newFrames : OrderedMap Nat Nat) :
    List (Nat × Nat) → Except Panic (OrderedMap Nat Nat × Ram)
  | [] => .ok (newFrames, ram)
  | (vaddr, origFrame) :: rest =>
    match ram.alloc with
    | none => .error .outOfFrames
    | some (newFrame, ram') =>
      dupLoop (ram'.copyFrame newFrame origFrame) (newFrames.insert vaddr newFrame) rest

def dup (area : MapArea) (ram : Ram) : Except Panic (MapArea × Ram) :=
  match area.mapper with
  | .offset _ => .ok (area, ram)
  | .framed origFrames =>
    match dupLoop ram OrderedMap.empty origFrames.entries with
    | .error e => .error e
    | .ok (newFrames, ram') => .ok ({ area with mapper := .framed newFrames }, ram')

def unmap (area : MapArea) (ram : Ram) (vaddr : VirtAddr) : Except Panic (MapArea × Ram) :=
  match area.mapper with
  | .offset _ => .ok (area, ram)
  | .framed frames =>
    match frames.lookup vaddr.toNat with
    | none => .ok (area, ram)
    | some frame =>
      match ram.free frame with
      | .error e => .error e
      | .ok ram' => .ok ({ area with mapper := .framed (frames.erase vaddr.toNat) }, ram')

def writeLoop (area : MapArea) (ram : Ram) (start : BitVec 64) (data : List (BitVec 8)) :
    Nat → Except Panic (MapArea × Ram)
  | 0 => .ok (area, ram)
  | fuel + 1 =>
    if data.length > 0 then
      let startAlign := alignDown start
      let pgoff := (start - startAlign).toNat
      let n := min (4096 - pgoff) data.length
      match VirtAddr.new (area.start + startAlign) with
      | .error e => .error e
      | .ok vaddr =>
        match area.map ram vaddr with
        | .error e => .error e
        | .ok (paddr, area', ram') =>
          area'.writeLoop (ram'.copy (paddr.toNat + pgoff) (data.take n)) (start + BitVec.ofNat 64 n)
            (data.drop n) fuel
    else .ok (area, ram)

def writeData (area : MapArea) (ram : Ram) (offset : BitVec 64) (data : List (BitVec 8)) :
    Except Panic (MapArea × Ram) :=
  if ¬ offset < area.size then .error .writeOffset
  else if ¬ offset + BitVec.ofNat 64 data.length ≤ area.size then .error .writeLength
  else area.writeLoop ram offset data data.length

def drop (area : MapArea) (ram : Ram) : Except Panic Ram :=
  match area.mapper with
  | .offset _ => .ok ram
  | .framed frames => frames.entries.foldlM (fun ram e => ram.free e.2) ram

end MapArea

def mapLoop (pt : PageTable) (ram : Ram) (area : MapArea) (vaddr stop : BitVec 64) :
    Nat → Except Panic (PageTable × MapArea × Ram)
  | 0 => .ok (pt, area, ram)
  | fuel + 1 =>
    if vaddr < stop then
      match VirtAddr.new vaddr with
      | .error e => .error e
      | .ok va =>
        match area.map ram va with
        | .error e => .error e
        | .ok (paddr, area', ram') =>
          match pt.map ram' va paddr area.flags with
          | .error e => .error e
          | .ok (pt', ram'') => mapLoop pt' ram'' area' (vaddr + 4096) stop fuel
    else .ok (pt, area, ram)

def mapArea (pt : PageTable) (ram : Ram) (area : MapArea) : Except Panic (PageTable × MapArea × Ram) :=
  let stop := area.start + area.size
  mapLoop pt ram area area.start stop ((stop.toNat - area.start.toNat + 4095) / 4096)

def unmapLoop (pt : PageTable) (ram : Ram) (area : MapArea) (vaddr stop : BitVec 64) :
    Nat → Except Panic (MapArea × Ram)
  | 0 => .ok (area, ram)
  | fuel + 1 =>
    if vaddr < stop then
      match VirtAddr.new vaddr with
      | .error e => .error e
      | .ok va =>
        match area.unmap ram va with
        | .error e => .error e
        | .ok (area', ram') =>
          match pt.unmap ram' va with
          | .error e => .error e
          | .ok ram'' => unmapLoop pt ram'' area' (vaddr + 4096) stop fuel
    else .ok (area, ram)

def unmapArea (pt : PageTable) (ram : Ram) (area : MapArea) : Except Panic (MapArea × Ram) :=
  let stop := area.start + area.size
  unmapLoop pt ram area area.start stop ((stop.toNat - area.start.toNat + 4095) / 4096)

/-- `PageTable::clone_from`: a new table with the root entries of `[start, stop)`. -/
def cloneFrom (src : PageTable) (ram : Ram) (start stop : VirtAddr) : Except Panic (PageTable × Ram) :=
  match PageTable.new ram with
  | .error e => .error e
  | .ok (pt, ram') =>
    match VirtAddr.new (stop - 1) with
    | .error e => .error e
    | .ok last =>
      let startIdx := (p4Index start).val
      let endIdx := (p4Index last).val + 1
      .ok (pt, (List.range' startIdx (endIdx - startIdx)).foldl (fun ram i =>
        ram.storeEntry pt.rootPaddr (Fin.ofNat 512 i) (entryAt ram src.rootPaddr (Fin.ofNat 512 i))) ram')

/-- The bits of an ELF segment that `load_user` reads; `data` is missing when the file
    does not hold the segment's bytes. -/
structure ProgramHeader where
  isLoad : Bool
  virtualAddr : BitVec 64
  memSize : BitVec 64
  isRead : Bool
  isWrite : Bool
  isExecute : Bool
  data : Option (List (BitVec 8))

structure ElfFile where
  isExecutable : Bool
  archMatches : Bool
  entryPoint : BitVec 64
  programIter : List ProgramHeader

def ProgramHeader.memFlags (ph : ProgramHeader) : MemFlags :=
  { read := ph.isRead, write := ph.isWrite, execute := ph.isExecute, user := true, device := false }

namespace MemorySet

def newKernel (ram : Ram) : Except Panic (MemorySet × Ram) :=
  match PageTable.new ram with
  | .error e => .error e
  | .ok (pt, ram') => .ok (⟨pt, OrderedMap.empty⟩, ram')

def new (kernel : PageTable) (ram : Ram) : Except Panic (MemorySet × Ram) :=
  match VirtAddr.new kernelAspaceBase with
  | .error e => .error e
  | .ok start =>
    match VirtAddr.new (kernelAspaceBase + kernelAspaceSize) with
    | .error e => .error e
    | .ok stop =>
      match cloneFrom kernel ram start stop with
      | .error e => .error e
      | .ok (pt, ram') => .ok (⟨pt, OrderedMap.empty⟩, ram')

def insert (ms : MemorySet) (ram : Ram) (area : MapArea) : Except Panic (MemorySet × Ram) :=
  if area.size > 0 then
    match ms.areas.lookup area.start.toNat with
    | some _ => .error .areaExists
    | none =>
      match mapArea ms.pt ram area with
      | .error e => .error e
      | .ok (pt, area', ram') => .ok (⟨pt, ms.areas.insert area.start.toNat area'⟩, ram')
  else
    match area.drop ram with
    | .error e => .error e
    | .ok ram' => .ok (ms, ram')

def loadSegment (ms : MemorySet) (ram : Ram) (ph : ProgramHeader) : Except Panic (MemorySet × Ram) :=
  if !ph.isLoad then .ok (ms, ram)
  else
    match VirtAddr.new ph.virtualAddr with
    | .error e => .error e
    | .ok vaddr =>
      match VirtAddr.new (ph.virtualAddr + ph.memSize) with
      | .error e => .error e
      | .ok last =>
        match ph.data with
        | none => .error .segmentData
        | some data =>
          match MapArea.newFramed (alignDown vaddr) (alignUp last - alignDown vaddr) ph.memFlags with
          | .error e => .error e
          | .ok area =>
            match area.writeData ram (pageOffset vaddr) data with
            | .error e => .error e
            | .ok (area', ram') => ms.insert ram' area'

def loadSegments (ms : MemorySet) (ram : Ram) : List ProgramHeader → Except Panic (MemorySet × Ram)
  | [] => .ok (ms, ram)
  | ph :: rest =>
    match ms.loadSegment ram ph with
    | .error e => .error e
    | .ok (ms', ram') => ms'.loadSegments ram' rest

/-- `load_user`; the parser's verdict on the file is `none` for an invalid one. -/
def loadUser (ms : MemorySet) (ram : Ram) (file : Option ElfFile) :
    Except Panic (VirtAddr × VirtAddr × MemorySet × Ram) :=
  match file with
  | none => .error .invalidElf
  | some elf =>
    if !elf.isExecutable then .error .notExecutable
    else if !elf.archMatches then .error .invalidArch
    else
      match ms.loadSegments ram elf.programIter with
      | .error e => .error e
      | .ok (ms', ram') =>
        match VirtAddr.new userStackBase with
        | .error e => .error e
        | .ok base =>
          match MapArea.newFramed base userStackSize ⟨true, true, false, true, false⟩ with
          | .error e => .error e
          | .ok stack =>
            match ms'.insert ram' stack with
            | .error e => .error e
            | .ok (ms'', ram'') =>
              match VirtAddr.new elf.entryPoint with
              | .error e => .error e
              | .ok entry =>
                match VirtAddr.new (userStackBase + userStackSize) with
                | .error e => .error e
                | .ok top => .ok (entry, top, ms'', ram'')

def unmapAreas (pt : PageTable) (ram : Ram) :
    List (Nat × MapArea) → Except Panic (List (Nat × MapArea) × Ram)
  | [] => .ok ([], ram)
  | (start, area) :: rest =>
    match unmapArea pt ram area with
    | .error e => .error e
    | .ok (area', ram') =>
      match unmapAreas pt ram' rest with
      | .error e => .error e
      | .ok (rest', ram'') => .ok ((start, area') :: rest', ram'')

def dropAreas (ram : Ram) (areas : List (Nat × MapArea)) : Except Panic Ram :=
  areas.foldlM (fun ram e => e.2.drop ram) ram

def clear (ms : MemorySet) (ram : Ram) : Except Panic (MemorySet × Ram) :=
  match unmapAreas ms.pt ram ms.areas.entries with
  | .error e => .error e
  | .ok (areas, ram') =>
    match dropAreas ram' areas with
    | .error e => .error e
    | .ok ram'' => .ok (⟨ms.pt, OrderedMap.empty⟩, ram'')

def dupAreas (ms : MemorySet) (ram : Ram) : List (Nat × MapArea) → Except Panic (MemorySet × Ram)
  | [] => .ok (ms, ram)
  | (_, area) :: rest =>
    match area.dup ram with
    | .error e => .error e
    | .ok (area', ram') =>
      match ms.insert ram' area' with
      | .error e => .error e
      | .ok (ms', ram'') => ms'.dupAreas ram'' rest

def dup (ms : MemorySet) (kernel : PageTable) (ram : Ram) : Except Panic (MemorySet × Ram) :=
  match new kernel ram with
  | .error e => .error e
  | .ok (copy, ram') => copy.dupAreas ram' ms.areas.entries

def drop (ms : MemorySet) (ram : Ram) : Except Panic Ram :=
  match ms.clear ram with
  | .error e => .error e
  | .ok (ms', ram') => ms'.pt.intrmTables.foldlM (fun ram f => ram.free f) ram'

end MemorySet

structure KernelRange where
  start : BitVec 64
  stop : BitVec 64
  flags : MemFlags

def mapRange (ms : MemorySet) (ram : Ram) (range : KernelRange) : Except Panic (MemorySet × Ram) :=
  if ¬ range.start < range.stop then .error .emptyRange
  else
    match VirtAddr.new range.start with
    | .error e => .error e
    | .ok start =>
      if !isAligned start then .error .unaligned
      else
        match VirtAddr.new range.stop with
        | .error e => .error e
        | .ok stop =>
          if !isAligned stop then .error .unaligned
          else
            match MapArea.newOffset start (PhysAddr.new (range.start - physVirtOffset))
              (range.stop - range.start) range.flags with
            | .error e => .error e
            | .ok area => ms.insert ram area

def mapRanges (ms : MemorySet) (ram : Ram) : List KernelRange → Except Panic (MemorySet × Ram)
  | [] => .ok (ms, ram)
  | range :: rest =>
    match mapRange ms ram range with
    | .error e => .error e
    | .ok (ms', ram') => mapRanges ms' ram' rest

/-- `init_kernel_aspace`; the ranges come from the linker script and the board's
    configuration. -/
def initKernelAspace (ram : Ram) (ranges : List KernelRange) : Except Panic (MemorySet × Ram) :=
  match MemorySet.newKernel ram with
  | .error e => .error e
  | .ok (ms, ram') => mapRanges ms ram' ranges

end RtosNimbosMemorySet
