import CompositeRtos.Nimbos.FrameAllocator

/-!
The four-level page table of the kernel: entries, flag conversions and the functions of
`PageTableImpl`, over physical memory. A reference to an entry is the address of its table
and its index. An index function masks with `ENTRY_COUNT - 1`, which is `Fin.ofNat 512`.
-/
namespace RtosNimbosPageTable
open RtosNimbosFrames

abbrev VirtAddr := BitVec 64

def VirtAddr.new (va : BitVec 64) : Except Panic VirtAddr :=
  if va >>> 47 ≠ 0 ∧ va >>> 47 ≠ 0x1ffff then .error .invalidVa else .ok va

def Canonical (va : VirtAddr) : Prop := va >>> 47 = 0 ∨ va >>> 47 = 0x1ffff

instance (va : VirtAddr) : Decidable (Canonical va) := inferInstanceAs (Decidable (_ ∨ _))

def alignDown (addr : BitVec 64) : BitVec 64 := addr &&& ~~~(0x1000 - 1)

def alignUp (addr : BitVec 64) : BitVec 64 := (addr + 0x1000 - 1) &&& ~~~(0x1000 - 1)

def pageOffset (addr : BitVec 64) : BitVec 64 := addr &&& (0x1000 - 1)

def isAligned (addr : BitVec 64) : Bool := pageOffset addr == 0

structure MemFlags where
  read : Bool
  write : Bool
  execute : Bool
  user : Bool
  device : Bool
  deriving DecidableEq

def MemFlags.empty : MemFlags := ⟨false, false, false, false, false⟩

namespace Ptf

def present : BitVec 64 := 0x1
def writable : BitVec 64 := 0x2
def userAccessible : BitVec 64 := 0x4
def writeThrough : BitVec 64 := 0x8
def noCache : BitVec 64 := 0x10
def hugePage : BitVec 64 := 0x80
def noExecute : BitVec 64 := 0x8000000000000000
/-- All flags the `x86_64` crate names: every bit outside the address field. -/
def all : BitVec 64 := 0xfff0000000000fff

def contains (bits flag : BitVec 64) : Bool := bits &&& flag == flag

def fromBitsTruncate (bits : BitVec 64) : BitVec 64 := bits &&& all

def ofMemFlags (f : MemFlags) : BitVec 64 :=
  if f = MemFlags.empty then 0
  else present ||| (if f.write then writable else 0) ||| (if f.execute then 0 else noExecute)
    ||| (if f.user then userAccessible else 0)
    ||| (if f.device then noCache ||| writeThrough else 0)

def toMemFlags (bits : BitVec 64) : MemFlags :=
  if bits = 0 then MemFlags.empty
  else
    { read := true
      write := contains bits writable
      execute := !contains bits noExecute
      user := contains bits userAccessible
      device := contains bits noCache }

end Ptf

namespace Pte

def physAddrMask : BitVec 64 := 0x000ffffffffff000

def newPage (paddr : PhysAddr) (flags : MemFlags) (isBlock : Bool) : BitVec 64 :=
  (Ptf.ofMemFlags flags ||| (if isBlock then Ptf.hugePage else 0)) ||| (paddr &&& physAddrMask)

def newTable (paddr : PhysAddr) : BitVec 64 :=
  (Ptf.present ||| Ptf.writable ||| Ptf.userAccessible) ||| (paddr &&& physAddrMask)

def paddr (e : BitVec 64) : PhysAddr := PhysAddr.new (e &&& physAddrMask)

def flags (e : BitVec 64) : MemFlags := Ptf.toMemFlags (Ptf.fromBitsTruncate e)

def isUnused (e : BitVec 64) : Bool := e == 0

def isPresent (e : BitVec 64) : Bool := Ptf.contains (Ptf.fromBitsTruncate e) Ptf.present

def isBlock (e : BitVec 64) : Bool := Ptf.contains (Ptf.fromBitsTruncate e) Ptf.hugePage

end Pte

def p4Index (va : VirtAddr) : Fin 512 := Fin.ofNat 512 (va >>> 39).toNat
def p3Index (va : VirtAddr) : Fin 512 := Fin.ofNat 512 (va >>> 30).toNat
def p2Index (va : VirtAddr) : Fin 512 := Fin.ofNat 512 (va >>> 21).toNat
def p1Index (va : VirtAddr) : Fin 512 := Fin.ofNat 512 (va >>> 12).toNat

def upperIndices (va : VirtAddr) : List (Fin 512) := [p4Index va, p3Index va, p2Index va]

structure PageTable where
  rootPaddr : PhysAddr
  intrmTables : List Nat

def entryAt (ram : Ram) (table : PhysAddr) (i : Fin 512) : BitVec 64 := ram.view (frameOf table) i

def nextTableMut (e : BitVec 64) : Except Panic (Option PhysAddr) :=
  if !Pte.isPresent e then .ok none
  else if Pte.isBlock e then .error .blockEntry
  else .ok (some (Pte.paddr e))

def descend (ram : Ram) : PhysAddr → List (Fin 512) → Except Panic (Option PhysAddr)
  | table, [] => .ok (some table)
  | table, i :: rest =>
    match nextTableMut (entryAt ram table i) with
    | .error e => .error e
    | .ok none => .ok none
    | .ok (some next) => descend ram next rest

namespace PageTable

def new (ram : Ram) : Except Panic (PageTable × Ram) :=
  match ram.allocZero with
  | none => .error .outOfFrames
  | some (root, ram') => .ok (⟨startPaddr root, [root]⟩, ram')

def allocIntrmTable (pt : PageTable) (ram : Ram) : Except Panic (PhysAddr × PageTable × Ram) :=
  match ram.allocZero with
  | none => .error .outOfFrames
  | some (frame, ram') =>
    .ok (startPaddr frame, { pt with intrmTables := pt.intrmTables ++ [frame] }, ram')

def nextTableMutOrCreate (pt : PageTable) (ram : Ram) (table : PhysAddr) (i : Fin 512) :
    Except Panic (Option PhysAddr × PageTable × Ram) :=
  let e := entryAt ram table i
  if Pte.isUnused e then
    match pt.allocIntrmTable ram with
    | .error e => .error e
    | .ok (paddr, pt', ram') => .ok (some paddr, pt', ram'.storeEntry table i (Pte.newTable paddr))
  else
    match nextTableMut e with
    | .error e => .error e
    | .ok next => .ok (next, pt, ram)

def descendOrCreate (pt : PageTable) (ram : Ram) :
    PhysAddr → List (Fin 512) → Except Panic (Option PhysAddr × PageTable × Ram)
  | table, [] => .ok (some table, pt, ram)
  | table, i :: rest =>
    match pt.nextTableMutOrCreate ram table i with
    | .error e => .error e
    | .ok (none, pt', ram') => .ok (none, pt', ram')
    | .ok (some next, pt', ram') => descendOrCreate pt' ram' next rest

def getEntryMut (pt : PageTable) (ram : Ram) (vaddr : VirtAddr) :
    Except Panic (Option (PhysAddr × Fin 512)) :=
  match descend ram pt.rootPaddr (upperIndices vaddr) with
  | .error e => .error e
  | .ok none => .ok none
  | .ok (some p1) => .ok (some (p1, p1Index vaddr))

def map (pt : PageTable) (ram : Ram) (vaddr : VirtAddr) (paddr : PhysAddr) (flags : MemFlags) :
    Except Panic (PageTable × Ram) :=
  match pt.descendOrCreate ram pt.rootPaddr (upperIndices vaddr) with
  | .error e => .error e
  | .ok (none, _, _) => .error .noEntry
  | .ok (some p1, pt', ram') =>
    if !Pte.isUnused (entryAt ram' p1 (p1Index vaddr)) then .error .mappedBefore
    else .ok (pt', ram'.storeEntry p1 (p1Index vaddr) (Pte.newPage (alignDown paddr) flags false))

def unmap (pt : PageTable) (ram : Ram) (vaddr : VirtAddr) : Except Panic Ram :=
  match pt.getEntryMut ram vaddr with
  | .error e => .error e
  | .ok none => .error .noEntry
  | .ok (some (p1, i)) =>
    if Pte.isUnused (entryAt ram p1 i) then .error .invalidBefore
    else .ok (ram.storeEntry p1 i 0)

def query (pt : PageTable) (ram : Ram) (vaddr : VirtAddr) :
    Except Panic (Option (PhysAddr × MemFlags)) :=
  match pt.getEntryMut ram vaddr with
  | .error e => .error e
  | .ok none => .ok none
  | .ok (some (p1, i)) =>
    let e := entryAt ram p1 i
    if Pte.isUnused e then .ok none
    else .ok (some (PhysAddr.new (Pte.paddr e + pageOffset vaddr), Pte.flags e))

end PageTable

theorem virt_addr_new_ok (h : VirtAddr.new va = .ok vb) : vb = va ∧ Canonical va := by
  unfold VirtAddr.new at h
  split at h
  · cases h
  rename_i top
  cases h
  refine ⟨rfl, ?_⟩
  unfold Canonical
  tauto

theorem canonical_range (h : Canonical va) : va.toNat < 2 ^ 47 ∨ 2 ^ 64 - 2 ^ 47 ≤ va.toNat := by
  have bound := va.isLt
  have top : (va >>> 47).toNat = va.toNat / 2 ^ 47 := by
    rw [BitVec.toNat_ushiftRight, Nat.shiftRight_eq_div_pow]
  rcases h with low | high
  · rw [low, show (0 : BitVec 64).toNat = 0 from rfl] at top
    omega
  · rw [high, show (0x1ffff : BitVec 64).toNat = 0x1ffff from rfl] at top
    omega

theorem page_offset_toNat (addr : BitVec 64) : (pageOffset addr).toNat = addr.toNat % 2 ^ 12 := by
  rw [pageOffset, BitVec.toNat_and]
  exact Nat.and_two_pow_sub_one_eq_mod addr.toNat 12

theorem aligned_iff (addr : BitVec 64) : isAligned addr ↔ 2 ^ 12 ∣ addr.toNat := by
  rw [isAligned, beq_iff_eq, ← BitVec.toNat_inj, page_offset_toNat]
  exact Nat.dvd_iff_mod_eq_zero.symm

theorem align_down_toNat (addr : BitVec 64) : (alignDown addr).toNat = addr.toNat / 2 ^ 12 * 2 ^ 12 :=
  RtosBitField.and_high_field 12 (by decide)

theorem align_down_aligned (h : isAligned addr) : alignDown addr = addr :=
  RtosBitField.and_field 12 64 (by decide) ((aligned_iff addr).mp h) addr.isLt

end RtosNimbosPageTable
