import CompositeRtos.Uintr.X86

/-!
Address translation of the emulator: `mmu_translate` with its two callers for nested and
for direct translation, `get_hphys` and `get_hphys2`, and `handle_mmu_fault`, through which
every ordinary access goes. A walk sets accessed and dirty flags in the tables on its way.
-/
namespace RtosUintrMmu
open RtosUintrMachine RtosX86

inductive MmuIdx where
  | ksmap | user | knosmap
  deriving DecidableEq

inductive AccessType where
  | load | store | fetch
  deriving DecidableEq

structure PgMode where
  pae : Bool
  lma : Bool
  nxe : Bool
  pse : Bool
  la57 : Bool
  wp : Bool
  pke : Bool
  pks : Bool
  smep : Bool

structure Prot where
  read : Bool
  write : Bool
  exec : Bool

def Prot.all : Prot := ⟨true, true, true⟩

def Prot.and (p q : Prot) : Prot := ⟨p.read && q.read, p.write && q.write, p.exec && q.exec⟩

def Prot.allows (p : Prot) : AccessType → Bool
  | .load => p.read
  | .store => p.write
  | .fetch => p.exec

inductive Exception where
  | gpf
  | pf (code : BitVec 32) (addr : BitVec 64)
  deriving DecidableEq

/-- Why a translation or an instruction ends early. A `fault` is the error code that
    `mmu_translate` returns, the other two leave by `longjmp`. -/
inductive Stop where
  | fault (code : BitVec 32)
  | vmexit (exitInfo1 exitInfo2 : BitVec 64)
  | exception (e : Exception)
  deriving DecidableEq

abbrev Walk (α : Type) := EStateM Stop Memory α

/-- What translation reads of the CPU. In `a20Mask` is the value of `x86_get_a20_mask`. -/
structure Mmu where
  cr0 : BitVec 64
  cr3 : BitVec 64
  cr4 : BitVec 64
  efer : BitVec 64
  lma : Bool
  a20Mask : BitVec 64
  physBits : Nat
  pkru : BitVec 32
  pkrs : BitVec 32
  npt : Bool
  nestedCr3 : BitVec 64
  nestedPgMode : PgMode
  vmVmcb : BitVec 64
  interceptPf : Bool

def cr0WpMask : BitVec 64 := 0x10000
def cr0PgMask : BitVec 64 := 0x80000000
def cr4PseMask : BitVec 64 := 0x10
def cr4PaeMask : BitVec 64 := 0x20
def cr4La57Mask : BitVec 64 := 0x1000
def cr4SmepMask : BitVec 64 := 0x100000
def cr4PkeMask : BitVec 64 := 0x400000
def cr4PksMask : BitVec 64 := 0x1000000
def msrEferNxe : BitVec 64 := 0x800

def getPgMode (mmu : Mmu) : PgMode :=
  let paging := mmu.cr0 &&& cr0PgMask != 0
  let pae := paging && mmu.cr4 &&& cr4PaeMask != 0
  let lma := paging && mmu.lma
  { pae
    lma
    nxe := pae && mmu.efer &&& msrEferNxe != 0
    pse := paging && mmu.cr4 &&& cr4PseMask != 0
    la57 := lma && mmu.cr4 &&& cr4La57Mask != 0
    wp := paging && mmu.cr0 &&& cr0WpMask != 0
    pke := lma && mmu.cr4 &&& cr4PkeMask != 0
    pks := lma && mmu.cr4 &&& cr4PksMask != 0
    smep := paging && mmu.cr4 &&& cr4SmepMask != 0 }

def pgPresentMask : BitVec 64 := 0x1
def pgRwMask : BitVec 64 := 0x2
def pgUserMask : BitVec 64 := 0x4
def pgAccessedMask : BitVec 64 := 0x20
def pgDirtyMask : BitVec 64 := 0x40
def pgPseMask : BitVec 64 := 0x80
def pgPsePatMask : BitVec 64 := 0x1000
def pgAddressMask : BitVec 64 := 0x000ffffffffff000
def pgHiUserMask : BitVec 64 := 0x7ff0000000000000
def pgPkruMask : BitVec 64 := 0x7800000000000000
def pgNxMask : BitVec 64 := 0x8000000000000000

def pgErrorP : BitVec 32 := 0x1
def pgErrorW : BitVec 32 := 0x2
def pgErrorU : BitVec 32 := 0x4
def pgErrorRsvd : BitVec 32 := 0x8
def pgErrorId : BitVec 32 := 0x10
def pgErrorPk : BitVec 32 := 0x20

def ldqPhys (a : BitVec 64) : Walk (BitVec 64) := fun m => .ok (ldq m a) m

def ldlPhys (a : BitVec 64) : Walk (BitVec 32) := fun m => .ok (ldl m a) m

def stlPhysNotdirty (a v : BitVec 64) : Walk Unit := fun m => .ok () (stl m a (v.setWidth 32))

def faultIf (c : Prop) [Decidable c] (code : BitVec 32) : Walk Unit :=
  if c then throw (.fault code) else pure ()

/-- `GET_HPHYS`. The flag tells an access of the guest from one of the walk, which passes
    no `prot`; the result has the rights to be taken over into `prot`. -/
abbrev GetHphys := BitVec 64 → AccessType → Bool → Walk (BitVec 64 × Prot)

/-- A page found by the walk: its entry, the rights of the whole path, the size and the
    bits that are reserved in the entry. -/
structure Leaf where
  addr : BitVec 64
  pte : BitVec 64
  ptep : BitVec 64
  pageBits : Nat
  rsvd : BitVec 64

def pageMask (bits : Nat) : BitVec 64 := BitVec.ofNat 64 (2 ^ bits - 1)

def rsvdMask (mmu : Mmu) (mode : PgMode) : BitVec 64 :=
  (pgAddressMask &&& ~~~(pageMask mmu.physBits)) ||| (if mode.nxe then 0 else pgNxMask)

def ptepStart : BitVec 64 := pgNxMask ||| pgUserMask ||| pgRwMask

def entryAddr (mmu : Mmu) (table addr : BitVec 64) (shift : Nat) : BitVec 64 :=
  (table + (((addr >>> shift) &&& 0x1ff) <<< 3)) &&& mmu.a20Mask

def readEntry (hphys : GetHphys) (gpa rsvd : BitVec 64) : Walk (BitVec 64 × BitVec 64) := do
  let (addr, _) ← hphys gpa .store false
  let entry ← ldqPhys addr
  faultIf (entry &&& pgPresentMask = 0) 0
  faultIf (entry &&& rsvd ≠ 0) (pgErrorRsvd ||| pgErrorP)
  pure (addr, entry)

def markAccessed (addr entry : BitVec 64) : Walk (BitVec 64) := do
  if entry &&& pgAccessedMask = 0 then
    stlPhysNotdirty addr (entry ||| pgAccessedMask)
    pure (entry ||| pgAccessedMask)
  else
    pure entry

def topTable (mmu : Mmu) (hphys : GetHphys) (addr cr3 : BitVec 64) (mode : PgMode) :
    Walk (BitVec 64 × BitVec 64) := do
  if mode.la57 then
    let (pml5eAddr, pml5e) ← readEntry hphys (entryAddr mmu (cr3 &&& ~~~0xfff) addr 48)
      (rsvdMask mmu mode ||| pgPseMask)
    let pml5e ← markAccessed pml5eAddr pml5e
    pure (pml5e, pml5e ^^^ pgNxMask)
  else
    pure (cr3, ptepStart)

def lowerLevels (mmu : Mmu) (hphys : GetHphys) (addr pdpe ptep rsvd : BitVec 64) : Walk Leaf := do
  let (pdeAddr, pde) ← readEntry hphys (entryAddr mmu (pdpe &&& pgAddressMask) addr 21) rsvd
  let ptep := ptep &&& (pde ^^^ pgNxMask)
  if pde &&& pgPseMask ≠ 0 then
    pure ⟨pdeAddr, pde, ptep, 21, rsvd⟩
  else
    let pde ← markAccessed pdeAddr pde
    let (pteAddr, pte) ← readEntry hphys (entryAddr mmu (pde &&& pgAddressMask) addr 12) rsvd
    pure ⟨pteAddr, pte, ptep &&& (pte ^^^ pgNxMask), 12, rsvd⟩

def middleLevels (mmu : Mmu) (hphys : GetHphys) (addr pml5e ptep rsvd : BitVec 64) : Walk Leaf := do
  let (pml4eAddr, pml4e) ← readEntry hphys (entryAddr mmu (pml5e &&& pgAddressMask) addr 39)
    (rsvd ||| pgPseMask)
  let pml4e ← markAccessed pml4eAddr pml4e
  let ptep := ptep &&& (pml4e ^^^ pgNxMask)
  let (pdpeAddr, pdpe) ← readEntry hphys (entryAddr mmu (pml4e &&& pgAddressMask) addr 30) rsvd
  let ptep := ptep &&& (pdpe ^^^ pgNxMask)
  let pdpe ← markAccessed pdpeAddr pdpe
  if pdpe &&& pgPseMask ≠ 0 then
    pure ⟨pdpeAddr, pdpe, ptep, 30, rsvd⟩
  else
    lowerLevels mmu hphys addr pdpe ptep rsvd

def longLevels (mmu : Mmu) (hphys : GetHphys) (addr cr3 : BitVec 64) (mode : PgMode) : Walk Leaf := do
  let (pml5e, ptep) ← topTable mmu hphys addr cr3 mode
  middleLevels mmu hphys addr pml5e ptep (rsvdMask mmu mode)

def pdpteAddr (mmu : Mmu) (cr3 addr : BitVec 64) : BitVec 64 :=
  ((cr3 &&& ~~~(0x1f : BitVec 64)) + ((addr >>> 27) &&& 0x18)) &&& mmu.a20Mask

def paeLevels (mmu : Mmu) (hphys : GetHphys) (addr cr3 : BitVec 64) (mode : PgMode) : Walk Leaf := do
  let rsvd := rsvdMask mmu mode ||| pgHiUserMask
  let (_, pdpe) ← readEntry hphys (pdpteAddr mmu cr3 addr) (rsvd ||| pgNxMask)
  lowerLevels mmu hphys addr pdpe ptepStart rsvd

def legacyAddr (mmu : Mmu) (table addr : BitVec 64) (shift : Nat) : BitVec 64 :=
  ((table &&& ~~~(0xfff : BitVec 64)) + ((addr >>> shift) &&& 0xffc)) &&& mmu.a20Mask

def legacyLevels (mmu : Mmu) (hphys : GetHphys) (addr cr3 : BitVec 64) (mode : PgMode) : Walk Leaf := do
  let (pdeAddr, _) ← hphys (legacyAddr mmu cr3 addr 20) .store false
  let pde := (← ldlPhys pdeAddr).setWidth 64
  faultIf (pde &&& pgPresentMask = 0) 0
  let ptep := pde ||| pgNxMask
  if pde &&& pgPseMask ≠ 0 ∧ mode.pse then
    pure ⟨pdeAddr, pde ||| ((pde &&& 0x1fe000) <<< 19), ptep, 22, 0x200000⟩
  else
    let pde ← markAccessed pdeAddr pde
    let (pteAddr, _) ← hphys (legacyAddr mmu pde addr 10) .store false
    let pte := (← ldlPhys pteAddr).setWidth 64
    faultIf (pte &&& pgPresentMask = 0) 0
    pure ⟨pteAddr, pte, ptep &&& (pte ||| pgNxMask), 12, 0⟩

/-- The reserved low bits of the frame number of a large page; a 4M page has its own. -/
def sizeRsvd (leaf : Leaf) : BitVec 64 :=
  if leaf.pageBits = 22 then leaf.rsvd
  else leaf.rsvd ||| (pageMask leaf.pageBits &&& pgAddressMask &&& ~~~pgPsePatMask)

def pkrProt (mode : PgMode) (idx : MmuIdx) (pkr : BitVec 32) (pte : BitVec 64) : Prot :=
  let pk := ((pte &&& pgPkruMask) >>> 59).toNat
  if pkr.getLsbD (2 * pk) then ⟨false, false, true⟩
  else if pkr.getLsbD (2 * pk + 1) && (idx = .user || mode.wp) then ⟨true, false, true⟩
  else .all

def keyProt (mmu : Mmu) (mode : PgMode) (idx : MmuIdx) (ptep pte : BitVec 64) : Prot :=
  let pkr := if ptep &&& pgUserMask ≠ 0 then (if mode.pke then mmu.pkru else 0)
    else (if mode.pks then mmu.pkrs else 0)
  if pkr = 0 then .all else pkrProt mode idx pkr pte

def pageProt (mode : PgMode) (idx : MmuIdx) (ptep : BitVec 64) : Prot :=
  let open_ := idx ≠ .ksmap || ptep &&& pgUserMask = 0
  { read := open_
    write := open_ && (ptep &&& pgRwMask ≠ 0 || !(idx = .user || mode.wp))
    exec := ptep &&& pgNxMask = 0 && (idx = .user || !(mode.smep && ptep &&& pgUserMask ≠ 0)) }

/-- The checks from `do_check_protect_pse36` on that do not touch memory. -/
def checkProtect (mmu : Mmu) (mode : PgMode) (idx : MmuIdx) (access : AccessType) (ptep pte : BitVec 64) :
    Except Stop Prot :=
  if idx = .user ∧ ptep &&& pgUserMask = 0 then .error (.fault pgErrorP)
  else
    let prot := pageProt mode idx ptep
    let keys := keyProt mmu mode idx ptep pte
    if keys.allows access = false then .error (.fault (pgErrorPk ||| pgErrorP))
    else if (prot.and keys).allows access = false then .error (.fault pgErrorP)
    else .ok (prot.and keys)

structure Translation where
  xlat : BitVec 64
  pageBits : Nat
  prot : Prot

def markPage (access : AccessType) (leaf : Leaf) : Walk (BitVec 64) := do
  let isDirty := access = .store ∧ leaf.pte &&& pgDirtyMask = 0
  if leaf.pte &&& pgAccessedMask = 0 ∨ isDirty then
    let pte := leaf.pte ||| pgAccessedMask ||| (if isDirty then pgDirtyMask else 0)
    stlPhysNotdirty leaf.addr pte
    pure pte
  else
    pure leaf.pte

def inPage (mmu : Mmu) (bits : Nat) (pte addr : BitVec 64) : BitVec 64 :=
  (pte &&& mmu.a20Mask &&& pgAddressMask &&& ~~~(pageMask bits)) + (addr &&& pageMask bits)

def findLeaf (mmu : Mmu) (hphys : GetHphys) (addr cr3 : BitVec 64) (mode : PgMode) : Walk Leaf :=
  if mode.pae then
    if mode.lma then longLevels mmu hphys addr cr3 mode else paeLevels mmu hphys addr cr3 mode
  else legacyLevels mmu hphys addr cr3 mode

def accessPage (mmu : Mmu) (hphys : GetHphys) (addr : BitVec 64) (access : AccessType) (idx : MmuIdx)
    (mode : PgMode) (leaf : Leaf) : Walk Translation := do
  faultIf (leaf.pte &&& sizeRsvd leaf ≠ 0) (pgErrorRsvd ||| pgErrorP)
  let prot ← MonadExcept.ofExcept (checkProtect mmu mode idx access (leaf.ptep ^^^ pgNxMask) leaf.pte)
  let pte ← markPage access leaf
  let prot := if pte &&& pgDirtyMask = 0 then { prot with write := false } else prot
  let (xlat, next) ← hphys (inPage mmu leaf.pageBits pte addr) access true
  pure ⟨xlat, leaf.pageBits, prot.and next⟩

def doFault (access : AccessType) (idx : MmuIdx) (mode : PgMode) : Stop → Stop
  | .fault code => .fault (code ||| (if access = .store then pgErrorW else 0) |||
      (if idx = .user then pgErrorU else 0) |||
      (if access = .fetch ∧ (mode.nxe ∨ mode.smep) then pgErrorId else 0))
  | stop => stop

def mmuTranslate (mmu : Mmu) (hphys : GetHphys) (addr cr3 : BitVec 64) (access : AccessType) (idx : MmuIdx)
    (mode : PgMode) : Walk Translation :=
  EStateM.adaptExcept (doFault access idx mode) do
    let leaf ← findLeaf mmu hphys addr cr3 mode
    accessPage mmu hphys addr access idx mode leaf

def noHphys : GetHphys := fun gpa _ _ => pure (gpa, .all)

def exitInfo2Offset : BitVec 64 := 0x80

def nptexit (guest : Bool) : BitVec 64 := if guest then 0x100000000 else 0x200000000

def getHphys (mmu : Mmu) : GetHphys := fun gpa access guest =>
  if mmu.npt then fun m =>
    match mmuTranslate mmu noHphys gpa mmu.nestedCr3 access .user mmu.nestedPgMode m with
    | .ok t m => .ok (t.xlat, t.prot) m
    | .error (.fault code) m =>
      .error (.vmexit (code.setWidth 64 ||| nptexit guest) gpa) (stq m (mmu.vmVmcb + exitInfo2Offset) gpa)
    | .error stop m => .error stop m
  else pure (gpa, .all)

/-- The result of `mmu_translate` is not looked at: after an error the address is what the
    variable held. -/
def getHphys2 (mmu : Mmu) (junk va : BitVec 64) (access : AccessType) : Walk (BitVec 64) := fun m =>
  match mmuTranslate mmu (getHphys mmu) va mmu.cr3 access .knosmap (getPgMode mmu) m with
  | .ok t m => .ok t.xlat m
  | .error (.fault _) m => .ok junk m
  | .error stop m => .error stop m

def onPage (x va : BitVec 64) : BitVec 64 := (x &&& ~~~0xfff) ||| (va &&& 0xfff)

def canonical (mode : PgMode) (va : BitVec 64) : Bool :=
  let sext := va.sshiftRight (if mode.la57 then 56 else 47)
  sext == 0 || sext == -1

def walkOrFault (mmu : Mmu) (va : BitVec 64) (access : AccessType) (idx : MmuIdx) : Walk (BitVec 64) := fun m =>
  match mmuTranslate mmu (getHphys mmu) va mmu.cr3 access idx (getPgMode mmu) m with
  | .ok t m => .ok (onPage t.xlat va) m
  | .error (.fault code) m =>
    .error (.exception (.pf code va))
      (if mmu.interceptPf then stq m (mmu.vmVmcb + exitInfo2Offset) va else m)
  | .error stop m => .error stop m

/-- `handle_mmu_fault`, with the address the access then goes to. Of the TLB only the entry
    made here is used. -/
def handleMmuFault (mmu : Mmu) (va : BitVec 64) (access : AccessType) (idx : MmuIdx) : Walk (BitVec 64) :=
  if mmu.cr0 &&& cr0PgMask = 0 then
    pure (if mmu.lma then va else va &&& 0xffffffff)
  else if (getPgMode mmu).lma ∧ canonical (getPgMode mmu) va = false then throw (.exception .gpf)
  else walkOrFault mmu va access idx

end RtosUintrMmu
