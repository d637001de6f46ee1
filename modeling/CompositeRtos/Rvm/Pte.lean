import CompositeRtos.Lib.BitField
import Mathlib.Tactic.SplitIfs

/-!
The page table entry formats of the RVM hypervisor (`memory/paging.rs`, trait
`GenericPTE`). Three formats implement it: `PTEntry` for the hypervisor's own page table,
`EPTEntry` and `NPTEntry` for the guest's nested one. All three keep the address in bits
12 .. 52 and the flags around it; they differ in what the flags mean and in which
addresses they refuse.
-/
namespace RtosRvmPte
open RtosBitField BitVec Option

abbrev PhysAddr := BitVec 64

/-- `MemFlags`, as the raw word that a configuration can hold. -/
abbrev MemFlags := BitVec 64

namespace MemFlags

def read : MemFlags := 0x1
def write : MemFlags := 0x2
def execute : MemFlags := 0x4
def io : MemFlags := 0x10
def noHugepages : MemFlags := 0x100
def user : MemFlags := 0x200

end MemFlags

def contains (f flag : BitVec 64) : Bool := f &&& flag == flag

/-- The trait `GenericPTE`. A setter that returns `none` is one that panics. -/
structure GenericPTE where
  addr : BitVec 64 → PhysAddr
  flags : BitVec 64 → MemFlags
  isPresent : BitVec 64 → Bool
  isHuge : BitVec 64 → Bool
  setAddr : BitVec 64 → PhysAddr → Option (BitVec 64)
  setFlags : BitVec 64 → MemFlags → Bool → Option (BitVec 64)
  setTable : BitVec 64 → PhysAddr → Option (BitVec 64)

-- `is_unused` and `clear` are the same in all three formats.
def isUnused (e : BitVec 64) : Bool := e == 0

def cleared : BitVec 64 := 0

def GenericPTE.pageEntry (P : GenericPTE) (p : PhysAddr) (f : MemFlags) (huge : Bool) :
    Option (BitVec 64) :=
  (P.setAddr 0 p).bind fun e => P.setFlags e f huge

def physAddrMask : BitVec 64 := 0x000ffffffffff000

namespace Ptf

def present : BitVec 64 := 0x1
def writable : BitVec 64 := 0x2
def userAccessible : BitVec 64 := 0x4
def noCache : BitVec 64 := 0x10
def hugePage : BitVec 64 := 0x80
def noExecute : BitVec 64 := 0x8000000000000000

def ofMemFlags (f : MemFlags) : BitVec 64 :=
  if f = 0 then 0
  else present
    ||| (if contains f MemFlags.write then writable else 0)
    ||| (if contains f MemFlags.execute then 0 else noExecute)
    ||| (if contains f MemFlags.user then userAccessible else 0)
    ||| (if contains f MemFlags.io then noCache else 0)

def toMemFlags (f : BitVec 64) : MemFlags :=
  if f = 0 then 0
  else MemFlags.read
    ||| (if contains f writable then MemFlags.write else 0)
    ||| (if contains f noExecute then 0 else MemFlags.execute)
    ||| (if contains f userAccessible then MemFlags.user else 0)
    ||| (if contains f noCache then MemFlags.io else 0)

-- Every bit outside the address field is a named flag of the `x86_64` crate.
def fromBitsTruncate (e : BitVec 64) : BitVec 64 := e &&& ~~~physAddrMask

end Ptf

def ptEntry : GenericPTE where
  addr e := e &&& physAddrMask
  flags e := Ptf.toMemFlags (Ptf.fromBitsTruncate e)
  isPresent e := contains (Ptf.fromBitsTruncate e) Ptf.present
  isHuge e := contains (Ptf.fromBitsTruncate e) Ptf.hugePage
  setAddr e p := some ((e &&& ~~~physAddrMask) ||| (p &&& physAddrMask))
  setFlags e f huge :=
    some ((e &&& physAddrMask) ||| (Ptf.ofMemFlags f ||| if huge then Ptf.hugePage else 0))
  setTable _ p :=
    some ((p &&& physAddrMask) ||| (Ptf.present ||| Ptf.writable ||| Ptf.userAccessible))

def nptEntry : GenericPTE :=
  { ptEntry with setFlags := fun e f huge => ptEntry.setFlags e (f ||| MemFlags.user) huge }

/-! `get_bits` and `set_bits` of the `bit_field` crate, with the assertion of the second. -/

def getBits (e : BitVec 64) (lo hi : Nat) : BitVec 64 := (e <<< (64 - hi) >>> (64 - hi)) >>> lo

def setBits (e : BitVec 64) (lo hi : Nat) (value : BitVec 64) : Option (BitVec 64) :=
  if value <<< (64 - (hi - lo)) >>> (64 - (hi - lo)) = value then
    some ((e &&& ~~~(((~~~0 : BitVec 64) <<< (64 - hi) >>> (64 - hi)) >>> lo <<< lo))
      ||| (value <<< lo))
  else none

namespace EptFlags

def read : BitVec 64 := 0x1
def write : BitVec 64 := 0x2
def execute : BitVec 64 := 0x4
def hugePage : BitVec 64 := 0x80

/-- All named flags: bits 0 to 2 and 6 to 10. -/
def all : BitVec 64 := 0x7c7

def ofMemFlags (f : MemFlags) : BitVec 64 :=
  if f = 0 then 0
  else (if contains f MemFlags.read then read else 0)
    ||| (if contains f MemFlags.write then write else 0)
    ||| (if contains f MemFlags.execute then execute else 0)

def toMemFlags (f : BitVec 64) : MemFlags :=
  (if contains f read then MemFlags.read else 0)
    ||| (if contains f write then MemFlags.write else 0)
    ||| (if contains f execute then MemFlags.execute else 0)

end EptFlags

def memTypeUncached : BitVec 64 := 0
def memTypeWriteBack : BitVec 64 := 6

def setFlagsAndMemType (e flags memType : BitVec 64) : Option (BitVec 64) :=
  (setBits e 0 12 flags).bind fun e => setBits e 3 6 memType

def eptEntry : GenericPTE where
  addr e := getBits e 12 52 <<< 12
  flags e := EptFlags.toMemFlags (e &&& EptFlags.all)
  isPresent e := getBits e 0 3 != 0
  isHuge e := contains (e &&& EptFlags.all) EptFlags.hugePage
  setAddr e p := setBits e 12 52 (p >>> 12)
  setFlags e f huge :=
    setFlagsAndMemType e (EptFlags.ofMemFlags f ||| if huge then EptFlags.hugePage else 0)
      memTypeWriteBack
  setTable e p := (setBits e 12 52 (p >>> 12)).bind fun e =>
    setFlagsAndMemType e (EptFlags.read ||| EptFlags.write ||| EptFlags.execute) memTypeUncached

/-- A format that keeps the trait's contract. `usable` are the flags whose pages can be told
    from unused entries, and `access` are the flags that `flags` then reports. -/
structure Format extends GenericPTE where
  usable : MemFlags → Prop
  access : MemFlags → MemFlags
  zero_present : isPresent 0 = false
  zero_huge : isHuge 0 = false
  table_entry : ∀ p : PhysAddr, 2 ^ 12 ∣ p.toNat → p.toNat < 2 ^ 52 →
    ∃ e, setTable 0 p = some e ∧ isPresent e = true ∧ isHuge e = false ∧ addr e = p
  page_entry : ∀ (p : PhysAddr) f huge e, 2 ^ 12 ∣ p.toNat → usable f →
    toGenericPTE.pageEntry p f huge = some e →
    e ≠ 0 ∧ isHuge e = huge ∧ (addr e).toNat = p.toNat % 2 ^ 52 ∧ flags e = access f
  usable_read : ∀ f, contains f MemFlags.read = true → usable f
  access_read : ∀ f, contains f MemFlags.read = true → contains (access f) MemFlags.read = true
  access_write : ∀ f, usable f → contains (access f) MemFlags.write = contains f MemFlags.write
  access_execute : ∀ f, usable f →
    contains (access f) MemFlags.execute = contains f MemFlags.execute

theorem address_field : Field physAddrMask 12 52 := by decide

theorem address_kept (aligned : 2 ^ 12 ∣ p.toNat) (small : p.toNat < 2 ^ 52) : p &&& physAddrMask = p :=
  and_field 12 52 address_field aligned small

theorem packed_address (apart : word &&& physAddrMask = 0#64) :
    ((p &&& physAddrMask) ||| word) &&& physAddrMask = p &&& physAddrMask := by
  rw [BitVec.or_comm]
  exact field_read_back p apart

theorem packed_flags (p word : BitVec 64) (apart : physAddrMask &&& mask = 0#64) :
    ((p &&& physAddrMask) ||| word) &&& mask = word &&& mask := by
  rw [masked_or, BitVec.and_assoc, apart, and_zero, zero_or]

theorem packed_nonzero (p word : BitVec 64) (apart : physAddrMask &&& mask = 0#64) (used : word &&& mask ≠ 0#64) :
    (p &&& physAddrMask) ||| word ≠ 0#64 := by
  intro zero
  apply used
  rw [← packed_flags p word apart, zero, zero_and]

/-! The host format. -/

structure PtfWord (f : MemFlags) (huge : Bool) (word : BitVec 64) : Prop where
  apart : word &&& physAddrMask = 0#64
  used : word &&& ~~~physAddrMask ≠ 0#64
  huge_bit : contains (word &&& ~~~physAddrMask) Ptf.hugePage = huge
  reported : Ptf.toMemFlags (word &&& ~~~physAddrMask) = Ptf.toMemFlags (Ptf.ofMemFlags f)

theorem ptf_word (nonzero : f ≠ 0) (huge : Bool) :
    PtfWord f huge (Ptf.ofMemFlags f ||| if huge then Ptf.hugePage else 0) := by
  constructor <;>
  · simp only [Ptf.ofMemFlags, if_neg nonzero]
    generalize contains f MemFlags.write = w
    generalize contains f MemFlags.execute = x
    generalize contains f MemFlags.user = u
    generalize contains f MemFlags.io = c
    revert huge w x u c
    decide

theorem ptf_reports (nonzero : f ≠ 0) : contains (Ptf.toMemFlags (Ptf.ofMemFlags f)) MemFlags.read = true ∧
    contains (Ptf.toMemFlags (Ptf.ofMemFlags f)) MemFlags.write = contains f MemFlags.write ∧
    contains (Ptf.toMemFlags (Ptf.ofMemFlags f)) MemFlags.execute = contains f MemFlags.execute := by
  simp only [Ptf.ofMemFlags, if_neg nonzero]
  generalize contains f MemFlags.write = w
  generalize contains f MemFlags.execute = x
  generalize contains f MemFlags.user = u
  generalize contains f MemFlags.io = c
  revert w x u c
  decide

theorem pt_page_entry (p : PhysAddr) (f : MemFlags) (huge : Bool) : ptEntry.pageEntry p f huge =
      some ((p &&& physAddrMask) ||| (Ptf.ofMemFlags f ||| if huge then Ptf.hugePage else 0)) := by
  simp only [GenericPTE.pageEntry, ptEntry, zero_and, zero_or, bind_some,
    BitVec.and_assoc, BitVec.and_self, ofNat_eq_ofNat]

theorem pt_page_read (aligned : 2 ^ 12 ∣ p.toNat) (nonzero : f ≠ 0) (made : ptEntry.pageEntry p f huge = some e) :
    e ≠ 0 ∧ ptEntry.isHuge e = huge ∧ (ptEntry.addr e).toNat = p.toNat % 2 ^ 52 ∧
      ptEntry.flags e = Ptf.toMemFlags (Ptf.ofMemFlags f) := by
  have word := ptf_word nonzero huge
  rw [pt_page_entry] at made
  cases made
  have flag_bits := packed_flags p (Ptf.ofMemFlags f ||| if huge then Ptf.hugePage else 0)
    (show physAddrMask &&& ~~~physAddrMask = 0#64 by decide)
  refine ⟨packed_nonzero p _ (by decide) word.used, ?_, ?_, ?_⟩
  · simp only [ptEntry, Ptf.fromBitsTruncate, flag_bits, word.huge_bit]
  · simp only [ptEntry, packed_address word.apart]
    exact and_field_value address_field aligned
  · simp only [ptEntry, Ptf.fromBitsTruncate, flag_bits, word.reported]

theorem pt_table_entry (p : PhysAddr) (aligned : 2 ^ 12 ∣ p.toNat) (small : p.toNat < 2 ^ 52) :
    ∃ e, ptEntry.setTable 0 p = some e ∧ ptEntry.isPresent e = true ∧ ptEntry.isHuge e = false ∧
      ptEntry.addr e = p := by
  have flag_bits := packed_flags p (Ptf.present ||| Ptf.writable ||| Ptf.userAccessible)
    (show physAddrMask &&& ~~~physAddrMask = 0#64 by decide)
  refine ⟨_, rfl, ?_, ?_, ?_⟩
  · simp only [ptEntry, Ptf.fromBitsTruncate, flag_bits]
    decide
  · simp only [ptEntry, Ptf.fromBitsTruncate, flag_bits]
    decide
  · simp only [ptEntry]
    rw [packed_address (by decide), address_kept aligned small]

theorem contains_nonzero (ne : flag ≠ 0) (h : contains f flag = true) : f ≠ 0 := by
  intro zero
  rw [contains, beq_iff_eq, zero, ofNat_eq_ofNat, zero_and] at h
  exact ne h.symm

def hostFormat : Format where
  toGenericPTE := ptEntry
  usable f := f ≠ 0
  access f := Ptf.toMemFlags (Ptf.ofMemFlags f)
  zero_present := by decide
  zero_huge := by decide
  table_entry := pt_table_entry
  page_entry _ _ _ _ aligned nonzero made := pt_page_read aligned nonzero made
  usable_read _ h := contains_nonzero (by decide) h
  access_read _ h := (ptf_reports (contains_nonzero (by decide) h)).1
  access_write _ nonzero := (ptf_reports nonzero).2.1
  access_execute _ nonzero := (ptf_reports nonzero).2.2

/-! The AMD nested format: the host format with `USER` always added. -/

theorem with_user_nonzero (f : MemFlags) : f ||| MemFlags.user ≠ 0 := by
  intro zero
  have bit := congrArg (fun word : BitVec 64 => word.getLsbD 9) zero
  rw [getLsbD_or, show MemFlags.user.getLsbD 9 = true by decide, Bool.or_true] at bit
  exact absurd bit (by decide)

theorem contains_with_user (f : MemFlags) (apart : MemFlags.user &&& flag = 0#64) :
    contains (f ||| MemFlags.user) flag = contains f flag := by
  rw [contains, contains, masked_or, apart, or_zero]

def nptFormat : Format where
  toGenericPTE := nptEntry
  usable _ := True
  access f := Ptf.toMemFlags (Ptf.ofMemFlags (f ||| MemFlags.user))
  zero_present := by decide
  zero_huge := by decide
  table_entry := pt_table_entry
  page_entry _ f _ _ aligned _ made := pt_page_read aligned (with_user_nonzero f) made
  usable_read _ _ := trivial
  access_read f _ := (ptf_reports (with_user_nonzero f)).1
  access_write f _ := by
    rw [(ptf_reports (with_user_nonzero f)).2.1, contains_with_user f (by decide)]
  access_execute f _ := by
    rw [(ptf_reports (with_user_nonzero f)).2.2, contains_with_user f (by decide)]

/-! The Intel nested format. Its setters come out as the same packed word. -/

theorem get_bits_shifted (e : BitVec 64) (le : hi ≤ 64) (field : Field mask lo hi) :
    getBits e lo hi <<< lo = e &&& mask := by
  apply eq_of_getLsbD_eq
  intro i bound
  rw [getLsbD_and, field i bound, getBits, getLsbD_shiftLeft,
    getLsbD_ushiftRight, getLsbD_ushiftRight, getLsbD_shiftLeft]
  by_cases above : lo ≤ i
  · rw [show 64 - hi + (lo + (i - lo)) - (64 - hi) = i by omega]
    by_cases below : i < hi
    · simp [above, below, bound, show ¬ i < lo by omega]
      omega
    · simp [below]
      omega
  · simp [show i < lo by omega, above]

theorem and_superset {p : BitVec 64} (inside : p &&& small = p) (sub : small &&& big = small) : p &&& big = p := by
  rw [← inside, BitVec.and_assoc, sub]

theorem ept_set_addr {p : PhysAddr} (aligned : 2 ^ 12 ∣ p.toNat) :
    setBits 0 12 52 (p >>> 12) = if p.toNat < 2 ^ 52 then some p else none := by
  have restored : p >>> 12 <<< 12 = p := by
    apply eq_of_toNat_eq
    have := p.isLt
    rw [toNat_shiftLeft, toNat_ushiftRight, Nat.shiftLeft_eq, Nat.shiftRight_eq_div_pow]
    omega
  have accepted : p >>> 12 <<< (64 - (52 - 12)) >>> (64 - (52 - 12)) = p >>> 12 ↔ p.toNat < 2 ^ 52 := by
    have := p.isLt
    rw [← toNat_inj]
    simp only [toNat_shiftLeft, toNat_ushiftRight, Nat.shiftLeft_eq, Nat.shiftRight_eq_div_pow]
    omega
  rw [setBits]
  simp only [accepted, restored, ofNat_eq_ofNat, zero_and, zero_or]

theorem ept_set_flags {p word memType : BitVec 64} (aligned : 2 ^ 12 ∣ p.toNat)
    (word_small : word <<< 52 >>> 52 = word) (type_small : memType <<< 61 >>> 61 = memType) :
    setFlagsAndMemType p word memType = some (p ||| ((word &&& ~~~0x38#64) ||| (memType <<< 3))) := by
  have high : p &&& ~~~0xfff#64 = p :=
    and_field 12 64 (by decide) aligned p.isLt
  have not_type : p &&& ~~~0x38#64 = p := and_superset high (by decide)
  have first : setBits p 0 12 word = some (p ||| word) := by
    have mask : ~~~((~~~0 : BitVec 64) <<< (64 - 12) >>> (64 - 12) >>> 0 <<< 0) = ~~~0xfff#64 := by
      decide
    rw [setBits, if_pos word_small, mask, high, shiftLeft_zero]
  rw [setFlagsAndMemType, first, bind_some, setBits, if_pos type_small]
  apply congrArg some
  calc ((p ||| word) &&& ~~~0x38#64) ||| memType <<< 3
      = ((p &&& ~~~0x38#64) ||| (word &&& ~~~0x38#64)) ||| memType <<< 3 := by rw [masked_or]
    _ = p ||| ((word &&& ~~~0x38#64) ||| memType <<< 3) := by rw [not_type, BitVec.or_assoc]

structure EptWord (f : MemFlags) (huge : Bool) (flags : BitVec 64) : Prop where
  small : flags <<< 52 >>> 52 = flags
  apart : ((flags &&& ~~~0x38#64) ||| (memTypeWriteBack <<< 3)) &&& physAddrMask = 0#64
  used : ((flags &&& ~~~0x38#64) ||| (memTypeWriteBack <<< 3)) &&& ~~~physAddrMask ≠ 0#64
  huge_bit : contains (((flags &&& ~~~0x38#64) ||| (memTypeWriteBack <<< 3)) &&& EptFlags.all)
    EptFlags.hugePage = huge
  reported : EptFlags.toMemFlags
    (((flags &&& ~~~0x38#64) ||| (memTypeWriteBack <<< 3)) &&& EptFlags.all) =
    EptFlags.toMemFlags (EptFlags.ofMemFlags f)

theorem ept_word (f : MemFlags) (huge : Bool) :
    EptWord f huge (EptFlags.ofMemFlags f ||| if huge then EptFlags.hugePage else 0) := by
  constructor <;>
  · unfold EptFlags.ofMemFlags
    generalize contains f MemFlags.read = r
    generalize contains f MemFlags.write = w
    generalize contains f MemFlags.execute = x
    by_cases zero : f = 0
    · simp only [if_pos zero]
      revert huge
      decide
    simp only [if_neg zero]
    revert huge r w x
    decide

theorem ept_reports (f : MemFlags) :
    contains (EptFlags.toMemFlags (EptFlags.ofMemFlags f)) MemFlags.read = contains f MemFlags.read ∧
    contains (EptFlags.toMemFlags (EptFlags.ofMemFlags f)) MemFlags.write = contains f MemFlags.write ∧
    contains (EptFlags.toMemFlags (EptFlags.ofMemFlags f)) MemFlags.execute =
      contains f MemFlags.execute := by
  by_cases zero : f = 0
  · subst zero
    decide
  simp only [EptFlags.ofMemFlags, if_neg zero]
  generalize contains f MemFlags.read = r
  generalize contains f MemFlags.write = w
  generalize contains f MemFlags.execute = x
  revert r w x
  decide

theorem ept_page_read {p : PhysAddr} {f : MemFlags} {e : BitVec 64} (aligned : 2 ^ 12 ∣ p.toNat)
    (made : eptEntry.pageEntry p f huge = some e) :
    e ≠ 0 ∧ eptEntry.isHuge e = huge ∧ (eptEntry.addr e).toNat = p.toNat % 2 ^ 52 ∧
      eptEntry.flags e = EptFlags.toMemFlags (EptFlags.ofMemFlags f) := by
  have word := ept_word f huge
  have small : p.toNat < 2 ^ 52 := by
    by_contra large
    simp only [GenericPTE.pageEntry, eptEntry, ept_set_addr aligned, if_neg large, bind_none] at made
    cases made
  simp only [GenericPTE.pageEntry, eptEntry, ept_set_addr aligned, if_pos small, bind_some,
    ept_set_flags aligned word.small (show memTypeWriteBack <<< 61 >>> 61 = memTypeWriteBack by decide),
    Option.some.injEq] at made
  rw [← address_kept aligned small] at made
  subst made
  refine ⟨packed_nonzero p _ (by decide) word.used, ?_, ?_, ?_⟩
  · simp only [eptEntry, packed_flags p _ (show physAddrMask &&& EptFlags.all = 0#64 by decide), word.huge_bit]
  · simp only [eptEntry, get_bits_shifted _ (show 52 ≤ 64 by omega) address_field, packed_address word.apart]
    exact and_field_value address_field aligned
  · simp only [eptEntry, packed_flags p _ (show physAddrMask &&& EptFlags.all = 0#64 by decide), word.reported]

theorem ept_table_entry (p : PhysAddr) (aligned : 2 ^ 12 ∣ p.toNat) (small : p.toNat < 2 ^ 52) :
    ∃ e, eptEntry.setTable 0 p = some e ∧ eptEntry.isPresent e = true ∧ eptEntry.isHuge e = false ∧
      eptEntry.addr e = p := by
  refine ⟨(p &&& physAddrMask) ||| 0x7#64, ?_, ?_, ?_, ?_⟩
  · simp only [eptEntry, ept_set_addr aligned, if_pos small, bind_some]
    rw [ept_set_flags aligned (by decide) (by decide), address_kept aligned small]
    rfl
  · have low := get_bits_shifted ((p &&& physAddrMask) ||| 0x7#64) (show 3 ≤ 64 by omega)
      (show Field (0x7#64) 0 3 by decide)
    rw [shiftLeft_zero, packed_flags p _ (by decide)] at low
    simp only [eptEntry, low]
    decide
  · simp only [eptEntry, packed_flags p _ (show physAddrMask &&& EptFlags.all = 0#64 by decide)]
    decide
  · simp only [eptEntry, get_bits_shifted _ (show 52 ≤ 64 by omega) address_field]
    rw [packed_address (by decide), address_kept aligned small]

def eptFormat : Format where
  toGenericPTE := eptEntry
  usable _ := True
  access f := EptFlags.toMemFlags (EptFlags.ofMemFlags f)
  zero_present := by decide
  zero_huge := by decide
  table_entry := ept_table_entry
  page_entry _ _ _ _ aligned _ made := ept_page_read aligned made
  usable_read _ _ := trivial
  access_read f h := by rw [(ept_reports f).1, h]
  access_write f _ := (ept_reports f).2.1
  access_execute f _ := (ept_reports f).2.2

end RtosRvmPte
