import CompositeRtos.Rvm.PageTable

/-!
The accesses of the hypervisor to objects of the guest (`memory/gaccess.rs`). A pointer is an
address of the guest, the guest's page table and the layout of the type behind it. The page
table does not change during an access: it is read from `tables`, and the objects are in
`bytes`. Guest physical addresses are the host's.
-/
namespace RtosRvmGuestAccess
open RtosByteMemory RtosFrameMemory RtosRvmPte RtosRvmPageTable

/-- `size_of` and `align_of`. No type is larger than `isize::MAX`. -/
structure Layout where
  size : Nat
  align : Nat
  positive : 0 < align
  bound : size < 2 ^ 63

structure GuestPtr where
  gvaddr : BitVec 64
  guestPt : PageTable
  layout : Layout

section Model

variable (tables : HostMemory) (ptr : GuestPtr)

def hex (addr : BitVec 64) : String := "0x" ++ String.ofList (Nat.toDigits 16 addr.toNat)

def GuestPtr.checkPtr : HvResult Unit :=
  if ptr.gvaddr = 0 then .error (.err ⟨.efault, some "GuestPtr is null"⟩)
  else if ptr.gvaddr.toNat % ptr.layout.align ≠ 0 then
    .error (.err ⟨.einval, some ("GuestPtr " ++ hex ptr.gvaddr ++ " is not aligned")⟩)
  else .ok ()

abbrev Lookup := BitVec 64 → HvResult (PhysAddr × MemFlags × PageSize)

/-- `self.guest_pt.query(gvaddr)?`, which no `check_gpaddr` restricts. -/
def GuestPtr.lookup : Lookup := fun va =>
  match ptr.guestPt.query ptEntry tables va with
  | .error fault => .error fault.ofPaging
  | .ok page => .ok page

def step (size : PageSize) (va : BitVec 64) (n : Nat) : Nat :=
  min (size.bytes.toNat - (size.pageOffset va).toNat) n

theorem step_value : step size va n = min (2 ^ size.bits - va.toNat % 2 ^ size.bits) n := by
  rw [step, bytes_value, page_offset_value]

theorem step_pos (size : PageSize) (va : BitVec 64) (more : 0 < n) : 0 < step size va n := by
  have inside : va.toNat % 2 ^ size.bits < 2 ^ size.bits := Nat.mod_lt _ Nat.one_le_two_pow
  rw [step_value]
  omega

def load (bytes : Bytes) (a n : Nat) : List (BitVec 8) := (List.range n).map fun i => bytes (a + i)

def readLoop (lookup : Lookup) (bytes : Bytes) (va : BitVec 64) (n : Nat) : HvResult (List (BitVec 8)) :=
  if more : 0 < n then
    match lookup va with
    | .error fault => .error fault
    | .ok (gpaddr, _, size) =>
      have := step_pos size va more
      match readLoop lookup bytes (va + BitVec.ofNat 64 (step size va n)) (n - step size va n) with
      | .error fault => .error fault
      | .ok rest => .ok (load bytes gpaddr.toNat (step size va n) ++ rest)
  else .ok []
termination_by n

def GuestPtr.read (bytes : Bytes) : HvResult (List (BitVec 8)) :=
  match ptr.checkPtr with
  | .error fault => .error fault
  | .ok () => readLoop (ptr.lookup tables) bytes ptr.gvaddr ptr.layout.size

def writeLoop (lookup : Lookup) (va : BitVec 64) (data : List (BitVec 8)) (bytes : Bytes) : HvResult Unit × Bytes :=
  if more : 0 < data.length then
    match lookup va with
    | .error fault => (.error fault, bytes)
    | .ok (gpaddr, _, size) =>
      have := step_pos size va more
      writeLoop lookup (va + BitVec.ofNat 64 (step size va data.length)) (data.drop (step size va data.length))
        (patch bytes gpaddr.toNat (data.take (step size va data.length)))
  else (.ok (), bytes)
termination_by data.length

def GuestPtr.write (data : List (BitVec 8)) (bytes : Bytes) : HvResult Unit × Bytes :=
  match ptr.checkPtr with
  | .error fault => (.error fault, bytes)
  | .ok () => writeLoop (ptr.lookup tables) ptr.gvaddr data bytes

/-- `as_ref` and `as_mut` differ in a text. The reference is to the object at the physical
    address. -/
def GuestPtr.reference (text : String) : HvResult PhysAddr :=
  match ptr.checkPtr with
  | .error fault => .error fault
  | .ok () =>
    match ptr.lookup tables ptr.gvaddr with
    | .error fault => .error fault
    | .ok (gpaddr, _, size) =>
      if PageSize.size4K.pageOffset gpaddr + BitVec.ofNat 64 ptr.layout.size > size.bytes then
        .error (.err ⟨.einval, some text⟩)
      else .ok gpaddr

def GuestPtr.asRef : HvResult PhysAddr :=
  ptr.reference tables "GuestPtr::as_ref() requires data layout not to cross pages"

def GuestPtr.asMut : HvResult PhysAddr :=
  ptr.reference tables "GuestPtr::as_mut() requires data layout not to cross pages"

end Model

section Specification

variable (tables : HostMemory) (ptr : GuestPtr)

/-- The page that the processor finds for an address: its base and its size. Each entry on
    the way is present; bit 7 is reserved in the first, and the address in an entry counts
    from the size of its page on. -/
def walkPage (root : PhysAddr) (va : BitVec 64) : Option (Nat × PageSize) :=
  let base (e : BitVec 64) (size : PageSize) := (ptEntry.addr e).toNat / 2 ^ size.bits * 2 ^ size.bits
  let e4 := tables.entry ⟨root, p4Index va⟩
  let e3 := tables.entry ⟨ptEntry.addr e4, p3Index va⟩
  let e2 := tables.entry ⟨ptEntry.addr e3, p2Index va⟩
  let e1 := tables.entry ⟨ptEntry.addr e2, p1Index va⟩
  if !ptEntry.isPresent e4 || ptEntry.isHuge e4 then none
  else if !ptEntry.isPresent e3 then none
  else if ptEntry.isHuge e3 then some (base e3 .size1G, .size1G)
  else if !ptEntry.isPresent e2 then none
  else if ptEntry.isHuge e2 then some (base e2 .size2M, .size2M)
  else if !ptEntry.isPresent e1 then none
  else some (base e1 .size4K, .size4K)

def GuestPtr.page (va : BitVec 64) : Option (Nat × PageSize) := walkPage tables ptr.guestPt.rootPaddr va

def GuestPtr.location (va : BitVec 64) : Option Nat :=
  (ptr.page tables va).map fun page => page.1 + va.toNat % 2 ^ page.2.bits

def GuestPtr.byteAt (i : Nat) : BitVec 64 := ptr.gvaddr + BitVec.ofNat 64 i

/-- The read succeeds if every byte is mapped, and then it returns the bytes at their
    translations. -/
def ReadRight : Prop :=
  ∀ bytes, ((∃ out, ptr.read tables bytes = .ok out) ↔ ∀ i < ptr.layout.size, ∃ p,
      ptr.location tables (ptr.byteAt i) = some p) ∧
    ∀ out, ptr.read tables bytes = .ok out → out.length = ptr.layout.size ∧
      ∀ i < ptr.layout.size, ∃ p, ptr.location tables (ptr.byteAt i) = some p ∧ out[i]? = some (bytes p)

def ReferenceRight (access : HvResult PhysAddr) : Prop :=
  ∀ gpaddr, access = .ok gpaddr →
    ∀ i < ptr.layout.size, ptr.location tables (ptr.byteAt i) = some (gpaddr.toNat + i)

def InOnePage : Prop :=
  ∃ base size, ptr.page tables ptr.gvaddr = some (base, size) ∧
    ptr.gvaddr.toNat % 2 ^ size.bits + ptr.layout.size ≤ 2 ^ size.bits

def WriteRight : Prop :=
  ∀ data bytes fault, data.length = ptr.layout.size → (ptr.write tables data bytes).1 = .error fault →
    (ptr.write tables data bytes).2 = bytes

def Accepted (va : BitVec 64) : Prop := ∃ page, ptr.lookup tables va = .ok page

/-- The entry in which the walk ends is empty, or it is present and holds the address of a page
    of its size. -/
def CleanEntry (va : BitVec 64) : Prop :=
  ∀ slot size, ptr.guestPt.getEntryMut ptEntry tables va = .ok (slot, size) →
    tables.entry slot = 0 ∨
      ptEntry.isPresent (tables.entry slot) = true ∧ 2 ^ size.bits ∣ (ptEntry.addr (tables.entry slot)).toNat

/-- The bytes of the object behind the end of its first page follow those before it. -/
def Continued (access : HvResult PhysAddr) : Prop :=
  ∀ gpaddr flags size, access = .ok gpaddr → ptr.lookup tables ptr.gvaddr = .ok (gpaddr, flags, size) →
    ∀ i < ptr.layout.size, 2 ^ size.bits ≤ ptr.gvaddr.toNat % 2 ^ size.bits + i →
      ptr.location tables (ptr.byteAt i) = some (gpaddr.toNat + i)

end Specification

def reach (lookup : Lookup) (va : BitVec 64) : Option Nat :=
  match lookup va with
  | .error _ => none
  | .ok page => some page.1.toNat

def Paged (lookup : Lookup) : Prop :=
  ∀ va gpaddr flags size, lookup va = .ok (gpaddr, flags, size) →
    ∀ j, va.toNat % 2 ^ size.bits + j < 2 ^ size.bits →
      reach lookup (va + BitVec.ofNat 64 j) = some (gpaddr.toNat + j)

theorem add_add_ofNat : va + BitVec.ofNat 64 j + BitVec.ofNat 64 k = va + BitVec.ofNat 64 (j + k) := by
  rw [BitVec.ofNat_add, BitVec.add_assoc]

theorem load_byte (inside : i < n) : (load bytes a n)[i]? = some (bytes (a + i)) := by
  rw [load, List.getElem?_map, List.getElem?_range inside]
  rfl

theorem load_length (bytes : Bytes) (a n : Nat) : (load bytes a n).length = n := by
  rw [load, List.length_map, List.length_range]

theorem step_le (size : PageSize) (va : BitVec 64) (n : Nat) : step size va n ≤ n := Nat.min_le_right _ _

theorem step_in_page (inside : i < step size va n) : va.toNat % 2 ^ size.bits + i < 2 ^ size.bits := by
  rw [step_value] at inside
  omega

theorem read_loop_spec (paged : Paged lookup) (n : Nat) (va : BitVec 64) :
    (∃ out, readLoop lookup bytes va n = .ok out ∧ out.length = n ∧
        ∀ i < n, ∃ p, reach lookup (va + BitVec.ofNat 64 i) = some p ∧ out[i]? = some (bytes p)) ∨
      (∃ fault, readLoop lookup bytes va n = .error fault) ∧ ∃ i < n, reach lookup (va + BitVec.ofNat 64 i) = none := by
  induction n using Nat.strong_induction_on generalizing va with
  | _ n ih =>
    rw [readLoop]
    by_cases more : 0 < n
    · rw [dif_pos more]
      cases answer : lookup va with
      | error fault =>
        refine Or.inr ⟨⟨fault, rfl⟩, 0, more, ?_⟩
        rw [show va + BitVec.ofNat 64 0 = va from BitVec.add_zero va, reach, answer]
      | ok page =>
        obtain ⟨gpaddr, flags, size⟩ := page
        have first : ∀ i < step size va n, reach lookup (va + BitVec.ofNat 64 i) = some (gpaddr.toNat + i) :=
          fun i inside => paged va gpaddr flags size answer i (step_in_page inside)
        have whole := step_le size va n
        rcases ih (n - step size va n) (Nat.sub_lt more (step_pos size va more))
          (va + BitVec.ofNat 64 (step size va n)) with
          ⟨rest, done, length, found⟩ | ⟨⟨fault, failed⟩, i, bound, missing⟩
        · left
          simp only [done]
          refine ⟨_, rfl, ?_, ?_⟩
          · rw [List.length_append, load_length, length]
            omega
          intro i bound
          rcases Nat.lt_or_ge i (step size va n) with early | late
          · refine ⟨_, first i early, ?_⟩
            rw [List.getElem?_append_left (by rwa [load_length]), load_byte early]
          obtain ⟨p, reached, byte⟩ := found (i - step size va n) (by omega)
          refine ⟨p, ?_, ?_⟩
          · rw [← reached, add_add_ofNat, Nat.add_sub_cancel' late]
          · rw [List.getElem?_append_right (by rwa [load_length]), load_length, byte]
        · right
          simp only [failed]
          refine ⟨⟨fault, rfl⟩, step size va n + i, by omega, ?_⟩
          rw [← add_add_ofNat, missing]
    · left
      rw [dif_neg more]
      have none : n = 0 := by omega
      subst none
      exact ⟨[], rfl, rfl, fun i bound => absurd bound (Nat.not_lt_zero i)⟩

theorem write_loop_result (data : List (BitVec 8)) (bytes other : Bytes) (va : BitVec 64) :
    (writeLoop lookup va data bytes).1 = (readLoop lookup other va data.length).map fun _ => () := by
  generalize length : data.length = n
  induction n using Nat.strong_induction_on generalizing va data bytes with
  | _ n ih =>
    subst length
    rw [writeLoop, readLoop]
    by_cases more : 0 < data.length
    · rw [dif_pos more, dif_pos more]
      cases answer : lookup va with
      | error fault => rfl
      | ok page =>
        obtain ⟨gpaddr, flags, size⟩ := page
        simp only
        rw [ih _ (Nat.sub_lt more (step_pos size va more)) _ _ _ List.length_drop]
        generalize readLoop lookup other _ _ = result
        cases result with
        | error fault => rfl
        | ok rest => rfl
    · rw [dif_neg more, dif_neg more]
      rfl

theorem patch_constant (same : ∀ d ∈ data, d = c) (held : bytes p = c) : patch bytes start data p = c := by
  unfold patch
  split
  · cases found : data[p - start]? with
    | none => exact held
    | some d => exact same d (List.mem_of_getElem? found)
  · exact held

theorem write_loop_keeps (same : ∀ d ∈ data, d = c) (held : bytes p = c) :
    (writeLoop lookup va data bytes).2 p = c := by
  generalize length : data.length = n
  induction n using Nat.strong_induction_on generalizing va data bytes with
  | _ n ih =>
    subst length
    rw [writeLoop]
    by_cases more : 0 < data.length
    · rw [dif_pos more]
      cases answer : lookup va with
      | error fault => exact held
      | ok page =>
        obtain ⟨gpaddr, flags, size⟩ := page
        apply ih _ (Nat.sub_lt more (step_pos size va more))
        · exact fun d member => same d (List.mem_of_mem_drop member)
        · exact patch_constant (fun d member => same d (List.mem_of_mem_take member)) held
        · exact List.length_drop
    · rw [dif_neg more]
      exact held

section Walk

theorem same_indices {a b : BitVec 64} {size : PageSize} (same : a.toNat / 2 ^ size.bits = b.toNat / 2 ^ size.bits) :
    p4Index a = p4Index b ∧ p3Index a = p3Index b ∧ (size ≠ .size1G → p2Index a = p2Index b) ∧
      (size = .size4K → p1Index a = p1Index b) := by
  simp only [Fin.ext_iff, p4Index, p3Index, p2Index, p1Index, index_value]
  cases size with
  | size4K =>
    simp only [PageSize.bits] at same
    omega
  | size2M =>
    simp only [PageSize.bits] at same
    refine ⟨by omega, by omega, fun _ => by omega, fun h => by cases h⟩
  | size1G =>
    simp only [PageSize.bits] at same
    refine ⟨by omega, by omega, fun ne => absurd rfl ne, fun h => by cases h⟩

variable {tables : HostMemory} {pt : PageTable}

theorem get_entry_same_page (found : pt.getEntryMut ptEntry tables a = .ok (slot, size))
    (same : a.toNat / 2 ^ size.bits = b.toNat / 2 ^ size.bits) :
    pt.getEntryMut ptEntry tables b = .ok (slot, size) := by
  obtain ⟨p4, p3, p2, p1⟩ := same_indices same
  rw [PageTable.getEntryMut] at found ⊢
  rw [← p4, ← p3]
  cases first : PageTable.nextTableMut ptEntry (tables.entry ⟨pt.rootPaddr, p4Index a⟩) with
  | error fault =>
    rw [first] at found
    cases found
  | ok third =>
    simp only [first] at found ⊢
    by_cases huge : ptEntry.isHuge (tables.entry ⟨third, p3Index a⟩) = true
    · rw [if_pos huge] at found ⊢
      exact found
    rw [if_neg huge] at found ⊢
    cases next : PageTable.nextTableMut ptEntry (tables.entry ⟨third, p3Index a⟩) with
    | error fault =>
      rw [next] at found
      cases found
    | ok second =>
      simp only [next] at found ⊢
      by_cases large : ptEntry.isHuge (tables.entry ⟨second, p2Index a⟩) = true
      · rw [if_pos large] at found
        cases found
        rw [← p2 nofun, if_pos large]
      rw [if_neg large] at found
      cases last : PageTable.nextTableMut ptEntry (tables.entry ⟨second, p2Index a⟩) with
      | error fault =>
        rw [last] at found
        cases found
      | ok leaf =>
        rw [last] at found
        cases found
        simp only [← p2 nofun, if_neg large, last, ← p1 rfl]

def entryPage (tables : HostMemory) : PagingResult (Slot × PageSize) → Option (Nat × PageSize)
  | .error _ => none
  | .ok found =>
    if ptEntry.isPresent (tables.entry found.1) then
      some ((ptEntry.addr (tables.entry found.1)).toNat / 2 ^ found.2.bits * 2 ^ found.2.bits, found.2)
    else none

theorem walk_page (va : BitVec 64) :
    walkPage tables pt.rootPaddr va = entryPage tables (pt.getEntryMut ptEntry tables va) := by
  simp only [walkPage, PageTable.getEntryMut, PageTable.nextTableMut]
  generalize tables.entry ⟨pt.rootPaddr, p4Index va⟩ = e4
  cases ptEntry.isPresent e4 with
  | false => rfl
  | true =>
    cases ptEntry.isHuge e4 with
    | true => rfl
    | false =>
      simp only [Bool.not_true, Bool.or_false, Bool.false_eq_true, if_false]
      cases third : ptEntry.isPresent (tables.entry ⟨ptEntry.addr e4, p3Index va⟩) <;>
        cases giant : ptEntry.isHuge (tables.entry ⟨ptEntry.addr e4, p3Index va⟩) <;>
        simp only [Bool.not_true, Bool.not_false, Bool.false_eq_true, if_true, if_false, entryPage, third]
      generalize tables.entry ⟨ptEntry.addr e4, p3Index va⟩ = e3
      cases second : ptEntry.isPresent (tables.entry ⟨ptEntry.addr e3, p2Index va⟩) <;>
        cases large : ptEntry.isHuge (tables.entry ⟨ptEntry.addr e3, p2Index va⟩) <;>
        simp only [Bool.not_true, Bool.not_false, Bool.false_eq_true, if_true, if_false, second]
      cases ptEntry.isPresent _ <;> rfl

theorem addr_value (e : BitVec 64) : (ptEntry.addr e).toNat < 2 ^ 52 ∧ 2 ^ 12 ∣ (ptEntry.addr e).toNat := by
  constructor
  · exact Nat.lt_of_le_of_lt Nat.and_le_right (show physAddrMask.toNat < 2 ^ 52 by decide)
  have offset : PageSize.size4K.pageOffset (ptEntry.addr e) = 0 := by
    show e &&& physAddrMask &&& 0xfff = 0
    rw [BitVec.and_assoc]
    exact BitVec.and_zero
  have value := page_offset_value .size4K (ptEntry.addr e)
  rw [offset] at value
  exact Nat.dvd_of_mod_eq_zero value.symm

end Walk

section Lookups

variable (tables : HostMemory) (ptr : GuestPtr)

theorem add_in_page {size : PageSize} (inside : va.toNat % 2 ^ size.bits + j < 2 ^ size.bits) :
    (va + BitVec.ofNat 64 j).toNat = va.toNat + j := by
  have word := va.isLt
  rw [BitVec.toNat_add, BitVec.toNat_ofNat]
  cases size <;> simp only [PageSize.bits] at inside <;> omega

theorem same_page {size : PageSize} (inside : va.toNat % 2 ^ size.bits + j < 2 ^ size.bits) :
    va.toNat / 2 ^ size.bits = (va + BitVec.ofNat 64 j).toNat / 2 ^ size.bits ∧
      (va + BitVec.ofNat 64 j).toNat % 2 ^ size.bits = va.toNat % 2 ^ size.bits + j := by
  rw [add_in_page inside]
  cases size <;> simp only [PageSize.bits] at inside ⊢ <;> omega

theorem lookup_iff (va gpaddr : BitVec 64) (flags : MemFlags) (size : PageSize) :
    ptr.lookup tables va = .ok (gpaddr, flags, size) ↔
      ∃ slot, ptr.guestPt.getEntryMut ptEntry tables va = .ok (slot, size) ∧ tables.entry slot ≠ 0 ∧
        gpaddr = ptEntry.addr (tables.entry slot) + size.pageOffset va ∧ flags = ptEntry.flags (tables.entry slot) := by
  rw [GuestPtr.lookup, PageTable.query]
  cases ptr.guestPt.getEntryMut ptEntry tables va with
  | error fault =>
    constructor
    · nofun
    · rintro ⟨_, found, _⟩
      cases found
  | ok found =>
    obtain ⟨slot, reached⟩ := found
    by_cases unused : tables.entry slot = 0
    · simp only [isUnused, unused, beq_self_eq_true, if_true]
      constructor
      · nofun
      rintro ⟨_, found, used, _⟩
      cases found
      exact absurd unused used
    have used : ¬ isUnused (tables.entry slot) = true := fun zero => unused (beq_iff_eq.mp zero)
    simp only [if_neg used]
    constructor
    · intro same
      cases same
      exact ⟨slot, rfl, unused, rfl, rfl⟩
    rintro ⟨_, found, _, rfl, rfl⟩
    cases found
    rfl

theorem gpaddr_value (e va : BitVec 64) (size : PageSize) :
    (ptEntry.addr e + size.pageOffset va).toNat = (ptEntry.addr e).toNat + va.toNat % 2 ^ size.bits := by
  have small := (addr_value e).1
  have inside : va.toNat % 2 ^ size.bits < 2 ^ 30 :=
    Nat.lt_of_lt_of_le (Nat.mod_lt _ Nat.one_le_two_pow) (by cases size <;> decide)
  rw [BitVec.toNat_add, page_offset_value]
  omega

theorem reach_iff (va : BitVec 64) (p : Nat) :
    reach (ptr.lookup tables) va = some p ↔
      ∃ slot size, ptr.guestPt.getEntryMut ptEntry tables va = .ok (slot, size) ∧ tables.entry slot ≠ 0 ∧
        p = (ptEntry.addr (tables.entry slot)).toNat + va.toNat % 2 ^ size.bits := by
  constructor
  · intro reached
    unfold reach at reached
    cases answer : ptr.lookup tables va with
    | error fault =>
      rw [answer] at reached
      cases reached
    | ok page =>
      obtain ⟨gpaddr, flags, size⟩ := page
      rw [answer] at reached
      cases reached
      obtain ⟨slot, found, used, rfl, _⟩ := (lookup_iff tables ptr va gpaddr flags size).mp answer
      exact ⟨slot, size, found, used, gpaddr_value _ va size⟩
  · rintro ⟨slot, size, found, used, rfl⟩
    have answer := (lookup_iff tables ptr va _ _ size).mpr ⟨slot, found, used, rfl, rfl⟩
    rw [reach, answer, ← gpaddr_value]

theorem accepted_iff (va : BitVec 64) : Accepted tables ptr va ↔ ∃ p, reach (ptr.lookup tables) va = some p := by
  unfold Accepted reach
  cases ptr.lookup tables va with
  | error fault => exact ⟨nofun, nofun⟩
  | ok page => exact ⟨fun _ => ⟨_, rfl⟩, fun _ => ⟨page, rfl⟩⟩

theorem lookup_paged : Paged (ptr.lookup tables) := by
  intro va gpaddr flags size answer j inside
  obtain ⟨slot, found, used, rfl, _⟩ := (lookup_iff tables ptr va gpaddr flags size).mp answer
  rw [reach_iff]
  refine ⟨slot, size, get_entry_same_page found (same_page inside).1, used, ?_⟩
  rw [gpaddr_value, (same_page inside).2, Nat.add_assoc]

theorem page_found (mapped : ptr.page tables va = some (base, size)) :
    ∃ slot, ptr.guestPt.getEntryMut ptEntry tables va = .ok (slot, size) ∧
      ptEntry.isPresent (tables.entry slot) = true ∧ tables.entry slot ≠ 0 ∧
      base = (ptEntry.addr (tables.entry slot)).toNat / 2 ^ size.bits * 2 ^ size.bits := by
  rw [GuestPtr.page, walk_page] at mapped
  cases found : ptr.guestPt.getEntryMut ptEntry tables va with
  | error fault =>
    rw [found] at mapped
    cases mapped
  | ok reached =>
    obtain ⟨slot, other⟩ := reached
    rw [found, entryPage] at mapped
    by_cases present : ptEntry.isPresent (tables.entry slot) = true
    · rw [if_pos present] at mapped
      cases mapped
      refine ⟨slot, rfl, present, ?_, rfl⟩
      intro zero
      rw [zero] at present
      exact absurd present (by decide)
    · rw [if_neg present] at mapped
      cases mapped

theorem location_found (located : ptr.location tables va = some p) :
    ∃ slot size, ptr.guestPt.getEntryMut ptEntry tables va = .ok (slot, size) ∧
      ptEntry.isPresent (tables.entry slot) = true ∧ tables.entry slot ≠ 0 ∧
      p = (ptEntry.addr (tables.entry slot)).toNat / 2 ^ size.bits * 2 ^ size.bits + va.toNat % 2 ^ size.bits := by
  obtain ⟨⟨base, size⟩, mapped, rfl⟩ := Option.map_eq_some_iff.mp located
  obtain ⟨slot, found, present, used, rfl⟩ := page_found tables ptr mapped
  exact ⟨slot, size, found, present, used, rfl⟩

theorem location_accepted (located : ptr.location tables va = some p) :
    ∃ q, reach (ptr.lookup tables) va = some q := by
  obtain ⟨slot, size, found, _, used, _⟩ := location_found tables ptr located
  exact ⟨_, (reach_iff tables ptr va _).mpr ⟨slot, size, found, used, rfl⟩⟩

theorem clean_iff (reached : reach (ptr.lookup tables) va = some p) :
    CleanEntry tables ptr va ↔ ptr.location tables va = some p := by
  obtain ⟨slot, size, found, used, rfl⟩ := (reach_iff tables ptr va p).mp reached
  constructor
  · intro clean
    rcases clean slot size found with zero | ⟨present, aligned⟩
    · exact absurd zero used
    · rw [GuestPtr.location, GuestPtr.page, walk_page, found, entryPage, if_pos present, Option.map_some,
        Nat.div_mul_cancel aligned]
  intro located slot' size' found'
  rw [found] at found'
  cases found'
  obtain ⟨other, size', found', present, _, same⟩ := location_found tables ptr located
  rw [found] at found'
  cases found'
  refine Or.inr ⟨present, Nat.dvd_of_mod_eq_zero ?_⟩
  have split := Nat.div_add_mod' (ptEntry.addr (tables.entry slot)).toNat (2 ^ size.bits)
  omega

theorem clean_same_page (answer : ptr.lookup tables va = .ok (gpaddr, flags, size))
    (clean : CleanEntry tables ptr va) (inside : va.toNat % 2 ^ size.bits + j < 2 ^ size.bits) :
    CleanEntry tables ptr (va + BitVec.ofNat 64 j) := by
  obtain ⟨slot, found, _⟩ := (lookup_iff tables ptr va gpaddr flags size).mp answer
  have there := get_entry_same_page found (same_page inside).1
  intro slot' size' found'
  rw [there] at found'
  cases found'
  exact clean slot size found

end Lookups

section Accesses

variable {ptr : GuestPtr}

theorem byte_zero : ptr.byteAt 0 = ptr.gvaddr := BitVec.add_zero _

theorem write_failed_iff (data : List (BitVec 8)) (bytes : Bytes) :
    (∃ fault, (writeLoop (ptr.lookup tables) ptr.gvaddr data bytes).1 = .error fault) ↔
      ∃ i < data.length, ¬ Accepted tables ptr (ptr.byteAt i) := by
  rw [write_loop_result data bytes bytes]
  simp only [accepted_iff]
  rcases read_loop_spec (lookup_paged tables ptr) data.length ptr.gvaddr with
    ⟨out, done, _, found⟩ | ⟨⟨fault, failed⟩, k, inside, missing⟩
  · rw [done]
    constructor
    · nofun
    rintro ⟨i, bound, lost⟩
    obtain ⟨p, reached, _⟩ := found i bound
    exact absurd ⟨p, reached⟩ lost
  rw [failed]
  refine ⟨fun _ => ⟨k, inside, ?_⟩, fun _ => ⟨fault, rfl⟩⟩
  rintro ⟨p, reached⟩
  rw [GuestPtr.byteAt, missing] at reached
  cases reached

theorem write_leaves (more : 0 < n) (answer : ptr.lookup tables ptr.gvaddr = .ok page) (bytes : Bytes) :
    (writeLoop (ptr.lookup tables) ptr.gvaddr (List.replicate n c) bytes).2 page.1.toNat = c := by
  obtain ⟨gpaddr, flags, size⟩ := page
  have same : ∀ d ∈ List.replicate n c, d = c := fun d member => List.eq_of_mem_replicate member
  rw [writeLoop, dif_pos (by rwa [List.length_replicate])]
  simp only [answer]
  apply write_loop_keeps fun d member => same d (List.mem_of_mem_drop member)
  have first : 0 < ((List.replicate n c).take (step size ptr.gvaddr (List.replicate n c).length)).length := by
    have := step_pos size ptr.gvaddr more
    rw [List.length_take, List.length_replicate]
    omega
  have patched := patch_inside bytes gpaddr.toNat first
  rw [Nat.add_zero] at patched
  rw [patched]
  exact same _ (List.mem_of_mem_take (List.getElem_mem first))

variable (valid : ptr.checkPtr = .ok ())
include valid

theorem read_right_iff :
    ReadRight tables ptr ↔
      ((∀ i < ptr.layout.size, Accepted tables ptr (ptr.byteAt i)) →
        ∀ i < ptr.layout.size, CleanEntry tables ptr (ptr.byteAt i)) := by
  have run : ∀ bytes, ptr.read tables bytes = readLoop (ptr.lookup tables) bytes ptr.gvaddr ptr.layout.size := by
    intro bytes
    rw [GuestPtr.read, valid]
  simp only [ReadRight, run]
  constructor
  · intro right accepted i bound
    obtain ⟨q, reached⟩ := (accepted_iff tables ptr _).mp (accepted i bound)
    rw [clean_iff tables ptr reached]
    -- A memory that tells the cell of the lookup from all others.
    rcases read_loop_spec (lookup_paged tables ptr) ptr.layout.size ptr.gvaddr with
      ⟨out, done, _, found⟩ | ⟨_, k, inside, missing⟩
    · obtain ⟨p, located, byte⟩ := ((right fun a => if a = q then 1 else 0).2 out done).2 i bound
      obtain ⟨q', again, byte'⟩ := found i bound
      have same : q' = q := Option.some.inj (again.symm.trans reached)
      subst same
      rw [byte', if_pos rfl] at byte
      rw [located]
      congr 1
      by_contra other
      rw [if_neg other] at byte
      exact absurd byte (by decide)
    · obtain ⟨p, found⟩ := (accepted_iff tables ptr _).mp (accepted k inside)
      rw [GuestPtr.byteAt, missing] at found
      cases found
  · intro clean bytes
    rcases read_loop_spec (lookup_paged tables ptr) ptr.layout.size ptr.gvaddr with
      ⟨out, done, length, found⟩ | ⟨⟨fault, failed⟩, k, inside, missing⟩
    · have located : ∀ i < ptr.layout.size, ∃ p,
          ptr.location tables (ptr.byteAt i) = some p ∧ out[i]? = some (bytes p) := by
        have accepted : ∀ i < ptr.layout.size, Accepted tables ptr (ptr.byteAt i) := by
          intro i bound
          obtain ⟨p, reached, _⟩ := found i bound
          exact (accepted_iff tables ptr _).mpr ⟨p, reached⟩
        intro i bound
        obtain ⟨p, reached, byte⟩ := found i bound
        exact ⟨p, (clean_iff tables ptr reached).mp (clean accepted i bound), byte⟩
      rw [done]
      refine ⟨⟨fun _ i bound => ?_, fun _ => ⟨out, rfl⟩⟩, fun out' same => ?_⟩
      · obtain ⟨p, here, _⟩ := located i bound
        exact ⟨p, here⟩
      · cases same
        exact ⟨length, located⟩
    · rw [failed]
      refine ⟨⟨nofun, fun mapped => ?_⟩, nofun⟩
      obtain ⟨p, located⟩ := mapped k inside
      obtain ⟨q, reached⟩ := location_accepted tables ptr located
      rw [GuestPtr.byteAt, missing] at reached
      cases reached

theorem reference_ok_iff (text : String) (gpaddr : PhysAddr) :
    ptr.reference tables text = .ok gpaddr ↔
      ∃ flags size, ptr.lookup tables ptr.gvaddr = .ok (gpaddr, flags, size) ∧
        gpaddr.toNat % 2 ^ 12 + ptr.layout.size ≤ 2 ^ size.bits := by
  have fits : ∀ (g : PhysAddr) (size : PageSize),
      PageSize.size4K.pageOffset g + BitVec.ofNat 64 ptr.layout.size > size.bytes ↔
        ¬ g.toNat % 2 ^ 12 + ptr.layout.size ≤ 2 ^ size.bits := by
    intro g size
    have bound := ptr.layout.bound
    rw [gt_iff_lt, BitVec.lt_def, bytes_value, BitVec.toNat_add, page_offset_value, BitVec.toNat_ofNat, PageSize.bits]
    omega
  rw [GuestPtr.reference, valid]
  cases ptr.lookup tables ptr.gvaddr with
  | error fault =>
    constructor
    · intro same
      cases same
    · rintro ⟨_, _, answer, _⟩
      cases answer
  | ok page =>
    obtain ⟨g, flags, size⟩ := page
    simp only [fits]
    by_cases inside : g.toNat % 2 ^ 12 + ptr.layout.size ≤ 2 ^ size.bits
    · rw [if_neg (not_not.mpr inside)]
      constructor
      · intro same
        cases same
        exact ⟨flags, size, rfl, inside⟩
      rintro ⟨_, _, answer, _⟩
      cases answer
      rfl
    · rw [if_pos inside]
      constructor
      · intro same
        cases same
      rintro ⟨_, _, answer, fit⟩
      cases answer
      exact absurd fit inside

theorem reference_right_iff (text : String) :
    ReferenceRight tables ptr (ptr.reference tables text) ↔
      (0 < ptr.layout.size → (∃ gpaddr, ptr.reference tables text = .ok gpaddr) → CleanEntry tables ptr ptr.gvaddr) ∧
        Continued tables ptr (ptr.reference tables text) := by
  constructor
  · intro right
    refine ⟨?_, fun gpaddr _ _ taken _ i bound _ => right gpaddr taken i bound⟩
    rintro nonempty ⟨gpaddr, taken⟩
    obtain ⟨flags, size, answer, _⟩ := (reference_ok_iff valid text gpaddr).mp taken
    have reached : reach (ptr.lookup tables) ptr.gvaddr = some gpaddr.toNat := by rw [reach, answer]
    rw [clean_iff tables ptr reached, ← byte_zero]
    exact right gpaddr taken 0 nonempty
  · rintro ⟨clean, continued⟩ gpaddr taken i bound
    obtain ⟨flags, size, answer, _⟩ := (reference_ok_iff valid text gpaddr).mp taken
    rcases Nat.lt_or_ge (ptr.gvaddr.toNat % 2 ^ size.bits + i) (2 ^ size.bits) with inside | behind
    · have reached := lookup_paged tables ptr ptr.gvaddr gpaddr flags size answer i inside
      apply (clean_iff tables ptr reached).mp
      exact clean_same_page tables ptr answer (clean (by omega) ⟨gpaddr, taken⟩) inside
    · exact continued gpaddr flags size taken answer i bound behind

theorem reference_in_page (text : String) (inside : InOnePage tables ptr) :
    ∃ gpaddr, ptr.reference tables text = .ok gpaddr := by
  obtain ⟨base, size, mapped, fits⟩ := inside
  obtain ⟨slot, found, _, used, _⟩ := page_found tables ptr mapped
  have answer := (lookup_iff tables ptr ptr.gvaddr _ _ size).mpr ⟨slot, found, used, rfl, rfl⟩
  refine ⟨_, (reference_ok_iff valid text _).mpr ⟨_, size, answer, ?_⟩⟩
  have aligned := (addr_value (tables.entry slot)).2
  have smaller : ptr.gvaddr.toNat % 2 ^ size.bits % 2 ^ 12 ≤ ptr.gvaddr.toNat % 2 ^ size.bits := Nat.mod_le _ _
  rw [gpaddr_value, Nat.add_mod, Nat.mod_eq_zero_of_dvd aligned, Nat.zero_add, Nat.mod_mod]
  omega

theorem write_right_iff :
    WriteRight tables ptr ↔
      ¬ Accepted tables ptr ptr.gvaddr ∨ ∀ i < ptr.layout.size, Accepted tables ptr (ptr.byteAt i) := by
  have run : ∀ data bytes, ptr.write tables data bytes = writeLoop (ptr.lookup tables) ptr.gvaddr data bytes := by
    intro data bytes
    rw [GuestPtr.write, valid]
  simp only [WriteRight, run]
  constructor
  · intro right
    by_contra neither
    rw [not_or, not_not] at neither
    obtain ⟨⟨page, answer⟩, lost⟩ := neither
    obtain ⟨i, bound, missing⟩ : ∃ i < ptr.layout.size, ¬ Accepted tables ptr (ptr.byteAt i) := by
      simpa only [not_forall, exists_prop] using lost
    have length : (List.replicate ptr.layout.size (1 : BitVec 8)).length = ptr.layout.size := List.length_replicate
    obtain ⟨fault, failed⟩ :=
      (write_failed_iff (List.replicate ptr.layout.size 1) fun _ => 0).mpr ⟨i, by rwa [length], missing⟩
    have kept := congrFun (right _ _ fault length failed) page.1.toNat
    rw [write_leaves (by omega) answer] at kept
    exact absurd kept (by decide)
  · intro condition data bytes fault length failed
    obtain ⟨i, bound, missing⟩ := (write_failed_iff data bytes).mp ⟨fault, failed⟩
    rcases condition with refused | accepted
    · rw [writeLoop, dif_pos (by omega)]
      cases answer : ptr.lookup tables ptr.gvaddr with
      | error other => rfl
      | ok page => exact absurd ⟨page, answer⟩ refused
    · exact absurd (accepted i (by omega)) missing

end Accesses

theorem check_ptr_ok {ptr : GuestPtr} (nonnull : ptr.gvaddr ≠ 0) (aligned : ptr.layout.align ∣ ptr.gvaddr.toNat) :
    ptr.checkPtr = .ok () := by
  rw [GuestPtr.checkPtr, if_neg nonnull, if_neg (not_not.mpr (Nat.mod_eq_zero_of_dvd aligned))]

/-- The first two megabytes have a table with one entry, which is not present; the next two
    are a page, and behind it nothing is mapped. -/
def guestTables : HostMemory where
  bytes :=
    storeEntry (storeEntry (storeEntry (storeEntry (storeEntry (fun _ => 0)
      1 0 0x2007) 2 0 0x3007) 3 0 0x4007) 3 1 0x40000087) 4 1 0x9000
  free := []
  ascending := .nil
  window := nofun

def pairAt (va : BitVec 64) : GuestPtr := ⟨va, ⟨1, []⟩, ⟨16, 8, by decide, by decide⟩⟩

end RtosRvmGuestAccess
