import CompositeRtos.Uintr.PageWalk

/-!
`helper_senduipi` and the acceptance of vector 0xec on guest-physical memory. The tables of
the user interrupts are found with `get_hphys2` and then read and written behind the MMU's
back, so every access is recorded with the virtual address that it stands for. The stack
of the handler is written by ordinary stores.
-/
namespace RtosUintrTableAccess
open RtosByteMemory RtosUintrMachine RtosUintrMmu RtosUintrPageWalk BitVec List

/-- An access to `len` bytes at `pa`, for the virtual addresses from `va` on. The address
    that was translated for it is `base`. An access to a table does not go through the MMU. -/
structure Touch where
  table : Bool
  access : AccessType
  idx : MmuIdx
  base : BitVec 64
  va : BitVec 64
  pa : BitVec 64
  len : Nat
  before : Memory

structure Bus where
  memory : Memory
  trace : List Touch

abbrev Op (α : Type) := EStateM Stop Bus α

def Bus.record (bus : Bus) (touch : Touch) : Bus := { bus with trace := bus.trace ++ [touch] }

def walk {α : Type} (c : Walk α) : Op α := fun bus =>
  match c bus.memory with
  | .ok a m => .ok a { bus with memory := m }
  | .error stop m => .error stop { bus with memory := m }

def physRead (base va pa : BitVec 64) : Op (BitVec 64 × BitVec 64) := fun bus =>
  .ok (ldq bus.memory pa, ldq bus.memory (pa + 8))
    (bus.record ⟨true, .load, .knosmap, base, va, pa, 16, bus.memory⟩)

def physWrite (base va pa : BitVec 64) (words : BitVec 64 × BitVec 64) : Op Unit := fun bus =>
  .ok () { bus.record ⟨true, .store, .knosmap, base, va, pa, 16, bus.memory⟩ with
    memory := stq (stq bus.memory pa words.1) (pa + 8) words.2 }

def upidOfWords (words : BitVec 64 × BitVec 64) : Upid where
  status := words.1.extractLsb' 0 8
  reserved1 := words.1.extractLsb' 8 8
  nv := words.1.extractLsb' 16 8
  reserved2 := words.1.extractLsb' 24 8
  ndst := words.1.extractLsb' 32 32
  puir := words.2

def upidWords (upid : Upid) : BitVec 64 × BitVec 64 :=
  (upid.ndst ++ upid.reserved2 ++ upid.nv ++ upid.reserved1 ++ upid.status, upid.puir)

def uitteOfWords (words : BitVec 64 × BitVec 64) : UittEntry where
  valid := words.1.extractLsb' 0 8
  userVec := words.1.extractLsb' 8 8
  targetUpidAddr := words.2

instance register_count : NeZero 16 := ⟨by decide⟩

structure Sender where
  mmu : Mmu
  regs : Fin 16 → BitVec 64
  uintrMisc : BitVec 64
  uintrTt : BitVec 64

/-- What the variable `hphys` of `get_hphys2` holds when the translation of an address fails. -/
abbrev Junk := BitVec 64 → BitVec 64

def uitteIndex (env : Sender) (regIndex : BitVec 8) : BitVec 32 :=
  (if regIndex = 244 then env.regs 12 else env.regs 0).setWidth 32

def uittBase (env : Sender) : BitVec 64 := (env.uintrTt >>> 3) <<< 3

/-- `uitte_index << 4`, an `int` that is added to an address. -/
def uitteOffset (index : BitVec 32) : BitVec 64 := (index <<< 4).signExtend 64

def fetchUitte (env : Sender) (junk : Junk) (regIndex : BitVec 8) : Op UittEntry := do
  let uittsz : BitVec 32 := env.uintrMisc.setWidth 32
  let index := uitteIndex env regIndex
  if uittsz < index then throw (.exception .gpf)
  else
    let base := uittBase env
    let uittPhys ← walk (getHphys2 env.mmu (junk base) base .load)
    let words ← physRead base (base + uitteOffset index) (uittPhys + uitteOffset index)
    pure (uitteOfWords words)

def postUpid (mmu : Mmu) (junk : Junk) (uitte : UittEntry) : Op (Option Ipi) := do
  let va := uitte.targetUpidAddr
  let upidPhys ← walk (getHphys2 mmu (junk va) va .load)
  let words ← physRead va va upidPhys
  let posted := helperSenduipi uitte (upidOfWords words)
  physWrite va va upidPhys (upidWords posted.1)
  pure posted.2

def senduipi (env : Sender) (junk : Junk) (regIndex : BitVec 8) : Op (Option Ipi) := do
  let uitte ← fetchUitte env junk regIndex
  postUpid env.mmu junk uitte

def acMask : BitVec 64 := 0x40000

def cpuMmuIndexKernel (smap : Bool) (cpu : Cpu) : MmuIdx :=
  if !smap then .knosmap
  else if cpu.cpl < 3 ∧ cpu.eflags &&& acMask ≠ 0 then .knosmap
  else .ksmap

/-- `cpu_stq_kernel_ra` at an aligned address; the exception that it raises, if any. -/
def stqKernel (mmu : Mmu) (idx : MmuIdx) (va v : BitVec 64) : Op (Option Exception) := fun bus =>
  match handleMmuFault mmu va .store idx bus.memory with
  | .ok pa m => .ok none { bus.record ⟨false, .store, idx, va, va, pa, 8, m⟩ with memory := stq m pa v }
  | .error (.exception e) m => .ok (some e) { bus with memory := m }
  | .error stop m => .error stop { bus with memory := m }

def pushqKernel (mmu : Mmu) (idx : MmuIdx) : List (BitVec 64) → BitVec 64 → Op (Except Exception (BitVec 64))
  | [], sp => pure (.ok sp)
  | v :: rest, sp => do
    match ← stqKernel mmu idx (sp - 8) v with
    | some e => pure (.error e)
    | none => pushqKernel mmu idx rest (sp - 8)

structure Receiver where
  mmu : Mmu
  cpu : Cpu
  uintrPd : BitVec 64
  smap : Bool

structure Delivery where
  cpu : Cpu
  fault : Option Exception
  entered : Bool

def rrnzero (r : Receiver) (cpu : Cpu) : Op Delivery := do
  let temprsp := cpu.rsp
  let cpu := { cpu with rsp := adjustedStack cpu }
  let rrv := uintrRrv cpu.uintrRr
  match ← pushqKernel r.mmu (cpuMmuIndexKernel r.smap cpu) [temprsp, cpu.eflags, cpu.eip, rrv] cpu.rsp with
  | .error e => pure ⟨cpu, some e, false⟩
  | .ok esp =>
    let cpu := { cpu with
      uintrRr := cpu.uintrRr &&& ~~~(intOneShifted rrv.toNat)
      rsp := esp
      eflags := cpu.eflags &&& ~~~(tfMask ||| rfMask)
      eip := cpu.uintrHandler }
    pure ⟨switchUif cpu false, none, true⟩

/-- The `UINTR_UINV` branch of `do_interrupt64`; the acknowledgement at the local APIC touches
    no memory. -/
def acceptUpid (r : Receiver) (junk : Junk) : Op Delivery := do
  let upidPhys ← walk (getHphys2 r.mmu (junk r.uintrPd) r.uintrPd .load)
  let words ← physRead r.uintrPd r.uintrPd upidPhys
  let upid := upidOfWords words
  let upid := { upid with status := upid.status &&& ~~~upidOn }
  if upid.puir ≠ 0 then
    physWrite r.uintrPd r.uintrPd upidPhys (upidWords { upid with puir := 0 })
    rrnzero r { r.cpu with uintrRr := upid.puir }
  else
    physWrite r.uintrPd r.uintrPd upidPhys (upidWords upid)
    pure ⟨r.cpu, none, false⟩

def accept (r : Receiver) (junk : Junk) : Op Delivery :=
  if !uifEnable r.cpu then pure ⟨r.cpu, none, false⟩
  else if r.cpu.cpl ≠ 3 then pure ⟨r.cpu, none, false⟩
  else acceptUpid r junk

/-! What an access has to respect. -/

/-- CR3 maps the address for this access, and all of it lies in the page that was translated. -/
def Mapped (mmu : Mmu) (t : Touch) : Prop :=
  (∃ pa, GoesTo mmu t.before t.access t.idx t.va pa) ∧ ∀ k, k < t.len → wordAt t.va k >>> 12 = t.base >>> 12

/-- Every byte is the one that CR3 maps its address to, for this access. -/
def Respected (mmu : Mmu) (t : Touch) : Prop :=
  ∀ k, k < t.len → GoesTo mmu t.before t.access t.idx (wordAt t.va k) (wordAt t.pa k)

structure Orderly (mmu : Mmu) (t : Touch) : Prop where
  stack : t.table = false → Mapped mmu t
  respected : Mapped mmu t → Respected mmu t

def Written (trace : List Touch) (a : BitVec 64) : Prop :=
  ∃ t ∈ trace, t.access = .store ∧ ∃ k, k < t.len ∧ wordAt t.pa k = a

/-- What happens between two states of the bus: orderly accesses, and no other change of the
    memory than by them, in the flags of page-table entries, and of a host that intercepts
    page faults in its control block. -/
def Grown (mmu : Mmu) (complete : Prop) (b c : Bus) : Prop :=
  ∃ new, c.trace = b.trace ++ new ∧ (∀ t ∈ new, Orderly mmu t) ∧
    (complete → ∀ a, ¬ Written new a → ¬ Control mmu a → flat c.memory a = flat b.memory a)

def Behaves {α : Type} (mmu : Mmu) (b : Bus) (op : Op α) (post : α → Bus → Prop) : Prop :=
  match op b with
  | .ok a c => Grown mmu True b c ∧ post a c
  | .error stop c => Grown mmu (Quiet stop) b c

section Rules

variable {mmu : Mmu} {α β : Type}

theorem grown_refl (b : Bus) : Grown mmu complete b b :=
  ⟨[], by simp, by simp, fun _ _ _ _ => rfl⟩

theorem grown_trans (first : Grown mmu True b c) (second : Grown mmu complete c d) : Grown mmu complete b d := by
  obtain ⟨new, trace, orderly, memory⟩ := first
  obtain ⟨new', trace', orderly', memory'⟩ := second
  refine ⟨new ++ new', by rw [trace', trace, List.append_assoc], ?_, ?_⟩
  · intro t member
    rcases mem_append.mp member with old | later
    · exact orderly t old
    · exact orderly' t later
  intro whole a unwritten control
  have outside' : ¬ Written new' a := fun ⟨t, member, rest⟩ => unwritten ⟨t, mem_append_right _ member, rest⟩
  have outside : ¬ Written new a := fun ⟨t, member, rest⟩ => unwritten ⟨t, mem_append_left _ member, rest⟩
  rw [memory' whole a outside' control, memory trivial a outside control]

theorem behaves_pure (holds : post a b) : Behaves mmu b (pure a) post :=
  ⟨grown_refl b, holds⟩

theorem behaves_bind (first : Behaves mmu b op mid) (later : ∀ a c, mid a c → Behaves mmu c (rest a) post) :
    Behaves mmu b (op >>= rest) post := by
  unfold Behaves at first ⊢
  rw [RtosStateSpec.run_bind]
  cases run : op b with
  | error stop c =>
    rw [run] at first
    exact first
  | ok a c =>
    rw [run] at first
    have after := later a c first.2
    unfold Behaves at after
    dsimp only
    cases next : rest a c with
    | ok x d =>
      rw [next] at after
      exact ⟨grown_trans first.1 after.1, after.2⟩
    | error stop d =>
      rw [next] at after
      exact grown_trans first.1 after

def Located (mmu : Mmu) (va x : BitVec 64) (m : Memory) : Prop :=
  ∀ pa, GoesTo mmu m .load .knosmap va pa → x = pa

theorem walk_grown (same : Same b.memory m) : Grown mmu complete b { b with memory := m } := by
  refine ⟨[], by simp, by simp, fun _ a _ _ => ?_⟩
  have flags : flat b.memory = flat m := same
  rw [flags]

theorem get_hphys2_behaves (paged : Paged mmu) :
    Behaves mmu b (walk (getHphys2 mmu junk va .load)) fun x c => Located mmu va x c.memory := by
  unfold Behaves walk
  cases run : getHphys2 mmu junk va .load b.memory with
  | error stop m =>
    refine ⟨[], by simp, by simp, fun calm a _ _ => ?_⟩
    have flags : flat b.memory = flat m := get_hphys2_stops paged calm run
    rw [flags]
  | ok x m =>
    have same := get_hphys2_keeps paged run
    refine ⟨walk_grown same, ?_⟩
    intro pa goes
    obtain ⟨t, run', _⟩ := get_hphys2_goes paged (goes_to_kept paged same.symm goes)
    rw [run] at run'
    cases run'
    rfl

theorem located_orderly (paged : Paged mmu) (offset : BitVec 64) (kind : Milder .load access)
    (located : Located mmu base x m) :
    Orderly mmu ⟨true, access, .knosmap, base, base + offset, x + offset, 16, m⟩ := by
  refine ⟨by simp, ?_⟩
  rintro ⟨⟨pa, goes⟩, one_page⟩ k bound
  dsimp only at goes one_page bound ⊢
  have at_base : wordAt (base + offset) 0 >>> 12 = base >>> 12 := one_page 0 (by omega)
  have start : wordAt (base + offset) 0 = base + offset := by simp [wordAt]
  rw [start] at at_base
  have found := located _ (goes_to_moved paged at_base.symm kind goes)
  have here := goes_to_moved paged ((one_page k bound).trans at_base.symm) (Or.inl rfl) goes
  have place : onPage pa (wordAt (base + offset) k) = wordAt (x + offset) k := by
    have moved : wordAt (base + offset) k = base + (offset + BitVec.ofNat 64 k) := by
      rw [wordAt, BitVec.add_assoc]
    have inside := one_page k bound
    rw [moved] at inside ⊢
    rw [on_page_add inside, ← found, wordAt, BitVec.add_assoc]
  rw [← place]
  exact here

theorem record_grown (orderly : Orderly mmu touch)
    (written : ∀ a, ¬ (touch.access = .store ∧ ∃ k, k < touch.len ∧ wordAt touch.pa k = a) → ¬ Control mmu a → flat m a = flat b.memory a) :
    Grown mmu complete b { b.record touch with memory := m } := by
  refine ⟨[touch], rfl, ?_, ?_⟩
  · intro t member
    rw [mem_singleton.mp member]
    exact orderly
  · intro _ a unwritten control
    exact written a (fun hit => unwritten ⟨touch, mem_singleton.mpr rfl, hit⟩) control

theorem phys_read_behaves (paged : Paged mmu) (offset : BitVec 64) (located : Located mmu base x b.memory) :
    Behaves mmu b (physRead base (base + offset) (x + offset)) fun words c =>
      words = (ldq b.memory (x + offset), ldq b.memory (x + offset + 8)) ∧ c.memory = b.memory :=
  ⟨record_grown (located_orderly paged offset (Or.inl rfl) located) (fun _ _ _ => rfl), rfl, rfl⟩

theorem phys_write_behaves (paged : Paged mmu) (located : Located mmu base x b.memory) :
    Behaves mmu b (physWrite base base x words) fun _ _ => True := by
  have orderly : Orderly mmu ⟨true, .store, .knosmap, base, base, x, 16, b.memory⟩ := by
    have shifted := located_orderly paged 0 (Or.inr ⟨rfl, rfl⟩ : Milder .load .store) located
    rw [ofNat_eq_ofNat, BitVec.add_zero, BitVec.add_zero] at shifted
    exact shifted
  refine ⟨record_grown orderly ?_, trivial⟩
  intro a outside _
  have low : ∀ k, k < 8 → wordAt x k ≠ a := fun k bound at_a => outside ⟨rfl, k, by dsimp only; omega, at_a⟩
  have high : ∀ k, k < 8 → wordAt (x + 8) k ≠ a := by
    intro k bound at_a
    refine outside ⟨rfl, 8 + k, by dsimp only; omega, ?_⟩
    rw [← at_a, wordAt, wordAt, ofNat_add, BitVec.add_assoc]
    rfl
  rw [flat, flat, stq, store_word_outside _ _ _ high, stq, store_word_outside _ _ _ low]

theorem aligned_one_page (aligned : va.toNat % 8 = 0) (bound : k < 8) : wordAt va k >>> 12 = va >>> 12 := by
  apply eq_of_toNat_eq
  simp only [wordAt, toNat_ushiftRight, Nat.shiftRight_eq_div_pow, toNat_add, toNat_ofNat]
  omega

theorem stack_orderly (paged : Paged mmu) (aligned : va.toNat % 8 = 0) (goes : GoesTo mmu m .store idx va pa) :
    Orderly mmu ⟨false, .store, idx, va, va, pa, 8, m⟩ := by
  have one_page : ∀ k, k < 8 → wordAt va k >>> 12 = va >>> 12 := fun k bound => aligned_one_page aligned bound
  refine ⟨fun _ => ⟨⟨pa, goes⟩, one_page⟩, ?_⟩
  intro _ k bound
  have at_start := goes_to_moved paged rfl (Or.inl rfl) goes
  have here := goes_to_moved paged (one_page k bound) (Or.inl rfl) goes
  have place : onPage pa (wordAt va k) = wordAt pa k := by
    have inside := one_page k bound
    unfold wordAt at inside ⊢
    rw [on_page_add inside, goes_to_unique at_start goes]
  rw [place] at here
  exact here

theorem stq_kernel_behaves (paged : Paged mmu) (aligned : va.toNat % 8 = 0) :
    Behaves mmu b (stqKernel mmu idx va v) fun _ _ => True := by
  unfold Behaves stqKernel
  cases run : handleMmuFault mmu va .store idx b.memory with
  | ok pa m =>
    have same := handle_mmu_fault_keeps paged run
    have goes : GoesTo mmu m .store idx va pa := goes_to_kept paged same ⟨m, run⟩
    refine ⟨record_grown (stack_orderly paged aligned goes) ?_, trivial⟩
    intro a outside _
    have flags : flat b.memory = flat m := same
    rw [flags, flat, flat, stq, store_word_outside _ _ _ fun k bound at_a => outside ⟨rfl, k, bound, at_a⟩]
  | error stop m =>
    have kept : Quiet stop → ∀ a, ¬ Control mmu a → flat m a = flat b.memory a :=
      fun calm a outside => handle_mmu_fault_stops paged calm run outside
    cases stop with
    | exception e =>
      exact ⟨⟨[], by simp, by simp, fun _ a _ control => kept trivial a control⟩, trivial⟩
    | fault code => exact ⟨[], by simp, by simp, fun _ a _ control => kept trivial a control⟩
    | vmexit info1 info2 => exact ⟨[], by simp, by simp, fun calm a _ control => kept calm a control⟩

theorem pushq_kernel_behaves (paged : Paged mmu) (aligned : sp.toNat % 8 = 0) :
    Behaves mmu b (pushqKernel mmu idx words sp) fun _ _ => True := by
  induction words generalizing sp b with
  | nil => exact behaves_pure trivial
  | cons v rest ih =>
    have lower : (sp - 8).toNat % 8 = 0 := by
      have eight : (8 : BitVec 64).toNat = 8 := rfl
      rw [toNat_sub, eight]
      omega
    unfold pushqKernel
    apply behaves_bind (stq_kernel_behaves paged lower)
    intro fault c _
    cases fault with
    | some e => exact behaves_pure trivial
    | none => exact ih lower

theorem adjusted_stack_aligned : (adjustedStack cpu).toNat % 8 = 0 :=
  masked_aligned _ (by decide)

theorem rrnzero_behaves (paged : Paged r.mmu) : Behaves r.mmu b (rrnzero r cpu) fun _ _ => True := by
  unfold rrnzero
  apply behaves_bind (pushq_kernel_behaves paged (adjusted_stack_aligned))
  intro pushed c _
  cases pushed with
  | error e => exact behaves_pure trivial
  | ok esp => exact behaves_pure trivial

theorem accept_behaves (paged : Paged r.mmu) : Behaves r.mmu b (accept r junk) fun _ _ => True := by
  unfold accept
  split
  · exact behaves_pure trivial
  split
  · exact behaves_pure trivial
  unfold acceptUpid
  apply behaves_bind (get_hphys2_behaves paged)
  intro x c located
  have read := phys_read_behaves paged 0 located
  rw [ofNat_eq_ofNat, BitVec.add_zero, BitVec.add_zero] at read
  apply behaves_bind read
  rintro words d ⟨_, same⟩
  rw [← same] at located
  dsimp only
  split
  · apply behaves_bind (phys_write_behaves paged located)
    intro _ e _
    exact rrnzero_behaves paged
  apply behaves_bind (phys_write_behaves paged located)
  intro _ e _
  exact behaves_pure trivial

theorem fetch_uitte_behaves (paged : Paged env.mmu) :
    Behaves env.mmu b (fetchUitte env junk regIndex) fun _ _ => True := by
  unfold fetchUitte
  dsimp only
  split
  · exact grown_refl b
  apply behaves_bind (get_hphys2_behaves paged)
  intro x c located
  apply behaves_bind (phys_read_behaves paged _ located)
  intro words d _
  exact behaves_pure trivial

theorem post_upid_behaves (paged : Paged mmu) : Behaves mmu b (postUpid mmu junk uitte) fun _ _ => True := by
  unfold postUpid
  apply behaves_bind (get_hphys2_behaves paged)
  intro x c located
  have read := phys_read_behaves paged 0 located
  rw [ofNat_eq_ofNat, BitVec.add_zero, BitVec.add_zero] at read
  apply behaves_bind read
  rintro words d ⟨_, same⟩
  rw [← same] at located
  apply behaves_bind (phys_write_behaves paged located)
  intro _ e _
  exact behaves_pure trivial

theorem senduipi_behaves (paged : Paged env.mmu) :
    Behaves env.mmu b (senduipi env junk regIndex) fun _ _ => True := by
  unfold senduipi
  apply behaves_bind (fetch_uitte_behaves paged)
  intro uitte c _
  exact post_upid_behaves paged

end Rules

def finalBus {α : Type} : EStateM.Result Stop Bus α → Bus
  | .ok _ b => b
  | .error _ b => b

def Exited {α : Type} : EStateM.Result Stop Bus α → Prop
  | .ok _ _ => False
  | .error stop _ => ¬ Quiet stop

/-- Every access that CR3 maps for what it does, and that does not cross a page, is to the bytes
    that CR3 maps; nothing else is written, but for the flags of page-table entries and the
    control block of a host. -/
structure PageTablesRespected {α : Type} (mmu : Mmu) (m : Memory) (result : EStateM.Result Stop Bus α) : Prop where
  orderly : ∀ t ∈ (finalBus result).trace, Orderly mmu t
  memory : ¬ Exited result → ∀ a, ¬ Written (finalBus result).trace a → ¬ Control mmu a →
    flat (finalBus result).memory a = flat m a

theorem respected_of_behaves {α : Type} {op : Op α} (behaves : Behaves mmu ⟨m, []⟩ op fun _ _ => True) :
    PageTablesRespected mmu m (op ⟨m, []⟩) := by
  unfold Behaves at behaves
  cases run : op ⟨m, []⟩ with
  | ok a c =>
    rw [run] at behaves
    obtain ⟨⟨new, trace, orderly, memory⟩, _⟩ := behaves
    rw [nil_append] at trace
    subst trace
    exact ⟨orderly, fun _ a => memory trivial a⟩
  | error stop c =>
    rw [run] at behaves
    obtain ⟨new, trace, orderly, memory⟩ := behaves
    rw [nil_append] at trace
    subst trace
    exact ⟨orderly, fun running a => memory (not_not.mp running) a⟩

/-- Long mode with write protection and four-level tables at 0x1000. -/
def longMmu : Mmu where
  cr0 := 0x80010001
  cr3 := 0x1000
  cr4 := 0x20
  efer := 0x500
  lma := true
  a20Mask := -1
  physBits := 40
  pkru := 0
  pkrs := 0
  npt := false
  nestedCr3 := 0
  nestedPgMode := ⟨false, false, false, false, false, false, false, false, false⟩
  vmVmcb := 0
  interceptPf := false

theorem long_mmu_paged : Paged longMmu := ⟨by decide, by decide, by decide⟩

def imageOf (bytes : List (BitVec 64 × BitVec 8)) : Memory := fun a => (bytes.lookup a).getD 0

/-- Two large pages, of which the second is read-only unless `rights` has bit 1 set. In the first
    is a UITT at 0x4000, whose entry is for vector 5 and the UPID at the start of the second. -/
def twoPages (rights : BitVec 8) : Memory := imageOf
  [(0x1000, 0x27), (0x1001, 0x20), (0x2000, 0x27), (0x2001, 0x30), (0x3000, 0xe7), (0x3008, rights), (0x300a, 0x20),
    (0x4000, 0x01), (0x4001, 0x05), (0x400a, 0x20)]

def oneEntry : Sender where
  mmu := longMmu
  regs := fun _ => 0
  uintrMisc := 0
  uintrTt := 0x4001

end RtosUintrTableAccess
