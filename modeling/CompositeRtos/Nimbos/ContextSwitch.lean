import CompositeRtos.Uintr.X86

/-!
`context_switch` of `arch/x86_64/context.rs`, instruction by instruction, and the
`ContextSwitchFrame` that `TaskContext::init` prepares for a new task. The frame has the
callee-saved registers, UIF and the MSRs 0x986 to 0x98a; `MSR_IA32_UINTR_RR` (0x985) is
not in it.
-/
namespace RtosNimbosContextSwitch
open RtosWordStack RtosUintrMachine RtosUintrPermission RtosX86 Function BitVec

structure ContextSwitchFrame where
  msr98a : BitVec 64
  msr989 : BitVec 64
  msr988 : BitVec 64
  msr987 : BitVec 64
  msr986 : BitVec 64
  uif : BitVec 64
  r15 : BitVec 64
  r14 : BitVec 64
  r13 : BitVec 64
  r12 : BitVec 64
  rbx : BitVec 64
  rbp : BitVec 64
  rip : BitVec 64
  deriving DecidableEq

/-- The words of the frame from its top down, in the order in which they are pushed. -/
def ContextSwitchFrame.words (f : ContextSwitchFrame) : List (BitVec 64) :=
  [f.rip, f.rbp, f.rbx, f.r12, f.r13, f.r14, f.r15, f.uif, f.msr986, f.msr987, f.msr988, f.msr989, f.msr98a]

/-- `mov ecx, index; rdmsr; mov [rsp + off], eax; mov [rsp + off + 4], edx`. -/
def saveMsr (s : X86) (index : BitVec 32) (off : BitVec 64) : X86 :=
  (((s.movImm .rcx index).rdmsr).store32 off .rax).store32 (off + 4) .rdx

/-- `mov ecx, index; mov eax, [rsp + off]; mov edx, [rsp + off + 4]; wrmsr`. -/
def restoreMsr (s : X86) (index : BitVec 32) (off : BitVec 64) : X86 :=
  (((s.movImm .rcx index).load32 .rax off).load32 .rdx (off + 4)).wrmsr

def saveRegisters (s : X86) : X86 :=
  (((((s.push .rbp).push .rbx).push .r12).push .r13).push .r14).push .r15

def saveUif (s : X86) : X86 := (s.testui.setcAl).push .rax

def saveMsrs (s : X86) : X86 :=
  let s := s.subRsp 40
  let s := saveMsr s 0x986 32
  let s := saveMsr s 0x987 24
  let s := saveMsr s 0x988 16
  let s := saveMsr s 0x989 8
  saveMsr s 0x98a 0

/-- `mov [rdi], rsp; mov rsp, [rsi]`. -/
def switchStacks (s : X86) : X86 :=
  let s := { s with memory := stq s.memory (s.gpr .rdi) s.rsp }
  s.setRsp (ldq s.memory (s.gpr .rsi))

def restoreMsrs (s : X86) : X86 :=
  let s := restoreMsr s 0x98a 0
  let s := restoreMsr s 0x989 8
  let s := restoreMsr s 0x988 16
  let s := restoreMsr s 0x987 24
  let s := restoreMsr s 0x986 32
  s.addRsp 40

/-- `pop rax; test al, al; jz 1f; stui; jmp 2f; 1: clui; 2:`. -/
def restoreUif (s : X86) : X86 :=
  let s := (s.pop .rax).testAl
  if s.zero then s.clui else s.stui

def restoreRegisters (s : X86) : X86 :=
  (((((s.pop .r15).pop .r14).pop .r13).pop .r12).pop .rbx).pop .rbp

def contextSwitch (s : X86) : X86 :=
  let s := saveMsrs (saveUif (saveRegisters s))
  let s := switchStacks s
  (restoreRegisters (restoreUif (restoreMsrs s))).ret

def switchTo (s : X86) (currentStack nextStack returnAddress : BitVec 64) : X86 :=
  contextSwitch (((s.setGpr .rdi currentStack).setGpr .rsi nextStack).pushWord returnAddress)

def initFrame (entry : BitVec 64) : ContextSwitchFrame :=
  ⟨0, 0, 0, 0, 0, 0, 0, 0, 0, 0, 0, 0, entry⟩

structure UintrState where
  rr : BitVec 64
  handler : BitVec 64
  stackadjust : BitVec 64
  misc : BitVec 64
  pd : BitVec 64
  tt : BitVec 64
  uif : Bool
  deriving DecidableEq, Repr

def uintrOf (core : Core) : UintrState where
  rr := core.cpu.uintrRr
  handler := core.cpu.uintrHandler
  stackadjust := core.cpu.uintrStackadjust
  misc := core.uintrMisc
  pd := core.uintrPd
  tt := core.uintrTt
  uif := uifEnable core.cpu

/-- What a task has of the CPU: user-interrupt state, callee-saved registers, stack and
    the place where it goes on. -/
structure Snapshot where
  uintr : UintrState
  rbx : BitVec 64
  rbp : BitVec 64
  r12 : BitVec 64
  r13 : BitVec 64
  r14 : BitVec 64
  r15 : BitVec 64
  rsp : BitVec 64
  rip : BitVec 64
  deriving DecidableEq, Repr

def snapshot (s : X86) (rip : BitVec 64) : Snapshot :=
  ⟨uintrOf s.core, s.gpr .rbx, s.gpr .rbp, s.gpr .r12, s.gpr .r13, s.gpr .r14, s.gpr .r15, s.rsp, rip⟩

def initSnapshot (entry top : BitVec 64) : Snapshot :=
  ⟨⟨0, 0, 0, 0, 0, 0, false⟩, 0, 0, 0, 0, 0, 0, top, entry⟩

/-- A frame that stands for a snapshot; of the UIF word only the low byte counts. -/
structure Frames (f : ContextSwitchFrame) (x : Snapshot) : Prop where
  handler : f.msr986 = x.uintr.handler
  stackadjust : f.msr987 = x.uintr.stackadjust
  misc : f.msr988 = x.uintr.misc
  pd : f.msr989 = x.uintr.pd
  tt : f.msr98a = x.uintr.tt
  uif : (f.uif.setWidth 8 ≠ (0 : BitVec 8)) ↔ x.uintr.uif = true
  rbx : f.rbx = x.rbx
  rbp : f.rbp = x.rbp
  r12 : f.r12 = x.r12
  r13 : f.r13 = x.r13
  r14 : f.r14 = x.r14
  r15 : f.r15 = x.r15
  rip : f.rip = x.rip

theorem save_msr_eq (s : X86) : (saveMsr s index off).core = s.core ∧
    (saveMsr s index off).memory = stq s.memory (s.rsp + off) (readMsr s.core index) ∧
    ∀ r, r ≠ .rax → r ≠ .rcx → r ≠ .rdx → (saveMsr s index off).gpr r = s.gpr r := by
  refine ⟨rfl, ?_, ?_⟩
  · have index32 : (index.setWidth 64).setWidth 32 = index := by simp
    simp only [saveMsr, X86.store32, X86.rdmsr, X86.movImm, X86.setGpr, X86.rsp, update_self,
      ne_eq, reduceCtorEq, not_false_eq_true, update_of_ne, index32]
    rw [← BitVec.add_assoc, stl_pair]
    congr 1
    simpa using word_halves _
  · intro r notRax notRcx notRdx
    simp [saveMsr, X86.store32, X86.rdmsr, X86.movImm, X86.setGpr, notRax, notRcx, notRdx]

/-- What a part of the saving code does: it pushes words and leaves the user-interrupt
    state and all registers but RAX, RCX and RDX alone. -/
structure Saves (s t : X86) (words : List (BitVec 64)) : Prop where
  memory : t.memory = pushAll words s.rsp s.memory
  rsp : t.rsp = under s.rsp (8 * words.length)
  uintr : uintrOf t.core = uintrOf s.core
  gpr : ∀ r, r ≠ .rax → r ≠ .rcx → r ≠ .rdx → t.gpr r = s.gpr r

theorem saves_trans (a : Saves s t first) (b : Saves t u second) : Saves s u (first ++ second) where
  memory := by rw [b.memory, a.memory, a.rsp, push_all_append]
  rsp := by
    rw [b.rsp, a.rsp, under_under, List.length_append]
    congr 1
    omega
  uintr := b.uintr.trans a.uintr
  gpr r x y z := (b.gpr r x y z).trans (a.gpr r x y z)

theorem registers_saved (s : X86) : Saves s (saveRegisters s)
    [s.gpr .rbp, s.gpr .rbx, s.gpr .r12, s.gpr .r13, s.gpr .r14, s.gpr .r15] where
  memory := rfl
  rsp := by
    change s.rsp - 8 - 8 - 8 - 8 - 8 - 8 = s.rsp - 48
    bv_omega
  uintr := rfl
  gpr _ _ _ _ := rfl

def uifWord (s : X86) : BitVec 64 :=
  (s.gpr .rax &&& ~~~0xff) ||| (if uifEnable s.core.cpu then 1 else 0)

theorem uif_word_low (s : X86) : (uifWord s).setWidth 8 ≠ (0 : BitVec 8) ↔ uifEnable s.core.cpu = true := by
  have low : (uifWord s).setWidth 8 = if uifEnable s.core.cpu then (1 : BitVec 8) else 0 := by
    apply eq_of_getLsbD_eq
    intro i bound
    have ones : (0xff : BitVec 64).getLsbD i = true := by
      have table : ∀ k : Fin 8, (0xff : BitVec 64).getLsbD k.val = true := by decide
      exact table ⟨i, bound⟩
    simp only [uifWord, getLsbD_setWidth, getLsbD_or, getLsbD_and, getLsbD_not, ones]
    split <;> simp [bound]
  rw [low]
  split <;> simp [*]

theorem uif_saved (s : X86) : Saves s (saveUif s) [uifWord s] where
  memory := by
    have carry : (s.testui.cc.computeAll &&& ccC) = if uifEnable s.core.cpu then 1 else 0 := by
      simp only [X86.testui, X86.cpuLoadEflags, Cc.computeAll]
      split <;> decide
    simp only [saveUif, X86.push, X86.setcAl, X86.pushWord, X86.setGpr, update_self, carry]
    rfl
  rsp := rfl
  uintr := rfl
  gpr := by
    intro r notRax _ _
    simp [saveUif, X86.push, X86.pushWord, X86.setcAl, X86.setGpr, X86.setRsp, X86.testui,
      X86.cpuLoadEflags, X86.setCpu, notRax]

theorem msrs_saved (s : X86) : Saves s (saveMsrs s)
    [s.core.cpu.uintrHandler, s.core.cpu.uintrStackadjust, s.core.uintrMisc, s.core.uintrPd, s.core.uintrTt] where
  memory := by
    simp only [saveMsrs, (save_msr_eq _).2.1]
    change stq (stq (stq (stq (stq s.memory (s.rsp - 40 + 32) s.core.cpu.uintrHandler) (s.rsp - 40 + 24)
      s.core.cpu.uintrStackadjust) (s.rsp - 40 + 16) s.core.uintrMisc) (s.rsp - 40 + 8) s.core.uintrPd)
      (s.rsp - 40 + 0) s.core.uintrTt = _
    -- each word goes 8 bytes below the one before
    rw [show s.rsp - 40 + 32 = s.rsp - 8 by bv_omega, show s.rsp - 40 + 24 = s.rsp - 8 - 8 by bv_omega,
      show s.rsp - 40 + 16 = s.rsp - 8 - 8 - 8 by bv_omega,
      show s.rsp - 40 + 8 = s.rsp - 8 - 8 - 8 - 8 by bv_omega,
      show s.rsp - 40 + 0 = s.rsp - 8 - 8 - 8 - 8 - 8 by bv_omega]
    rfl
  rsp := rfl
  uintr := rfl
  gpr r notRax notRcx notRdx := by
    simp only [saveMsrs, (save_msr_eq _).2.2 r notRax notRcx notRdx]
    rfl

def savedFrame (s : X86) (returnAddress : BitVec 64) : ContextSwitchFrame where
  msr98a := s.core.uintrTt
  msr989 := s.core.uintrPd
  msr988 := s.core.uintrMisc
  msr987 := s.core.cpu.uintrStackadjust
  msr986 := s.core.cpu.uintrHandler
  uif := uifWord s
  r15 := s.gpr .r15
  r14 := s.gpr .r14
  r13 := s.gpr .r13
  r12 := s.gpr .r12
  rbx := s.gpr .rbx
  rbp := s.gpr .rbp
  rip := returnAddress

theorem saved_frames (s : X86) : Frames (savedFrame s returnAddress) (snapshot s returnAddress) where
  handler := rfl
  stackadjust := rfl
  misc := rfl
  pd := rfl
  tt := rfl
  uif := uif_word_low s
  rbx := rfl
  rbp := rfl
  r12 := rfl
  r13 := rfl
  r14 := rfl
  r15 := rfl
  rip := rfl

theorem init_frames : Frames (initFrame entry) (initSnapshot entry top) := by
  constructor <;> first | rfl | simp [initFrame, initSnapshot]

theorem frame_saved (s : X86) (returnAddress : BitVec 64) :
    Saves s (saveMsrs (saveUif (saveRegisters (s.pushWord returnAddress)))) (savedFrame s returnAddress).words := by
  have called : Saves s (s.pushWord returnAddress) [returnAddress] := ⟨rfl, rfl, rfl, fun _ _ _ _ => rfl⟩
  exact saves_trans called (saves_trans (registers_saved _) (saves_trans (uif_saved _) (msrs_saved _)))

/-! The restoring half reads the words of a frame back. -/

/-- What a part of the restoring code does: it reads memory, and it changes no register
    but RAX, RCX and RDX besides those of the core. -/
structure Restores (s t : X86) (core : Core) : Prop where
  memory : t.memory = s.memory
  core : t.core = core
  gpr : ∀ r, r ≠ .rax → r ≠ .rcx → r ≠ .rdx → t.gpr r = s.gpr r

theorem restores_trans (a : Restores s t first) (b : Restores t u second) : Restores s u second :=
  ⟨b.memory.trans a.memory, b.core, fun r x y z => (b.gpr r x y z).trans (a.gpr r x y z)⟩

theorem msr_restored
    (written : helperWrmsr (fun _ => true) s.core s.memory index (ldq s.memory (s.rsp + off)) = ⟨core, s.memory, false⟩) :
    Restores s (restoreMsr s index off) core := by
  have index32 : (index.setWidth 64).setWidth 32 = index := by simp
  have value : ((ldl s.memory (s.rsp + (off + 4))).setWidth 64).setWidth 32 ++
      ((ldl s.memory (s.rsp + off)).setWidth 64).setWidth 32 = ldq s.memory (s.rsp + off) := by
    rw [← BitVec.add_assoc, ← ldl_pair]
    simp
  have run : restoreMsr s index off = { ((s.movImm .rcx index).load32 .rax off).load32 .rdx (off + 4) with
        core := core, memory := s.memory } := by
    rw [← value] at written
    simp only [restoreMsr, X86.wrmsr, X86.load32, X86.movImm, X86.setGpr, X86.rsp,
      update_self, ne_eq, reduceCtorEq, not_false_eq_true, update_of_ne, index32] at written ⊢
    rw [written]
  rw [run]
  refine ⟨rfl, rfl, ?_⟩
  intro r notRax notRcx notRdx
  simp [X86.load32, X86.movImm, X86.setGpr, notRax, notRcx, notRdx]

theorem msr_restored_after (index : BitVec 32) (off : BitVec 64) (before : Restores s t core)
    (stack : core.cpu.rsp = s.rsp)
    (written : helperWrmsr (fun _ => true) core s.memory index (ldq s.memory (s.rsp + off)) = ⟨core', s.memory, false⟩) :
    Restores s (restoreMsr t index off) core' := by
  apply restores_trans before
  apply msr_restored
  rw [X86.rsp, before.core, before.memory, stack]
  exact written

theorem add_rsp_restores (before : Restores s t core) (n : BitVec 64) :
    Restores s (t.addRsp n) { core with cpu := { core.cpu with rsp := core.cpu.rsp + n } } := by
  refine ⟨before.memory, ?_, before.gpr⟩
  rw [← before.core]
  rfl

theorem msrs_restored (s : X86) : Restores s (restoreMsrs s) { s.core with
    cpu := { s.core.cpu with
      rsp := s.rsp + 40
      uintrHandler := ldq s.memory (s.rsp + 32)
      uintrStackadjust := ldq s.memory (s.rsp + 24) }
    uintrMisc := ldq s.memory (s.rsp + 16)
    uintrPd := ldq s.memory (s.rsp + 8)
    uintrTt := ldq s.memory (s.rsp + 0) } := by
  have tt : Restores s (restoreMsr s 0x98a 0) { s.core with uintrTt := ldq s.memory (s.rsp + 0) } :=
    msr_restored rfl
  have pd := msr_restored_after 0x989 8 tt rfl rfl
  have misc := msr_restored_after 0x988 16 pd rfl rfl
  have stackadjust := msr_restored_after 0x987 24 misc rfl rfl
  have handler := msr_restored_after 0x986 32 stackadjust rfl rfl
  have moved := add_rsp_restores handler 40
  exact moved

theorem zero_of_byte : (logicFlags d &&& ccZ != 0) = decide (d = 0) := by
  revert d
  decide +kernel

theorem uif_restored (s : X86) : Restores s (restoreUif s) { s.core with
    cpu := { s.core.cpu with
      rsp := s.rsp + 8
      uintrUif := if (ldq s.memory s.rsp).setWidth 8 = (0 : BitVec 8) then 0 else 1 } } := by
  have flag : (s.pop .rax).testAl.zero = decide ((ldq s.memory s.rsp).setWidth 8 = (0 : BitVec 8)) := by
    have byte : ((s.pop .rax).gpr .rax).setWidth 8 = (ldq s.memory s.rsp).setWidth 8 := by
      simp [X86.pop, X86.setGpr, X86.setRsp]
    rw [← byte]
    exact zero_of_byte
  have gpr : ∀ r, r ≠ .rax → (s.pop .rax).gpr r = s.gpr r := by
    intro r notRax
    simp [X86.pop, X86.setGpr, X86.setRsp, notRax]
  simp only [restoreUif, flag, decide_eq_true_eq]
  split
  · exact ⟨rfl, rfl, fun r notRax _ _ => gpr r notRax⟩
  · exact ⟨rfl, rfl, fun r notRax _ _ => gpr r notRax⟩

theorem pop_uintr (s : X86) : uintrOf (s.pop r).core = uintrOf s.core := rfl

theorem ret_uintr (s : X86) : uintrOf s.ret.core = uintrOf s.core := rfl

theorem registers_restored (s : X86) :
    (restoreRegisters s).ret.memory = s.memory ∧
    snapshot (restoreRegisters s).ret (restoreRegisters s).ret.core.cpu.eip =
      { uintr := uintrOf s.core
        r15 := ldq s.memory s.rsp
        r14 := ldq s.memory (s.rsp + 8)
        r13 := ldq s.memory (s.rsp + 16)
        r12 := ldq s.memory (s.rsp + 24)
        rbx := ldq s.memory (s.rsp + 32)
        rbp := ldq s.memory (s.rsp + 40)
        rip := ldq s.memory (s.rsp + 48)
        rsp := s.rsp + 56 } := by
  have memory : (restoreRegisters s).memory = s.memory := by simp only [restoreRegisters, pop_memory]
  have uintr : uintrOf (restoreRegisters s).core = uintrOf s.core := by
    simp only [restoreRegisters, pop_uintr]
  have rsp : (restoreRegisters s).rsp = s.rsp + 48 := by
    simp only [restoreRegisters, pop_rsp]
    bv_omega
  rw [ret_memory, snapshot]
  refine ⟨memory, ?_⟩
  rw [ret_uintr, ret_rsp, ret_eip, memory, uintr, rsp]
  simp only [ret_gpr, restoreRegisters, pop_same, pop_other, pop_memory, pop_rsp, ne_eq, reduceCtorEq,
    not_false_eq_true, BitVec.add_assoc]
  rfl

theorem core_restored (s : X86) : Restores s (restoreUif (restoreMsrs s)) { s.core with
    cpu := { s.core.cpu with
      rsp := s.rsp + 48
      uintrHandler := ldq s.memory (s.rsp + 32)
      uintrStackadjust := ldq s.memory (s.rsp + 24)
      uintrUif := if (ldq s.memory (s.rsp + 40)).setWidth 8 = (0 : BitVec 8) then 0 else 1 }
    uintrMisc := ldq s.memory (s.rsp + 16)
    uintrPd := ldq s.memory (s.rsp + 8)
    uintrTt := ldq s.memory (s.rsp + 0) } := by
  have msrs := msrs_restored s
  have uif := uif_restored (restoreMsrs s)
  rw [X86.rsp, msrs.core, msrs.memory] at uif
  have stack : s.rsp + 40 + 8 = s.rsp + 48 := BitVec.add_assoc _ _ _
  rw [← stack]
  exact restores_trans msrs uif

theorem uintr_restored (frame : Pushed s.memory top f.words) (stack : s.rsp = under top 104) (saved : Frames f x) :
    uintrOf (restoreUif (restoreMsrs s)).core = { x.uintr with rr := s.core.cpu.uintrRr } := by
  have tt : ldq s.memory (s.rsp + 0) = f.msr98a := word_above frame stack 0 12 rfl rfl
  have pd : ldq s.memory (s.rsp + 8) = f.msr989 := word_above frame stack 8 11 rfl rfl
  have misc : ldq s.memory (s.rsp + 16) = f.msr988 := word_above frame stack 16 10 rfl rfl
  have adjust : ldq s.memory (s.rsp + 24) = f.msr987 := word_above frame stack 24 9 rfl rfl
  have handler : ldq s.memory (s.rsp + 32) = f.msr986 := word_above frame stack 32 8 rfl rfl
  have uif : ldq s.memory (s.rsp + 40) = f.uif := word_above frame stack 40 7 rfl rfl
  have flag : ((if f.uif.setWidth 8 = (0 : BitVec 8) then 0 else 1 : BitVec 64) != 0) = x.uintr.uif := by
    rw [Bool.eq_iff_iff, ← saved.uif]
    split
    · simp [*]
    · simpa using ‹¬_›
  rw [(core_restored s).core, tt, pd, misc, adjust, handler, uif, saved.tt, saved.pd, saved.misc,
    saved.stackadjust, saved.handler]
  simp only [uintrOf, uifEnable, flag]

theorem snapshot_restored (frame : Pushed s.memory top f.words) (stack : s.rsp = under top 56)
    (saved : Frames f x) (at_top : x.rsp = top) (uintr : uintrOf s.core = x.uintr) :
    snapshot (restoreRegisters s).ret (restoreRegisters s).ret.core.cpu.eip = x := by
  have r15 : ldq s.memory (s.rsp + 0) = f.r15 := word_above frame stack 0 6 rfl rfl
  have r14 : ldq s.memory (s.rsp + 8) = f.r14 := word_above frame stack 8 5 rfl rfl
  have r13 : ldq s.memory (s.rsp + 16) = f.r13 := word_above frame stack 16 4 rfl rfl
  have r12 : ldq s.memory (s.rsp + 24) = f.r12 := word_above frame stack 24 3 rfl rfl
  have rbx : ldq s.memory (s.rsp + 32) = f.rbx := word_above frame stack 32 2 rfl rfl
  have rbp : ldq s.memory (s.rsp + 40) = f.rbp := word_above frame stack 40 1 rfl rfl
  have rip : ldq s.memory (s.rsp + 48) = f.rip := word_above frame stack 48 0 rfl rfl
  have rsp : s.rsp + 56 = x.rsp := by
    rw [stack, at_top]
    exact BitVec.sub_add_cancel _ _
  rw [show s.rsp + 0 = s.rsp from BitVec.add_zero _] at r15
  rw [(registers_restored s).2, r15, r14, r13, r12, rbx, rbp, rip, rsp, uintr, saved.r15, saved.r14,
    saved.r13, saved.r12, saved.rbx, saved.rbp, saved.rip]

def parkedMemory (s : X86) (currentStack returnAddress : BitVec 64) : Memory :=
  stq (pushAll (savedFrame s returnAddress).words s.rsp s.memory) currentStack (under s.rsp 104)

theorem parked (s : X86) (currentStack nextStack returnAddress : BitVec 64) :
    ∃ t : X86, switchTo s currentStack nextStack returnAddress = (restoreRegisters (restoreUif (restoreMsrs t))).ret ∧
      t.memory = parkedMemory s currentStack returnAddress ∧
      t.rsp = ldq (parkedMemory s currentStack returnAddress) nextStack ∧
      t.core.cpu.uintrRr = s.core.cpu.uintrRr := by
  have saves := frame_saved ((s.setGpr .rdi currentStack).setGpr .rsi nextStack) returnAddress
  have words : savedFrame ((s.setGpr .rdi currentStack).setGpr .rsi nextStack) returnAddress =
      savedFrame s returnAddress := by
    simp only [savedFrame, uifWord, X86.setGpr, ne_eq, reduceCtorEq, not_false_eq_true, update_of_ne]
    rfl
  have rdi := saves.gpr .rdi (by decide) (by decide) (by decide)
  have rsi := saves.gpr .rsi (by decide) (by decide) (by decide)
  have memory := saves.memory
  have rsp := saves.rsp
  rw [words] at memory rsp
  have stored : (switchStacks (saveMsrs (saveUif (saveRegisters
      (((s.setGpr .rdi currentStack).setGpr .rsi nextStack).pushWord returnAddress))))).memory =
      parkedMemory s currentStack returnAddress := by
    change stq _ _ _ = _
    rw [memory, rsp, rdi]
    rfl
  refine ⟨_, rfl, stored, ?_, congrArg UintrState.rr saves.uintr⟩
  rw [← stored]
  change ldq _ _ = _
  rw [rsi]
  rfl

def Snapshot.withRr (x : Snapshot) (rr : BitVec 64) : Snapshot := { x with uintr := { x.uintr with rr } }

theorem frames_rr (saved : Frames f x) : Frames f (x.withRr rr) := by
  cases saved
  constructor <;> assumption

/-- What `context_switch` makes of a CPU: the running task is parked, and everything but
    UIRR is as the frame that `next` points to says. -/
theorem switched (saved : Frames f x) (frame : Pushed (parkedMemory s currentStack returnAddress) x.rsp f.words)
    (pointer : ldq (parkedMemory s currentStack returnAddress) nextStack = under x.rsp 104) :
    (switchTo s currentStack nextStack returnAddress).memory = parkedMemory s currentStack returnAddress ∧
    snapshot (switchTo s currentStack nextStack returnAddress)
        (switchTo s currentStack nextStack returnAddress).core.cpu.eip = x.withRr s.core.cpu.uintrRr := by
  obtain ⟨t, run, memory, rsp, rr⟩ := parked s currentStack nextStack returnAddress
  rw [← memory] at frame
  have stack : t.rsp = under x.rsp 104 := rsp.trans pointer
  have core := core_restored t
  have middle : (restoreUif (restoreMsrs t)).rsp = under x.rsp 56 := by
    rw [X86.rsp, core.core]
    change t.rsp + BitVec.ofNat 64 48 = under x.rsp 56
    rw [stack, under_add x.rsp (by omega)]
  have uintr := uintr_restored frame stack saved
  rw [rr] at uintr
  rw [run, (registers_restored _).1, core.memory]
  refine ⟨memory, ?_⟩
  rw [← core.memory] at frame
  exact snapshot_restored frame middle (frames_rr saved) rfl uintr

end RtosNimbosContextSwitch
