import Mathlib.Data.List.Induction
import CompositeRtos.Uintr.X86

/-!
One user interrupt as the interrupted program sees it: `helper_rrnzero`, the stub that
`make_uintr_entry` builds around a handler, and UIRET. The frame holds `env->eflags`,
without the lazy condition codes and `env->df`, and UIRET writes `env->eflags` only; so the
condition codes after it are those of the stub's last `add rsp, 24`.
-/
namespace RtosUintrTransparency
open RtosByteMemory RtosWordStack RtosUintrMachine RtosUintrPermission RtosX86 BitVec List

def pushRegs (regs : List Gpr) (s : X86) : X86 := regs.foldl X86.push s

def popRegs (regs : List Gpr) (s : X86) : X86 := regs.foldl X86.pop s

def pushed : List Gpr :=
  [.rax, .r15, .r14, .r13, .r12, .rbp, .rbx, .r11, .r10, .r9, .r8, .rcx, .rdx, .rsi, .rdi]

def popped : List Gpr :=
  [.rdi, .rsi, .rdx, .rcx, .r8, .r9, .r10, .r11, .rbx, .rbp, .r12, .r13, .r14, .r15, .rax]

/-- `make_uintr_entry` up to `call`. -/
def stubEnter (s : X86) : X86 :=
  let s := s.subRsp 8
  let s := s.pushWord 0
  let s := pushRegs pushed s
  let s := s.setGpr .rdi s.rsp
  s.subRsp 8

/-- `make_uintr_entry` behind the call, up to `uiret`. -/
def stubLeave (s : X86) : X86 :=
  let s := s.addRsp 8
  let s := popRegs popped s
  s.addRsp 24

def deliver (s : X86) : X86 :=
  let entry := helperRrnzero (fun _ => true) s.core.cpu s.memory
  { s.setCpu entry.cpu with memory := entry.memory }

def uiret (s : X86) : X86 :=
  match helperUiret (fun _ => true) s.core.cpu s.memory with
  | some cpu => s.setCpu cpu
  | none => s

def called (s : X86) (returnAddress : BitVec 64) : X86 := (stubEnter (deliver s)).pushWord returnAddress

/-- A whole user interrupt; `returning` is the state at the `ret` of the handler. -/
def interruptReturn (returning : X86) : X86 := uiret (stubLeave returning.ret)

/-- What a handler must respect: it returns to the stub and leaves the frame and the saved
    registers on its stack alone. Everything else is free. -/
structure Respects (s returning : X86) (returnAddress : BitVec 64) : Prop where
  stack : returning.rsp = (called s returnAddress).rsp
  returns : ldq returning.memory returning.rsp = returnAddress
  frame : ∀ a, 0 < below (adjustedStack s.core.cpu) a → below (adjustedStack s.core.cpu) a ≤ 32 →
    returning.memory a = (called s returnAddress).memory a
  registers : ∀ a, 48 < below (adjustedStack s.core.cpu) a → below (adjustedStack s.core.cpu) a ≤ 168 →
    returning.memory a = (called s returnAddress).memory a

theorem push_regs_eq (s : X86) : (pushRegs regs s).memory = pushAll (regs.map s.gpr) s.rsp s.memory ∧
    (pushRegs regs s).rsp = under s.rsp (8 * regs.length) ∧ (pushRegs regs s).gpr = s.gpr := by
  induction regs generalizing s with
  | nil => simp [pushRegs, pushAll, under]
  | cons r rest ih =>
    obtain ⟨memory, rsp, gpr⟩ := ih (s.push r)
    have tail : pushRegs (r :: rest) s = pushRegs rest (s.push r) := rfl
    rw [tail]
    refine ⟨memory, ?_, gpr⟩
    rw [rsp]
    change under (under s.rsp 8) (8 * rest.length) = _
    rw [under_under, length_cons, Nat.mul_add, Nat.add_comm]

theorem pop_regs_eq {regs : List Gpr} (once : regs.Nodup) (words : Pushed s.memory top (regs.map g))
    (stack : s.rsp = under top (8 * regs.length)) :
    (popRegs regs.reverse s).rsp = top ∧
    ∀ r, (popRegs regs.reverse s).gpr r = if r ∈ regs then g r else s.gpr r := by
  -- the register pushed last is popped first
  induction regs using reverseRecOn generalizing s with
  | nil =>
    refine ⟨?_, fun r => by simp [popRegs]⟩
    change s.rsp = top
    rw [stack]
    simp [under]
  | append_singleton first r ih =>
    have fresh : r ∉ first := by
      intro member
      exact (nodup_append.mp once).2.2 r member r (mem_singleton_self r) rfl
    have word : ldq s.memory s.rsp = g r := by
      have last := word_above words stack 0 first.length (by simp; omega) (v := g r) (by simp)
      rwa [show s.rsp + BitVec.ofNat 64 0 = s.rsp by simp] at last
    have words' : Pushed (s.pop r).memory top (first.map g) := by
      intro k v found
      refine words k v ?_
      rw [map_append, List.getElem?_append_left (List.getElem?_eq_some_iff.mp found).1]
      exact found
    have stack' : (s.pop r).rsp = under top (8 * first.length) := by
      rw [pop_rsp, stack, length_append, length_singleton]
      have up := under_add top (n := 8 * (first.length + 1)) (k := 8) (by omega)
      rw [show 8 * (first.length + 1) - 8 = 8 * first.length by omega] at up
      exact up
    have tail : popRegs (first ++ [r]).reverse s = popRegs first.reverse (s.pop r) := by
      simp [popRegs]
    obtain ⟨rsp, gpr⟩ := ih (nodup_append.mp once).1 words' stack'
    rw [tail]
    refine ⟨rsp, ?_⟩
    intro q
    rw [gpr q]
    by_cases same : q = r
    · subst same
      rw [if_neg fresh, pop_same, word, if_pos (by simp)]
    · rw [pop_other s r same]
      simp [same]

theorem pop_regs_rest (s : X86) : (popRegs regs s).memory = s.memory ∧
    (popRegs regs s).down = s.down ∧ (popRegs regs s).core.cpu.eflags = s.core.cpu.eflags := by
  induction regs generalizing s with
  | nil => exact ⟨rfl, rfl, rfl⟩
  | cons r rest ih =>
    obtain ⟨memory, down, eflags⟩ := ih (s.pop r)
    exact ⟨memory.trans (pop_memory s r), down, eflags⟩

theorem popped_reverse : popped = pushed.reverse := by decide

theorem pushed_once : pushed.Nodup := by decide

theorem pushed_all : r ∈ pushed := by
  cases r <;> decide

theorem pushq_all (words : List (BitVec 64)) (sp : BitVec 64) (m : Memory) :
    pushq (fun _ => true) words sp m = (some (under sp (8 * words.length)), pushAll words sp m) := by
  induction words generalizing sp m with
  | nil => simp [pushq, pushAll, under]
  | cons v rest ih =>
    have allowed : wordAllowed (fun _ => true) (sp - 8) = true := by simp [wordAllowed]
    rw [pushq, if_pos allowed, ih, length_cons]
    change (some (under (under sp 8) (8 * rest.length)), _) = _
    rw [under_under, show 8 + 8 * rest.length = 8 * (rest.length + 1) by omega]
    rfl

def frameWords (cpu : Cpu) : List (BitVec 64) := [cpu.rsp, cpu.eflags, cpu.eip, uintrRrv cpu.uintrRr]

@[simp] theorem frame_length : (frameWords cpu).length = 4 := rfl

@[simp] theorem pushed_length : pushed.length = 15 := rfl

theorem deliver_eq (s : X86) :
    (deliver s).memory = pushAll (frameWords s.core.cpu) (adjustedStack s.core.cpu) s.memory ∧
    (deliver s).rsp = under (adjustedStack s.core.cpu) 32 ∧ (deliver s).gpr = s.gpr := by
  have pushes := pushq_all (frameWords s.core.cpu) (adjustedStack s.core.cpu) s.memory
  simp only [frameWords] at pushes
  simp only [deliver, helperRrnzero, pushes]
  exact ⟨rfl, rfl, rfl⟩

/-- The stack of the handler: the frame of the delivery, the pad and the NULL of
    `xsave_area`, the registers, the alignment and the return address. -/
theorem called_eq (s : X86) :
    (called s returnAddress).rsp = under (adjustedStack s.core.cpu) 184 ∧
    (called s returnAddress).memory = pushAll [returnAddress] (under (adjustedStack s.core.cpu) 176)
      (pushAll (pushed.map s.gpr) (under (adjustedStack s.core.cpu) 48)
        (pushAll [0] (under (adjustedStack s.core.cpu) 40)
          (pushAll (frameWords s.core.cpu) (adjustedStack s.core.cpu) s.memory))) := by
  obtain ⟨memory, rsp, gpr⟩ := deliver_eq s
  have entered : (((deliver s).subRsp 8).pushWord 0).rsp = under (adjustedStack s.core.cpu) 48 := by
    change (deliver s).rsp - 8 - 8 = _
    rw [rsp]
    exact (congrArg (· - 8) (under_under _ 32 8)).trans (under_under _ 40 8)
  have null : (((deliver s).subRsp 8).pushWord 0).memory = pushAll [0] (under (adjustedStack s.core.cpu) 40)
      (pushAll (frameWords s.core.cpu) (adjustedStack s.core.cpu) s.memory) := by
    change pushAll [0] ((deliver s).rsp - 8) (deliver s).memory = _
    rw [rsp, memory]
    exact congrArg (pushAll [0] · _) (under_under _ 32 8)
  have saves : (((deliver s).subRsp 8).pushWord 0).gpr = s.gpr := gpr
  obtain ⟨saved, low, _⟩ := push_regs_eq (((deliver s).subRsp 8).pushWord 0)
  rw [entered, null, saves] at saved
  rw [entered, under_under, pushed_length] at low
  have call : called s returnAddress = (((pushRegs pushed (((deliver s).subRsp 8).pushWord 0)).setGpr .rdi
      (pushRegs pushed (((deliver s).subRsp 8).pushWord 0)).rsp).subRsp 8).pushWord returnAddress := rfl
  rw [call]
  generalize pushRegs pushed (((deliver s).subRsp 8).pushWord 0) = u at *
  have room : u.rsp - 8 = under (adjustedStack s.core.cpu) 176 := by
    rw [low]
    exact under_under _ 168 8
  constructor
  · change u.rsp - 8 - 8 = _
    rw [room]
    exact under_under _ 176 8
  · change pushAll [returnAddress] (u.rsp - 8) u.memory = _
    rw [room, saved]

theorem frame_stays (respects : Respects s returning returnAddress) :
    Pushed returning.memory (adjustedStack s.core.cpu) (frameWords s.core.cpu) := by
  have here : Pushed (called s returnAddress).memory (adjustedStack s.core.cpu) (frameWords s.core.cpu) := by
    rw [(called_eq s).2]
    refine pushed_under ?_ _ (by simp) (by simp)
    refine pushed_under ?_ _ (by simp) (by simp)
    refine pushed_under ?_ _ (by simp) (by simp)
    exact push_all_pushed _ _ _ (by simp)
  exact pushed_congr (by simp) here respects.frame

theorem registers_stay (respects : Respects s returning returnAddress) :
    Pushed returning.memory (under (adjustedStack s.core.cpu) 48) (pushed.map s.gpr) := by
  have here : Pushed (called s returnAddress).memory (under (adjustedStack s.core.cpu) 48) (pushed.map s.gpr) := by
    rw [(called_eq s).2, show under (adjustedStack s.core.cpu) 176 =
      under (under (adjustedStack s.core.cpu) 48) 128 from (under_under _ 48 128).symm]
    refine pushed_under ?_ _ (by simp) (by simp)
    exact push_all_pushed _ _ _ (by simp)
  apply pushed_congr (by simp) here
  intro a above inside
  rw [length_map, pushed_length] at inside
  have distance : below (adjustedStack s.core.cpu) a = 48 + below (under (adjustedStack s.core.cpu) 48) a := by
    have := (adjustedStack s.core.cpu).isLt
    have := a.isLt
    simp only [below, under, toNat_sub, toNat_ofNat] at inside ⊢
    omega
  exact respects.registers a (by omega) (by omega)

theorem stub_leave_eq (words : Pushed s.memory (under top 48) (pushed.map g)) (stack : s.rsp = under top 176) :
    (stubLeave s).memory = s.memory ∧ (stubLeave s).rsp = under top 24 ∧ (stubLeave s).gpr = g ∧
    (stubLeave s).cc = .addq (under top 24) 24 ∧ (stubLeave s).down = s.down ∧
    (stubLeave s).core.cpu.eflags = s.core.cpu.eflags := by
  have aligned : (s.addRsp 8).rsp = under (under top 48) (8 * pushed.length) := by
    change s.rsp + 8 = _
    rw [stack, under_under, pushed_length]
    exact under_add top (n := 176) (k := 8) (by omega)
  obtain ⟨rsp, gpr⟩ := pop_regs_eq pushed_once (s := s.addRsp 8) words aligned
  obtain ⟨memory, down, eflags⟩ := pop_regs_rest (s.addRsp 8)
  rw [← popped_reverse] at rsp gpr
  have leave : stubLeave s = (popRegs popped (s.addRsp 8)).addRsp 24 := rfl
  obtain ⟨memory', down', eflags'⟩ := add_rsp_rest s 8
  rw [memory'] at memory
  rw [down'] at down
  rw [eflags'] at eflags
  have final : (popRegs popped (s.addRsp 8)).rsp + 24 = under top 24 := by
    rw [rsp]
    exact under_add top (n := 48) (k := 24) (by omega)
  rw [leave]
  obtain ⟨memory', down', eflags'⟩ := add_rsp_rest (popRegs popped (s.addRsp 8)) 24
  rw [memory', down', eflags', add_rsp_gpr, add_rsp_cc, add_rsp_rsp, final]
  refine ⟨memory, rfl, ?_, rfl, down, eflags⟩
  funext r
  rw [gpr r, if_pos (pushed_all)]

theorem uiret_eq (frame : Pushed s.memory top (frameWords cpu)) (stack : s.rsp = under top 24) :
    uiret s = s.setCpu (switchUif { s.core.cpu with
      eip := cpu.eip
      rsp := cpu.rsp
      eflags := (s.core.cpu.eflags &&& ~~~uiretMask) ||| (cpu.eflags &&& uiretMask) } true) := by
  have rip : ldq s.memory (s.rsp + 0) = cpu.eip := word_above frame stack 0 2 rfl rfl
  have rflags : ldq s.memory (s.rsp + 8) = cpu.eflags := word_above frame stack 8 1 rfl rfl
  have rsp : ldq s.memory (s.rsp + 16) = cpu.rsp := word_above frame stack 16 0 rfl rfl
  have allowed : ∀ a, wordAllowed (fun _ => true) a = true := by simp [wordAllowed]
  rw [show s.rsp + 0 = s.rsp from BitVec.add_zero _] at rip
  simp only [X86.rsp] at rip rflags rsp
  have next : s.core.cpu.rsp + 8 + 8 = s.core.cpu.rsp + 16 := BitVec.add_assoc _ _ _
  simp only [uiret, helperUiret, popq, allowed, if_true, Option.bind_eq_bind, Option.bind_some, next, rip,
    rflags, rsp]

/-- The flags of the interrupted program that are not in `env->eflags`: the condition codes
    and DF. -/
def lazyFlags (s : X86) : BitVec 64 := s.cc.computeAll ||| flagIf (s.down = true) dfMask

/-- The flags that the last `add rsp, 24` of the stub and the handler's DF leave there. -/
def leftFlags (s returning : X86) : BitVec 64 :=
  addFlags (adjustedStack s.core.cpu - 24) 24 ||| flagIf (returning.down = true) dfMask

theorem interrupt_return_eq (respects : Respects s returning returnAddress) :
    (interruptReturn returning).core.cpu.eip = s.core.cpu.eip ∧
    (interruptReturn returning).rsp = s.rsp ∧
    (interruptReturn returning).gpr = s.gpr ∧
    (interruptReturn returning).core.cpu.uintrUif = 1 ∧
    cpuComputeEflags (interruptReturn returning) =
      (returning.core.cpu.eflags &&& ~~~uiretMask) ||| (s.core.cpu.eflags &&& uiretMask) |||
        leftFlags s returning := by
  have stack : returning.ret.rsp = under (adjustedStack s.core.cpu) 176 := by
    rw [ret_rsp, respects.stack, (called_eq s).1]
    exact under_add _ (n := 184) (k := 8) (by omega)
  have registers := registers_stay respects
  have frame := frame_stays respects
  rw [← ret_memory] at registers frame
  obtain ⟨memory, rsp, gpr, cc, down, eflags⟩ := stub_leave_eq registers stack
  rw [← memory] at frame
  rw [interruptReturn]
  generalize stubLeave returning.ret = u at *
  rw [uiret_eq frame rsp]
  refine ⟨rfl, rfl, gpr, rfl, ?_⟩
  change ((u.core.cpu.eflags &&& ~~~uiretMask) ||| (s.core.cpu.eflags &&& uiretMask)) |||
    u.cc.computeAll ||| flagIf (u.down = true) dfMask = _
  rw [eflags, cc, down, BitVec.or_assoc _ _ (flagIf _ _)]
  rfl

theorem masked_merge (frame left mask : BitVec 64) :
    ((handler &&& ~~~mask) ||| (frame &&& mask) ||| left) &&& mask = (frame ||| left) &&& mask := by
  apply eq_of_getLsbD_eq
  intro i bound
  simp only [getLsbD_and, getLsbD_or, getLsbD_not]
  grind

theorem masked_or_iff (first second mask : BitVec 64) :
    (common ||| first) &&& mask = (common ||| second) &&& mask ↔
      first &&& (mask &&& ~~~common) = second &&& (mask &&& ~~~common) := by
  simp only [eq_of_getLsbD_eq_iff, getLsbD_and, getLsbD_or, getLsbD_not]
  constructor
  · intro same i bound
    have := same i bound
    grind
  intro same i bound
  have := same i bound
  grind

/-! Between instructions the emulator keeps the condition codes and DF out of `env->eflags`.
    There equality outside `env->eflags` says that both survive. -/

structure Split (s : X86) : Prop where
  eflags : s.core.cpu.eflags &&& (ccMask ||| dfMask) = 0
  codes : s.cc.computeAll &&& ~~~ccMask = 0

theorem and_within {x : BitVec 64} (within : x &&& ~~~small = 0) (inside : small &&& ~~~big = 0) : x &&& big = x := by
  rw [eq_of_getLsbD_eq_iff] at within inside ⊢
  intro i bound
  have first := within i bound
  have second := inside i bound
  simp only [getLsbD_and, getLsbD_not, bound, decide_true] at first second ⊢
  grind

theorem or_within {x : BitVec 64} (first : x &&& ~~~mask = 0) (second : y &&& ~~~mask = 0) :
    (x ||| y) &&& ~~~mask = 0 := by
  rw [eq_of_getLsbD_eq_iff] at first second ⊢
  intro i bound
  have left := first i bound
  have right := second i bound
  simp only [getLsbD_and, getLsbD_or, getLsbD_not] at left right ⊢
  grind

theorem flag_within (c : Prop) [Decidable c] (within : flag &&& ~~~mask = 0) : flagIf c flag &&& ~~~mask = 0 := by
  unfold flagIf
  split
  · exact within
  · simp

theorem bit_within (x : BitVec 64) (within : flag &&& ~~~mask = 0) : x &&& flag &&& ~~~mask = 0 := by
  rw [BitVec.and_assoc, within]
  exact and_zero

theorem add_flags_within (dst src1 : BitVec 64) : addFlags dst src1 &&& ~~~ccMask = 0 := by
  unfold addFlags parityFlag
  apply or_within _ (bit_within _ (by decide))
  apply or_within _ (bit_within _ (by decide))
  apply or_within _ (flag_within _ (by decide))
  apply or_within _ (bit_within _ (by decide))
  exact or_within (flag_within _ (by decide)) (flag_within _ (by decide))

theorem or_parts {x : BitVec 64} (left : x &&& ~~~first = 0) (right : y &&& ~~~second = 0)
    (apart : first &&& second = 0) : (x ||| y) &&& first = x ∧ (x ||| y) &&& second = y := by
  simp only [eq_of_getLsbD_eq_iff] at left right apart ⊢
  constructor <;>
  · intro i bound
    have one := left i bound
    have two := right i bound
    have three := apart i bound
    simp only [getLsbD_and, getLsbD_or, getLsbD_not] at one two three ⊢
    grind

theorem codes_and_df_iff {codes' : BitVec 64} (within : codes &&& ~~~ccMask = 0)
    (within' : codes' &&& ~~~ccMask = 0) :
    codes ||| flagIf (down = true) dfMask = codes' ||| flagIf (down' = true) dfMask ↔
      codes = codes' ∧ down = down' := by
  constructor
  · intro same
    have df : ∀ c : Bool, flagIf (c = true) dfMask &&& ~~~dfMask = 0 := by decide
    obtain ⟨first, second⟩ := or_parts within (df down) (by decide)
    obtain ⟨first', second'⟩ := or_parts within' (df down') (by decide)
    rw [← same] at first' second'
    refine ⟨first.symm.trans first', ?_⟩
    have flags := second.symm.trans second'
    cases down <;> cases down' <;> first | rfl | exact absurd flags (by decide)
  · rintro ⟨rfl, rfl⟩
    rfl

/-- One user interrupt is transparent for RIP, RSP, the registers and UIF, for every handler
    that respects its stack. For RFLAGS under the mask of UIRET it is transparent exactly if,
    outside the bits of `env->eflags`, the condition codes of the interrupted program are
    those of the stub's last addition and the handler leaves DF as it was. -/
theorem interrupt_transparent_iff {s returning : X86} {returnAddress : BitVec 64}
    (respects : Respects s returning returnAddress) :
    (interruptReturn returning).core.cpu.eip = s.core.cpu.eip ∧
    (interruptReturn returning).rsp = s.rsp ∧
    (interruptReturn returning).gpr = s.gpr ∧
    (interruptReturn returning).core.cpu.uintrUif = 1 ∧
    (cpuComputeEflags (interruptReturn returning) &&& uiretMask = cpuComputeEflags s &&& uiretMask ↔
      leftFlags s returning &&& (uiretMask &&& ~~~s.core.cpu.eflags) =
        lazyFlags s &&& (uiretMask &&& ~~~s.core.cpu.eflags)) := by
  obtain ⟨eip, rsp, gpr, uif, eflags⟩ := interrupt_return_eq respects
  refine ⟨eip, rsp, gpr, uif, ?_⟩
  have before : cpuComputeEflags s = s.core.cpu.eflags ||| lazyFlags s := BitVec.or_assoc ..
  have after : cpuComputeEflags (interruptReturn returning) &&& uiretMask =
      (s.core.cpu.eflags ||| leftFlags s returning) &&& uiretMask := by
    rw [eflags]
    exact masked_merge ..
  rw [before, after]
  exact masked_or_iff ..

theorem push_word_top (s : X86) : ldq (s.pushWord v).memory (s.pushWord v).rsp = v :=
  load_store_same _ v (word_at_spread)

theorem immediate_respects (s : X86) (returnAddress : BitVec 64) :
    Respects s (called s returnAddress) returnAddress where
  stack := rfl
  returns := push_word_top _
  frame _ _ _ := rfl
  registers _ _ _ := rfl

def userCode (flags : BitVec 64) : X86 where
  core := ⟨⟨0x700000, 0x400100, 0x202, 3, 0x2, 0x401000, 0, 1⟩, 0, 0, 0⟩
  gpr _ := 0
  cc := .eflags flags
  down := false
  memory _ := 0

/-- Only PF is set, as after the stub. -/
theorem parity_survives :
    (interruptReturn (called (userCode ccP) 0x401080)).core.cpu.eip = 0x400100 ∧
    cpuComputeEflags (interruptReturn (called (userCode ccP) 0x401080)) &&& uiretMask =
      cpuComputeEflags (userCode ccP) &&& uiretMask := by
  have transparent := interrupt_transparent_iff (immediate_respects (userCode ccP) 0x401080)
  exact ⟨transparent.1, transparent.2.2.2.2.mpr (by decide +kernel)⟩

/-- A program interrupted between a comparison that found its operands equal and the branch. -/
theorem zero_flag_lost :
    cpuComputeEflags (userCode ccZ) &&& uiretMask = ccZ ∧
    cpuComputeEflags (interruptReturn (called (userCode ccZ) 0x401080)) &&& ccZ = 0 := by
  obtain ⟨_, _, _, _, eflags⟩ := interrupt_return_eq (immediate_respects (userCode ccZ) 0x401080)
  rw [eflags]
  exact ⟨by decide +kernel, by decide +kernel⟩

end RtosUintrTransparency
