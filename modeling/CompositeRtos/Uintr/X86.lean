import Mathlib.Logic.Function.Basic
import CompositeRtos.Lib.WordStack
import CompositeRtos.Uintr.Permission

/-!
The instructions that the kernel's context switch and the user's handler stub are written
in, as the emulator executes them: one function on the CPU state for each. The condition
codes are lazy, as in the emulator: the last flag-setting instruction leaves its operands,
and `env->eflags` has the other bits. No access faults here.
-/
namespace RtosX86
open RtosByteMemory RtosWordStack RtosUintrMachine RtosUintrPermission BitVec

/-- The general-purpose registers but RSP, which is part of `Cpu`. -/
inductive Gpr where
  | rax | rbx | rcx | rdx | rsi | rdi | rbp | r8 | r9 | r10 | r11 | r12 | r13 | r14 | r15
  deriving DecidableEq, Repr

def ccC : BitVec 64 := 0x1
def ccP : BitVec 64 := 0x4
def ccA : BitVec 64 := 0x10
def ccZ : BitVec 64 := 0x40
def ccS : BitVec 64 := 0x80
def ccO : BitVec 64 := 0x800
def ccMask : BitVec 64 := ccO ||| ccS ||| ccZ ||| ccA ||| ccP ||| ccC
def dfMask : BitVec 64 := 0x400

/-- `CC_OP` with the operands it needs, for the instructions below. -/
inductive Cc where
  | eflags (src : BitVec 64)
  | addq (dst src1 : BitVec 64)
  | subq (dst src2 : BitVec 64)
  | logicb (dst : BitVec 8)
  deriving DecidableEq

def flagIf (c : Prop) [Decidable c] (flag : BitVec 64) : BitVec 64 := if c then flag else 0

def parityFlag (b : BitVec 8) : BitVec 64 :=
  flagIf (((List.range 8).filter fun i => b.getLsbD i).length % 2 = 0) ccP

def addFlags (dst src1 : BitVec 64) : BitVec 64 :=
  let src2 := dst - src1
  flagIf (dst < src1) ccC ||| parityFlag (dst.setWidth 8) ||| ((dst ^^^ src1 ^^^ src2) &&& ccA) |||
    flagIf (dst = 0) ccZ ||| ((dst.sshiftRight 56) &&& ccS) |||
    ((((src1 ^^^ src2 ^^^ -1) &&& (src1 ^^^ dst)).sshiftRight 52) &&& ccO)

def subFlags (dst src2 : BitVec 64) : BitVec 64 :=
  let src1 := dst + src2
  flagIf (src1 < src2) ccC ||| parityFlag (dst.setWidth 8) ||| ((dst ^^^ src1 ^^^ src2) &&& ccA) |||
    flagIf (dst = 0) ccZ ||| ((dst.sshiftRight 56) &&& ccS) |||
    ((((src1 ^^^ src2) &&& (src1 ^^^ dst)).sshiftRight 52) &&& ccO)

def logicFlags (dst : BitVec 8) : BitVec 64 :=
  parityFlag dst ||| flagIf (dst = 0) ccZ ||| (dst.setWidth 64 &&& ccS)

def Cc.computeAll : Cc → BitVec 64
  | .eflags src => src
  | .addq dst src1 => addFlags dst src1
  | .subq dst src2 => subFlags dst src2
  | .logicb dst => logicFlags dst

/-- `down` says that `env->df` is -1. -/
structure X86 where
  core : Core
  gpr : Gpr → BitVec 64
  cc : Cc
  down : Bool
  memory : Memory

def cpuComputeEflags (s : X86) : BitVec 64 :=
  s.core.cpu.eflags ||| s.cc.computeAll ||| flagIf (s.down = true) dfMask

def ldl (m : Memory) (a : BitVec 64) : BitVec 32 := loadHalf m (wordAt a)

def stl (m : Memory) (a : BitVec 64) (v : BitVec 32) : Memory := storeHalf m (wordAt a) v

def readMsr (core : Core) (index : BitVec 32) : BitVec 64 :=
  if index = msrUintrRr then core.cpu.uintrRr
  else if index = msrUintrHandler then core.cpu.uintrHandler
  else if index = msrUintrStackadjust then core.cpu.uintrStackadjust
  else if index = msrUintrMisc then core.uintrMisc
  else if index = msrUintrPd then core.uintrPd
  else if index = msrUintrTt then core.uintrTt
  else 0

namespace X86

def rsp (s : X86) : BitVec 64 := s.core.cpu.rsp

def setRsp (s : X86) (v : BitVec 64) : X86 :=
  { s with core := { s.core with cpu := { s.core.cpu with rsp := v } } }

def setEip (s : X86) (v : BitVec 64) : X86 :=
  { s with core := { s.core with cpu := { s.core.cpu with eip := v } } }

def setGpr (s : X86) (r : Gpr) (v : BitVec 64) : X86 := { s with gpr := Function.update s.gpr r v }

def setCpu (s : X86) (cpu : Cpu) : X86 := { s with core := { s.core with cpu } }

def pushWord (s : X86) (v : BitVec 64) : X86 :=
  { s.setRsp (s.rsp - 8) with memory := stq s.memory (s.rsp - 8) v }

def push (s : X86) (r : Gpr) : X86 := s.pushWord (s.gpr r)

def pop (s : X86) (r : Gpr) : X86 := (s.setGpr r (ldq s.memory s.rsp)).setRsp (s.rsp + 8)

def addRsp (s : X86) (n : BitVec 64) : X86 := { s.setRsp (s.rsp + n) with cc := .addq (s.rsp + n) n }

def subRsp (s : X86) (n : BitVec 64) : X86 := { s.setRsp (s.rsp - n) with cc := .subq (s.rsp - n) n }

/-- `mov r32, imm32`; the upper half becomes 0. -/
def movImm (s : X86) (r : Gpr) (v : BitVec 32) : X86 := s.setGpr r (v.setWidth 64)

def store32 (s : X86) (off : BitVec 64) (r : Gpr) : X86 :=
  { s with memory := stl s.memory (s.rsp + off) ((s.gpr r).setWidth 32) }

def load32 (s : X86) (r : Gpr) (off : BitVec 64) : X86 :=
  s.setGpr r ((ldl s.memory (s.rsp + off)).setWidth 64)

def rdmsr (s : X86) : X86 :=
  let val := readMsr s.core ((s.gpr .rcx).setWidth 32)
  (s.setGpr .rax ((val.setWidth 32).setWidth 64)).setGpr .rdx (((val >>> 32).setWidth 32).setWidth 64)

def wrmsr (s : X86) : X86 :=
  let val := (s.gpr .rdx).setWidth 32 ++ (s.gpr .rax).setWidth 32
  let r := helperWrmsr (fun _ => true) s.core s.memory ((s.gpr .rcx).setWidth 32) val
  { s with core := r.core, memory := r.memory }

def cpuLoadEflags (s : X86) (eflags updateMask : BitVec 64) : X86 :=
  { s.setCpu { s.core.cpu with
      eflags := (s.core.cpu.eflags &&& ~~~updateMask) ||| (eflags &&& updateMask) ||| 0x2 } with
    cc := .eflags (eflags &&& ccMask)
    down := eflags.getLsbD 10 }

def testui (s : X86) : X86 := s.cpuLoadEflags (if uifEnable s.core.cpu then ccC else 0) ccMask

def setcAl (s : X86) : X86 :=
  s.setGpr .rax ((s.gpr .rax &&& ~~~0xff) ||| (s.cc.computeAll &&& ccC))

def testAl (s : X86) : X86 := { s with cc := .logicb ((s.gpr .rax).setWidth 8) }

def zero (s : X86) : Bool := s.cc.computeAll &&& ccZ != 0

def stui (s : X86) : X86 := s.setCpu (helperStui s.core.cpu)

def clui (s : X86) : X86 := s.setCpu (helperClui s.core.cpu)

def ret (s : X86) : X86 := (s.setEip (ldq s.memory s.rsp)).setRsp (s.rsp + 8)

end X86

section Instructions

variable (s : X86) (r : Gpr)

theorem pop_memory : (s.pop r).memory = s.memory := rfl

theorem pop_rsp : (s.pop r).rsp = s.rsp + 8 := rfl

theorem pop_same : (s.pop r).gpr r = ldq s.memory s.rsp := Function.update_self ..

theorem pop_other (other : q ≠ r) : (s.pop r).gpr q = s.gpr q := Function.update_of_ne other ..

theorem add_rsp_rsp (n : BitVec 64) : (s.addRsp n).rsp = s.rsp + n := rfl

theorem add_rsp_gpr (n : BitVec 64) : (s.addRsp n).gpr = s.gpr := rfl

theorem add_rsp_cc (n : BitVec 64) : (s.addRsp n).cc = .addq (s.rsp + n) n := rfl

theorem add_rsp_rest (n : BitVec 64) : (s.addRsp n).memory = s.memory ∧ (s.addRsp n).down = s.down ∧
    (s.addRsp n).core.cpu.eflags = s.core.cpu.eflags := ⟨rfl, rfl, rfl⟩

theorem ret_memory : s.ret.memory = s.memory := rfl

theorem ret_rsp : s.ret.rsp = s.rsp + 8 := rfl

theorem ret_eip : s.ret.core.cpu.eip = ldq s.memory s.rsp := rfl

theorem ret_gpr : s.ret.gpr r = s.gpr r := rfl

end Instructions

/-! Words and their halves in memory. -/

theorem word_above (frame : Pushed m top words) (stack : sp = under top n) (off k : Nat)
    (place : off + (8 * k + 8) = n) (word : words[k]? = some v) : ldq m (sp + BitVec.ofNat 64 off) = v := by
  rw [stack, under_add top (by omega), show n - off = 8 * k + 8 by omega]
  exact frame k v word

theorem upper_word : wordAt (a + 4) = upperCells (wordAt a) := by
  funext k
  apply eq_of_toNat_eq
  have four : (4 : BitVec 64).toNat = 4 := rfl
  simp only [wordAt, upperCells, toNat_add, four, toNat_ofNat]
  omega

theorem stl_pair : stl (stl m a lo) (a + 4) hi = stq m a (hi ++ lo) := by
  rw [stl, stl, upper_word]
  exact store_halves m (word_at_spread) lo hi

theorem ldl_pair : ldl m (a + 4) ++ ldl m a = ldq m a := by
  rw [ldl, ldl, upper_word]
  exact load_halves

theorem word_halves (v : BitVec 64) : (v >>> 32).setWidth 32 ++ v.setWidth 32 = v := by
  apply eq_of_getLsbD_eq
  intro i bound
  simp only [getLsbD_append, getLsbD_setWidth, getLsbD_ushiftRight]
  grind

end RtosX86
