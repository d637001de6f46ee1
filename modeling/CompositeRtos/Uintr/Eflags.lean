import Mathlib.Algebra.Group.Nat.Defs
import CompositeRtos.Uintr.X86

/-!
RFLAGS under the emulator's lazy condition codes, with every `CC_OP`, and the three
instructions on UIF. The condition codes and the direction flag live outside of
`env->eflags`, which keeps those bits at 0; that is the representation every instruction
relies on. TESTUI loads them through `cpu_load_eflags`, and that function loads the
direction flag as well.
-/
namespace RtosUintrEflags
open RtosUintrMachine RtosUintrPermission
open BitVec (and_or_distrib_left getLsbD_and getLsbD_or setWidth setWidth_and setWidth_or twoPow zero_and)

def ccC : BitVec 32 := 0x1
def ccP : BitVec 32 := 0x4
def ccA : BitVec 32 := 0x10
def ccZ : BitVec 32 := 0x40
def ccS : BitVec 32 := 0x80
def ccO : BitVec 32 := 0x800
def ccMask : BitVec 32 := ccO ||| ccS ||| ccZ ||| ccA ||| ccP ||| ccC
def dfMask : BitVec 32 := 0x400

section ConditionCodes

/-- Operand sizes; the number of bits is `DATA_BITS`. -/
inductive Size where
  | b | w | l | q
  deriving DecidableEq

def Size.bits : Size → Nat
  | .b => 8
  | .w => 16
  | .l => 32
  | .q => 64

inductive CcOp where
  | dynamic
  | eflags
  | mul (size : Size)
  | add (size : Size)
  | adc (size : Size)
  | sub (size : Size)
  | sbb (size : Size)
  | logic (size : Size)
  | inc (size : Size)
  | dec (size : Size)
  | shl (size : Size)
  | sar (size : Size)
  | bmilg (size : Size)
  | adcx
  | adox
  | adcox
  | clr
  | popcnt
  deriving DecidableEq

def flagIf (c : Prop) [Decidable c] (flag : BitVec 32) : BitVec 32 := if c then flag else 0

def parityTable (b : BitVec 8) : BitVec 32 :=
  flagIf (((List.range 8).filter fun i => b.getLsbD i).length % 2 = 0) ccP

def lshift (x : BitVec 64) (n : Int) : BitVec 64 :=
  if n ≥ 0 then x <<< n.toNat else x.sshiftRight (-n).toNat

variable {n : Nat}

def pf (dst : BitVec n) : BitVec 32 := parityTable (dst.setWidth 8)

def zf (dst : BitVec n) : BitVec 32 := flagIf (dst = 0) ccZ

def sf (dst : BitVec n) : BitVec 32 := (lshift (dst.setWidth 64) (8 - n)).setWidth 32 &&& ccS

def signToOf (x : BitVec n) : BitVec 32 := (lshift (x.setWidth 64) (12 - n)).setWidth 32 &&& ccO

def signMask (n : Nat) : BitVec n := 1#n <<< (n - 1)

def computeAllAdd (dst src1 : BitVec n) : BitVec 32 :=
  let src2 := dst - src1
  flagIf (dst < src1) ccC ||| pf dst ||| ((dst ^^^ src1 ^^^ src2).setWidth 32 &&& ccA) ||| zf dst ||| sf dst |||
    signToOf ((src1 ^^^ src2 ^^^ -1) &&& (src1 ^^^ dst))

def computeAllAdc (dst src1 src3 : BitVec n) : BitVec 32 :=
  let src2 := dst - src1 - src3
  flagIf (if src3 ≠ 0 then dst ≤ src1 else dst < src1) ccC ||| pf dst |||
    ((dst ^^^ src1 ^^^ src2).setWidth 32 &&& ccA) ||| zf dst ||| sf dst |||
    signToOf ((src1 ^^^ src2 ^^^ -1) &&& (src1 ^^^ dst))

def computeAllSub (dst src2 : BitVec n) : BitVec 32 :=
  let src1 := dst + src2
  flagIf (src1 < src2) ccC ||| pf dst ||| ((dst ^^^ src1 ^^^ src2).setWidth 32 &&& ccA) ||| zf dst ||| sf dst |||
    signToOf ((src1 ^^^ src2) &&& (src1 ^^^ dst))

def computeAllSbb (dst src2 src3 : BitVec n) : BitVec 32 :=
  let src1 := dst + src2 + src3
  flagIf (if src3 ≠ 0 then src1 ≤ src2 else src1 < src2) ccC ||| pf dst |||
    ((dst ^^^ src1 ^^^ src2).setWidth 32 &&& ccA) ||| zf dst ||| sf dst |||
    signToOf ((src1 ^^^ src2) &&& (src1 ^^^ dst))

def computeAllLogic (dst : BitVec n) : BitVec 32 := pf dst ||| zf dst ||| sf dst

/-- The carry is kept in `src1` as it is. -/
def computeAllInc (dst src1 : BitVec n) : BitVec 32 :=
  src1.setWidth 32 ||| pf dst ||| ((dst ^^^ (dst - 1) ^^^ 1).setWidth 32 &&& ccA) ||| zf dst ||| sf dst |||
    flagIf (dst = signMask n) ccO

def computeAllDec (dst src1 : BitVec n) : BitVec 32 :=
  src1.setWidth 32 ||| pf dst ||| ((dst ^^^ (dst + 1) ^^^ 1).setWidth 32 &&& ccA) ||| zf dst ||| sf dst |||
    flagIf (dst = signMask n - 1) ccO

def computeAllShl (dst src1 : BitVec n) : BitVec 32 :=
  ((src1 >>> (n - 1)).setWidth 32 &&& ccC) ||| pf dst ||| zf dst ||| sf dst ||| signToOf (src1 ^^^ dst)

def computeAllSar (dst src1 : BitVec n) : BitVec 32 :=
  (src1.setWidth 32 &&& 1) ||| pf dst ||| zf dst ||| sf dst ||| signToOf (src1 ^^^ dst)

/-- The second operand is not cut to the operand size. -/
def computeAllMul (dst : BitVec n) (src1 : BitVec 64) : BitVec 32 :=
  flagIf (src1 ≠ 0) ccC ||| pf dst ||| zf dst ||| sf dst ||| flagIf (src1 ≠ 0) ccO

def computeAllBmilg (dst src1 : BitVec n) : BitVec 32 := flagIf (src1 = 0) ccC ||| zf dst ||| sf dst

def computeAllAdcx (dst src1 : BitVec 32) : BitVec 32 := (src1 &&& ~~~ccC) ||| dst * ccC

def computeAllAdox (src1 src2 : BitVec 32) : BitVec 32 := (src1 &&& ~~~ccO) ||| src2 * ccO

def computeAllAdcox (dst src1 src2 : BitVec 32) : BitVec 32 :=
  (src1 &&& ~~~(ccC ||| ccO)) ||| dst * ccC ||| src2 * ccO

def ccComputeAll (dst src1 src2 : BitVec 64) : CcOp → BitVec 32
  | .dynamic => 0
  | .eflags => src1.setWidth 32
  | .mul size => computeAllMul (dst.setWidth size.bits) src1
  | .add size => computeAllAdd (dst.setWidth size.bits) (src1.setWidth size.bits)
  | .adc size => computeAllAdc (dst.setWidth size.bits) (src1.setWidth size.bits) (src2.setWidth size.bits)
  | .sub size => computeAllSub (dst.setWidth size.bits) (src1.setWidth size.bits)
  | .sbb size => computeAllSbb (dst.setWidth size.bits) (src1.setWidth size.bits) (src2.setWidth size.bits)
  | .logic size => computeAllLogic (dst.setWidth size.bits)
  | .inc size => computeAllInc (dst.setWidth size.bits) (src1.setWidth size.bits)
  | .dec size => computeAllDec (dst.setWidth size.bits) (src1.setWidth size.bits)
  | .shl size => computeAllShl (dst.setWidth size.bits) (src1.setWidth size.bits)
  | .sar size => computeAllSar (dst.setWidth size.bits) (src1.setWidth size.bits)
  | .bmilg size => computeAllBmilg (dst.setWidth size.bits) (src1.setWidth size.bits)
  | .adcx => computeAllAdcx (dst.setWidth 32) (src1.setWidth 32)
  | .adox => computeAllAdox (src1.setWidth 32) (src2.setWidth 32)
  | .adcox => computeAllAdcox (dst.setWidth 32) (src1.setWidth 32) (src2.setWidth 32)
  | .clr => ccZ ||| ccP
  | .popcnt => if src1 ≠ 0 then 0 else ccZ

end ConditionCodes

structure Env where
  core : Core
  gpr : RtosX86.Gpr → BitVec 64
  memory : Memory
  ccOp : CcOp
  ccDst : BitVec 64
  ccSrc : BitVec 64
  ccSrc2 : BitVec 64
  df : BitVec 32

namespace Env

def cpuCcComputeAll (env : Env) : BitVec 32 := ccComputeAll env.ccDst env.ccSrc env.ccSrc2 env.ccOp

def cpuComputeEflags (env : Env) : BitVec 32 :=
  env.core.cpu.eflags.setWidth 32 ||| (env.cpuCcComputeAll ||| (env.df &&& dfMask))

def setCpu (env : Env) (cpu : Cpu) : Env := { env with core := { env.core with cpu } }

def cpuLoadEflags (env : Env) (eflags updateMask : BitVec 32) : Env :=
  { env.setCpu { env.core.cpu with
      eflags := (env.core.cpu.eflags &&& (~~~updateMask).signExtend 64) |||
        (eflags &&& updateMask).signExtend 64 ||| 0x2 } with
    ccSrc := (eflags &&& ccMask).signExtend 64
    ccOp := .eflags
    df := 1 - 2 * ((eflags.sshiftRight 10) &&& 1) }

def helperTestui (env : Env) : Env :=
  if uifEnable env.core.cpu then env.cpuLoadEflags ccC ccMask else env.cpuLoadEflags 0 ccMask

def helperStui (env : Env) : Env := env.setCpu (RtosUintrMachine.helperStui env.core.cpu)

def helperClui (env : Env) : Env := env.setCpu (RtosUintrMachine.helperClui env.core.cpu)

end Env

/-- The operands that an operation leaves are flags where they are taken for flags. -/
def CcOp.Operands (dst src1 src2 : BitVec 64) : CcOp → Prop
  | .eflags => src1 &&& ~~~(ccMask.setWidth 64) = 0
  | .inc _ | .dec _ => src1 = 0 ∨ src1 = 1
  | .adcx => src1 &&& ~~~(ccMask.setWidth 64) = 0 ∧ (dst = 0 ∨ dst = 1)
  | .adox => src1 &&& ~~~(ccMask.setWidth 64) = 0 ∧ (src2 = 0 ∨ src2 = 1)
  | .adcox => src1 &&& ~~~(ccMask.setWidth 64) = 0 ∧ (dst = 0 ∨ dst = 1) ∧ (src2 = 0 ∨ src2 = 1)
  | _ => True

/-- `env->eflags` has bit 1, and neither condition codes nor the direction flag. -/
structure Represented (env : Env) : Prop where
  apart : env.core.cpu.eflags &&& (ccMask ||| dfMask).setWidth 64 = 0
  reserved : env.core.cpu.eflags.getLsbD 1 = true
  direction : env.df = 1 ∨ env.df = -1
  operands : env.ccOp.Operands env.ccDst env.ccSrc env.ccSrc2

def Within (flags : BitVec 32) : Prop := flags &&& ~~~ccMask = 0

theorem within_or (left : Within x) (right : Within y) : Within (x ||| y) := by
  unfold Within at *
  rw [BitVec.and_comm, and_or_distrib_left, BitVec.and_comm, left, BitVec.and_comm, right]
  rfl

theorem within_and (x : BitVec 32) (single : Within flag) : Within (x &&& flag) := by
  unfold Within at *
  rw [BitVec.and_assoc, single]
  exact BitVec.and_zero

theorem within_zero : Within 0 := rfl

theorem within_flag [Decidable c] (single : Within flag) : Within (flagIf c flag) := by
  unfold flagIf
  split
  · exact single
  · exact within_zero

theorem within_result : Within (pf dst) ∧ Within (zf dst) ∧ Within (sf dst) :=
  ⟨within_flag rfl, within_flag rfl, within_and _ rfl⟩

theorem within_sign : Within (signToOf x) := within_and _ rfl

theorem within_all (dst : BitVec n) (c : Within carry) (a : Within adjust) (o : Within overflow) :
    Within (carry ||| pf dst ||| adjust ||| zf dst ||| sf dst ||| overflow) := by
  obtain ⟨p, z, s⟩ := within_result
  exact within_or (within_or (within_or (within_or (within_or c p) a) z) s) o

theorem within_shift (dst : BitVec n) (c : Within carry) (o : Within overflow) :
    Within (carry ||| pf dst ||| zf dst ||| sf dst ||| overflow) := by
  obtain ⟨p, z, s⟩ := within_result
  exact within_or (within_or (within_or (within_or c p) z) s) o

theorem within_bit {x : BitVec 64} (bit : x = 0 ∨ x = 1) (h : 0 < n) : Within ((x.setWidth n).setWidth 32) := by
  have small : ((x.setWidth n).setWidth 32) = 0 ∨ ((x.setWidth n).setWidth 32) = 1 := by
    rcases bit with rfl | rfl
    · exact Or.inl (by simp)
    refine Or.inr (BitVec.eq_of_toNat_eq ?_)
    have one : 1 < 2 ^ n := Nat.one_lt_two_pow (by omega)
    simp [Nat.mod_eq_of_lt one]
  rcases small with zero | one
  · rw [zero]
    rfl
  · rw [one]
    rfl

theorem within_low (flags : x &&& ~~~(ccMask.setWidth 64) = 0) : Within (x.setWidth 32) := by
  have low := congrArg (setWidth 32) flags
  rw [setWidth_and] at low
  exact low

theorem within_times {x : BitVec 64} (bit : x = 0 ∨ x = 1) (single : Within flag) :
    Within (x.setWidth 32 * flag) := by
  rcases bit with rfl | rfl
  · rw [show (0 : BitVec 64).setWidth 32 = 0#32 from rfl, BitVec.zero_mul]
    rfl
  · rw [show (1 : BitVec 64).setWidth 32 = 1#32 from rfl, BitVec.one_mul]
    exact single

theorem bits_positive (size : Size) : 0 < size.bits := by
  cases size <;> decide

theorem within_cc {op : CcOp} (operands : op.Operands dst src1 src2) :
    Within (ccComputeAll dst src1 src2 op) := by
  cases op with
  | dynamic => exact within_zero
  | eflags => exact within_low operands
  | mul size => exact within_shift _ (within_flag rfl) (within_flag rfl)
  | add size => exact within_all _ (within_flag rfl) (within_and _ rfl) (within_sign)
  | adc size => exact within_all _ (within_flag rfl) (within_and _ rfl) (within_sign)
  | sub size => exact within_all _ (within_flag rfl) (within_and _ rfl) (within_sign)
  | sbb size => exact within_all _ (within_flag rfl) (within_and _ rfl) (within_sign)
  | logic size =>
    obtain ⟨p, z, s⟩ := within_result
    exact within_or (within_or p z) s
  | inc size =>
    exact within_all _ (within_bit operands (bits_positive size)) (within_and _ rfl) (within_flag rfl)
  | dec size =>
    exact within_all _ (within_bit operands (bits_positive size)) (within_and _ rfl) (within_flag rfl)
  | shl size => exact within_shift _ (within_and _ rfl) (within_sign)
  | sar size => exact within_shift _ (within_and _ rfl) (within_sign)
  | bmilg size =>
    obtain ⟨_, z, s⟩ := within_result
    exact within_or (within_or (within_flag rfl) z) s
  | adcx =>
    obtain ⟨flags, carry⟩ := operands
    have rest := within_and (~~~ccC) (within_low flags)
    rw [BitVec.and_comm] at rest
    exact within_or rest (within_times carry rfl)
  | adox =>
    obtain ⟨flags, overflow⟩ := operands
    have rest := within_and (~~~ccO) (within_low flags)
    rw [BitVec.and_comm] at rest
    exact within_or rest (within_times overflow rfl)
  | adcox =>
    obtain ⟨flags, carry, overflow⟩ := operands
    have rest := within_and (~~~(ccC ||| ccO)) (within_low flags)
    rw [BitVec.and_comm] at rest
    exact within_or (within_or rest (within_times carry rfl)) (within_times overflow rfl)
  | clr => exact within_or rfl rfl
  | popcnt =>
    by_cases some : src1 ≠ 0
    · rw [ccComputeAll, if_pos some]
      exact within_zero
    · rw [ccComputeAll, if_neg some]
      rfl

section Testui

def uifFlag (env : Env) : BitVec 32 := if uifEnable env.core.cpu then ccC else 0

def testuiEflags (env : Env) : BitVec 32 := (env.cpuComputeEflags &&& ~~~ccMask) ||| uifFlag env

theorem uif_flag_cases : uifFlag env = 0 ∨ uifFlag env = ccC := by
  unfold uifFlag
  split
  · exact Or.inr rfl
  · exact Or.inl rfl

theorem testui_load (env : Env) : env.helperTestui = env.cpuLoadEflags (uifFlag env) ccMask := by
  unfold Env.helperTestui uifFlag
  split
  · rfl
  · rfl

theorem and_not_of_apart {x : BitVec w} (apart : x &&& m = 0#w) : x &&& ~~~m = x := by
  apply BitVec.eq_of_getLsbD_eq
  intro k bound
  have bit := congrArg (fun y => y.getLsbD k) apart
  simp only [getLsbD_and, BitVec.getLsbD_zero] at bit
  rw [getLsbD_and, BitVec.getLsbD_not]
  cases here : x.getLsbD k with
  | false => rfl
  | true =>
    rw [here, Bool.true_and] at bit
    rw [bit, decide_eq_true bound]
    rfl

theorem or_bit {x : BitVec w} (set : x.getLsbD i = true) : x ||| twoPow w i = x := by
  apply BitVec.eq_of_getLsbD_eq
  intro k bound
  rw [getLsbD_or, BitVec.getLsbD_twoPow]
  by_cases here : k = i
  · subst here
    simp [set]
  · simp [Ne.symm here]

variable {env : Env} (rep : Represented env)
include rep

theorem eflags_apart : env.core.cpu.eflags.setWidth 32 &&& (ccMask ||| dfMask) = 0 := by
  have low := congrArg (setWidth 32) rep.apart
  rw [setWidth_and] at low
  exact low

theorem eflags_no_cc : env.core.cpu.eflags.setWidth 32 &&& ~~~ccMask = env.core.cpu.eflags.setWidth 32 := by
  apply and_not_of_apart
  have apart := congrArg (fun x => x &&& ccMask) (eflags_apart rep)
  simp only [BitVec.and_assoc] at apart
  rw [show (ccMask ||| dfMask) &&& ccMask = ccMask from rfl] at apart
  rw [apart]
  exact zero_and

theorem eflags_no_df : (env.core.cpu.eflags.setWidth 32).getLsbD 10 = false := by
  have bit := congrArg (fun x => x.getLsbD 10) (eflags_apart rep)
  simp only [getLsbD_and] at bit
  rw [show (ccMask ||| dfMask).getLsbD 10 = true from rfl, Bool.and_true] at bit
  exact bit

theorem flags_after_testui :
    env.helperTestui.cpuComputeEflags = env.core.cpu.eflags.setWidth 32 ||| uifFlag env := by
  have reserved : (env.core.cpu.eflags.setWidth 32).getLsbD 1 = true := by
    rw [BitVec.getLsbD_setWidth, rep.reserved]
    rfl
  have loaded : env.helperTestui.cpuComputeEflags =
      (env.core.cpu.eflags.setWidth 32 &&& ~~~ccMask ||| uifFlag env ||| 2) ||| uifFlag env := by
    have eflags : ((env.core.cpu.eflags &&& (~~~ccMask).signExtend 64) ||| (uifFlag env &&& ccMask).signExtend 64 |||
        0x2).setWidth 32 = env.core.cpu.eflags.setWidth 32 &&& ~~~ccMask ||| uifFlag env ||| 2 := by
      rw [setWidth_or, setWidth_or, setWidth_and]
      rcases uif_flag_cases with off | on
      · rw [off]
        rfl
      · rw [on]
        rfl
    rw [testui_load, Env.cpuComputeEflags]
    refine congrArg₂ (· ||| ·) eflags ?_
    simp only [Env.cpuCcComputeAll, Env.cpuLoadEflags, ccComputeAll]
    rcases uif_flag_cases with off | on
    · rw [off]
      rfl
    · rw [on]
      rfl
  rw [loaded, eflags_no_cc rep]
  calc env.core.cpu.eflags.setWidth 32 ||| uifFlag env ||| 2 ||| uifFlag env
      = (env.core.cpu.eflags.setWidth 32 ||| 2) ||| (uifFlag env ||| uifFlag env) := by ac_rfl
    _ = env.core.cpu.eflags.setWidth 32 ||| uifFlag env := by
      rw [show (2 : BitVec 32) = twoPow 32 1 from rfl, or_bit reserved, BitVec.or_self]

theorem intended_after_testui :
    testuiEflags env = env.core.cpu.eflags.setWidth 32 ||| (env.df &&& dfMask) ||| uifFlag env := by
  have codes : env.cpuCcComputeAll &&& ~~~ccMask = 0 := within_cc rep.operands
  have direction : (env.df &&& dfMask) &&& ~~~ccMask = env.df &&& dfMask := by
    rw [BitVec.and_assoc]
    rfl
  rw [testuiEflags, Env.cpuComputeEflags, BitVec.and_comm, and_or_distrib_left, and_or_distrib_left,
    BitVec.and_comm, eflags_no_cc rep, BitVec.and_comm (~~~ccMask) env.cpuCcComputeAll, codes,
    BitVec.and_comm (~~~ccMask), direction]
  exact congrArg (fun x => _ ||| x ||| _) BitVec.zero_or

theorem direction_flag_iff : env.cpuComputeEflags.getLsbD 10 = false ↔ env.df = 1 := by
  have codes : env.cpuCcComputeAll.getLsbD 10 = false := by
    have bit := congrArg (fun x => x.getLsbD 10) (within_cc rep.operands)
    simp only [getLsbD_and] at bit
    rw [show (~~~ccMask).getLsbD 10 = true from rfl, Bool.and_true] at bit
    exact bit
  rw [Env.cpuComputeEflags, getLsbD_or, getLsbD_or, eflags_no_df rep, codes]
  rcases rep.direction with up | down
  · rw [up]
    decide
  · rw [down]
    decide

theorem testui_eflags_iff : env.helperTestui.cpuComputeEflags = testuiEflags env ↔
    env.cpuComputeEflags.getLsbD 10 = false := by
  rw [flags_after_testui rep, intended_after_testui rep, direction_flag_iff rep]
  rcases rep.direction with up | down
  · rw [up]
    simp [dfMask]
  have other : ¬ env.df = 1 := by
    rw [down]
    decide
  refine ⟨fun same => ?_, fun up => absurd up other⟩
  -- bit 10 of the two sides
  have bit := congrArg (fun x => x.getLsbD 10) same
  have uif : (uifFlag env).getLsbD 10 = false := by
    rcases uif_flag_cases with off | on
    · rw [off]
      rfl
    · rw [on]
      rfl
  simp only [getLsbD_or, eflags_no_df rep, uif, down] at bit
  cases bit

/-- TESTUI changes RFLAGS as it should if and only if the direction flag was clear, and
    nothing but the flags; STUI and CLUI change nothing but UIF. -/
theorem uif_instructions_iff :
    (env.helperTestui.cpuComputeEflags = testuiEflags env ↔ env.cpuComputeEflags.getLsbD 10 = false) ∧
      env.helperTestui.core =
        { env.core with cpu := { env.core.cpu with eflags := env.helperTestui.core.cpu.eflags } } ∧
      env.helperTestui.gpr = env.gpr ∧ env.helperTestui.memory = env.memory ∧
      env.helperStui = env.setCpu { env.core.cpu with uintrUif := 1 } ∧
      env.helperClui = env.setCpu { env.core.cpu with uintrUif := 0 } := by
  refine ⟨testui_eflags_iff rep, ?_, ?_, ?_, rfl, rfl⟩
  · rw [testui_load]
    rfl
  · rw [testui_load]
    rfl
  · rw [testui_load]
    rfl

end Testui

def afterSub (uif : BitVec 64) (df : BitVec 32) : Env where
  core := ⟨⟨0x8000, 0x1000, 0x202, 0, 0, 0, 0, uif⟩, 0, 0, 0⟩
  gpr := fun _ => 0
  memory := fun _ => 0
  ccOp := .sub .q
  ccDst := 0xfffffffffffffff8
  ccSrc := 0x10
  ccSrc2 := 0
  df := df

theorem testui_with_carry_and_sign :
    Represented (afterSub 1 1) ∧ (afterSub 1 1).helperTestui.cpuComputeEflags = testuiEflags (afterSub 1 1) := by
  have rep : Represented (afterSub 1 1) := ⟨by decide, by decide, Or.inl rfl, trivial⟩
  exact ⟨rep, (uif_instructions_iff rep).1.mpr (by decide +kernel)⟩

/-- With the direction flag set, TESTUI clears it. -/
theorem testui_clears_direction :
    Represented (afterSub 1 (-1)) ∧ (afterSub 1 (-1)).cpuComputeEflags.getLsbD 10 = true ∧
      (afterSub 1 (-1)).helperTestui.cpuComputeEflags.getLsbD 10 = false :=
  ⟨⟨by decide, by decide, Or.inr rfl, trivial⟩, by decide +kernel, by decide +kernel⟩

section Afterwards

variable {env : Env}

theorem carry_in_eflags (on : uifEnable env.core.cpu = true) : env.helperTestui.core.cpu.eflags.getLsbD 0 = true := by
  have uif : uifFlag env = ccC := if_pos on
  rw [testui_load, uif]
  simp only [Env.cpuLoadEflags, Env.setCpu, getLsbD_or]
  rw [show ((ccC &&& ccMask).signExtend 64).getLsbD 0 = true from rfl, Bool.or_true, Bool.true_or]

theorem uif_flag_off (off : uifEnable env.core.cpu = false) : uifFlag env = 0 := by
  rw [uifFlag, off]
  rfl

theorem eflags_kept (rep : Represented env) (off : uifEnable env.core.cpu = false) :
    env.helperTestui.core.cpu.eflags = env.core.cpu.eflags := by
  have apart : env.core.cpu.eflags &&& ccMask.setWidth 64 = 0 := by
    have whole := congrArg (fun x => x &&& ccMask.setWidth 64) rep.apart
    simp only [BitVec.and_assoc] at whole
    rw [show (ccMask ||| dfMask).setWidth 64 &&& ccMask.setWidth 64 = ccMask.setWidth 64 from rfl] at whole
    rw [whole]
    exact zero_and
  rw [testui_load, uif_flag_off off]
  calc (env.core.cpu.eflags &&& ~~~(ccMask.setWidth 64)) ||| 0#64 ||| twoPow 64 1
      = env.core.cpu.eflags ||| twoPow 64 1 := by rw [and_not_of_apart apart, BitVec.or_zero]
    _ = env.core.cpu.eflags := or_bit rep.reserved

theorem testui_represented_iff (rep : Represented env) :
    Represented env.helperTestui ↔ uifEnable env.core.cpu = false := by
  constructor
  · intro after
    cases on : uifEnable env.core.cpu with
    | false => rfl
    | true =>
      have bit := congrArg (fun x => x.getLsbD 0) after.apart
      simp only [getLsbD_and, carry_in_eflags on] at bit
      cases bit
  · intro off
    have same := eflags_kept rep off
    refine ⟨?_, ?_, ?_, ?_⟩
    · rw [same]
      exact rep.apart
    · rw [same]
      exact rep.reserved
    · rw [testui_load, uif_flag_off off]
      exact Or.inl rfl
    · rw [testui_load, uif_flag_off off]
      exact show ((0 &&& ccMask).signExtend 64) &&& ~~~(ccMask.setWidth 64) = 0#64 by decide

theorem carry_left_in_eflags : ¬ Represented (afterSub 1 1).helperTestui := by
  have rep : Represented (afterSub 1 1) := ⟨by decide, by decide, Or.inl rfl, trivial⟩
  rw [testui_represented_iff rep]
  decide

end Afterwards

structure Shows (env : Env) (s : RtosX86.X86) : Prop where
  core : env.core = s.core
  gpr : env.gpr = s.gpr
  memory : env.memory = s.memory
  codes : env.cpuCcComputeAll = s.cc.computeAll.setWidth 32
  direction : env.df = if s.down then -1 else 1

theorem shows_eflags (shows : Shows env s) : env.cpuComputeEflags = (RtosX86.cpuComputeEflags s).setWidth 32 := by
  rw [Env.cpuComputeEflags, RtosX86.cpuComputeEflags, setWidth_or, setWidth_or, shows.codes, shows.core,
    shows.direction, BitVec.or_assoc]
  cases s.down with
  | false => rfl
  | true => rfl

theorem testui_kept (shows : Shows env s) : Shows env.helperTestui s.testui := by
  rw [testui_load, RtosX86.X86.testui, uifFlag, shows.core]
  cases uifEnable s.core.cpu <;>
  · refine ⟨?_, shows.gpr, shows.memory, rfl, rfl⟩
    simp only [Env.cpuLoadEflags, Env.setCpu, shows.core]
    rfl

end RtosUintrEflags
