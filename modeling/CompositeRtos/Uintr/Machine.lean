import CompositeRtos.Lib.ByteMemory
import CompositeRtos.Lib.Transition

/-!
User interrupts as the emulator implements them: `helper_senduipi` posts into a user
posted-interrupt descriptor (UPID), the `UINTR_UINV` branch of `do_interrupt64` moves the
posted requests into `uintr_rr` and `helper_rrnzero` enters the handler. One receiver and
its UPID are followed; every other part of the system is free to act between the steps.
-/
namespace RtosUintrMachine
open RtosByteMemory RtosTransition BitVec

structure Upid where
  status : BitVec 8
  reserved1 : BitVec 8
  nv : BitVec 8
  reserved2 : BitVec 8
  ndst : BitVec 32
  puir : BitVec 64
  deriving DecidableEq

structure UittEntry where
  valid : BitVec 8
  userVec : BitVec 8
  targetUpidAddr : BitVec 64
  deriving DecidableEq

structure Ipi where
  dest : BitVec 8
  nv : BitVec 8
  deriving DecidableEq

def upidOn : BitVec 8 := 1
def uintrUinv : BitVec 8 := 0xec
def tfMask : BitVec 64 := 0x100
def rfMask : BitVec 64 := 0x10000
def uiretMask : BitVec 64 := 0x254dd5

/-- The C expression `1 << n`: an `int` shift whose count the processor takes modulo 32,
    sign-extended where it meets a 64-bit operand. -/
def intOneShifted (n : Nat) : BitVec 64 :=
  ((1 : BitVec 32) <<< (n % 32)).signExtend 64

/-- `helper_senduipi` from the fetched UITT entry on: the updated UPID and the IPI sent. -/
def helperSenduipi (uitte : UittEntry) (upid : Upid) : Upid × Option Ipi :=
  let upid : Upid := { upid with puir := upid.puir ||| intOneShifted uitte.userVec.toNat }
  if upid.status &&& (0x11 : BitVec 8) = 0 then
    let upid : Upid := { upid with status := upid.status ||| upidOn }
    (upid, some ⟨(upid.ndst >>> 8).setWidth 8, upid.nv⟩)
  else
    (upid, none)

/-- `apic_get_delivery_bitmask` in physical mode, for one local APIC. -/
def apicReceives (apicId : BitVec 8) (ipi : Ipi) : Bool :=
  ipi.dest == 0xff || ipi.dest == apicId

/-- The part of `CPUX86State` that user-interrupt delivery reads or writes. -/
structure Cpu where
  rsp : BitVec 64
  eip : BitVec 64
  eflags : BitVec 64
  cpl : BitVec 2
  uintrRr : BitVec 64
  uintrHandler : BitVec 64
  uintrStackadjust : BitVec 64
  uintrUif : BitVec 64
  deriving DecidableEq

abbrev Memory := BitVec 64 → BitVec 8

/-- Which bytes an access may touch without a page fault. -/
abbrev Access := BitVec 64 → Bool

def wordAt (a : BitVec 64) (k : Nat) : BitVec 64 := a + BitVec.ofNat 64 k

def ldq (m : Memory) (a : BitVec 64) : BitVec 64 := loadWord m (wordAt a)

def stq (m : Memory) (a v : BitVec 64) : Memory := storeWord m (wordAt a) v

def wordAllowed (access : Access) (a : BitVec 64) : Bool :=
  (List.range 8).all fun k => access (wordAt a k)

def switchUif (cpu : Cpu) (on : Bool) : Cpu :=
  { cpu with uintrUif := if on then 1 else 0 }

def uifEnable (cpu : Cpu) : Bool := cpu.uintrUif != 0

def helperStui (cpu : Cpu) : Cpu := switchUif cpu true

def helperClui (cpu : Cpu) : Cpu := switchUif cpu false

/-- A sequence of `PUSHQ`s. The memory keeps the words pushed before a fault. -/
def pushq (writable : Access) : List (BitVec 64) → BitVec 64 → Memory → Option (BitVec 64) × Memory
  | [], sp, m => (some sp, m)
  | v :: rest, sp, m =>
    if wordAllowed writable (sp - 8) then
      pushq writable rest (sp - 8) (stq m (sp - 8) v)
    else
      (none, m)

def popq (readable : Access) (m : Memory) (sp : BitVec 64) : Option (BitVec 64 × BitVec 64) :=
  if wordAllowed readable sp then some (ldq m sp, sp + 8) else none

def uintrRrv (rr : BitVec 64) : BitVec 64 := 63 - rr.clz

def adjustedStack (cpu : Cpu) : BitVec 64 :=
  (if cpu.uintrStackadjust &&& 1 = 0 then cpu.rsp - cpu.uintrStackadjust else cpu.uintrStackadjust)
    &&& ~~~0xf

structure Entry where
  cpu : Cpu
  memory : Memory
  entered : Bool

/-- `helper_rrnzero`. A fault in one of the pushes leaves through `longjmp`, with `RSP`
    already moved and nothing after the push done. -/
def helperRrnzero (writable : Access) (cpu : Cpu) (m : Memory) : Entry :=
  let temprsp := cpu.rsp
  let cpu := { cpu with rsp := adjustedStack cpu }
  let rrv := uintrRrv cpu.uintrRr
  match pushq writable [temprsp, cpu.eflags, cpu.eip, rrv] cpu.rsp m with
  | (none, m) => ⟨cpu, m, false⟩
  | (some esp, m) =>
    let cpu := { cpu with
      uintrRr := cpu.uintrRr &&& ~~~(intOneShifted rrv.toNat)
      rsp := esp
      eflags := cpu.eflags &&& ~~~(tfMask ||| rfMask)
      eip := cpu.uintrHandler }
    ⟨switchUif cpu false, m, true⟩

/-- `helper_uiret`; `none` when a pop faults, which changes nothing. -/
def helperUiret (readable : Access) (cpu : Cpu) (m : Memory) : Option Cpu := do
  let (temprip, esp) ← popq readable m cpu.rsp
  let (temprflags, esp) ← popq readable m esp
  let (temprsp, _) ← popq readable m esp
  some (switchUif { cpu with
    eip := temprip
    rsp := temprsp
    eflags := (cpu.eflags &&& ~~~uiretMask) ||| (temprflags &&& uiretMask) } true)

structure Accepted where
  cpu : Cpu
  upid : Upid
  memory : Memory
  entered : Bool

def doInterrupt64 (writable : Access) (cpu : Cpu) (upid : Upid) (m : Memory) : Accepted :=
  if !uifEnable cpu then ⟨cpu, upid, m, false⟩
  else if cpu.cpl ≠ 3 then ⟨cpu, upid, m, false⟩
  else
    let upid : Upid := { upid with status := upid.status &&& ~~~upidOn }
    if upid.puir ≠ 0 then
      let entry := helperRrnzero writable { cpu with uintrRr := upid.puir } m
      ⟨entry.cpu, { upid with puir := 0 }, entry.memory, entry.entered⟩
    else
      ⟨cpu, upid, m, false⟩

inductive Event where
  | posted (vector : Nat)
  | entered (vector : Nat)
  deriving DecidableEq

/-- The receiver, its UPID, whether vector 0xec waits in its local APIC, and the history
    of postings and handler entries. -/
structure World where
  cpu : Cpu
  upid : Upid
  memory : Memory
  pending : Bool
  history : List Event

/-- What instructions other than the user-interrupt ones can change between two steps. -/
structure Context where
  cpl : BitVec 2
  rsp : BitVec 64
  eip : BitVec 64
  eflags : BitVec 64
  handler : BitVec 64
  stackadjust : BitVec 64
  memory : Memory

inductive Action where
  | senduipi (uitte : UittEntry)
  | accept (writable : Access)
  | stui
  | clui
  | uiret (readable : Access)
  | changeCpl (after : Context)

def worldSenduipi (apicId : BitVec 8) (s : World) (uitte : UittEntry) : World :=
  let (upid, ipi) := helperSenduipi uitte s.upid
  let arrived := ipi.any fun ipi => ipi.nv == uintrUinv && apicReceives apicId ipi
  { s with
    upid
    pending := s.pending || arrived
    history := s.history ++ [.posted uitte.userVec.toNat] }

/-- The vector in the history is the one the handler finds on top of its stack. -/
def worldAccept (s : World) (writable : Access) : World :=
  let r := doInterrupt64 writable s.cpu s.upid s.memory
  { cpu := r.cpu
    upid := r.upid
    memory := r.memory
    pending := false
    history := if r.entered then s.history ++ [.entered (ldq r.memory r.cpu.rsp).toNat] else s.history }

def worldChangeCpl (s : World) (c : Context) : World :=
  { s with
    cpu := { s.cpu with
      cpl := c.cpl, rsp := c.rsp, eip := c.eip, eflags := c.eflags
      uintrHandler := c.handler, uintrStackadjust := c.stackadjust }
    memory := c.memory }

def act (apicId : BitVec 8) (s : World) : Action → Option World
  | .senduipi uitte => if uitte.userVec < 64 then some (worldSenduipi apicId s uitte) else none
  | .accept writable => if s.pending then some (worldAccept s writable) else none
  | .stui => some { s with cpu := helperStui s.cpu }
  | .clui => some { s with cpu := helperClui s.cpu }
  | .uiret readable =>
    match helperUiret readable s.cpu s.memory with
    | some cpu => some { s with cpu }
    | none => some s
  | .changeCpl c => some (worldChangeCpl s c)

def receiver (apicId : BitVec 8) (start : World → Prop) : Machine World Action where
  start
  next s a t := act apicId s a = some t

def heldVectors (s : World) : BitVec 64 := s.upid.puir ||| s.cpu.uintrRr

def interruptible (cpu : Cpu) : Bool := uifEnable cpu && cpu.cpl == 3

theorem word_at_spread : Spread (wordAt a) := by
  intro j k hj hk same
  unfold wordAt at same
  have lanes := congrArg BitVec.toNat ((BitVec.add_right_inj a).mp same)
  simp only [toNat_ofNat] at lanes
  omega

theorem pushed_last_on_top (words : List (BitVec 64)) (last : BitVec 64)
    (pushed : pushq writable (words ++ [last]) sp m = (some esp, m')) : ldq m' esp = last := by
  induction words generalizing sp m with
  | nil =>
    simp only [List.nil_append, pushq] at pushed
    split at pushed
    · cases pushed
      exact load_store_same m last (word_at_spread)
    · cases pushed
  | cons v rest ih =>
    simp only [List.cons_append, pushq] at pushed
    split at pushed
    · exact ih pushed
    · cases pushed

theorem top_vector_set (some_bit : rr ≠ 0) : (uintrRrv rr).toNat < 64 ∧ rr.getLsbD (uintrRrv rr).toNat = true := by
  have small : rr.clz.toNat < 64 := by
    have lt := clz_lt_iff_ne_zero.mpr some_bit
    simpa [lt_def] using lt
  have value : (uintrRrv rr).toNat = 64 - 1 - rr.clz.toNat := by
    have top : (63 : BitVec 64).toNat = 63 := rfl
    rw [uintrRrv, toNat_sub, top]
    omega
  rw [value]
  exact ⟨by omega, getLsbD_true_clz_of_ne_zero (by omega) some_bit⟩

theorem shifted_one_low (low : n ≤ 30) : intOneShifted n = twoPow 64 n := by
  have table : ∀ k : Fin 31, intOneShifted k.val = twoPow 64 k.val := by decide
  exact table ⟨n, by omega⟩

theorem shifted_one_high (high : 30 < n) (bound : n < 64) :
    ∃ w, 30 < w ∧ (intOneShifted n).getLsbD w ≠ decide (w = n) := by
  by_cases last : n = 63
  · subst last
    exact ⟨31, by omega, by decide⟩
  by_cases first : n = 31
  · subst first
    exact ⟨32, by omega, by decide⟩
  have wrapped : intOneShifted n = intOneShifted (n - 32) := by
    simp only [intOneShifted, show n % 32 = (n - 32) % 32 by omega]
  refine ⟨n, high, ?_⟩
  rw [wrapped, shifted_one_low (by omega), getLsbD_twoPow]
  simp
  omega

theorem uiret_keeps_recognised (ret : helperUiret readable cpu m = some cpu') :
    cpu'.uintrRr = cpu.uintrRr ∧ cpu'.cpl = cpu.cpl := by
  simp only [helperUiret, Option.bind_eq_bind, Option.bind_eq_some_iff] at ret
  obtain ⟨_, _, _, _, _, _, same⟩ := ret
  cases same
  exact ⟨rfl, rfl⟩

def acknowledged (upid : Upid) : Upid :=
  { upid with status := upid.status &&& ~~~upidOn, puir := 0 }

inductive AcceptOutcome (s : World) : World → Prop where
  | ignored (masked : interruptible s.cpu = false) :
      AcceptOutcome s { s with pending := false }
  | nothing_posted (open_ : interruptible s.cpu = true) (empty : s.upid.puir = 0) :
      AcceptOutcome s { s with upid := acknowledged s.upid, pending := false }
  | faulted (open_ : interruptible s.cpu = true) (posted : s.upid.puir ≠ 0) (cpu : Cpu) (m : Memory)
      (recognised : cpu.uintrRr = s.upid.puir)
      (flag : cpu.uintrUif = s.cpu.uintrUif) (level : cpu.cpl = s.cpu.cpl) :
      AcceptOutcome s ⟨cpu, acknowledged s.upid, m, false, s.history⟩
  | entered (open_ : interruptible s.cpu = true) (posted : s.upid.puir ≠ 0) (cpu : Cpu) (m : Memory)
      (recognised : cpu.uintrRr =
        s.upid.puir &&& ~~~(intOneShifted (uintrRrv s.upid.puir).toNat))
      (flag : cpu.uintrUif = 0) (level : cpu.cpl = s.cpu.cpl) :
      AcceptOutcome s ⟨cpu, acknowledged s.upid, m, false,
        s.history ++ [.entered (uintrRrv s.upid.puir).toNat]⟩

theorem rrnzero_outcome (writable : Access) (cpu : Cpu) (m : Memory) :
    ((helperRrnzero writable cpu m).entered = false ∧
      (helperRrnzero writable cpu m).cpu = { cpu with rsp := adjustedStack cpu }) ∨
    ((helperRrnzero writable cpu m).entered = true ∧
      ldq (helperRrnzero writable cpu m).memory (helperRrnzero writable cpu m).cpu.rsp = uintrRrv cpu.uintrRr ∧
      (helperRrnzero writable cpu m).cpu.uintrRr = cpu.uintrRr &&& ~~~(intOneShifted (uintrRrv cpu.uintrRr).toNat) ∧
      (helperRrnzero writable cpu m).cpu.uintrUif = 0 ∧
      (helperRrnzero writable cpu m).cpu.cpl = cpu.cpl) := by
  unfold helperRrnzero
  simp only
  split
  · exact Or.inl ⟨rfl, rfl⟩
  rename_i esp m' pushed
  have top := pushed_last_on_top [cpu.rsp, cpu.eflags, cpu.eip] (uintrRrv cpu.uintrRr) pushed
  exact Or.inr ⟨rfl, top, rfl, rfl, rfl⟩

theorem accept_masked (writable : Access) (masked : interruptible cpu = false) (upid : Upid) (m : Memory) :
    doInterrupt64 writable cpu upid m = ⟨cpu, upid, m, false⟩ := by
  simp only [interruptible, Bool.and_eq_false_iff] at masked
  unfold doInterrupt64
  rcases masked with flag | level
  · rw [if_pos (by simp [flag])]
  · rw [if_pos (c := cpu.cpl ≠ 3) (by simpa using level), ite_self]

theorem accept_interruptible (open_ : interruptible cpu = true) (writable : Access) (upid : Upid) (m : Memory)
    (posted : upid.puir ≠ 0) :
    doInterrupt64 writable cpu upid m =
      ⟨(helperRrnzero writable { cpu with uintrRr := upid.puir } m).cpu, acknowledged upid,
        (helperRrnzero writable { cpu with uintrRr := upid.puir } m).memory,
        (helperRrnzero writable { cpu with uintrRr := upid.puir } m).entered⟩ := by
  simp only [interruptible, Bool.and_eq_true, beq_iff_eq] at open_
  unfold doInterrupt64
  rw [if_neg (by simp [open_.1]), if_neg (by simp [open_.2])]
  exact if_pos posted

theorem accept_outcome (s : World) (writable : Access) :
    AcceptOutcome s (worldAccept s writable) := by
  unfold worldAccept
  cases open_ : interruptible s.cpu with
  | false =>
    rw [accept_masked writable open_]
    exact AcceptOutcome.ignored open_
  | true =>
    by_cases empty : s.upid.puir = 0
    · have cleared : doInterrupt64 writable s.cpu s.upid s.memory =
          ⟨s.cpu, acknowledged s.upid, s.memory, false⟩ := by
        simp only [interruptible, Bool.and_eq_true, beq_iff_eq] at open_
        unfold doInterrupt64
        rw [if_neg (by simp [open_.1]), if_neg (by simp [open_.2]), if_neg (by simp [empty])]
        simp only [acknowledged, empty]
      rw [cleared]
      exact AcceptOutcome.nothing_posted open_ empty
    · rw [accept_interruptible open_ writable s.upid s.memory empty]
      rcases rrnzero_outcome writable { s.cpu with uintrRr := s.upid.puir } s.memory with
        ⟨left, cpu⟩ | ⟨done, top, recognised, flag, level⟩
      · simp only [left, cpu]
        exact AcceptOutcome.faulted open_ empty _ _ rfl rfl rfl
      · simp only [done, top, ↓reduceIte]
        exact AcceptOutcome.entered open_ empty _ _ recognised flag level

end RtosUintrMachine
