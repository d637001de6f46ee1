import CompositeRtos.Nimbos.ContextSwitch

/-!
Tasks that share one CPU and its user-interrupt state. The running task registers handlers
and senders, receives user interrupts and returns from them; `context_switch` hands the
CPU to another task. The history has for each resumption the state that the task was
switched out with, or the zeros of a new task, and the state that it finds.
-/
namespace RtosNimbosUintrTasks
open RtosTransition RtosByteMemory RtosWordStack RtosUintrMachine RtosUintrPermission RtosX86 Function
open RtosNimbosContextSwitch BitVec

def kernelStackSize : Nat := 16384
def uintrMaxUittNr : Nat := 16
def uintrNotificationVector : BitVec 8 := 0xec
def osAbiRedzone : BitVec 64 := 0
def einval : Int := 22
def enospc : Int := 28

structure UintrUittCtx where
  uitt : List UittEntry
  uittMask : BitVec 64
  deriving DecidableEq

structure UintrContext where
  uitt : Option UintrUittCtx
  uittActivated : Bool
  upidActivated : Bool
  uintrUpidCtx : Option Upid
  deriving DecidableEq

structure Call (Result : Type) where
  ctx : UintrContext
  cpu : X86
  result : Result

def trailingOnes (word : BitVec 64) : Nat := ((List.range 64).find? fun i => !word.getLsbD i).getD 64

def findFirstZero (word : BitVec 64) : Option Nat :=
  if word = -1 then none
  else
    let index := trailingOnes word
    if index < uintrMaxUittNr then some index else none

def genmaskUll (h l : Nat) : BitVec 64 := ((-1 : BitVec 64) <<< l) &&& ((-1 : BitVec 64) >>> (63 - h))

def writeMsr (s : X86) (index low high : BitVec 32) : X86 :=
  (((s.movImm .rcx index).movImm .rax low).movImm .rdx high).wrmsr

def uintrInitSender (ctx : UintrContext) : UintrUittCtx :=
  ctx.uitt.getD ⟨List.replicate uintrMaxUittNr ⟨0, 0, 0⟩, 0⟩

def uintrSetSenderMsrs (ctx : UintrContext) (s : X86) (uittPtr : BitVec 64) : UintrContext × X86 :=
  let s := writeMsr s msrUintrTt (uittPtr.setWidth 32 ||| 1) ((uittPtr >>> 32).setWidth 32)
  let msr64 := readMsr s.core msrUintrMisc
  let msr64High := (msr64 >>> 32).setWidth 32 &&& (genmaskUll 63 32 >>> 32).setWidth 32
  let msr64Low := msr64.setWidth 32 ||| BitVec.ofNat 32 (uintrMaxUittNr - 1)
  ({ ctx with uittActivated := true }, writeMsr s msrUintrMisc msr64Low msr64High)

/-- `do_uintr_register_sender`; `uittPtr` is where the task's table lies on the heap. -/
def doUintrRegisterSender (ctx : UintrContext) (s : X86) (uvec upid uittPtr : BitVec 64) : Call Int :=
  if upid = 0 then ⟨ctx, s, -einval⟩
  else
    let uittCtx := uintrInitSender ctx
    match findFirstZero uittCtx.uittMask with
    | none => ⟨{ ctx with uitt := some uittCtx }, s, -enospc⟩
    | some entry =>
      let uittCtx : UintrUittCtx :=
        { uitt := uittCtx.uitt.set entry ⟨1, (uvec &&& 0xff).setWidth 8, upid⟩
          uittMask := uittCtx.uittMask ||| (1 <<< entry) }
      let ctx := { ctx with uitt := some uittCtx }
      if ctx.uittActivated then ⟨ctx, s, entry⟩
      else
        let (ctx, s) := uintrSetSenderMsrs ctx s uittPtr
        ⟨ctx, s, entry⟩

/-- `do_uintr_register_handler`; `upidAddr` is where the task's UPID lies on the heap. -/
def doUintrRegisterHandler (ctx : UintrContext) (s : X86) (handler upidAddr : BitVec 64) (apicId : BitVec 32) :
    Call (BitVec 64) :=
  if ctx.upidActivated then ⟨ctx, s, 0⟩
  else
    let upid := ctx.uintrUpidCtx.getD ⟨0, 0, 0, 0, 0, 0⟩
    let upid := { upid with nv := uintrNotificationVector, ndst := apicId <<< 8 }
    let s := writeMsr s msrUintrHandler (handler.setWidth 32) ((handler >>> 32).setWidth 32)
    let s := writeMsr s msrUintrPd (upidAddr.setWidth 32) ((upidAddr >>> 32).setWidth 32)
    let s := writeMsr s msrUintrStackadjust (osAbiRedzone.setWidth 32) ((osAbiRedzone >>> 32).setWidth 32)
    let miscMsr := readMsr s.core msrUintrMisc
    let miscMsrHigh := (miscMsr >>> 32).setWidth 32 ||| uintrNotificationVector.setWidth 32
    let s := writeMsr s msrUintrMisc (miscMsr.setWidth 32) miscMsrHigh
    ⟨{ ctx with uintrUpidCtx := some upid, upidActivated := true }, s, upidAddr⟩

def sysUintrRegisterHandler (ctx : UintrContext) (s : X86) (handler upidAddr : BitVec 64)
    (apicId : BitVec 32) : Call (BitVec 64) :=
  if handler = 0 then ⟨ctx, s, 0⟩ else doUintrRegisterHandler ctx s handler upidAddr apicId

section Tasks

def onStack (top a : BitVec 64) : Prop := 0 < below top a ∧ below top a ≤ kernelStackSize

def inSlot (slot a : BitVec 64) : Prop := (a - slot).toNat < 8

/-- Kernel stacks and `TaskContext::rsp` fields, no two of which share a byte. -/
structure Layout (ι : Type) where
  top : ι → BitVec 64
  slot : ι → BitVec 64
  stacks_apart : ∀ t u a, t ≠ u → onStack (top t) a → ¬ onStack (top u) a
  slots_apart : ∀ t u a, t ≠ u → inSlot (slot t) a → ¬ inSlot (slot u) a
  slots_off_stacks : ∀ t u a, onStack (top t) a → ¬ inSlot (slot u) a

variable {ι : Type}

def Layout.owns (L : Layout ι) (t : ι) (a : BitVec 64) : Prop := onStack (L.top t) a ∨ inSlot (L.slot t) a

structure Resume where
  expected : Snapshot
  found : Snapshot
  deriving DecidableEq

def Resume.faithful (r : Resume) : Prop := r.found = r.expected

/-- `waiting` has the tasks that can be switched to. -/
structure Fleet (ι : Type) where
  cpu : X86
  current : ι
  waiting : ι → Option Snapshot
  contexts : ι → UintrContext
  resumes : List Resume

/-- `receive` finds the UPID with whatever was posted there; `compute` is everything that
    leaves the user-interrupt state alone. -/
inductive Action (ι : Type) where
  | create (t : ι) (entry : BitVec 64)
  | switchTo (t : ι) (returnAddress : BitVec 64)
  | registerHandler (handler upidAddr : BitVec 64) (apicId : BitVec 32)
  | registerSender (uvec upid uittPtr : BitVec 64)
  | stui
  | clui
  | receive (writable : Access) (upid : Upid)
  | uiret (readable : Access)
  | compute (after : X86)

variable [DecidableEq ι]

def Fleet.kernel (s : Fleet ι) : Prop := s.cpu.core.cpu.cpl = 0

/-- What limits each action. Switches happen with a frame's worth of kernel stack left, and
    nobody but the owner writes to a kernel stack or to an `rsp` field. -/
def Permitted (L : Layout ι) (s : Fleet ι) : Action ι → Prop
  | .create t _ => s.kernel ∧ t ≠ s.current ∧ s.waiting t = none
  | .switchTo t _ => s.kernel ∧ t ≠ s.current ∧ below (L.top s.current) s.cpu.rsp + 104 ≤ kernelStackSize
  | .registerHandler _ _ _ | .registerSender _ _ _ => s.kernel
  | .stui | .clui | .uiret _ => True
  | .receive writable _ => ∀ t a, L.owns t a → writable a = false
  | .compute after => uintrOf after.core = uintrOf s.cpu.core ∧
      ∀ t a, t ≠ s.current → L.owns t a → after.memory a = s.cpu.memory a

def initTask (L : Layout ι) (s : Fleet ι) (t : ι) (entry : BitVec 64) : Fleet ι :=
  { s with
    cpu := { s.cpu with
      memory := stq (pushAll (initFrame entry).words (L.top t) s.cpu.memory) (L.slot t) (under (L.top t) 104) }
    waiting := Function.update s.waiting t (some (initSnapshot entry (L.top t)))
    contexts := Function.update s.contexts t
      { s.contexts t with uittActivated := false, upidActivated := false, uintrUpidCtx := none } }

def switchTask (L : Layout ι) (s : Fleet ι) (t : ι) (returnAddress : BitVec 64) (expected : Snapshot) :
    Fleet ι :=
  let cpu := switchTo s.cpu (L.slot s.current) (L.slot t) returnAddress
  { s with
    cpu
    current := t
    waiting := Function.update (Function.update s.waiting s.current (some (snapshot s.cpu returnAddress))) t none
    resumes := s.resumes ++ [⟨expected, snapshot cpu cpu.core.cpu.eip⟩] }

def withCall {Result : Type} (s : Fleet ι) (call : Call Result) : Fleet ι :=
  { s with cpu := call.cpu, contexts := Function.update s.contexts s.current call.ctx }

def perform (L : Layout ι) (s : Fleet ι) : Action ι → Option (Fleet ι)
  | .create t entry => some (initTask L s t entry)
  | .switchTo t returnAddress => (s.waiting t).map (switchTask L s t returnAddress)
  | .registerHandler handler upidAddr apicId =>
    some (withCall s (sysUintrRegisterHandler (s.contexts s.current) s.cpu handler upidAddr apicId))
  | .registerSender uvec upid uittPtr =>
    some (withCall s (doUintrRegisterSender (s.contexts s.current) s.cpu uvec upid uittPtr))
  | .stui => some { s with cpu := s.cpu.stui }
  | .clui => some { s with cpu := s.cpu.clui }
  | .receive writable upid =>
    let r := doInterrupt64 writable s.cpu.core.cpu upid s.cpu.memory
    some { s with cpu := { s.cpu.setCpu r.cpu with memory := r.memory } }
  | .uiret readable =>
    match helperUiret readable s.cpu.core.cpu s.cpu.memory with
    | some cpu => some { s with cpu := s.cpu.setCpu cpu }
    | none => some s
  | .compute after => some { s with cpu := after }

def fleet (L : Layout ι) : Machine (Fleet ι) (Action ι) where
  start s := uintrOf s.cpu.core = ⟨0, 0, 0, 0, 0, 0, false⟩ ∧ (∀ t, s.waiting t = none) ∧
    (∀ t, s.contexts t = ⟨none, false, false, none⟩) ∧ s.resumes = []
  next s a u := Permitted L s a ∧ perform L s a = some u

/-- The condition: no request waits in UIRR when tasks are switched. -/
def Drained (s : Fleet ι) : Action ι → Prop
  | .switchTo _ _ => s.cpu.core.cpu.uintrRr = 0
  | _ => True

end Tasks

theorem slot_byte (bound : k < 8) : inSlot slot (wordAt slot k) := by
  have := slot.isLt
  simp only [inSlot, wordAt, toNat_sub, toNat_add, toNat_ofNat]
  omega

theorem stq_off_slot (off : ¬ inSlot slot a) : stq m slot v a = m a := by
  apply store_word_outside
  intro k bound same
  apply off
  rw [← same]
  exact slot_byte bound

theorem below_trans (small : below top sp + below sp a < 2 ^ 64) : below top a = below top sp + below sp a := by
  have := top.isLt
  have := sp.isLt
  have := a.isLt
  simp only [below, toNat_sub] at small ⊢
  omega

theorem frame_on_stack (room : below top sp + 104 ≤ kernelStackSize) (above : 0 < below sp a)
    (inside : below sp a ≤ 104) : onStack top a := by
  have size : kernelStackSize = 16384 := rfl
  have distance : below top a = below top sp + below sp a := below_trans (by omega)
  rw [onStack, distance]
  omega

theorem push_on_stack {f : ContextSwitchFrame} (room : below top sp + 104 ≤ kernelStackSize)
    (off : ¬ onStack top a) : pushAll f.words sp m a = m a := by
  have length : 8 * f.words.length = 104 := rfl
  apply push_all_elsewhere f.words sp m (by omega)
  by_contra inside
  apply off
  apply frame_on_stack room <;> omega

theorem pushq_allowed (words : List (BitVec 64)) (sp : BitVec 64) (m : Memory) (denied : writable a = false) :
    (pushq writable words sp m).2 a = m a := by
  induction words generalizing sp m with
  | nil => rfl
  | cons v rest ih =>
    simp only [pushq]
    split
    · rename_i allowed
      rw [ih]
      apply store_word_outside
      intro k bound same
      have byte := List.all_eq_true.mp allowed k (List.mem_range.mpr bound)
      rw [same, denied] at byte
      cases byte
    · rfl

theorem rrnzero_allowed (denied : writable a = false) : (helperRrnzero writable cpu m).memory a = m a := by
  have pushed := pushq_allowed [cpu.rsp, cpu.eflags, cpu.eip, uintrRrv cpu.uintrRr] (adjustedStack cpu) m denied
  simp only [helperRrnzero]
  split <;> rename_i result <;> rw [result] at pushed <;> exact pushed

theorem receive_allowed (denied : writable a = false) : (doInterrupt64 writable cpu upid m).memory a = m a := by
  unfold doInterrupt64
  split
  · rfl
  split
  · rfl
  simp only
  split
  · exact rrnzero_allowed denied
  · rfl

theorem write_msr_memory (s : X86) (other : index ≠ msrUintrRr) : (writeMsr s index low high).memory = s.memory := by
  have index32 : (index.setWidth 64).setWidth 32 = index := by simp
  simp only [writeMsr, X86.wrmsr, X86.movImm, X86.setGpr, update_self, ne_eq, reduceCtorEq,
    not_false_eq_true, update_of_ne, index32]
  exact (wrmsr_quiet _ _ _ fun rr => absurd rr other).2.1

theorem register_sender_memory (s : X86) :
    (doUintrRegisterSender ctx s uvec upid uittPtr).cpu.memory = s.memory := by
  simp only [doUintrRegisterSender]
  split
  · rfl
  split
  · rfl
  split
  · rfl
  · simp only [uintrSetSenderMsrs]
    rw [write_msr_memory _ (by decide), write_msr_memory _ (by decide)]

theorem register_handler_memory (s : X86) :
    (sysUintrRegisterHandler ctx s handler upidAddr apicId).cpu.memory = s.memory := by
  simp only [sysUintrRegisterHandler, doUintrRegisterHandler]
  split
  · rfl
  split
  · rfl
  · rw [write_msr_memory _ (by decide), write_msr_memory _ (by decide),
      write_msr_memory _ (by decide), write_msr_memory _ (by decide)]

section Parked

variable {ι : Type} {L : Layout ι}

/-- A task that waits with its frame on its own kernel stack. -/
structure Parked (L : Layout ι) (m : Memory) (t : ι) (x : Snapshot) : Prop where
  room : below (L.top t) x.rsp + 104 ≤ kernelStackSize
  pointer : ldq m (L.slot t) = under x.rsp 104
  frame : ∃ f : ContextSwitchFrame, Frames f x ∧ Pushed m x.rsp f.words

theorem owns_apart (other : t ≠ u) (mine : L.owns t a) : ¬ L.owns u a := by
  rintro (stack | slot)
  · rcases mine with mine | mine
    · exact L.stacks_apart t u a other mine stack
    · exact L.slots_off_stacks u t a stack mine
  rcases mine with mine | mine
  · exact L.slots_off_stacks t u a mine slot
  · exact L.slots_apart t u a other mine slot

theorem parked_congr (parked : Parked L m t x) (same : ∀ a, L.owns t a → m' a = m a) : Parked L m' t x := by
  refine ⟨parked.room, ?_, ?_⟩
  · rw [← parked.pointer]
    apply load_word_congr
    intro k bound
    exact same _ (Or.inr (slot_byte bound))
  obtain ⟨f, frames, pushed⟩ := parked.frame
  have length : 8 * f.words.length = 104 := rfl
  refine ⟨f, frames, pushed_congr (by omega) pushed ?_⟩
  intro a above inside
  exact same a (Or.inl (frame_on_stack parked.room above (by omega)))

theorem parked_of_push (frames : Frames f x) (room : below (L.top t) x.rsp + 104 ≤ kernelStackSize) :
    Parked L (stq (pushAll f.words x.rsp m) (L.slot t) (under x.rsp 104)) t x := by
  have length : 8 * f.words.length = 104 := rfl
  refine ⟨room, load_store_same _ _ (word_at_spread), f, frames, ?_⟩
  apply pushed_congr (by omega) (push_all_pushed f.words x.rsp m (by omega))
  intro a above inside
  have stack : onStack (L.top t) a := frame_on_stack room above (by omega)
  exact stq_off_slot (L.slots_off_stacks t t a stack)

theorem parked_switched_out (room : below (L.top t) s.rsp + 104 ≤ kernelStackSize) :
    Parked L (parkedMemory s (L.slot t) returnAddress) t (snapshot s returnAddress) :=
  parked_of_push (x := snapshot s returnAddress) (saved_frames s) room

theorem parked_created (t : ι) :
    Parked L (stq (pushAll (initFrame entry).words (L.top t) m) (L.slot t) (under (L.top t) 104)) t
      (initSnapshot entry (L.top t)) := by
  have room : below (L.top t) (initSnapshot entry (L.top t)).rsp + 104 ≤ kernelStackSize := by
    simp [initSnapshot, below, kernelStackSize]
  exact parked_of_push (x := initSnapshot entry (L.top t)) (init_frames) room

theorem push_elsewhere {f : ContextSwitchFrame} (room : below (L.top t) sp + 104 ≤ kernelStackSize)
    (other : ¬ L.owns t a) : stq (pushAll f.words sp m) (L.slot t) v a = m a := by
  rw [stq_off_slot fun slot => other (Or.inr slot)]
  exact push_on_stack room fun stack => other (Or.inl stack)

theorem switched_out_elsewhere {s : X86} (room : below (L.top t) s.rsp + 104 ≤ kernelStackSize)
    (other : ¬ L.owns t a) : parkedMemory s (L.slot t) returnAddress a = s.memory a :=
  push_elsewhere room other

/-- In runs that drain UIRR before every switch, all waiting tasks have UIRR = 0. -/
structure Sound (L : Layout ι) (s : Fleet ι) : Prop where
  parked : ∀ t x, s.waiting t = some x → Parked L s.cpu.memory t x ∧ x.uintr.rr = 0
  running : s.waiting s.current = none
  faithful : ∀ r ∈ s.resumes, r.faithful

theorem sound_own_step (sound : Sound L s)
    (same : ∀ t a, t ≠ s.current → L.owns t a → u.cpu.memory a = s.cpu.memory a)
    (current : u.current = s.current) (waiting : u.waiting = s.waiting) (resumes : u.resumes = s.resumes) :
    Sound L u := by
  refine ⟨?_, ?_, ?_⟩
  · intro t x waits
    rw [waiting] at waits
    have other : t ≠ s.current := by
      rintro rfl
      rw [sound.running] at waits
      cases waits
    obtain ⟨parked, rr⟩ := sound.parked t x waits
    exact ⟨parked_congr parked fun a mine => same t a other mine, rr⟩
  · rw [current, waiting]
    exact sound.running
  · rw [resumes]
    exact sound.faithful

variable [DecidableEq ι]

theorem init_waiting (t : ι) : (initTask L s t entry).waiting =
    update s.waiting t (some (initSnapshot entry (L.top t))) := rfl

theorem switch_waiting (t : ι) : (switchTask L s t returnAddress x).waiting =
      update (update s.waiting s.current (some (snapshot s.cpu returnAddress))) t none :=
  rfl

theorem sound_create (sound : Sound L s) (permitted : Permitted L s (.create t entry)) :
    Sound L (initTask L s t entry) := by
  obtain ⟨_, notCurrent, unborn⟩ := permitted
  have room : below (L.top t) (L.top t) + 104 ≤ kernelStackSize := by
    simp [below, kernelStackSize]
  refine ⟨?_, ?_, sound.faithful⟩
  · intro v x waits
    by_cases here : v = t
    · subst here
      rw [init_waiting, update_self] at waits
      cases waits
      exact ⟨parked_created _, rfl⟩
    rw [init_waiting, update_of_ne here] at waits
    obtain ⟨parked, rr⟩ := sound.parked v x waits
    refine ⟨parked_congr parked ?_, rr⟩
    intro a mine
    exact push_elsewhere room (owns_apart here mine)
  · rw [init_waiting]
    exact (update_of_ne (Ne.symm notCurrent) ..).trans sound.running

theorem switch_found {x : Snapshot} (sound : Sound L s) (permitted : Permitted L s (.switchTo t returnAddress))
    (waits : s.waiting t = some x) :
    (switchTask L s t returnAddress x).cpu.memory = parkedMemory s.cpu (L.slot s.current) returnAddress ∧
    (switchTask L s t returnAddress x).resumes = s.resumes ++ [⟨x, x.withRr s.cpu.core.cpu.uintrRr⟩] := by
  obtain ⟨_, other, room⟩ := permitted
  have parked : Parked L (parkedMemory s.cpu (L.slot s.current) returnAddress) t x :=
    parked_congr (sound.parked t x waits).1 fun a mine =>
      switched_out_elsewhere room (owns_apart other mine)
  obtain ⟨f, frames, pushed⟩ := parked.frame
  obtain ⟨memory, found⟩ := switched frames pushed parked.pointer
  refine ⟨memory, ?_⟩
  rw [switchTask, found]

theorem with_rr_iff (x : Snapshot) : x.withRr rr = x ↔ rr = x.uintr.rr := by
  constructor
  · intro same
    exact congrArg (fun y => y.uintr.rr) same
  · rintro rfl
    rfl

theorem switch_faithful_iff (sound : Sound L s) (permitted : Permitted L s (.switchTo t returnAddress))
    (waits : s.waiting t = some x) :
    (∀ r ∈ (switchTask L s t returnAddress x).resumes, r.faithful) ↔ s.cpu.core.cpu.uintrRr = 0 := by
  rw [(switch_found sound permitted waits).2]
  have rr := (sound.parked t x waits).2
  simp only [List.forall_mem_append, List.forall_mem_singleton, Resume.faithful, with_rr_iff, rr]
  exact ⟨fun both => both.2, fun zero => ⟨sound.faithful, zero⟩⟩

theorem sound_switch {s : Fleet ι} (sound : Sound L s) (permitted : Permitted L s (.switchTo t returnAddress))
    (waits : s.waiting t = some x) (drained : s.cpu.core.cpu.uintrRr = 0) :
    Sound L (switchTask L s t returnAddress x) := by
  have memory := (switch_found sound permitted waits).1
  have faithful := (switch_faithful_iff sound permitted waits).mpr drained
  obtain ⟨_, other, room⟩ := permitted
  refine ⟨?_, ?_, faithful⟩
  · intro v y waits'
    rw [memory]
    have notNext : v ≠ t := by
      rintro rfl
      rw [switch_waiting, update_self] at waits'
      cases waits'
    rw [switch_waiting, update_of_ne notNext] at waits'
    by_cases here : v = s.current
    · subst here
      rw [update_self] at waits'
      cases Option.some.inj waits'
      exact ⟨parked_switched_out room, drained⟩
    rw [update_of_ne here] at waits'
    obtain ⟨parked, rr⟩ := sound.parked v y waits'
    refine ⟨parked_congr parked ?_, rr⟩
    intro a mine
    exact switched_out_elsewhere room (owns_apart here mine)
  · rw [switch_waiting]
    exact update_self ..

theorem sound_step (sound : Sound L s) (drained : Drained s a) (step : (fleet L).next s a u) : Sound L u := by
  obtain ⟨permitted, done⟩ := step
  cases a with
  | create t entry =>
    cases done
    exact sound_create sound permitted
  | switchTo t returnAddress =>
    obtain ⟨x, waits, rfl⟩ := Option.map_eq_some_iff.mp done
    exact sound_switch sound permitted waits drained
  | registerHandler handler upidAddr apicId =>
    cases done
    exact sound_own_step sound (fun _ _ _ _ => congrFun (register_handler_memory ..) _) rfl rfl rfl
  | registerSender uvec upid uittPtr =>
    cases done
    exact sound_own_step sound (fun _ _ _ _ => congrFun (register_sender_memory ..) _) rfl rfl rfl
  | stui | clui =>
    cases done
    exact sound_own_step sound (fun _ _ _ _ => rfl) rfl rfl rfl
  | receive writable upid =>
    cases done
    exact sound_own_step sound (fun t a _ mine => receive_allowed (permitted t a mine)) rfl rfl rfl
  | uiret readable =>
    simp only [perform] at done
    split at done <;> cases done
    · exact sound_own_step sound (fun _ _ _ _ => rfl) rfl rfl rfl
    · exact sound
  | compute after =>
    cases done
    exact sound_own_step sound permitted.2 rfl rfl rfl

theorem sound_start (start : (fleet L).start s) : Sound L s := by
  obtain ⟨_, unborn, _, none_yet⟩ := start
  refine ⟨?_, unborn _, ?_⟩
  · intro t x waits
    rw [unborn t] at waits
    cases waits
  · rw [none_yet]
    exact fun r member => absurd member List.not_mem_nil

theorem sound_reachable (reached : Reachable ((fleet L).guarded Drained) s) : Sound L s := by
  apply reachable_invariant (Sound L) _ _ reached
  · intro s start
    exact sound_start start
  · intro s a u sound step
    exact sound_step sound step.1 step.2

end Parked

/-! Two tasks: the first one registers a handler, and the second one is created. -/

theorem on_stack_range (high : kernelStackSize ≤ top.toNat) (stack : onStack top a) :
    top.toNat - kernelStackSize ≤ a.toNat ∧ a.toNat < top.toNat := by
  have := top.isLt
  have := a.isLt
  simp only [onStack, below, toNat_sub, kernelStackSize] at stack high ⊢
  omega

theorem in_slot_range (low : slot.toNat < 2 ^ 63) (inside : inSlot slot a) :
    slot.toNat ≤ a.toNat ∧ a.toNat < slot.toNat + 8 := by
  have := slot.isLt
  have := a.isLt
  simp only [inSlot, toNat_sub] at inside
  omega

def pairTop (second : Bool) : BitVec 64 := if second then 0x20000 else 0x10000

def pairSlot (second : Bool) : BitVec 64 := if second then 0x30008 else 0x30000

theorem pair_stack (stack : onStack (pairTop t) a) :
    if t then 0x1c000 ≤ a.toNat ∧ a.toNat < 0x20000 else 0xc000 ≤ a.toNat ∧ a.toNat < 0x10000 := by
  cases t <;> simpa [pairTop, kernelStackSize] using on_stack_range (by decide +kernel) stack

theorem pair_slot (inside : inSlot (pairSlot t) a) :
    if t then 0x30008 ≤ a.toNat ∧ a.toNat < 0x30010 else 0x30000 ≤ a.toNat ∧ a.toNat < 0x30008 := by
  cases t <;> simpa [pairSlot] using in_slot_range (by decide +kernel) inside

def pair : Layout Bool where
  top := pairTop
  slot := pairSlot
  stacks_apart := by
    intro t u a other first second
    have := pair_stack first
    have := pair_stack second
    cases t <;> cases u <;> simp at * <;> omega
  slots_apart := by
    intro t u a other first second
    have := pair_slot first
    have := pair_slot second
    cases t <;> cases u <;> simp at * <;> omega
  slots_off_stacks := by
    intro t u a stack slot
    have := pair_stack stack
    have := pair_slot slot
    cases t <;> cases u <;> simp at * <;> omega

theorem pair_owns_low (owned : pair.owns t a) : a.toNat < 0x30010 := by
  rcases owned with stack | slot
  · have := pair_stack stack
    cases t <;> simp at this <;> omega
  · have := pair_slot slot
    cases t <;> simp at this <;> omega

def bootCpu : X86 where
  core := ⟨⟨0x10000, 0, 0x2, 0, 0, 0, 0, 0⟩, 0, 0, 0⟩
  gpr _ := 0
  cc := .eflags 0
  down := false
  memory _ := 0

def boot : Fleet Bool := ⟨bootCpu, false, fun _ => none, fun _ => ⟨none, false, false, none⟩, []⟩

def atMode (s : Fleet Bool) (cpl : BitVec 2) (rsp : BitVec 64) : Fleet Bool :=
  { s with cpu := s.cpu.setCpu { s.cpu.core.cpu with cpl, rsp } }

def registered : Fleet Bool :=
  withCall boot (sysUintrRegisterHandler (boot.contexts boot.current) boot.cpu 0x401000 0x50000 0)

theorem registered_reachable : Reachable ((fleet pair).guarded Drained) registered := by
  have start : (fleet pair).start boot := ⟨rfl, fun _ => rfl, fun _ => rfl, rfl⟩
  have kernel : Permitted pair boot (.registerHandler 0x401000 0x50000 0) := by
    change boot.cpu.core.cpu.cpl = 0
    rfl
  exact reachable_next (a := .registerHandler 0x401000 0x50000 0) (reachable_start start) ⟨trivial, kernel, rfl⟩

/-- The first task runs in the kernel, with its whole kernel stack free. -/
structure Alone (s : Fleet Bool) : Prop where
  kernel : s.kernel
  stack : s.cpu.rsp = 0x10000
  current : s.current = false
  waiting : s.waiting true = none
  resumes : s.resumes = []
  reached : Reachable ((fleet pair).guarded Drained) s

def created (s : Fleet Bool) : Fleet Bool := initTask pair s true 0x8000

theorem created_reachable (alone : Alone s) : Reachable ((fleet pair).guarded Drained) (created s) := by
  have permitted : Permitted pair s (.create true 0x8000) :=
    ⟨alone.kernel, by simp [alone.current], alone.waiting⟩
  exact reachable_next (a := .create true 0x8000) alone.reached ⟨trivial, permitted, rfl⟩

theorem created_waits : (created s).waiting true = some (initSnapshot 0x8000 0x20000) := by
  rw [created, init_waiting]
  exact update_self ..

theorem created_switches (alone : Alone s) :
    (fleet pair).next (created s) (.switchTo true 0x9000)
      (switchTask pair (created s) true 0x9000 (initSnapshot 0x8000 0x20000)) := by
  have stack : below (pair.top (created s).current) (created s).cpu.rsp + 104 ≤ kernelStackSize := by
    change below (pairTop s.current) s.cpu.rsp + 104 ≤ kernelStackSize
    rw [alone.current, alone.stack]
    decide +kernel
  refine ⟨⟨alone.kernel, ?_, stack⟩, ?_⟩
  · change true ≠ s.current
    simp [alone.current]
  · rw [perform, created_waits]
    rfl

theorem registered_alone : Alone registered := ⟨rfl, rfl, rfl, rfl, rfl, registered_reachable⟩

theorem mode_reachable (reached : Reachable ((fleet pair).guarded Drained) s) :
    Reachable ((fleet pair).guarded Drained) (atMode s cpl rsp) := by
  have permitted : Permitted pair s (.compute (s.cpu.setCpu { s.cpu.core.cpu with cpl, rsp })) :=
    ⟨rfl, fun _ _ _ _ => rfl⟩
  exact reachable_next (a := .compute _) reached ⟨trivial, permitted, rfl⟩

def userStack (a : BitVec 64) : Bool := decide (0x600000 ≤ a.toNat) && decide (a.toNat < 0x700000)

def listening : Fleet Bool :=
  let s := atMode registered 3 0x700000
  { s with cpu := s.cpu.stui }

def interrupted : Fleet Bool :=
  let r := doInterrupt64 userStack listening.cpu.core.cpu ⟨1, 0, 0xec, 0, 0, 0x6⟩ listening.cpu.memory
  { listening with cpu := { listening.cpu.setCpu r.cpu with memory := r.memory } }

def pending : Fleet Bool := atMode interrupted 0 0x10000

theorem pending_reachable : Reachable ((fleet pair).guarded Drained) pending := by
  have listens : Reachable ((fleet pair).guarded Drained) listening :=
    reachable_next (a := .stui) (mode_reachable registered_reachable) ⟨trivial, trivial, rfl⟩
  have permitted : Permitted pair listening (.receive userStack ⟨1, 0, 0xec, 0, 0, 0x6⟩) := by
    intro t a owned
    have low := pair_owns_low owned
    rw [userStack, decide_eq_false (by omega), Bool.false_and]
  have receives : Reachable ((fleet pair).guarded Drained) interrupted :=
    reachable_next (a := .receive userStack ⟨1, 0, 0xec, 0, 0, 0x6⟩) listens ⟨trivial, permitted, rfl⟩
  exact mode_reachable receives

theorem pending_alone : Alone pending := ⟨rfl, rfl, rfl, rfl, rfl, pending_reachable⟩

end RtosNimbosUintrTasks
