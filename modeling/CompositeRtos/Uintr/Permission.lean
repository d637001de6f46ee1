import CompositeRtos.Uintr.Machine

/-!
Who may enter a user-interrupt handler. `do_interrupt64` looks at CPL and UIF before it
calls `helper_rrnzero`; `helper_wrmsr` calls it for any non-zero value written to
`MSR_IA32_UINTR_RR`, and WRMSR runs at CPL 0 only. The state here is one CPU with all of
its user-interrupt registers, and the history says in which state each handler was entered.
-/
namespace RtosUintrPermission
open RtosTransition RtosUintrMachine

def msrUintrRr : BitVec 32 := 0x985
def msrUintrHandler : BitVec 32 := 0x986
def msrUintrStackadjust : BitVec 32 := 0x987
def msrUintrMisc : BitVec 32 := 0x988
def msrUintrPd : BitVec 32 := 0x989
def msrUintrTt : BitVec 32 := 0x98a

/-- A CPU with the user-interrupt MSRs that delivery does not read. -/
structure Core where
  cpu : Cpu
  uintrMisc : BitVec 64
  uintrPd : BitVec 64
  uintrTt : BitVec 64
  deriving DecidableEq

structure CoreEntry where
  core : Core
  memory : Memory
  entered : Bool

/-- `helper_wrmsr` with the index from ECX and the value from EDX:EAX. No other MSR is part
    of the state here. -/
def helperWrmsr (writable : Access) (core : Core) (m : Memory) (index : BitVec 32) (val : BitVec 64) :
    CoreEntry :=
  if index = msrUintrRr then
    let cpu := { core.cpu with uintrRr := val }
    if val ≠ 0 then
      let entry := helperRrnzero writable cpu m
      ⟨{ core with cpu := entry.cpu }, entry.memory, entry.entered⟩
    else ⟨{ core with cpu }, m, false⟩
  else if index = msrUintrHandler then ⟨{ core with cpu := { core.cpu with uintrHandler := val } }, m, false⟩
  else if index = msrUintrStackadjust then
    ⟨{ core with cpu := { core.cpu with uintrStackadjust := val } }, m, false⟩
  else if index = msrUintrMisc then ⟨{ core with uintrMisc := val }, m, false⟩
  else if index = msrUintrPd then ⟨{ core with uintrPd := val }, m, false⟩
  else if index = msrUintrTt then ⟨{ core with uintrTt := val }, m, false⟩
  else ⟨core, m, false⟩

structure Permit where
  cpl : BitVec 2
  uif : BitVec 64
  deriving DecidableEq

def permitOf (cpu : Cpu) : Permit := ⟨cpu.cpl, cpu.uintrUif⟩

def Permit.granted (p : Permit) : Prop := p.cpl = 3 ∧ p.uif ≠ 0

structure Station where
  core : Core
  upid : Upid
  memory : Memory
  entries : List Permit

/-- `elsewhere` is everything that is not user-interrupt delivery: other instructions,
    exceptions, and other processors that write to the UPID. -/
inductive Action where
  | accept (writable : Access)
  | wrmsr (writable : Access) (index : BitVec 32) (val nextEip : BitVec 64)
  | stui
  | clui
  | uiret (readable : Access)
  | elsewhere (core : Core) (upid : Upid) (memory : Memory)

def entered (s : Station) (yes : Bool) : List Permit :=
  if yes then s.entries ++ [permitOf s.core.cpu] else s.entries

def stationAccept (s : Station) (writable : Access) : Station :=
  let r := doInterrupt64 writable s.core.cpu s.upid s.memory
  ⟨{ s.core with cpu := r.cpu }, r.upid, r.memory, entered s r.entered⟩

/-- A push of the helper faults: the instruction does not complete. -/
def wrmsrFaults (writable : Access) (s : Station) (index : BitVec 32) (val : BitVec 64) : Bool :=
  index == msrUintrRr && val != 0 && !(helperWrmsr writable s.core s.memory index val).entered

/-- WRMSR: the translated code goes on behind the instruction, whatever the helper did to
    `eip`, unless the helper raised an exception. -/
def stationWrmsr (s : Station) (writable : Access) (index : BitVec 32) (val nextEip : BitVec 64) : Station :=
  let r := helperWrmsr writable s.core s.memory index val
  let core := if wrmsrFaults writable s index val then r.core
    else { r.core with cpu := { r.core.cpu with eip := nextEip } }
  ⟨core, s.upid, r.memory, entered s r.entered⟩

def withCpu (s : Station) (cpu : Cpu) : Station := { s with core := { s.core with cpu } }

def act (s : Station) : Action → Option Station
  | .accept writable => some (stationAccept s writable)
  | .wrmsr writable index val nextEip =>
    if s.core.cpu.cpl = 0 then some (stationWrmsr s writable index val nextEip) else none
  | .stui => some (withCpu s (helperStui s.core.cpu))
  | .clui => some (withCpu s (helperClui s.core.cpu))
  | .uiret readable =>
    match helperUiret readable s.core.cpu s.memory with
    | some cpu => some (withCpu s cpu)
    | none => some s
  | .elsewhere core upid memory => some ⟨core, upid, memory, s.entries⟩

/-- Any state to start from, before any handler entry. -/
def station : Machine Station Action where
  start s := s.entries = []
  next s a t := act s a = some t

/-- The condition: no non-zero value is written to `MSR_IA32_UINTR_RR`. -/
def Quiet (_ : Station) : Action → Prop
  | .wrmsr _ index val _ => index = msrUintrRr → val = 0
  | _ => True

/-- The actions that can lead to `helper_rrnzero`, and where execution goes on without it. -/
def resumesAt (s : Station) : Action → Option (BitVec 64)
  | .accept _ => some s.core.cpu.eip
  | .wrmsr _ _ _ nextEip => some nextEip
  | _ => none

theorem granted_of_interruptible (open_ : interruptible cpu = true) : (permitOf cpu).granted := by
  simp only [interruptible, uifEnable, Bool.and_eq_true, bne_iff_ne, beq_iff_eq] at open_
  exact ⟨open_.2, open_.1⟩

theorem wrmsr_quiet (writable : Access) (core : Core) (m : Memory) (quiet : index = msrUintrRr → val = 0) :
    (helperWrmsr writable core m index val).entered = false ∧
    (helperWrmsr writable core m index val).memory = m ∧
    (helperWrmsr writable core m index val).core.cpu.rsp = core.cpu.rsp := by
  unfold helperWrmsr
  split
  · rename_i here
    rw [if_neg (by simp [quiet here])]
    exact ⟨rfl, rfl, rfl⟩
  · repeat' split
    all_goals exact ⟨rfl, rfl, rfl⟩

theorem entered_granted (before : ∀ p ∈ s.entries, p.granted)
    (permitted : yes = true → interruptible s.core.cpu = true) : ∀ p ∈ entered s yes, p.granted := by
  intro p member
  cases yes with
  | false => exact before p member
  | true =>
    rcases List.mem_append.mp member with old | new
    · exact before p old
    · rw [List.mem_singleton.mp new]
      exact granted_of_interruptible (permitted rfl)

theorem accept_permitted (done : (doInterrupt64 writable cpu upid m).entered = true) : interruptible cpu = true := by
  cases open_ : interruptible cpu with
  | true => rfl
  | false =>
    rw [accept_masked writable open_] at done
    cases done

theorem quiet_step (quiet : Quiet s a) (step : act s a = some t) (before : ∀ p ∈ s.entries, p.granted) :
    ∀ p ∈ t.entries, p.granted := by
  cases a with
  | accept writable =>
    cases step
    exact entered_granted before accept_permitted
  | wrmsr writable index val nextEip =>
    simp only [act] at step
    split at step
    · cases step
      have none_entered := (wrmsr_quiet writable s.core s.memory quiet).1
      apply entered_granted before
      intro done
      rw [none_entered] at done
      cases done
    · cases step
  | stui | clui | elsewhere core upid memory =>
    cases step
    exact before
  | uiret readable =>
    simp only [act] at step
    split at step <;> cases step <;> exact before

theorem masked_step (quiet : Quiet s a) (step : act s a = some t) (delivers : resumesAt s a = some resume)
    (masked : interruptible s.core.cpu = false) :
    t.core.cpu.eip = resume ∧ t.core.cpu.rsp = s.core.cpu.rsp ∧ t.memory = s.memory := by
  cases a with
  | accept writable =>
    cases step
    cases delivers
    simp [stationAccept, accept_masked writable masked]
  | wrmsr writable index val nextEip =>
    cases delivers
    simp only [act] at step
    split at step
    · cases step
      obtain ⟨_, memory, rsp⟩ := wrmsr_quiet writable s.core s.memory quiet
      have completes : wrmsrFaults writable s index val = false := by
        by_cases here : index = msrUintrRr
        · simp [wrmsrFaults, quiet here]
        · simp [wrmsrFaults, here]
      simp only [stationWrmsr, completes]
      exact ⟨rfl, rsp, memory⟩
    · cases step
  | stui | clui | uiret _ | elsewhere _ _ _ => cases delivers

theorem wrmsr_loud (loud : val ≠ 0) : (helperWrmsr writable core m msrUintrRr val).entered =
      (helperRrnzero writable { core.cpu with uintrRr := val } m).entered := by
  rw [helperWrmsr, if_pos rfl]
  simp only
  rw [if_pos loud]

theorem loud_step (loud : val ≠ 0) (step : act s (.wrmsr writable msrUintrRr val nextEip) = some t)
    (room : (helperRrnzero writable { s.core.cpu with uintrRr := val } s.memory).entered = true) :
    ∃ p ∈ t.entries, ¬ p.granted := by
  simp only [act] at step
  split at step
  · rename_i ring0
    cases step
    refine ⟨permitOf s.core.cpu, ?_, ?_⟩
    · have done := (wrmsr_loud loud).trans room
      simp [stationWrmsr, done, entered]
    rintro ⟨level, _⟩
    have user : s.core.cpu.cpl = 3 := level
    rw [ring0] at user
    exact absurd user (by decide)
  · cases step

def idleCore : Core where
  cpu := ⟨0x8000, 0x1000, 0x202, 0, 0, 0x4000, 0, 0⟩
  uintrMisc := 0
  uintrPd := 0
  uintrTt := 0

def everywhere : Access := fun _ => true

def idleStation : Station := ⟨idleCore, ⟨0, 0, 0xec, 0, 0, 0⟩, fun _ => 0, []⟩

end RtosUintrPermission
