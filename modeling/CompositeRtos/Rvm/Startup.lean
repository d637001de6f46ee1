import Mathlib.Algebra.Group.Nat.Defs
import CompositeRtos.Lib.Agents
import CompositeRtos.Lib.Transition

/-!
The start of the RVM hypervisor (`main.rs`, `percpu.rs`). Every CPU runs `PerCpu::new` and
then `vm_cpu_entry`; each load, store and increment of a shared counter is one step, and
the steps of the CPUs interleave in any order. The initialisation functions succeed or
fail as they like. `vcpu.enter` does not return.
-/
namespace RtosRvmStartup
open RtosTransition RtosAgents BitVec

/-- All of `HvErrorNum`: an initialisation function may fail with any of them. -/
inductive HvErrorNum where
  | eperm | enoent | eio | e2big | enomem | efault | ebusy | eexist | enodev | einval | erange | enosys
  deriving DecidableEq

def HvErrorNum.num : HvErrorNum → BitVec 32
  | .eperm => 1
  | .enoent => 2
  | .eio => 5
  | .e2big => 7
  | .enomem => 12
  | .efault => 14
  | .ebusy => 16
  | .eexist => 17
  | .enodev => 19
  | .einval => 22
  | .erange => 34
  | .enosys => 38

def HvErrorNum.code (e : HvErrorNum) : BitVec 32 := -e.num

theorem code_nonzero (e : HvErrorNum) : e.code ≠ 0 := by
  cases e <;> decide

structure HvHeader where
  maxCpus : BitVec 32
  rtCpus : BitVec 32

def HvHeader.vmCpus (h : HvHeader) : BitVec 32 :=
  if h.rtCpus < h.maxCpus then h.maxCpus - h.rtCpus else h.maxCpus

theorem vm_cpus_le (h : HvHeader) : h.vmCpus.toNat ≤ h.maxCpus.toNat := by
  unfold HvHeader.vmCpus
  split
  · rename_i fewer
    rw [lt_def] at fewer
    have := h.maxCpus.isLt
    rw [toNat_sub]
    omega
  · exact Nat.le_refl _

/-- What `main` waits for, in this order on every CPU that waits for it. -/
inductive Barrier where
  | enteredCpus | initEarlyOk | initedCpus | initLateOk
  deriving DecidableEq

/-- The three loads of `wait_for`: the error in the loop's condition, the counter after it,
    and the error again behind the loop. -/
inductive Poll where
  | hasErr | condition | verdict
  deriving DecidableEq

inductive Pc where
  | checkMaxCpus
  | enterCpus
  | waitFor (barrier : Barrier) (poll : Poll)
  | primaryInitEarly
  | init
  | countInited
  | primaryInitLate
  | activateVmm
  | guest
  | storeError (e : HvErrorNum)
  | loadError
  | returned (code : BitVec 32)
  deriving DecidableEq

/-- One CPU. `initOk` and `counted` record that its `PerCpu::init` succeeded and that it
    has incremented `INITED_CPUS`. -/
structure Cpu where
  pc : Pc
  id : BitVec 32
  initOk : Bool
  counted : Bool
  deriving DecidableEq

/-- The shared variables and the CPUs. `earlyDone` records that `primary_init_early` has
    succeeded. -/
structure System (n : Nat) where
  enteredCpus : BitVec 32
  initedCpus : BitVec 32
  initEarlyOk : BitVec 32
  initLateOk : BitVec 32
  errorNum : BitVec 32
  activatedCpus : BitVec 32
  earlyDone : Bool
  cpus : Fin n → Cpu

namespace System

variable {n : Nat}

def put (s : System n) (i : Fin n) (c : Cpu) : System n :=
  { s with cpus := Function.update s.cpus i c }

def goto (s : System n) (i : Fin n) (pc : Pc) : System n := s.put i { s.cpus i with pc }

def enter (s : System n) (i : Fin n) : System n :=
  { s.put i { s.cpus i with id := s.enteredCpus, pc := .waitFor .enteredCpus .hasErr } with
    enteredCpus := s.enteredCpus + 1 }

def count (s : System n) (i : Fin n) : System n :=
  { s.put i { s.cpus i with counted := true, pc := .waitFor .initedCpus .hasErr } with
    initedCpus := s.initedCpus + 1 }

def counter (s : System n) (vmCpus : BitVec 32) : Barrier → BitVec 32 × BitVec 32
  | .enteredCpus => (s.enteredCpus, vmCpus)
  | .initEarlyOk => (s.initEarlyOk, 1)
  | .initedCpus => (s.initedCpus, vmCpus)
  | .initLateOk => (s.initLateOk, 1)

end System

def afterBarrier (isPrimary : Bool) : Barrier → Pc
  | .enteredCpus => if isPrimary then .primaryInitEarly else .waitFor .initEarlyOk .hasErr
  | .initEarlyOk => .init
  | .initedCpus => if isPrimary then .primaryInitLate else .waitFor .initLateOk .hasErr
  | .initLateOk => .activateVmm

def step (header : HvHeader) {n : Nat} (s : System n) (i : Fin n) (result : Except HvErrorNum Unit) :
    System n :=
  let c := s.cpus i
  match c.pc with
  | .checkMaxCpus =>
    if s.enteredCpus ≥ header.maxCpus then s.goto i (.returned HvErrorNum.einval.code)
    else s.goto i .enterCpus
  | .enterCpus => s.enter i
  | .waitFor barrier .hasErr =>
    if s.errorNum ≠ 0 then s.goto i (.waitFor barrier .verdict)
    else s.goto i (.waitFor barrier .condition)
  | .waitFor barrier .condition =>
    let (value, target) := s.counter header.vmCpus barrier
    if value < target then s.goto i (.waitFor barrier .hasErr)
    else s.goto i (.waitFor barrier .verdict)
  | .waitFor barrier .verdict =>
    if s.errorNum ≠ 0 then s.goto i (.storeError .ebusy)
    else s.goto i (afterBarrier (c.id == 0) barrier)
  | .primaryInitEarly =>
    match result with
    | .ok () => { s.goto i .init with initEarlyOk := 1, earlyDone := true }
    | .error e => s.goto i (.storeError e)
  | .init =>
    match result with
    | .ok () => s.put i { c with pc := .countInited, initOk := true }
    | .error e => s.goto i (.storeError e)
  | .countInited => s.count i
  | .primaryInitLate => { s.goto i .activateVmm with initLateOk := 1 }
  | .activateVmm => { s.goto i .guest with activatedCpus := s.activatedCpus + 1 }
  | .guest => s
  | .storeError e => { s.goto i .loadError with errorNum := e.code }
  | .loadError => s.goto i (.returned s.errorNum)
  | .returned _ => s

def powerOn (n : Nat) : System n where
  enteredCpus := 0
  initedCpus := 0
  initEarlyOk := 0
  initLateOk := 0
  errorNum := 0
  activatedCpus := 0
  earlyDone := false
  cpus _ := ⟨.checkMaxCpus, 0, false, false⟩

def starting (header : HvHeader) :
    Machine (System header.vmCpus.toNat) (Fin header.vmCpus.toNat × Except HvErrorNum Unit) where
  start s := s = powerOn header.vmCpus.toNat
  next s a t := t = step header s a.1 a.2

def Activates : Pc → Prop
  | .activateVmm | .guest => True
  | _ => False

instance (pc : Pc) : Decidable (Activates pc) := by
  cases pc <;> simp only [Activates] <;> infer_instance

def Cpu.hasEntered (c : Cpu) : Bool := c.pc != .checkMaxCpus && c.pc != .enterCpus

theorem has_entered {c : Cpu} (at_pc : c.pc = pc) : c.hasEntered = (pc != .checkMaxCpus && pc != .enterCpus) := by
  rw [Cpu.hasEntered, at_pc]

/-- A CPU that gave up before it was counted; it stays so. -/
def Lost (c : Cpu) : Prop :=
  c.counted = false ∧
    match c.pc with
    | .storeError _ | .loadError | .returned _ => True
    | _ => False

section Invariant

variable {n : Nat}

def Everyone (s : System n) : Prop := ∀ j, (s.cpus j).counted = true

def SomeLost (s : System n) : Prop := ∃ j, Lost (s.cpus j)

/-- What is known where. A CPU that has left the loop at a barrier has seen an error or the
    counter at its target. -/
def Placed (s : System n) (c : Cpu) : Prop :=
  (c.counted = true → c.initOk = true) ∧ (c.initOk = true → s.earlyDone = true) ∧
  match c.pc with
  | .checkMaxCpus | .enterCpus | .waitFor .enteredCpus _ | .primaryInitEarly => c.counted = false
  | .waitFor .initEarlyOk poll =>
    c.counted = false ∧ (poll = .verdict → s.errorNum ≠ 0 ∨ s.earlyDone = true)
  | .init => c.counted = false ∧ s.earlyDone = true
  | .countInited => c.counted = false ∧ c.initOk = true
  | .waitFor .initedCpus poll => poll = .verdict → s.errorNum ≠ 0 ∨ Everyone s
  | .primaryInitLate | .waitFor .initLateOk _ | .activateVmm | .guest => Everyone s
  | .storeError _ | .loadError | .returned _ => SomeLost s

structure Coherent (s : System n) : Prop where
  entered : s.enteredCpus.toNat = passed Cpu.hasEntered s.cpus
  inited : s.initedCpus.toNat = passed Cpu.counted s.cpus
  early : s.initEarlyOk ≠ 0 → s.earlyDone = true
  error : s.errorNum ≠ 0 → SomeLost s
  placed : ∀ i, Placed s (s.cpus i)

/-- What one CPU's step leaves in place for the others. -/
structure Onward (s t : System n) (i : Fin n) (c : Cpu) : Prop where
  moved : t.cpus = Function.update s.cpus i c
  early : s.earlyDone = true → t.earlyDone = true
  error : s.errorNum ≠ 0 → t.errorNum ≠ 0
  counted : (s.cpus i).counted = true → c.counted = true
  lost : Lost (s.cpus i) → Lost c

theorem onward_everyone (on : Onward s t i c) (everyone : Everyone s) : Everyone t := by
  intro j
  rw [on.moved]
  by_cases here : j = i
  · subst here
    rw [Function.update_self]
    exact on.counted (everyone j)
  · rw [Function.update_of_ne here]
    exact everyone j

theorem onward_lost (on : Onward s t i c) (lost : SomeLost s) : SomeLost t := by
  obtain ⟨j, gone⟩ := lost
  refine ⟨j, ?_⟩
  rw [on.moved]
  by_cases here : j = i
  · subst here
    rw [Function.update_self]
    exact on.lost gone
  · rw [Function.update_of_ne here]
    exact gone

theorem placed_onward (on : Onward s t i c) (placed : Placed s d) : Placed t d := by
  obtain ⟨counted, initOk, at_pc⟩ := placed
  refine ⟨counted, fun done => on.early (initOk done), ?_⟩
  have verdict : ∀ {P Q : Prop}, (P → Q) → (s.errorNum ≠ 0 ∨ P) → (t.errorNum ≠ 0 ∨ Q) :=
    fun keep seen => seen.imp on.error keep
  obtain ⟨pc, _, _, _⟩ := d
  cases pc with
  | checkMaxCpus | enterCpus | primaryInitEarly | countInited => exact at_pc
  | waitFor barrier poll =>
    cases barrier with
    | enteredCpus => exact at_pc
    | initEarlyOk => exact ⟨at_pc.1, fun last => verdict on.early (at_pc.2 last)⟩
    | initedCpus => exact fun last => verdict (onward_everyone on) (at_pc last)
    | initLateOk => exact onward_everyone on at_pc
  | init => exact ⟨at_pc.1, on.early at_pc.2⟩
  | primaryInitLate | activateVmm | guest => exact onward_everyone on at_pc
  | storeError _ | loadError | returned _ => exact onward_lost on at_pc

theorem onward_same (on : Onward s t i c) (same : past c = past (s.cpus i)) :
    passed past s.cpus = passed past t.cpus := by
  rw [on.moved, passed_same past same]

theorem onward_cross (on : Onward s t i c) (behind : past (s.cpus i) = false) (ahead : past c = true) :
    passed past t.cpus = passed past s.cpus + 1 := by
  rw [on.moved, passed_cross past behind ahead]

theorem onward_coherent (h : Coherent s) (on : Onward s t i c)
    (entered : t.enteredCpus.toNat = passed Cpu.hasEntered t.cpus)
    (inited : t.initedCpus.toNat = passed Cpu.counted t.cpus) (early : t.initEarlyOk ≠ 0 → t.earlyDone = true)
    (error : t.errorNum ≠ 0 → SomeLost t) (placed : Placed t c) : Coherent t := by
  refine ⟨entered, inited, early, error, ?_⟩
  intro j
  rw [on.moved]
  by_cases here : j = i
  · subst here
    rw [Function.update_self]
    exact placed
  · rw [Function.update_of_ne here]
    exact placed_onward on (h.placed j)

theorem steady_coherent (h : Coherent s) (on : Onward s t i c)
    (counters : t.enteredCpus = s.enteredCpus ∧ t.initedCpus = s.initedCpus)
    (entered : c.hasEntered = (s.cpus i).hasEntered) (counted : c.counted = (s.cpus i).counted)
    (early : t.initEarlyOk ≠ 0 → t.earlyDone = true) (error : t.errorNum ≠ 0 → SomeLost t) (placed : Placed t c) :
    Coherent t := by
  refine onward_coherent h on ?_ ?_ early error placed
  · rw [counters.1]
    exact h.entered.trans (onward_same on entered)
  · rw [counters.2]
    exact h.inited.trans (onward_same on counted)

theorem goto_coherent (h : Coherent s) (entered : Cpu.hasEntered { s.cpus i with pc } = Cpu.hasEntered (s.cpus i))
    (lost : Lost (s.cpus i) → Lost { s.cpus i with pc }) (placed : Placed (s.goto i pc) { s.cpus i with pc }) :
    Coherent (s.goto i pc) := by
  have on : Onward s (s.goto i pc) i { s.cpus i with pc } := ⟨rfl, id, id, id, lost⟩
  exact steady_coherent h on ⟨rfl, rfl⟩ entered rfl h.early (fun raised => onward_lost on (h.error raised)) placed

theorem move_coherent (h : Coherent s) (alive : ¬ Lost (s.cpus i))
    (entered : Cpu.hasEntered { s.cpus i with pc } = Cpu.hasEntered (s.cpus i))
    (placed : Placed s { s.cpus i with pc }) : Coherent (s.goto i pc) := by
  have on : Onward s (s.goto i pc) i { s.cpus i with pc } :=
    ⟨rfl, id, id, id, fun lost => absurd lost alive⟩
  exact goto_coherent h entered on.lost (placed_onward on placed)

theorem not_lost (running : ∀ e code, c.pc ≠ .storeError e ∧ c.pc ≠ .loadError ∧ c.pc ≠ .returned code) :
    ¬ Lost c := by
  rintro ⟨_, gone⟩
  obtain ⟨pc, _, _, _⟩ := c
  cases pc with
  | storeError e => exact (running e 0).1 rfl
  | loadError => exact (running .eperm 0).2.1 rfl
  | returned code => exact (running .eperm code).2.2 rfl
  | _ => exact gone

theorem fail_coherent (h : Coherent s) (entered : (s.cpus i).hasEntered = true) (running : ¬ Lost (s.cpus i))
    (why : (s.cpus i).counted = false ∨ s.errorNum ≠ 0) : Coherent (s.goto i (.storeError e)) := by
  have keep : Lost (s.cpus i) → Lost { s.cpus i with pc := .storeError e } := fun lost => absurd lost running
  apply goto_coherent h _ keep
  · obtain ⟨counted, initOk, _⟩ := h.placed i
    refine ⟨counted, initOk, ?_⟩
    change SomeLost _
    rcases why with uncounted | raised
    · refine ⟨i, ?_⟩
      simp only [System.goto, System.put, Function.update_self]
      exact ⟨uncounted, trivial⟩
    · exact onward_lost ⟨rfl, id, id, id, keep⟩ (h.error raised)
  · rw [entered]
    rfl

end Invariant

section Steps

variable {header : HvHeader} {s : System header.vmCpus.toNat}

theorem incremented {word : BitVec 32} (small : bound < 2 ^ 32) (value : word.toNat = count)
    (room : count < bound) : (word + 1).toNat = count + 1 := by
  rw [toNat_add, show (1 : BitVec 32).toNat = 1 from rfl]
  omega

section

variable (h : Coherent s)
include h

theorem enter_coherent (at_pc : (s.cpus i).pc = .enterCpus) : Coherent (s.enter i) := by
  obtain ⟨counted, initOk, uncounted⟩ := h.placed i
  rw [at_pc] at uncounted
  have outside : (s.cpus i).hasEntered = false := has_entered at_pc
  have room := passed_lt Cpu.hasEntered outside
  rw [Fintype.card_fin] at room
  have on : Onward s (s.enter i) i { s.cpus i with id := s.enteredCpus, pc := .waitFor .enteredCpus .hasErr } :=
    ⟨rfl, id, id, id, fun lost => by rw [Lost, at_pc] at lost; exact lost.2.elim⟩
  refine onward_coherent h on ?_ ?_ h.early (fun raised => onward_lost on (h.error raised))
    ⟨counted, initOk, uncounted⟩
  · rw [onward_cross on outside rfl]
    exact incremented header.vmCpus.isLt h.entered room
  · exact h.inited.trans (onward_same on rfl)

theorem count_coherent (at_pc : (s.cpus i).pc = .countInited) : Coherent (s.count i) := by
  obtain ⟨counted, initOk, placed⟩ := h.placed i
  rw [at_pc] at placed
  have room := passed_lt Cpu.counted placed.1
  rw [Fintype.card_fin] at room
  have on : Onward s (s.count i) i { s.cpus i with counted := true, pc := .waitFor .initedCpus .hasErr } :=
    ⟨rfl, id, id, fun _ => rfl, fun lost => by rw [Lost, at_pc] at lost; exact lost.2.elim⟩
  refine onward_coherent h on ?_ ?_ h.early (fun raised => onward_lost on (h.error raised))
    ⟨fun _ => placed.2, initOk, fun last => by cases last⟩
  · apply h.entered.trans (onward_same on _)
    rw [Cpu.hasEntered, Cpu.hasEntered, at_pc]
    rfl
  · rw [onward_cross on placed.1 rfl]
    exact incremented header.vmCpus.isLt h.inited room

def Seen {n : Nat} (s : System n) : Barrier → Prop
  | .initEarlyOk => s.errorNum ≠ 0 ∨ s.earlyDone = true
  | .initedCpus => s.errorNum ≠ 0 ∨ Everyone s
  | _ => True

theorem poll_coherent (at_pc : (s.cpus i).pc = .waitFor barrier poll)
    (seen : poll' = .verdict → Seen s barrier) : Coherent (s.goto i (.waitFor barrier poll')) := by
  obtain ⟨counted, initOk, placed⟩ := h.placed i
  have alive : ¬ Lost (s.cpus i) := not_lost (by simp [at_pc])
  rw [at_pc] at placed
  apply move_coherent h alive
  · rw [Cpu.hasEntered, Cpu.hasEntered, at_pc]
    rfl
  refine ⟨counted, initOk, ?_⟩
  cases barrier with
  | enteredCpus => exact placed
  | initEarlyOk => exact ⟨placed.1, seen⟩
  | initedCpus => exact seen
  | initLateOk => exact placed

theorem seen_of_counter (reached : ¬ (s.counter header.vmCpus barrier).1 < (s.counter header.vmCpus barrier).2) :
    Seen s barrier := by
  cases barrier with
  | enteredCpus => trivial
  | initEarlyOk =>
    apply Or.inr (h.early _)
    rintro zero
    simp [System.counter, zero] at reached
  | initedCpus =>
    right
    simp only [System.counter] at reached
    rw [lt_def, h.inited, Nat.not_lt] at reached
    exact all_passed Cpu.counted (by rw [Fintype.card_fin]; exact reached)
  | initLateOk => trivial

theorem pass_coherent (at_pc : (s.cpus i).pc = .waitFor barrier .verdict)
    (clean : s.errorNum = 0) : Coherent (s.goto i (afterBarrier ((s.cpus i).id == 0) barrier)) := by
  obtain ⟨counted, initOk, placed⟩ := h.placed i
  have alive : ¬ Lost (s.cpus i) := not_lost (by simp [at_pc])
  rw [at_pc] at placed
  apply move_coherent h alive
  · rw [Cpu.hasEntered, Cpu.hasEntered, at_pc]
    cases barrier <;> cases (s.cpus i).id == 0 <;> rfl
  refine ⟨counted, initOk, ?_⟩
  cases barrier with
  | enteredCpus =>
    cases (s.cpus i).id == 0 with
    | true => exact placed
    | false => exact ⟨placed, fun last => by cases last⟩
  | initEarlyOk => exact ⟨placed.1, (placed.2 rfl).resolve_left (by simp [clean])⟩
  | initedCpus =>
    have everyone : Everyone s := (placed rfl).resolve_left (by simp [clean])
    cases (s.cpus i).id == 0 with
    | true => exact everyone
    | false => exact everyone
  | initLateOk => exact placed

theorem wait_coherent (at_pc : (s.cpus i).pc = .waitFor barrier poll) :
    Coherent (step header s i result) := by
  cases poll with
  | hasErr =>
    simp only [step, at_pc]
    split
    · rename_i raised
      apply poll_coherent h at_pc
      intro _
      cases barrier with
      | enteredCpus | initLateOk => trivial
      | initEarlyOk | initedCpus => exact Or.inl raised
    · exact poll_coherent h at_pc (fun last => by cases last)
  | condition =>
    simp only [step, at_pc]
    split
    · exact poll_coherent h at_pc (fun last => by cases last)
    · rename_i reached
      exact poll_coherent h at_pc fun _ => seen_of_counter h reached
  | verdict =>
    simp only [step, at_pc]
    split
    · rename_i raised
      exact fail_coherent h (has_entered at_pc) (not_lost (by simp [at_pc])) (Or.inr raised)
    · rename_i clean
      exact pass_coherent h at_pc (not_not.mp clean)

theorem below_max (outside : (s.cpus i).hasEntered = false) : ¬ s.enteredCpus ≥ header.maxCpus := by
  have room := passed_lt Cpu.hasEntered outside
  rw [Fintype.card_fin, ← h.entered] at room
  have small := vm_cpus_le header
  rw [ge_iff_le, le_def]
  omega

theorem check_coherent (at_pc : (s.cpus i).pc = .checkMaxCpus) : Coherent (step header s i result) := by
  obtain ⟨counted, initOk, placed⟩ := h.placed i
  rw [at_pc] at placed
  have outside : (s.cpus i).hasEntered = false := has_entered at_pc
  simp only [step, at_pc, if_neg (below_max h outside)]
  apply move_coherent h (not_lost (by simp [at_pc]))
  · rw [outside]
    rfl
  · exact ⟨counted, initOk, placed⟩

theorem entered_coherent (entered : (s.cpus i).hasEntered = true) (on : Onward s t i c)
    (counters : t.enteredCpus = s.enteredCpus ∧ t.initedCpus = s.initedCpus) (still : c.hasEntered = true)
    (counted : c.counted = (s.cpus i).counted) (early : t.initEarlyOk ≠ 0 → t.earlyDone = true)
    (error : t.errorNum = s.errorNum) (placed : Placed t c) : Coherent t :=
  steady_coherent h on counters (still.trans entered.symm) counted early
    (fun raised => onward_lost on (h.error (error ▸ raised))) placed

theorem early_coherent (at_pc : (s.cpus i).pc = .primaryInitEarly) : Coherent (step header s i result) := by
  obtain ⟨counted, initOk, placed⟩ := h.placed i
  rw [at_pc] at placed
  have alive : ¬ Lost (s.cpus i) := not_lost (by simp [at_pc])
  have entered : (s.cpus i).hasEntered = true := has_entered at_pc
  simp only [step, at_pc]
  cases result with
  | error e => exact fail_coherent h entered alive (Or.inl placed)
  | ok _ =>
    exact entered_coherent h entered ⟨rfl, fun _ => rfl, id, id, fun lost => absurd lost alive⟩ ⟨rfl, rfl⟩ rfl rfl
      (fun _ => rfl) rfl ⟨counted, fun _ => rfl, placed, rfl⟩

theorem init_coherent (at_pc : (s.cpus i).pc = .init) : Coherent (step header s i result) := by
  obtain ⟨counted, initOk, placed⟩ := h.placed i
  rw [at_pc] at placed
  have alive : ¬ Lost (s.cpus i) := not_lost (by simp [at_pc])
  have entered : (s.cpus i).hasEntered = true := has_entered at_pc
  simp only [step, at_pc]
  cases result with
  | error e => exact fail_coherent h entered alive (Or.inl placed.1)
  | ok _ =>
    exact entered_coherent h entered ⟨rfl, id, id, id, fun lost => absurd lost alive⟩ ⟨rfl, rfl⟩ rfl rfl
      h.early rfl ⟨fun _ => rfl, fun _ => placed.2, placed.1, rfl⟩

theorem step_coherent : Coherent (step header s i result) := by
  obtain ⟨counted, initOk, placed⟩ := h.placed i
  cases at_pc : (s.cpus i).pc with
  | checkMaxCpus => exact check_coherent h at_pc
  | enterCpus =>
    simp only [step, at_pc]
    exact enter_coherent h at_pc
  | waitFor barrier poll => exact wait_coherent h at_pc
  | primaryInitEarly => exact early_coherent h at_pc
  | init => exact init_coherent h at_pc
  | countInited =>
    simp only [step, at_pc]
    exact count_coherent h at_pc
  | primaryInitLate | activateVmm =>
    rw [at_pc] at placed
    have alive : ¬ Lost (s.cpus i) := not_lost (by simp [at_pc])
    have entered : (s.cpus i).hasEntered = true := has_entered at_pc
    simp only [step, at_pc]
    refine entered_coherent h entered ⟨rfl, id, id, id, fun lost => absurd lost alive⟩ ⟨rfl, rfl⟩ rfl rfl h.early
      rfl ⟨counted, initOk, onward_everyone ⟨rfl, id, id, id, fun lost => absurd lost alive⟩ placed⟩
  | guest | returned _ =>
    simp only [step, at_pc]
    exact h
  | storeError e =>
    rw [at_pc] at placed
    have entered : (s.cpus i).hasEntered = true := has_entered at_pc
    have on : Onward s { s.goto i .loadError with errorNum := e.code } i { s.cpus i with pc := .loadError } :=
      ⟨rfl, id, fun _ => code_nonzero e, id, fun lost => ⟨lost.1, trivial⟩⟩
    simp only [step, at_pc]
    exact steady_coherent h on ⟨rfl, rfl⟩ entered.symm rfl h.early
      (fun _ => onward_lost on placed) ⟨counted, initOk, onward_lost on placed⟩
  | loadError =>
    rw [at_pc] at placed
    have entered : (s.cpus i).hasEntered = true := has_entered at_pc
    have on : Onward s (s.goto i (.returned s.errorNum)) i { s.cpus i with pc := .returned s.errorNum } :=
      ⟨rfl, id, id, id, fun lost => ⟨lost.1, trivial⟩⟩
    simp only [step, at_pc]
    exact goto_coherent h entered.symm on.lost ⟨counted, initOk, onward_lost on placed⟩

end

end Steps

theorem power_on_coherent : Coherent (powerOn n) where
  entered := (passed_none Cpu.hasEntered fun _ => rfl).symm
  inited := (passed_none Cpu.counted fun _ => rfl).symm
  early := fun raised => absurd rfl raised
  error := fun raised => absurd rfl raised
  placed := fun _ => ⟨id, id, rfl⟩

theorem starting_coherent {header : HvHeader} {s : System header.vmCpus.toNat}
    (reach : Reachable (starting header) s) : Coherent s := by
  apply reachable_invariant Coherent _ _ reach
  · intro first start
    cases start
    exact power_on_coherent
  intro s a t h taken
  cases taken
  exact step_coherent h

theorem step_others (header : HvHeader) (s : System n) (other : j ≠ i) (result : Except HvErrorNum Unit) :
    (step header s i result).cpus j = s.cpus j := by
  have goto : ∀ pc, (s.goto i pc).cpus j = s.cpus j := fun _ => Function.update_of_ne other _ _
  have put : ∀ c, (s.put i c).cpus j = s.cpus j := fun _ => Function.update_of_ne other _ _
  cases at_pc : (s.cpus i).pc with
  | checkMaxCpus | primaryInitEarly | init =>
    simp only [step, at_pc]
    split <;> first | exact goto _ | exact put _
  | waitFor barrier poll =>
    cases poll <;> simp only [step, at_pc] <;> split <;> exact goto _
  | enterCpus | countInited =>
    simp only [step, at_pc]
    exact put _
  | primaryInitLate | activateVmm | storeError _ | loadError =>
    simp only [step, at_pc]
    exact goto _
  | guest | returned _ => simp only [step, at_pc]

theorem returned_stays {header : HvHeader} {s t : System header.vmCpus.toNat}
    {path : List (Fin header.vmCpus.toNat × Except HvErrorNum Unit)} (run : Run (starting header) s path t)
    {i : Fin header.vmCpus.toNat} (back : (s.cpus i).pc = .returned code) : (t.cpus i).pc = .returned code := by
  apply run_preserves (fun s => (s.cpus i).pc = .returned code) _ run back
  rintro s ⟨k, result⟩ t at_pc rfl
  by_cases here : i = k
  · subst here
    simp only [step, at_pc]
  · rw [step_others header s here]
    exact at_pc

theorem activated_stays {header : HvHeader} {s t : System header.vmCpus.toNat}
    {path : List (Fin header.vmCpus.toNat × Except HvErrorNum Unit)} (run : Run (starting header) s path t)
    {i : Fin header.vmCpus.toNat} (active : Activates (s.cpus i).pc) : Activates (t.cpus i).pc := by
  apply run_preserves (fun s => Activates (s.cpus i).pc) _ run active
  rintro s ⟨k, result⟩ t active rfl
  by_cases here : i = k
  · subst here
    cases at_pc : (s.cpus i).pc with
    | activateVmm => simp [step, at_pc, System.goto, System.put, Activates]
    | guest => simp [step, at_pc, Activates]
    | _ =>
      rw [at_pc] at active
      exact active.elim
  · rw [step_others header s here]
    exact active

theorem active_everyone {n : Nat} {s : System n} (h : Coherent s) {i : Fin n}
    (active : Activates (s.cpus i).pc) : Everyone s := by
  have placed := (h.placed i).2.2
  cases at_pc : (s.cpus i).pc with
  | activateVmm | guest =>
    rw [at_pc] at placed
    exact placed
  | _ =>
    rw [at_pc] at active
    exact active.elim

theorem not_both {n : Nat} {s : System n} (h : Coherent s) {i j : Fin n} {code : BitVec 32}
    (back : (s.cpus i).pc = .returned code) : ¬ Activates (s.cpus j).pc := by
  intro active
  have placed := (h.placed i).2.2
  rw [back] at placed
  obtain ⟨k, uncounted, _⟩ := placed
  rw [active_everyone h active k] at uncounted
  cases uncounted

/-- A CPU reaches `activate_vmm` only after the primary's early initialisation and the
    `PerCpu::init` of every CPU have succeeded. If some CPU returns an error code to the
    driver, no CPU reaches `activate_vmm`, earlier or later. -/
theorem start_all_or_nothing {header : HvHeader} {s : System header.vmCpus.toNat}
    (reach : Reachable (starting header) s) :
    (∀ i, Activates (s.cpus i).pc → s.earlyDone = true ∧ ∀ j, (s.cpus j).initOk = true) ∧
    (∀ path t, Run (starting header) s path t → ∀ i code, code ≠ 0 →
      ((s.cpus i).pc = .returned code → ∀ j, ¬ Activates (t.cpus j).pc) ∧
      ((t.cpus i).pc = .returned code → ∀ j, ¬ Activates (s.cpus j).pc)) := by
  have h := starting_coherent reach
  constructor
  · intro i active
    have everyone := active_everyone h active
    have ready : ∀ j, (s.cpus j).initOk = true := fun j => (h.placed j).1 (everyone j)
    exact ⟨(h.placed i).2.1 (ready i), ready⟩
  intro path t run i code _
  have later : Coherent t :=
    run_preserves Coherent (fun s a t h taken => by cases taken; exact step_coherent h) run h
  exact ⟨fun back j => not_both later (returned_stays run back),
    fun back j active => not_both later back (activated_stays run active)⟩

def oneCpu : HvHeader := ⟨1, 0⟩

def onlyCpu : Fin oneCpu.vmCpus.toNat := ⟨0, by decide⟩

def bootSteps (k : Nat) : System oneCpu.vmCpus.toNat :=
  k.repeat (fun s => step oneCpu s onlyCpu (.ok ())) (powerOn oneCpu.vmCpus.toNat)

theorem boot_steps_reachable : Reachable (starting oneCpu) (bootSteps k) := by
  induction k with
  | zero => exact reachable_start rfl
  | succ k ih => exact reachable_next (a := (onlyCpu, .ok ())) ih rfl

theorem one_cpu_starts : Activates ((bootSteps 12).cpus onlyCpu).pc ∧
    (bootSteps 12).earlyDone = true ∧ ((bootSteps 12).cpus onlyCpu).initOk = true := by
  have active : Activates ((bootSteps 12).cpus onlyCpu).pc := by decide
  obtain ⟨early, ready⟩ := (start_all_or_nothing (boot_steps_reachable)).1 onlyCpu active
  exact ⟨active, early, ready onlyCpu⟩

end RtosRvmStartup
