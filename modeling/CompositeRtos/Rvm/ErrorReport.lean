import CompositeRtos.Rvm.Startup

/-!
What the CPUs return to the driver when the start fails. `vm_cpu_entry` stores the code of
any error of `main` in `ERROR_NUM`, also the `EBUSY` that `wait_for` makes of an error it
has only seen, and then returns whatever it loads from there. The attempt records the
errors of the steps that failed themselves. Here `vcpu.enter` may come back: on Intel it
does with `EIO` when VMLAUNCH fails.
-/
namespace RtosRvmErrorReport
open RtosTransition RtosAgents RtosRvmStartup Function

structure Attempt (n : Nat) where
  system : System n
  failed : List HvErrorNum

section Model

variable {n : Nat}

def failure : Pc → Except HvErrorNum Unit → Option HvErrorNum
  | .primaryInitEarly, .error e | .init, .error e => some e
  | .activateVmm, .error _ => some .eio
  | _, _ => none

/-- `activate_vmm` when `vcpu.enter` fails: the CPU stays counted in `ACTIVATED_CPUS`. -/
def launchFails (s : System n) (i : Fin n) : System n :=
  { s.goto i (.storeError .eio) with activatedCpus := s.activatedCpus + 1 }

def attempt (header : HvHeader) (s : Attempt n) (i : Fin n) (result : Except HvErrorNum Unit) :
    Attempt n where
  system :=
    match (s.system.cpus i).pc, result with
    | .activateVmm, .error _ => launchFails s.system i
    | _, _ => step header s.system i result
  failed := (failure (s.system.cpus i).pc result).toList ++ s.failed

end Model

def reporting (header : HvHeader) :
    Machine (Attempt header.vmCpus.toNat) (Fin header.vmCpus.toNat × Except HvErrorNum Unit) where
  start s := s = ⟨powerOn header.vmCpus.toNat, []⟩
  next s a t := t = attempt header s a.1 a.2

section Effects

variable {n : Nat}

def Failing : Pc → Prop
  | .storeError _ | .loadError | .returned _ => True
  | _ => False

/-- What a step of CPU `i` does to the error word, the record of failures and the CPU's own
    place. -/
inductive Effect (s t : Attempt n) (i : Fin n) : Pc → Prop where
  | goesOn {pc : Pc} (running : ¬ Failing pc) (word : t.system.errorNum = s.system.errorNum)
      (failed : t.failed = s.failed) : Effect s t i pc
  | fails {e : HvErrorNum} (word : t.system.errorNum = s.system.errorNum)
      (failed : t.failed = e :: s.failed) : Effect s t i (.storeError e)
  | notices (raised : s.system.errorNum ≠ 0) (word : t.system.errorNum = s.system.errorNum)
      (failed : t.failed = s.failed) : Effect s t i (.storeError .ebusy)
  | stores {e : HvErrorNum} (at_pc : (s.system.cpus i).pc = .storeError e)
      (word : t.system.errorNum = e.code) (failed : t.failed = s.failed) : Effect s t i .loadError
  | loads (at_pc : (s.system.cpus i).pc = .loadError) (word : t.system.errorNum = s.system.errorNum)
      (failed : t.failed = s.failed) : Effect s t i (.returned s.system.errorNum)
  | stays {code : BitVec 32} (at_pc : (s.system.cpus i).pc = .returned code)
      (word : t.system.errorNum = s.system.errorNum) (failed : t.failed = s.failed) :
      Effect s t i (.returned code)

/-- The number of CPUs that entered is in the counter, so `PerCpu::new` refuses nobody. -/
def EnteredCount (s : System n) : Prop := s.enteredCpus.toNat = passed Cpu.hasEntered s.cpus

theorem entered_same (h : EnteredCount s) (moved : t.cpus = update s.cpus i c)
    (counter : t.enteredCpus = s.enteredCpus) (same : c.hasEntered = (s.cpus i).hasEntered) :
    EnteredCount t := by
  rw [EnteredCount, counter, moved, passed_same Cpu.hasEntered same]
  exact h

end Effects

section Steps

variable {header : HvHeader} {i : Fin header.vmCpus.toNat}

theorem not_refused (h : EnteredCount s) (outside : (s.cpus i).hasEntered = false) :
    ¬ s.enteredCpus ≥ header.maxCpus := by
  have room := passed_lt Cpu.hasEntered outside
  rw [Fintype.card_fin, ← h] at room
  have small := vm_cpus_le header
  rw [ge_iff_le, BitVec.le_def]
  omega

theorem step_entered (h : EnteredCount s) : EnteredCount (step header s i result) := by
  have inside : ∀ {pc}, (s.cpus i).pc = pc → (pc != .checkMaxCpus && pc != .enterCpus) = true →
      (s.cpus i).hasEntered = true := by
    intro pc at_pc past
    rw [Cpu.hasEntered, at_pc]
    exact past
  cases at_pc : (s.cpus i).pc with
  | checkMaxCpus =>
    have outside : (s.cpus i).hasEntered = false := by
      rw [Cpu.hasEntered, at_pc]
      rfl
    simp only [step, at_pc, if_neg (not_refused h outside)]
    exact entered_same h rfl rfl outside.symm
  | enterCpus =>
    have outside : (s.cpus i).hasEntered = false := by
      rw [Cpu.hasEntered, at_pc]
      rfl
    have room := passed_lt Cpu.hasEntered outside
    rw [Fintype.card_fin] at room
    simp only [step, at_pc]
    rw [EnteredCount, System.enter, System.put, passed_cross Cpu.hasEntered outside rfl]
    exact incremented header.vmCpus.isLt h room
  | waitFor barrier poll =>
    cases poll with
    | hasErr | condition =>
      simp only [step, at_pc]
      split <;> exact entered_same h rfl rfl (inside at_pc rfl).symm
    | verdict =>
      simp only [step, at_pc]
      split
      · exact entered_same h rfl rfl (inside at_pc rfl).symm
      · refine entered_same h rfl rfl (Eq.trans ?_ (inside at_pc rfl).symm)
        cases barrier <;> cases (s.cpus i).id == 0 <;> rfl
  | primaryInitEarly | init =>
    cases result <;> simp only [step, at_pc] <;> exact entered_same h rfl rfl (inside at_pc rfl).symm
  | countInited | primaryInitLate | activateVmm | storeError _ | loadError =>
    simp only [step, at_pc]
    exact entered_same h rfl rfl (inside at_pc rfl).symm
  | guest | returned _ =>
    simp only [step, at_pc]
    exact h

theorem attempt_eq_step (elsewhere : (s.system.cpus i).pc ≠ .activateVmm) :
    (attempt header s i result).system = step header s.system i result := by
  unfold attempt
  dsimp only
  split
  · contradiction
  · rfl

theorem attempt_entered (h : EnteredCount s.system) (result : Except HvErrorNum Unit) :
    EnteredCount (attempt header s i result).system := by
  by_cases at_pc : (s.system.cpus i).pc = .activateVmm
  · cases result with
    | error e =>
      simp only [attempt, at_pc]
      refine entered_same h rfl rfl ?_
      rw [Cpu.hasEntered, Cpu.hasEntered, at_pc]
      rfl
    | ok _ =>
      simp only [attempt, at_pc]
      exact step_entered h
  · rw [attempt_eq_step at_pc]
    exact step_entered h

theorem attempt_others (s : Attempt header.vmCpus.toNat) (other : j ≠ i) (result : Except HvErrorNum Unit) :
    (attempt header s i result).system.cpus j = s.system.cpus j := by
  unfold attempt
  dsimp only
  split
  · exact update_of_ne other _ _
  · exact step_others header s.system other _

theorem effect_at (moved : t.system.cpus = update s.system.cpus i c) (at_pc : c.pc = pc)
    (effect : Effect s t i pc) : Effect s t i (t.system.cpus i).pc := by
  rw [moved, update_self, at_pc]
  exact effect

theorem after_barrier_running : ¬ Failing (afterBarrier isPrimary barrier) := by
  cases barrier <;> cases isPrimary <;> exact id

theorem attempt_effect (h : EnteredCount s.system) (result : Except HvErrorNum Unit) :
    Effect s (attempt header s i result) i ((attempt header s i result).system.cpus i).pc := by
  cases at_pc : (s.system.cpus i).pc with
  | checkMaxCpus =>
    have outside : (s.system.cpus i).hasEntered = false := by
      rw [Cpu.hasEntered, at_pc]
      rfl
    simp only [attempt, at_pc, step, if_neg (not_refused h outside)]
    exact effect_at rfl rfl (.goesOn id rfl rfl)
  | waitFor barrier poll =>
    cases poll with
    | hasErr | condition =>
      simp only [attempt, at_pc, step]
      split <;> exact effect_at rfl rfl (.goesOn id rfl rfl)
    | verdict =>
      simp only [attempt, at_pc, step]
      split
      · rename_i raised
        exact effect_at rfl rfl (.notices raised rfl rfl)
      · exact effect_at rfl rfl (.goesOn (after_barrier_running) rfl rfl)
  | primaryInitEarly | init | activateVmm =>
    cases result with
    | ok _ =>
      simp only [attempt, at_pc, step]
      exact effect_at rfl rfl (.goesOn id rfl rfl)
    | error e =>
      simp only [attempt, at_pc, step]
      exact effect_at rfl rfl (.fails rfl rfl)
  | enterCpus | countInited | primaryInitLate =>
    simp only [attempt, at_pc, step]
    exact effect_at rfl rfl (.goesOn id rfl rfl)
  | guest =>
    simp only [attempt, at_pc, step]
    exact .goesOn id rfl rfl
  | storeError e =>
    simp only [attempt, at_pc, step]
    exact effect_at rfl rfl (.stores at_pc rfl rfl)
  | loadError =>
    simp only [attempt, at_pc, step]
    exact effect_at rfl rfl (.loads at_pc rfl rfl)
  | returned code =>
    simp only [attempt, at_pc, step]
    exact .stays at_pc rfl rfl

end Steps

section Agreement

variable {n : Nat}

/-- A CPU that stores an error over another one had a step that failed, and nobody stores
    another code once a CPU has returned. -/
def Truthful (s : Attempt n) (a : Fin n × Except HvErrorNum Unit) : Prop :=
  match (s.system.cpus a.1).pc with
  | .storeError e =>
    (s.system.errorNum = 0 ∨ e ∈ s.failed) ∧
      ∀ j, match (s.system.cpus j).pc with
        | .returned code => code = e.code
        | _ => True
  | _ => True

instance (s : Attempt n) (a : Fin n × Except HvErrorNum Unit) : Decidable (Truthful s a) := by
  unfold Truthful
  cases (s.system.cpus a.1).pc with
  | storeError e =>
    have (j : Fin n) : Decidable (match (s.system.cpus j).pc with | .returned code => code = e.code | _ => True) := by
      split <;> infer_instance
    dsimp only
    infer_instance
  | _ => exact instDecidableTrue

theorem truthful_store (ok : Truthful s a) (at_pc : (s.system.cpus a.1).pc = .storeError e) :
    (s.system.errorNum = 0 ∨ e ∈ s.failed) ∧ ∀ j code, (s.system.cpus j).pc = .returned code → code = e.code := by
  unfold Truthful at ok
  rw [at_pc] at ok
  refine ⟨ok.1, ?_⟩
  intro j code back
  have same := ok.2 j
  rw [back] at same
  exact same

def Told (s : Attempt n) : Pc → Prop
  | .storeError e => e ∈ s.failed ∨ s.system.errorNum ≠ 0
  | .loadError => s.system.errorNum ≠ 0
  | .returned code => code = s.system.errorNum ∧ code ≠ 0
  | _ => True

structure Agreed (s : Attempt n) : Prop where
  entered : EnteredCount s.system
  word : s.system.errorNum ≠ 0 → ∃ e ∈ s.failed, s.system.errorNum = e.code
  told : ∀ j, Told s (s.system.cpus j).pc

theorem told_running (running : ¬ Failing pc) : Told s pc := by
  cases pc with
  | storeError | loadError | returned => exact absurd trivial running
  | _ => trivial

theorem told_kept {t : Attempt n} (told : Told s pc) (failed : ∀ e ∈ s.failed, e ∈ t.failed)
    (raised : s.system.errorNum ≠ 0 → t.system.errorNum ≠ 0)
    (word : ∀ code, pc = .returned code → t.system.errorNum = s.system.errorNum) : Told t pc := by
  cases pc with
  | storeError e => exact told.imp (failed e) raised
  | loadError => exact raised told
  | returned code => exact ⟨told.1.trans (word code rfl).symm, told.2⟩
  | _ => trivial

theorem agreed_kept {t : Attempt n} (h : Agreed s) (entered : EnteredCount t.system)
    (others : ∀ j, j ≠ i → t.system.cpus j = s.system.cpus j) (word : t.system.errorNum = s.system.errorNum)
    (failed : ∀ e ∈ s.failed, e ∈ t.failed) (here : Told t (t.system.cpus i).pc) : Agreed t := by
  refine ⟨entered, ?_, ?_⟩
  · intro raised
    rw [word] at raised
    obtain ⟨e, known, code⟩ := h.word raised
    exact ⟨e, failed e known, word.trans code⟩
  intro j
  by_cases same : j = i
  · rw [same]
    exact here
  · rw [others j same]
    exact told_kept (h.told j) failed (fun raised => by rw [word]; exact raised) fun _ _ => word

end Agreement

section Runs

variable {header : HvHeader}

theorem attempt_agreed {a : Fin header.vmCpus.toNat × Except HvErrorNum Unit} (h : Agreed s) (ok : Truthful s a) :
    Agreed (attempt header s a.1 a.2) := by
  have entered := attempt_entered (i := a.1) h.entered a.2
  have others := fun j other => attempt_others (i := a.1) (j := j) s other a.2
  have effect := attempt_effect (i := a.1) h.entered a.2
  have told := h.told a.1
  generalize attempt header s a.1 a.2 = t at entered others effect
  generalize place : (t.system.cpus a.1).pc = pc at effect
  cases effect with
  | goesOn running word failed =>
    apply agreed_kept h entered others word (by simp [failed])
    rw [place]
    exact told_running running
  | fails word failed =>
    apply agreed_kept h entered others word (fun e known => by rw [failed]; exact .tail _ known)
    rw [place]
    left
    rw [failed]
    exact .head _
  | notices raised word failed =>
    apply agreed_kept h entered others word (by simp [failed])
    rw [place]
    right
    rw [word]
    exact raised
  | loads at_pc word failed =>
    apply agreed_kept h entered others word (by simp [failed])
    rw [place]
    rw [at_pc] at told
    exact ⟨word.symm, told⟩
  | stays at_pc word failed =>
    apply agreed_kept h entered others word (by simp [failed])
    rw [place]
    rw [at_pc] at told
    exact ⟨told.1.trans word.symm, told.2⟩
  | @stores e at_pc word failed =>
    -- the first store is of a failed step, because nobody notices an error before it
    obtain ⟨honest, returned⟩ := truthful_store ok at_pc
    rw [at_pc] at told
    have own : e ∈ s.failed := by
      rcases honest with clear | known
      · exact told.resolve_right (not_not.mpr clear)
      · exact known
    refine ⟨entered, fun _ => ⟨e, by rw [failed]; exact own, word⟩, ?_⟩
    have raised : t.system.errorNum ≠ 0 := by
      rw [word]
      exact code_nonzero e
    intro j
    by_cases same : j = a.1
    · rw [same, place]
      exact raised
    rw [others j same]
    apply told_kept (h.told j) (by simp [failed]) (fun _ => raised)
    intro code back
    have kept := h.told j
    rw [back] at kept
    rw [word, ← returned j code back, kept.1]

theorem reporting_agreed (reach : Reachable ((reporting header).guarded Truthful) s) : Agreed s := by
  apply reachable_invariant Agreed _ _ reach
  · intro first start
    cases start
    exact ⟨(passed_none Cpu.hasEntered fun _ => rfl).symm, fun raised => absurd rfl raised, fun _ => trivial⟩
  intro s a t h taken
  obtain ⟨ok, rfl⟩ := taken
  exact attempt_agreed h ok

end Runs

def twoCpus : HvHeader := ⟨2, 0⟩

def primary : Fin twoCpus.vmCpus.toNat := ⟨0, by decide⟩

def secondary : Fin twoCpus.vmCpus.toNat := ⟨1, by decide⟩

def steps (i : Fin twoCpus.vmCpus.toNat) (k : Nat) : List (Fin twoCpus.vmCpus.toNat × Except HvErrorNum Unit) :=
  List.replicate k (i, .ok ())

def truthfulAttempt (s : Attempt twoCpus.vmCpus.toNat) (a : Fin twoCpus.vmCpus.toNat × Except HvErrorNum Unit) :
    Option (Attempt twoCpus.vmCpus.toNat) :=
  if Truthful s a then some (attempt twoCpus s a.1 a.2) else none

def outcome (s : Attempt twoCpus.vmCpus.toNat) : Pc × Pc × List HvErrorNum :=
  ((s.system.cpus primary).pc, (s.system.cpus secondary).pc, s.failed)

def bothFail : List (Fin twoCpus.vmCpus.toNat × Except HvErrorNum Unit) :=
  steps primary 2 ++ steps secondary 2 ++ steps primary 4 ++ steps secondary 6 ++
    [(primary, .error .enomem), (secondary, .error .eio)] ++ steps primary 1 ++ steps secondary 2 ++
    steps primary 1

def primaryFails : List (Fin twoCpus.vmCpus.toNat × Except HvErrorNum Unit) :=
  steps primary 2 ++ steps secondary 2 ++ steps primary 3 ++ steps secondary 3 ++
    [(primary, .error .enomem)] ++ steps primary 2 ++ steps secondary 4

end RtosRvmErrorReport
