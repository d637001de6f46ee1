import CompositeRtos.Rvm.CpuIds
import CompositeRtos.Rvm.Disable

/-!
The start of the hypervisor through its two shared counters. Through `ENTERED_CPUS` it is a
run of calls of `PerCpu::new`; through `ACTIVATED_CPUS` it is the beginning of the runs that
`hypervisor_disable` ends.
-/
namespace RtosRvmStartPhases
open RtosTransition Function RtosRvmStartup RtosRvmCpuIds
open RtosRvmDisable (disabling AfterActivation)

variable {header : HvHeader} {s : System header.vmCpus.toNat}

/-- What a step does to the CPU that takes it and to `ENTERED_CPUS` and `ACTIVATED_CPUS`. -/
inductive Moves (entered activated : BitVec 32) (before : Cpu) : Cpu → BitVec 32 → BitVec 32 → Prop
  | checks (at_pc : before.pc = .checkMaxCpus) :
      Moves entered activated before { before with pc := .enterCpus } entered activated
  | enters (at_pc : before.pc = .enterCpus) :
      Moves entered activated before { before with id := entered, pc := .waitFor .enteredCpus .hasErr }
        (entered + 1) activated
  | activates (at_pc : before.pc = .activateVmm) :
      Moves entered activated before { before with pc := .guest } entered (activated + 1)
  | stays {after : Cpu} (was : before.hasEntered = true) (still : after.hasEntered = true)
      (id : after.id = before.id) (guest : after.pc = .guest ↔ before.pc = .guest) :
      Moves entered activated before after entered activated

theorem step_moves (h : Coherent s) (i : Fin header.vmCpus.toNat) (result : Except HvErrorNum Unit) :
    ∃ c, (step header s i result).cpus = update s.cpus i c ∧
      Moves s.enteredCpus s.activatedCpus (s.cpus i) c (step header s i result).enteredCpus
        (step header s i result).activatedCpus := by
  cases at_pc : (s.cpus i).pc with
  | checkMaxCpus =>
    simp only [step, at_pc, if_neg (below_max h (has_entered at_pc))]
    exact ⟨_, rfl, .checks at_pc⟩
  | enterCpus =>
    simp only [step, at_pc]
    exact ⟨_, rfl, .enters at_pc⟩
  | activateVmm =>
    simp only [step, at_pc]
    exact ⟨_, rfl, .activates at_pc⟩
  | waitFor barrier poll =>
    have onward : ∀ primary, Cpu.hasEntered { s.cpus i with pc := afterBarrier primary barrier } = true ∧
        afterBarrier primary barrier ≠ .guest := by
      intro primary
      cases barrier <;> cases primary <;> exact ⟨rfl, by simp [afterBarrier]⟩
    cases poll <;> simp only [step, at_pc] <;> split <;>
      first
      | exact ⟨_, rfl, .stays (has_entered at_pc) rfl rfl (by simp [at_pc])⟩
      | exact ⟨_, rfl, .stays (has_entered at_pc) (onward _).1 rfl (by simp [at_pc, onward])⟩
  | guest | returned _ =>
    simp only [step, at_pc]
    exact ⟨_, (update_eq_self _ _).symm, .stays (has_entered at_pc) (has_entered at_pc) rfl Iff.rfl⟩
  | primaryInitEarly | init =>
    simp only [step, at_pc]
    split <;> exact ⟨_, rfl, .stays (has_entered at_pc) rfl rfl (by simp [at_pc])⟩
  | countInited | primaryInitLate | storeError _ | loadError =>
    simp only [step, at_pc]
    exact ⟨_, rfl, .stays (has_entered at_pc) rfl rfl (by simp [at_pc])⟩

theorem unseen {n : Nat} {s : System n} {View : Type} {view : Cpu → View} {c : Cpu} {i : Fin n}
    (same : view c = view (s.cpus i)) : update (view ∘ s.cpus) i (view c) = view ∘ s.cpus := by
  rw [same]
  exact update_eq_self i (view ∘ s.cpus)

/-- The call of `PerCpu::new` that a CPU makes; with no more CPUs than `max_cpus` none fails. -/
def callOf (c : Cpu) : Call :=
  if c.hasEntered then .ok c.id else if c.pc = .enterCpus then .fetchAdd else .load

def calls {n : Nat} (s : System n) : Callers n := ⟨s.enteredCpus, callOf ∘ s.cpus⟩

theorem start_calls (reach : Reachable (starting header) s) :
    Reachable (calling header.vmCpus.toNat header.maxCpus) (calls s) := by
  apply reachable_view calls _ _ reach
  · rintro s rfl
    rfl
  rintro s ⟨i, result⟩ t before rfl
  have h := starting_coherent before
  obtain ⟨c, moved, moves⟩ := step_moves h i result
  rw [show calls (step header s i result) = ⟨_, update (calls s).calls i (callOf c)⟩ by
    rw [calls, moved, comp_update]; rfl]
  generalize (step header s i result).enteredCpus = e, (step header s i result).activatedCpus = a at moves
  cases moves with
  | checks at_pc =>
    have here : (calls s).calls i = .load := by simp [calls, callOf, Cpu.hasEntered, at_pc]
    right
    refine ⟨i, ?_⟩
    simp only [calling, Callers.step, here]
    exact if_neg (below_max h (has_entered at_pc))
  | enters at_pc =>
    have here : (calls s).calls i = .fetchAdd := by simp [calls, callOf, Cpu.hasEntered, at_pc]
    right
    refine ⟨i, ?_⟩
    simp only [calling, Callers.step, here]
    rfl
  | activates at_pc => exact .inl (congrArg (Callers.mk _) (unseen (by simp [callOf, Cpu.hasEntered, at_pc])))
  | stays was still id => exact .inl (congrArg (Callers.mk _) (unseen (by simp [callOf, was, still, id])))

def bothCpus : HvHeader := ⟨2, 0⟩

def early : Fin bothCpus.vmCpus.toNat := ⟨0, by decide⟩

def late : Fin bothCpus.vmCpus.toNat := ⟨1, by decide⟩

def entries (path : List (Fin bothCpus.vmCpus.toNat)) : System bothCpus.vmCpus.toNat :=
  path.foldl (fun s i => step bothCpus s i (.ok ())) (powerOn bothCpus.vmCpus.toNat)

theorem entries_reachable (path : List (Fin bothCpus.vmCpus.toNat)) : Reachable (starting bothCpus) (entries path) := by
  induction path using List.reverseRecOn with
  | nil => exact reachable_start rfl
  | append_singleton rest i ih =>
    rw [entries, List.foldl_append]
    exact reachable_next (a := (i, .ok ())) ih rfl

def phase (c : Cpu) : RtosRvmDisable.Pc := if c.pc = .guest then .guest else .activateVmm

def handedOver {n : Nat} (s : System n) : RtosRvmDisable.System n := ⟨s.activatedCpus, 0, phase ∘ s.cpus⟩

/-- Every state of the start is, in what the CPUs inside the guest see, one that the runs of
    `disabling` begin with: `ACTIVATED_CPUS` is what `hypervisor_disable` takes it for. -/
theorem start_hands_over (reach : Reachable (starting header) s) :
    Reachable ((disabling header.vmCpus).guarded AfterActivation) (handedOver s) := by
  apply reachable_view handedOver _ _ reach
  · rintro s rfl
    rfl
  rintro s ⟨i, result⟩ t before rfl
  obtain ⟨c, moved, moves⟩ := step_moves (starting_coherent before) i result
  rw [show handedOver (step header s i result) = ⟨_, 0, update (handedOver s).pcs i (phase c)⟩ by
    rw [handedOver, moved, comp_update]; rfl]
  generalize (step header s i result).enteredCpus = e, (step header s i result).activatedCpus = a at moves
  cases moves with
  | activates at_pc =>
    have here : (handedOver s).pcs i = .activateVmm := by simp [handedOver, phase, at_pc]
    right
    refine ⟨(i, ⟨0, true⟩), by simp [AfterActivation, here], ?_⟩
    simp only [disabling, RtosRvmDisable.step, here]
    rfl
  | checks at_pc | enters at_pc =>
    exact .inl (congrArg (RtosRvmDisable.System.mk _ 0) (unseen (by simp [phase, at_pc])))
  | stays _ _ _ guest => exact .inl (congrArg (RtosRvmDisable.System.mk _ 0) (unseen (by simp only [phase, guest])))

theorem only_cpu_handed_over :
    Reachable ((disabling oneCpu.vmCpus).guarded AfterActivation) (handedOver (bootSteps 13)) ∧
      (handedOver (bootSteps 13)).pcs onlyCpu = .guest :=
  ⟨start_hands_over boot_steps_reachable, by decide⟩

end RtosRvmStartPhases
