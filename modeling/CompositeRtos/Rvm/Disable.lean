import CompositeRtos.Rvm.Startup

/-!
Switching the hypervisor off (`hypercall/mod.rs`, `percpu.rs`). Every CPU that makes the
call `HypervisorDisable` samples `ACTIVATED_CPUS`, counts itself in `TRY_DISABLE_CPUS` and
spins until that counter has reached its sample; then `deactivate_vmm` decrements the
counter that the others sample. Loads, stores, increments and decrements of the CPUs
interleave in any order.
-/
namespace RtosRvmDisable
open RtosTransition RtosAgents Function
open RtosRvmStartup (incremented)

inductive HyperCallCode where
  | hypervisorDisable | rtStart | rtShutdown
  deriving DecidableEq

def HyperCallCode.toU32 : HyperCallCode → BitVec 32
  | .hypervisorDisable => 0
  | .rtStart => 1
  | .rtShutdown => 2

def HyperCallCode.tryFrom (code : BitVec 32) : Option HyperCallCode :=
  [HyperCallCode.hypervisorDisable, .rtStart, .rtShutdown].find? fun c => c.toU32 == code

def HyperCallCode.isPrivileged (c : HyperCallCode) : Bool := c.toU32.extractLsb' 30 2 == 0

inductive Response where
  | unsupported
  | fault
  | call (code : HyperCallCode)
  deriving DecidableEq

def hypercall (code : BitVec 32) (guestIsPrivileged : Bool) : Response :=
  match HyperCallCode.tryFrom code with
  | none => .unsupported
  | some code =>
    if guestIsPrivileged then
      if !code.isPrivileged then .fault else .call code
    else if code.isPrivileged then .fault
    else .call code

/-- `loadActivated`, `count` and `spin` are the body of `hypervisor_disable`. -/
inductive Pc where
  | activateVmm
  | guest
  | loadActivated
  | count (cpus : BitVec 32)
  | spin (cpus : BitVec 32)
  | deactivateVmm
  | disabled
  deriving DecidableEq

structure System (n : Nat) where
  activatedCpus : BitVec 32
  tryDisableCpus : BitVec 32
  pcs : Fin n → Pc

section Model

variable {n : Nat}

def System.goto (s : System n) (i : Fin n) (pc : Pc) : System n :=
  { s with pcs := Function.update s.pcs i pc }

structure Call where
  code : BitVec 32
  privileged : Bool

def step (s : System n) (i : Fin n) (call : Call) : System n :=
  match s.pcs i with
  | .activateVmm => { s.goto i .guest with activatedCpus := s.activatedCpus + 1 }
  | .guest =>
    match hypercall call.code call.privileged with
    | .call .hypervisorDisable => s.goto i .loadActivated
    | _ => s
  | .loadActivated => s.goto i (.count s.activatedCpus)
  | .count cpus => { s.goto i (.spin cpus) with tryDisableCpus := s.tryDisableCpus + 1 }
  | .spin cpus => if s.tryDisableCpus < cpus then s else s.goto i .deactivateVmm
  | .deactivateVmm => { s.goto i .disabled with activatedCpus := s.activatedCpus - 1 }
  | .disabled => s

def Pc.isActive : Pc → Bool
  | .activateVmm => false
  | _ => true

def Pc.hasEntered : Pc → Bool
  | .activateVmm | .guest => false
  | _ => true

def Pc.isCounted : Pc → Bool
  | .spin _ | .deactivateVmm | .disabled => true
  | _ => false

def Pc.isLeaving : Pc → Bool
  | .deactivateVmm | .disabled => true
  | _ => false

/-- Nobody makes the call before all CPUs have executed `activate_vmm`. -/
def AfterActivation (s : System n) (a : Fin n × Call) : Prop :=
  s.pcs a.1 = .guest → hypercall a.2.code a.2.privileged = .call .hypervisorDisable →
    ∀ j, (s.pcs j).isActive = true

end Model

def disabling (cpus : BitVec 32) : Machine (System cpus.toNat) (Fin cpus.toNat × Call) where
  start s := s = ⟨0, 0, fun _ => .activateVmm⟩
  next s a t := t = step s a.1 a.2

section Invariant

variable {cpus : BitVec 32}

/-- The samples are all taken before the first decrement, so every one is the number of
    CPUs. -/
structure Waiting (s : System cpus.toNat) : Prop where
  activated : (∀ j, s.pcs j ≠ .disabled) → s.activatedCpus.toNat = passed Pc.isActive s.pcs
  tried : s.tryDisableCpus.toNat = passed Pc.isCounted s.pcs
  ready : ∀ i, (s.pcs i).hasEntered = true → ∀ j, (s.pcs j).isActive = true
  sample : ∀ i sampled, s.pcs i = .count sampled ∨ s.pcs i = .spin sampled → sampled = cpus
  together : ∀ i, (s.pcs i).isLeaving = true → ∀ j, (s.pcs j).isCounted = true

variable {s t : System cpus.toNat} {pc : Pc}

theorem moved_all (past : Pc → Bool) (moved : t.pcs = update s.pcs i pc) (here : past pc = true)
    (others : ∀ j, j ≠ i → past (s.pcs j) = true) (j : Fin cpus.toNat) : past (t.pcs j) = true := by
  rw [moved]
  by_cases same : j = i
  · rw [same, update_self]
    exact here
  · rw [update_of_ne same]
    exact others j same

theorem moved_cases (moved : t.pcs = update s.pcs i pc) (j : Fin cpus.toNat) :
    j = i ∧ t.pcs j = pc ∨ j ≠ i ∧ t.pcs j = s.pcs j := by
  rw [moved]
  by_cases same : j = i
  · left
    rw [same, update_self]
    exact ⟨rfl, rfl⟩
  right
  rw [update_of_ne same]
  exact ⟨same, rfl⟩

section

variable (h : Waiting s)
include h

theorem waiting_move (moved : t.pcs = update s.pcs i pc)
    (activated : (∀ j, t.pcs j ≠ .disabled) → t.activatedCpus.toNat = passed Pc.isActive t.pcs)
    (tried : t.tryDisableCpus.toNat = passed Pc.isCounted t.pcs) (active : pc.isActive = true)
    (entered : pc.hasEntered = true → ∀ j, (s.pcs j).isActive = true)
    (sample : ∀ sampled, pc = .count sampled ∨ pc = .spin sampled → sampled = cpus)
    (counted : (s.pcs i).isCounted = true → pc.isCounted = true)
    (leaving : pc.isLeaving = true → pc.isCounted = true ∧ ∀ j, (s.pcs j).isCounted = true) :
    Waiting t := by
  refine ⟨activated, tried, ?_, ?_, ?_⟩
  · intro k inside
    apply moved_all Pc.isActive moved active
    intro j _
    rcases moved_cases moved k with ⟨_, at_pc⟩ | ⟨_, at_pc⟩
    · rw [at_pc] at inside
      exact entered inside j
    · rw [at_pc] at inside
      exact h.ready k inside j
  · intro k sampled has
    rcases moved_cases moved k with ⟨_, at_pc⟩ | ⟨_, at_pc⟩
    · rw [at_pc] at has
      exact sample sampled has
    · rw [at_pc] at has
      exact h.sample k sampled has
  · intro k leaves
    rcases moved_cases moved k with ⟨_, at_pc⟩ | ⟨_, at_pc⟩
    · rw [at_pc] at leaves
      exact moved_all Pc.isCounted moved (leaving leaves).1 fun j _ => (leaving leaves).2 j
    · rw [at_pc] at leaves
      exact moved_all Pc.isCounted moved (counted (h.together k leaves i)) fun j _ => h.together k leaves j

theorem waiting_goto (at_pc : s.pcs i = old) (was : old.isActive = true)
    (active : pc.isActive = true) (tried : pc.isCounted = old.isCounted) (present : old ≠ .disabled)
    (entered : pc.hasEntered = true → ∀ j, (s.pcs j).isActive = true)
    (sample : ∀ sampled, pc = .count sampled ∨ pc = .spin sampled → sampled = cpus)
    (leaving : pc.isLeaving = true → ∀ j, (s.pcs j).isCounted = true) : Waiting (s.goto i pc) := by
  have moved : (s.goto i pc).pcs = update s.pcs i pc := rfl
  rw [← at_pc] at was tried present
  refine waiting_move h moved ?_ ?_ active entered sample (fun before => tried.trans before) ?_
  · intro nobody
    rw [moved, passed_same Pc.isActive (active.trans was.symm)]
    apply h.activated
    intro j gone
    rcases moved_cases moved j with ⟨same, _⟩ | ⟨_, place⟩
    · rw [same] at gone
      exact present gone
    · exact nobody j (place.trans gone)
  · rw [moved, passed_same Pc.isCounted tried]
    exact h.tried
  · intro leaves
    exact ⟨tried.trans (leaving leaves i), leaving leaves⟩

theorem nobody_disabled (uncounted : (s.pcs i).isCounted = false) (j : Fin cpus.toNat) : s.pcs j ≠ .disabled := by
  intro gone
  have counted := h.together j (by rw [gone]; rfl) i
  rw [uncounted] at counted
  cases counted

theorem sampled_all (at_pc : s.pcs i = .loadActivated) : s.activatedCpus = cpus := by
  have everyone : ∀ j, (s.pcs j).isActive = true := h.ready i (by rw [at_pc]; rfl)
  have value := h.activated (nobody_disabled (i := i) h (by rw [at_pc]; rfl))
  apply BitVec.eq_of_toNat_eq
  rw [value, passed_all Pc.isActive everyone, Fintype.card_fin]

theorem all_counted (at_pc : s.pcs i = .spin sampled) (reached : ¬ s.tryDisableCpus < sampled)
    (j : Fin cpus.toNat) : (s.pcs j).isCounted = true := by
  rw [h.sample i sampled (Or.inr at_pc), BitVec.lt_def, h.tried, Nat.not_lt] at reached
  exact all_passed Pc.isCounted (by rw [Fintype.card_fin]; exact reached) j

theorem count_waiting (at_pc : s.pcs i = .count sampled) :
    Waiting { s.goto i (.spin sampled) with tryDisableCpus := s.tryDisableCpus + 1 } := by
  have uncounted : (s.pcs i).isCounted = false := by rw [at_pc]; rfl
  have everyone : ∀ j, (s.pcs j).isActive = true := h.ready i (by rw [at_pc]; rfl)
  have room := passed_lt Pc.isCounted uncounted
  rw [Fintype.card_fin] at room
  refine waiting_move h rfl ?_ ?_ rfl (fun _ => everyone) ?_ (fun _ => rfl) nofun
  · intro _
    simp only [System.goto]
    rw [passed_same Pc.isActive (by rw [at_pc]; rfl)]
    exact h.activated (nobody_disabled h uncounted)
  · simp only [System.goto]
    rw [passed_cross Pc.isCounted uncounted rfl]
    exact incremented cpus.isLt h.tried room
  intro other same
  have eq : Pc.spin sampled = .spin other := same.resolve_left nofun
  cases eq
  exact h.sample i sampled (Or.inl at_pc)

theorem activate_waiting (at_pc : s.pcs i = .activateVmm) :
    Waiting { s.goto i .guest with activatedCpus := s.activatedCpus + 1 } := by
  have inactive : (s.pcs i).isActive = false := by rw [at_pc]; rfl
  have uncounted : (s.pcs i).isCounted = false := by rw [at_pc]; rfl
  have room := passed_lt Pc.isActive inactive
  rw [Fintype.card_fin] at room
  refine waiting_move h rfl ?_ ?_ rfl nofun nofun (fun was => by rw [uncounted] at was; cases was) nofun
  · intro _
    simp only [System.goto]
    rw [passed_cross Pc.isActive inactive rfl]
    exact incremented cpus.isLt (h.activated (nobody_disabled h uncounted)) room
  simp only [System.goto]
  rw [passed_same Pc.isCounted (by rw [at_pc]; rfl)]
  exact h.tried

theorem deactivate_waiting (at_pc : s.pcs i = .deactivateVmm) :
    Waiting { s.goto i .disabled with activatedCpus := s.activatedCpus - 1 } := by
  have counted : ∀ j, (s.pcs j).isCounted = true := h.together i (by rw [at_pc]; rfl)
  refine waiting_move h rfl ?_ ?_ rfl (fun _ => h.ready i (by rw [at_pc]; rfl)) nofun (fun _ => rfl)
    (fun _ => ⟨rfl, counted⟩)
  · intro nobody
    exact (nobody i (update_self (β := fun _ => Pc) i .disabled s.pcs)).elim
  simp only [System.goto]
  rw [passed_same Pc.isCounted (by rw [at_pc]; rfl)]
  exact h.tried

theorem step_waiting (call : Call) (ok : AfterActivation s (i, call)) :
    Waiting (step s i call) := by
  cases at_pc : s.pcs i with
  | activateVmm =>
    simp only [step, at_pc]
    exact activate_waiting h at_pc
  | guest =>
    simp only [step, at_pc]
    split
    · rename_i made
      exact waiting_goto h at_pc rfl rfl rfl nofun (fun _ => ok at_pc made) nofun nofun
    · exact h
  | loadActivated =>
    simp only [step, at_pc]
    have everyone : ∀ j, (s.pcs j).isActive = true := h.ready i (by rw [at_pc]; rfl)
    refine waiting_goto h at_pc rfl rfl rfl nofun (fun _ => everyone) ?_ nofun
    intro sampled same
    have eq : Pc.count s.activatedCpus = .count sampled := same.resolve_right nofun
    cases eq
    exact sampled_all h at_pc
  | count sampled =>
    simp only [step, at_pc]
    exact count_waiting h at_pc
  | spin sampled =>
    simp only [step, at_pc]
    split
    · exact h
    rename_i reached
    exact waiting_goto h at_pc rfl rfl rfl nofun (fun _ => h.ready i (by rw [at_pc]; rfl)) nofun
      (fun _ => all_counted h at_pc reached)
  | deactivateVmm =>
    simp only [step, at_pc]
    exact deactivate_waiting h at_pc
  | disabled =>
    simp only [step, at_pc]
    exact h

end

end Invariant

def Pc.behind : Pc → Nat
  | .loadActivated => 2
  | .count _ => 1
  | _ => 0

theorem counted_of_behind {pc : Pc} (entered : pc.hasEntered = true) (none_left : pc.behind = 0) :
    pc.isCounted = true := by
  cases pc with
  | activateVmm | guest => cases entered
  | loadActivated | count => cases none_left
  | spin | deactivateVmm | disabled => rfl

theorem step_others (s : System n) (other : j ≠ i) (call : Call) : (step s i call).pcs j = s.pcs j := by
  have goto : ∀ pc, (s.goto i pc).pcs j = s.pcs j := fun _ => update_of_ne other _ _
  cases at_pc : s.pcs i with
  | guest | spin =>
    simp only [step, at_pc]
    split
    · first | exact goto _ | rfl
    · first | exact goto _ | rfl
  | activateVmm | loadActivated | count | deactivateVmm =>
    simp only [step, at_pc]
    exact goto _
  | disabled => simp only [step, at_pc]

theorem step_own (s : System n) (call : Call) (entered : (s.pcs i).hasEntered = true) :
    ((step s i call).pcs i).hasEntered = true ∧ ((step s i call).pcs i).behind ≤ (s.pcs i).behind - 1 := by
  have goto : ∀ pc, (s.goto i pc).pcs i = pc := fun pc => update_self (β := fun _ => Pc) i pc s.pcs
  cases at_pc : s.pcs i with
  | activateVmm | guest =>
    rw [at_pc] at entered
    cases entered
  | loadActivated | count | deactivateVmm =>
    simp only [step, at_pc, goto]
    exact ⟨rfl, Nat.le_refl _⟩
  | spin =>
    simp only [step, at_pc]
    split
    · rw [at_pc]
      exact ⟨rfl, Nat.le_refl _⟩
    · rw [goto]
      exact ⟨rfl, Nat.le_refl _⟩
  | disabled =>
    simp only [step, at_pc]
    exact ⟨rfl, Nat.le_refl _⟩

theorem run_behind (run : Run ((disabling cpus).guarded ok) s path t) (entered : (s.pcs j).hasEntered = true) :
    (t.pcs j).hasEntered = true ∧ (t.pcs j).behind ≤ (s.pcs j).behind - (path.map Prod.fst).count j := by
  induction run with
  | nil => exact ⟨entered, Nat.le_refl _⟩
  | @snoc t u path a before last ih =>
    obtain ⟨_, rfl⟩ := last
    obtain ⟨inside, left⟩ := ih
    rw [List.map_append, List.count_append]
    by_cases own : a.1 = j
    · have moved := step_own t a.2 (i := a.1) (by rw [own]; exact inside)
      have once : (List.map Prod.fst [a]).count j = 1 := by simp [own]
      rw [own] at moved ⊢
      exact ⟨moved.1, by omega⟩
    have never : (List.map Prod.fst [a]).count j = 0 := by simp [own]
    rw [step_others t (Ne.symm own)]
    exact ⟨inside, by omega⟩

section Runs

variable {cpus : BitVec 32}

theorem disabling_waiting (reach : Reachable ((disabling cpus).guarded AfterActivation) s) : Waiting s := by
  apply reachable_invariant Waiting _ _ reach
  · intro first start
    cases start
    exact ⟨fun _ => (passed_none Pc.isActive fun _ => rfl).symm, (passed_none Pc.isCounted fun _ => rfl).symm,
      nofun, nofun, nofun⟩
  intro s a t h taken
  obtain ⟨ok, rfl⟩ := taken
  exact step_waiting h a.2 ok

theorem exit_of_counted (h : Waiting s) (counted : ∀ j, (s.pcs j).isCounted = true)
    (at_pc : s.pcs i = .spin sampled) : ¬ s.tryDisableCpus < sampled := by
  rw [h.sample i sampled (Or.inr at_pc), BitVec.lt_def, h.tried, passed_all Pc.isCounted counted, Fintype.card_fin]
  exact Nat.lt_irrefl _

/-- No CPU executes `deactivate_vmm` before all have entered `hypervisor_disable`. Once all
    are counted nobody spins with the exit condition false; and once all have entered, two
    steps of each CPU are enough for that, in whatever order and with whatever else between
    them. -/
theorem disable_waits_for_all {s : System cpus.toNat}
    (reach : Reachable ((disabling cpus).guarded AfterActivation) s) :
    (∀ i, (s.pcs i).isLeaving = true → ∀ j, (s.pcs j).hasEntered = true) ∧
    ((∀ j, (s.pcs j).isCounted = true) → ∀ i sampled, s.pcs i = .spin sampled → ¬ s.tryDisableCpus < sampled) ∧
    (∀ path t, Run ((disabling cpus).guarded AfterActivation) s path t → (∀ j, (s.pcs j).hasEntered = true) →
      (∀ j, 2 ≤ (path.map Prod.fst).count j) →
      ∀ i sampled, t.pcs i = .spin sampled → ¬ t.tryDisableCpus < sampled) := by
  have h := disabling_waiting reach
  refine ⟨?_, fun counted i sampled => exit_of_counted h counted, ?_⟩
  · intro i leaves j
    have counted := h.together i leaves j
    cases at_pc : s.pcs j with
    | activateVmm | guest =>
      rw [at_pc] at counted
      cases counted
    | _ => rfl
  · intro path t run entered often i sampled at_pc
    apply exit_of_counted (disabling_waiting (reachable_run reach run)) _ at_pc
    intro j
    obtain ⟨inside, left⟩ := run_behind run (entered j)
    apply counted_of_behind inside
    have most : (s.pcs j).behind ≤ 2 := by
      cases s.pcs j <;> simp [Pc.behind]
    have twice := often j
    omega

theorem user_call_refused (code : BitVec 32) (c : HyperCallCode) : hypercall code false ≠ .call c := by
  unfold hypercall
  cases HyperCallCode.tryFrom code with
  | none => simp
  | some known =>
    have privileged : known.isPrivileged = true := by cases known <;> rfl
    simp [privileged]

theorem user_step {s : System n} (user : call.privileged = false) (outside : ∀ j, (s.pcs j).hasEntered = false) :
    (∀ j, ((step s i call).pcs j).hasEntered = false) ∧ (step s i call).tryDisableCpus = s.tryDisableCpus := by
  have here := outside i
  cases at_pc : s.pcs i with
  | activateVmm =>
    simp only [step, at_pc, System.goto]
    refine ⟨fun j => ?_, trivial⟩
    rw [update_apply]
    split
    · rfl
    · exact outside j
  | guest =>
    have same : step s i call = s := by
      simp only [step, at_pc, user]
      split
      · rename_i accepted
        exact absurd accepted (user_call_refused _ _)
      · rfl
    rw [same]
    exact ⟨outside, rfl⟩
  | _ =>
    rw [at_pc] at here
    cases here

/-- However many CPUs call however often from user mode, no CPU enters `hypervisor_disable`. -/
theorem user_mode_never_disables {s t : System cpus.toNat} {path : List (Fin cpus.toNat × Call)}
    (run : Run (disabling cpus) s path t) (user : ∀ a ∈ path, a.2.privileged = false)
    (outside : ∀ j, (s.pcs j).hasEntered = false) :
    (∀ j, (t.pcs j).hasEntered = false) ∧ t.tryDisableCpus = s.tryDisableCpus := by
  induction run with
  | nil => exact ⟨outside, rfl⟩
  | snoc before last ih =>
    obtain ⟨kept, same⟩ := ih fun a member => user a (List.mem_append_left _ member)
    cases last
    obtain ⟨still, counter⟩ := user_step (user _ (List.mem_append_right _ (.head _))) kept
    exact ⟨still, counter.trans same⟩

end Runs

def twoCpus : BitVec 32 := 2

def fast : Fin twoCpus.toNat := ⟨0, by decide⟩

def slow : Fin twoCpus.toNat := ⟨1, by decide⟩

def disableCall : Call := ⟨HyperCallCode.hypervisorDisable.toU32, true⟩

def turn (i : Fin twoCpus.toNat) : Fin twoCpus.toNat × Call := (i, disableCall)

theorem user_calls_ignored :
    ∃ t, Run (disabling twoCpus) ⟨0, 0, fun _ => .activateVmm⟩ [(fast, ⟨0, false⟩), (fast, ⟨0, false⟩)] t ∧
      t.pcs fast = .guest ∧ (∀ j, (t.pcs j).hasEntered = false) ∧ t.tryDisableCpus = 0 := by
  have run : Run (disabling twoCpus) ⟨0, 0, fun _ => .activateVmm⟩ [(fast, ⟨0, false⟩), (fast, ⟨0, false⟩)] _ :=
    run_cons rfl (run_cons rfl .nil)
  exact ⟨_, run, by decide, user_mode_never_disables run (by decide) (fun _ => rfl)⟩

instance {n : Nat} (s : System n) (a : Fin n × Call) : Decidable (AfterActivation s a) := by
  unfold AfterActivation
  infer_instance

def activatedStep (s : System twoCpus.toNat) (a : Fin twoCpus.toNat × Call) :
    Option (System twoCpus.toNat) :=
  if AfterActivation s a then some (step s a.1 a.2) else none

theorem activated_step_allowed (s : System twoCpus.toNat) (a : Fin twoCpus.toNat × Call)
    (t : System twoCpus.toNat) (taken : activatedStep s a = some t) :
    ((disabling twoCpus).guarded AfterActivation).next s a t := by
  rw [activatedStep] at taken
  split at taken
  · rename_i ok
    cases taken
    exact ⟨ok, rfl⟩
  · cases taken

def entering : List (Fin twoCpus.toNat × Call) := [turn fast, turn slow, turn fast, turn slow]

def racing : List (Fin twoCpus.toNat × Call) := [turn fast, turn fast, turn slow, turn slow, turn fast, turn fast]

def bothPcs (s : System twoCpus.toNat) : Pc × Pc × BitVec 32 := (s.pcs fast, s.pcs slow, s.activatedCpus)

/-- One CPU has already decremented the counter; the other one still spins, and will leave. -/
theorem slow_cpu_leaves :
    ∃ s t, Reachable ((disabling twoCpus).guarded AfterActivation) s ∧
      Run ((disabling twoCpus).guarded AfterActivation) s racing t ∧
      bothPcs t = (.disabled, .spin 2, 1) ∧ ¬ t.tryDisableCpus < 2 := by
  have path : (entering.foldlM activatedStep ⟨0, 0, fun _ => .activateVmm⟩).bind (fun s =>
      (racing.foldlM activatedStep s).map fun t => (bothPcs s, bothPcs t)) =
        some ((.loadActivated, .loadActivated, 2), (.disabled, .spin 2, 1)) := by
    decide +kernel
  obtain ⟨s, first, rest⟩ := Option.bind_eq_some_iff.mp path
  obtain ⟨t, second, ends⟩ := Option.map_eq_some_iff.mp rest
  have reach : Reachable ((disabling twoCpus).guarded AfterActivation) s :=
    reachable_follow activated_step_allowed (reachable_start rfl) first
  have run := run_follow activated_step_allowed second
  have place : s.pcs fast = .loadActivated ∧ s.pcs slow = .loadActivated :=
    ⟨congrArg (fun e => e.1.1) ends, congrArg (fun e => e.1.2.1) ends⟩
  have entered : ∀ j, (s.pcs j).hasEntered = true := by
    intro j
    obtain ⟨k, small⟩ := j
    match k with
    | 0 =>
      change (s.pcs fast).hasEntered = true
      rw [place.1]
      rfl
    | 1 =>
      change (s.pcs slow).hasEntered = true
      rw [place.2]
      rfl
    | k + 2 => exact absurd small (Nat.not_lt.mpr (Nat.le_add_left 2 k))
  exact ⟨s, t, reach, run, congrArg Prod.snd ends,
    (disable_waits_for_all reach).2.2 racing t run entered (by decide) slow 2 (congrArg (fun e => e.2.2.1) ends)⟩

end RtosRvmDisable
