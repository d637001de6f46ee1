import CompositeRtos.Lib.Transition

/-!
The lock of the task manager across context switches (`sync/spin.rs`, `task/manager.rs` and
`task/structs.rs`). A task takes the lock in `yield_now` or `exit`, switches with it to
another task, and that one releases it: with its own guard when it has been suspended in
`yield_now`, or by force in `task_entry` when it runs for the first time. One CPU is modelled
with its interrupt flag, instruction by instruction, so that an interrupt handler that yields
can come between any two of them.
-/
namespace RtosNimbosLockHandoff
open RtosTransition

inductive Kind where
  | yieldNow
  | exit
  | spawn (task : Nat)

/-- What a task is in the middle of, and where: the innermost comes first in its stack.
    `called` is the interrupt flag at the call; only `before` is in the source. -/
inductive Frame where
  /-- A trap: an interrupt handler or a system call. -/
  | trap
  /-- In `spin_lock_irqsave`, before `irqs_disabled()`. -/
  | sampling (called : Bool) (kind : Kind)
  /-- Before `disable_irqs()`. -/
  | sampled (called before : Bool) (kind : Kind)
  /-- Before `compare_exchange_weak`. -/
  | trying (called before : Bool) (kind : Kind)
  /-- In `yield_current`, `exit_current` or `spawn`, with the guard. -/
  | holding (called before : Bool) (kind : Kind)
  /-- In `spin_unlock_irqrestore`, before `lock.store(false)`. -/
  | dropping (called before : Bool)
  /-- Before the conditional `enable_irqs()`. -/
  | restoring (called before : Bool)
  /-- Before the return from the call. -/
  | returning (called : Bool)
  /-- In `task_entry`, before `force_unlock()`. -/
  | entryUnlock
  /-- In `task_entry`, before `enable_irqs()`. -/
  | entryIrqs

/-- A suspended task has been left in `switch_to`, with its guard and what is below. -/
inductive Status where
  | unborn
  | fresh
  | running
  | suspended (called before : Bool) (below : List Frame)
  | zombie

inductive Event where
  | attempt (held : Bool)
  | acquire
  | release
  | switch (lock irqs : Bool)
  | returned (called now : Bool)
deriving DecidableEq

/-- The history comes newest first. -/
structure Cpu where
  irqs : Bool
  lock : Bool
  current : Nat
  frames : List Frame
  tasks : Nat → Status
  history : List Event

inductive Action where
  | trap
  | iret
  | setIrqs (on : Bool)
  | call (kind : Kind)
  | advance
  | pick (next : Nat)

def isCode : List Frame → Bool
  | [] => true
  | .trap :: _ => true
  | _ => false

def Cpu.setTask (cpu : Cpu) (task : Nat) (status : Status) : Cpu :=
  { cpu with tasks := fun n => if n = task then status else cpu.tasks n }

def Cpu.log (cpu : Cpu) (event : Event) : Cpu := { cpu with history := event :: cpu.history }

def switchTo (cpu : Cpu) (status : Status) (next : Nat) : Option Cpu :=
  let left := ((cpu.log (.switch cpu.lock cpu.irqs)).setTask cpu.current status).setTask next .running
  match cpu.tasks next with
  | .fresh => some { left with current := next, frames := [.entryUnlock] }
  | .suspended called before below => some { left with current := next, frames := .dropping called before :: below }
  | _ => none

def advance (cpu : Cpu) : Option Cpu :=
  match cpu.frames with
  | .sampling called kind :: rest => some { cpu with frames := .sampled called cpu.irqs kind :: rest }
  | .sampled called before kind :: rest =>
    some { cpu with irqs := false, frames := .trying called before kind :: rest }
  | .trying called before kind :: rest =>
    if cpu.lock then some (cpu.log (.attempt true))
    else some { (cpu.log (.attempt false)).log .acquire with
      lock := true, frames := .holding called before kind :: rest }
  | .holding called before (.spawn task) :: rest =>
    match cpu.tasks task with
    | .unborn => some { cpu.setTask task .fresh with frames := .dropping called before :: rest }
    | _ => none
  | .dropping called before :: rest =>
    some { cpu.log .release with lock := false, frames := .restoring called before :: rest }
  | .restoring called before :: rest =>
    some { cpu with irqs := if before then true else cpu.irqs, frames := .returning called :: rest }
  | .returning called :: rest => some { cpu.log (.returned called cpu.irqs) with frames := rest }
  | .entryUnlock :: rest => some { cpu.log .release with lock := false, frames := .entryIrqs :: rest }
  | .entryIrqs :: rest => some { cpu with irqs := true, frames := rest }
  | _ => none

def pick (cpu : Cpu) (next : Nat) : Option Cpu :=
  match cpu.frames with
  | .holding called before .yieldNow :: rest =>
    if next = cpu.current then some { cpu with frames := .dropping called before :: rest }
    else switchTo cpu (.suspended called before rest) next
  | .holding _ _ .exit :: _ => if next = cpu.current then none else switchTo cpu .zombie next
  | _ => none

def step (cpu : Cpu) : Action → Option Cpu
  -- a trap comes from code with interrupts on, and `iret` sets the flag again
  | .trap => if cpu.irqs then some { cpu with irqs := false, frames := .trap :: cpu.frames } else none
  | .iret =>
    match cpu.frames with
    | .trap :: rest => some { cpu with irqs := true, frames := rest }
    | _ => none
  | .setIrqs on => if isCode cpu.frames then some { cpu with irqs := on } else none
  | .call kind => if isCode cpu.frames then some { cpu with frames := .sampling cpu.irqs kind :: cpu.frames } else none
  | .advance => advance cpu
  | .pick next => pick cpu next

def machine : Machine Cpu Action where
  start cpu := cpu.lock = false ∧ cpu.frames = [] ∧ cpu.history = [] ∧
    ∀ task, if task = cpu.current then cpu.tasks task = .running
      else cpu.tasks task = .unborn ∨ cpu.tasks task = .fresh
  next cpu action cpu' := step cpu action = some cpu'

/-! The invariant. -/

def interruptible : List Frame → Prop
  | [] => True
  | .trap :: _ => True
  | .sampling called _ :: _ => called = true
  | .sampled called before _ :: _ => called = true ∧ before = true
  | .returning called :: _ => called = true
  | _ => False

def Stacked : List Frame → Prop
  | [] => True
  | .trap :: rest => interruptible rest ∧ Stacked rest
  | _ :: rest => isCode rest ∧ Stacked rest

def Phase (irqs lock : Bool) : List Frame → Prop
  | [] => lock = false
  | .trap :: _ => lock = false
  | .sampling called _ :: _ => lock = false ∧ irqs = called
  | .sampled called before _ :: _ => lock = false ∧ irqs = called ∧ before = called
  | .trying called before _ :: _ => lock = false ∧ irqs = false ∧ before = called
  | .holding called before _ :: _ => lock = true ∧ irqs = false ∧ before = called
  | .dropping called before :: _ => lock = true ∧ irqs = false ∧ before = called
  | .restoring called before :: _ => lock = false ∧ irqs = false ∧ before = called
  | .returning called :: _ => lock = false ∧ irqs = called
  | .entryUnlock :: _ => lock = true ∧ irqs = false
  | .entryIrqs :: _ => lock = false ∧ irqs = false

def Paired : List Event → Bool → Prop
  | [], held => held = false
  | .acquire :: older, held => held = true ∧ Paired older false
  | .release :: older, held => held = false ∧ Paired older true
  | _ :: older, held => Paired older held

def Fine : Event → Prop
  | .attempt held => held = false
  | .switch lock irqs => lock = true ∧ irqs = false
  | .returned called now => now = called
  | _ => True

def Resumable : Status → Prop
  | .suspended called before below => before = called ∧ isCode below ∧ Stacked below
  | _ => True

structure Sound (cpu : Cpu) : Prop where
  phase : Phase cpu.irqs cpu.lock cpu.frames
  stacked : Stacked cpu.frames
  guards : ∀ task, Resumable (cpu.tasks task)
  paired : Paired cpu.history cpu.lock
  fine : ∀ event ∈ cpu.history, Fine event

theorem interruptible_of_on (phase : Phase true lock frames) : interruptible frames ∧ lock = false := by
  cases frames with
  | nil => exact ⟨trivial, phase⟩
  | cons frame rest => cases frame <;> simp_all [Phase, interruptible]

theorem phase_of_interruptible (h : interruptible frames) : Phase true false frames := by
  cases frames with
  | nil => rfl
  | cons frame rest => cases frame <;> simp_all [Phase, interruptible]

theorem phase_of_code (code : isCode frames = true) (irqs lock : Bool) : Phase irqs lock frames ↔ lock = false := by
  cases frames with
  | nil => exact Iff.rfl
  | cons frame rest =>
    cases frame with
    | trap => exact Iff.rfl
    | _ => cases code

theorem guards_set {cpu : Cpu} (guards : ∀ task, Resumable (cpu.tasks task)) (resumable : Resumable status)
    (task n : Nat) : Resumable ((cpu.setTask task status).tasks n) := by
  by_cases same : n = task
  · simpa only [Cpu.setTask, if_pos same] using resumable
  · simpa only [Cpu.setTask, if_neg same] using guards n

theorem fine_log (fine : ∀ e ∈ history, Fine e) (new : Fine event) : ∀ e ∈ event :: history, Fine e := by
  intro e member
  rcases List.mem_cons.mp member with rfl | old
  · exact new
  · exact fine e old

section Steps

variable {cpu cpu' : Cpu} (sound : Sound cpu)

include sound

theorem trap_sound (run : step cpu .trap = some cpu') : Sound cpu' := by
  rw [step] at run
  split at run
  · rename_i on
    cases run
    obtain ⟨interrupted, free⟩ := interruptible_of_on (on ▸ sound.phase)
    exact ⟨free, ⟨interrupted, sound.stacked⟩, sound.guards, sound.paired, sound.fine⟩
  · cases run

theorem iret_sound (run : step cpu .iret = some cpu') : Sound cpu' := by
  have phase := sound.phase
  have stacked := sound.stacked
  rw [step] at run
  split at run
  · rename_i rest shape
    cases run
    rw [shape] at phase stacked
    have free : cpu.lock = false := phase
    refine ⟨?_, stacked.2, sound.guards, sound.paired, sound.fine⟩
    change Phase true cpu.lock rest
    rw [free]
    exact phase_of_interruptible stacked.1
  · cases run

theorem set_irqs_sound (run : step cpu (.setIrqs on) = some cpu') : Sound cpu' := by
  rw [step] at run
  split at run
  · rename_i code
    cases run
    have free := (phase_of_code code cpu.irqs cpu.lock).mp sound.phase
    exact ⟨(phase_of_code code on cpu.lock).mpr free, sound.stacked, sound.guards, sound.paired, sound.fine⟩
  · cases run

theorem call_sound (run : step cpu (.call kind) = some cpu') : Sound cpu' := by
  rw [step] at run
  split at run
  · rename_i code
    cases run
    have free := (phase_of_code code cpu.irqs cpu.lock).mp sound.phase
    exact ⟨⟨free, rfl⟩, ⟨code, sound.stacked⟩, sound.guards, sound.paired, sound.fine⟩
  · cases run

theorem advance_sound (run : step cpu .advance = some cpu') : Sound cpu' := by
  have phase := sound.phase
  have stacked := sound.stacked
  have paired := sound.paired
  rw [step, advance] at run
  cases shape : cpu.frames with
  | nil =>
    rw [shape] at run
    cases run
  | cons frame rest =>
    rw [shape] at run phase stacked
    cases frame with
    | trap => cases run
    | sampling called kind =>
      cases run
      exact ⟨⟨phase.1, phase.2, phase.2⟩, stacked, sound.guards, paired, sound.fine⟩
    | sampled called before kind =>
      cases run
      exact ⟨⟨phase.1, rfl, phase.2.2⟩, stacked, sound.guards, paired, sound.fine⟩
    | trying called before kind =>
      simp only [phase.1] at run
      cases run
      rw [phase.1] at paired
      have attempt : Fine (.attempt false) := rfl
      exact ⟨⟨rfl, phase.2⟩, stacked, sound.guards, ⟨rfl, paired⟩, fine_log (fine_log sound.fine attempt) trivial⟩
    | holding called before kind =>
      cases kind with
      | yieldNow => cases run
      | exit => cases run
      | spawn task =>
        simp only at run
        split at run
        · cases run
          exact ⟨phase, stacked, guards_set sound.guards (show Resumable .fresh from trivial) task, paired, sound.fine⟩
        · cases run
    | dropping called before =>
      cases run
      rw [phase.1] at paired
      exact ⟨⟨rfl, phase.2⟩, stacked, sound.guards, ⟨rfl, paired⟩, fine_log sound.fine trivial⟩
    | restoring called before =>
      cases run
      obtain ⟨free, off, same⟩ := phase
      refine ⟨⟨free, ?_⟩, stacked, sound.guards, paired, sound.fine⟩
      rw [off, same]
      cases called <;> rfl
    | returning called =>
      cases run
      refine ⟨?_, stacked.2, sound.guards, paired, fine_log sound.fine phase.2⟩
      exact (phase_of_code stacked.1 _ _).mpr phase.1
    | entryUnlock =>
      cases run
      rw [phase.1] at paired
      exact ⟨⟨rfl, phase.2⟩, stacked, sound.guards, ⟨rfl, paired⟩, fine_log sound.fine trivial⟩
    | entryIrqs =>
      cases run
      exact ⟨(phase_of_code stacked.1 _ _).mpr phase.1, stacked.2, sound.guards, paired, sound.fine⟩

theorem switch_sound (held : cpu.lock = true) (off : cpu.irqs = false) (resumable : Resumable status)
    (run : switchTo cpu status next = some cpu') : Sound cpu' := by
  have left : ∀ n, Resumable (((cpu.log (.switch cpu.lock cpu.irqs)).setTask cpu.current status).tasks n) :=
    guards_set (by exact sound.guards) resumable cpu.current
  have guards := guards_set left (show Resumable .running from trivial) next
  have switched : ∀ e ∈ .switch cpu.lock cpu.irqs :: cpu.history, Fine e := fine_log sound.fine ⟨held, off⟩
  have guard := sound.guards next
  rw [switchTo] at run
  split at run
  · cases run
    exact ⟨⟨held, off⟩, ⟨rfl, trivial⟩, guards, sound.paired, switched⟩
  · rename_i called before below shape
    rw [shape] at guard
    cases run
    exact ⟨⟨held, off, guard.1⟩, guard.2, guards, sound.paired, switched⟩
  · cases run

theorem pick_sound (run : step cpu (.pick next) = some cpu') : Sound cpu' := by
  have phase := sound.phase
  have stacked := sound.stacked
  rw [step, pick] at run
  split at run
  · rename_i called before rest shape
    rw [shape] at phase stacked
    split at run
    · cases run
      exact ⟨phase, stacked, sound.guards, sound.paired, sound.fine⟩
    · have resumable : Resumable (.suspended called before rest) := ⟨phase.2.2, stacked⟩
      exact switch_sound sound phase.1 phase.2.1 resumable run
  · rename_i shape
    rw [shape] at phase
    split at run
    · cases run
    · exact switch_sound sound phase.1 phase.2.1 (show Resumable .zombie from trivial) run
  · cases run

theorem step_sound (run : step cpu action = some cpu') : Sound cpu' := by
  cases action with
  | trap => exact trap_sound sound run
  | iret => exact iret_sound sound run
  | setIrqs on => exact set_irqs_sound sound run
  | call kind => exact call_sound sound run
  | advance => exact advance_sound sound run
  | pick next => exact pick_sound sound run

end Steps

theorem reachable_sound (h : Reachable machine cpu) : Sound cpu := by
  apply reachable_invariant Sound _ _ h
  · rintro cpu ⟨free, idle, no_history, others⟩
    refine ⟨?_, ?_, ?_, ?_, ?_⟩
    · rw [idle]
      exact free
    · rw [idle]
      trivial
    · intro task
      have status := others task
      split at status
      · rw [status]
        trivial
      · rcases status with status | status <;> rw [status] <;> trivial
    · rw [no_history]
      exact free
    · simp [no_history]
  · intro cpu action cpu' sound run
    exact step_sound sound run

/-! What the history says. -/

theorem paired_older (paired : Paired (newer ++ older) held) : ∃ held', Paired older held' := by
  induction newer generalizing held with
  | nil => exact ⟨held, paired⟩
  | cons event newer ih =>
    cases event with
    | acquire => exact ih paired.2
    | release => exact ih paired.2
    | _ =>
      have older_paired : Paired (newer ++ older) held := paired
      exact ih older_paired

theorem releases_since (paired : Paired (between ++ .acquire :: older) held) (none_between : .acquire ∉ between) :
    between.count .release = if held then 0 else 1 := by
  induction between generalizing held with
  | nil =>
    rw [paired.1]
    rfl
  | cons event between ih =>
    have later : .acquire ∉ between := fun member => none_between (.tail _ member)
    cases event with
    | acquire => exact absurd (.head _) none_between
    | release =>
      rw [List.count_cons_self, ih paired.2 later, paired.1]
      rfl
    | _ =>
      rw [List.count_cons_of_ne (by simp)]
      exact ih paired later

structure HandedOver (history : List Event) : Prop where
  switches : ∀ lock irqs, .switch lock irqs ∈ history → lock = true ∧ irqs = false
  once : ∀ newer between older, history = newer ++ .acquire :: (between ++ .acquire :: older) →
    .acquire ∉ between → between.count .release = 1
  attempts : .attempt true ∉ history
  returns : ∀ called now, .returned called now ∈ history → now = called

/-- In every run the lock is handed over as it should be. -/
theorem lock_handed_over {cpu : Cpu} (h : Reachable machine cpu) : HandedOver cpu.history := by
  have sound := reachable_sound h
  refine ⟨?_, ?_, ?_, ?_⟩
  · intro lock irqs member
    exact sound.fine _ member
  · intro newer between older shape none_between
    obtain ⟨held, paired⟩ := paired_older (shape ▸ sound.paired)
    exact releases_since paired.2 none_between
  · intro member
    exact absurd (sound.fine _ member) (by simp [Fine])
  · intro called now member
    exact sound.fine _ member

/-- A task yields to a new one, whose timer interrupt gives the CPU back. -/
theorem yield_and_back :
    ∃ cpu, Reachable machine cpu ∧ HandedOver cpu.history ∧
      cpu.history = [.returned true true, .release, .switch true false, .acquire, .attempt false,
        .release, .switch true false, .acquire, .attempt false] := by
  let first : Cpu := ⟨true, false, 0, [], fun task => if task = 0 then .running else .fresh, []⟩
  have start : Reachable machine first := by
    apply reachable_start
    refine ⟨rfl, rfl, rfl, fun task => ?_⟩
    by_cases zero : task = 0 <;> simp [first, zero]
  let path : List Action := [.call .yieldNow, .advance, .advance, .advance, .pick 1, .advance, .advance,
    .trap, .call .yieldNow, .advance, .advance, .advance, .pick 0, .advance, .advance, .advance]
  have ends : (path.foldlM step first).map Cpu.history = some [.returned true true, .release, .switch true false,
    .acquire, .attempt false, .release, .switch true false, .acquire, .attempt false] := by decide
  obtain ⟨cpu, run, history⟩ := Option.map_eq_some_iff.mp ends
  have reached : Reachable machine cpu := reachable_follow (fun _ _ _ => id) start run
  exact ⟨cpu, reached, lock_handed_over reached, history⟩

end RtosNimbosLockHandoff
