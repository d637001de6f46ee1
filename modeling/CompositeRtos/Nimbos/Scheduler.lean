import CompositeRtos.Nimbos.TaskInvariant

/-!
Runs of the scheduler. Every step the running task may take succeeds, whatever happened
before, as long as `NEXT_PID` has not wrapped: task creation is unbounded, so after 2^64 - 1
allocations a task receives the idle task's pid and fails the assertions meant for it.
-/
namespace RtosNimbosScheduler
open RtosTransition RtosNimbosTask RtosNimbosTaskInvariant

def FreshPid (s : Session) (a : Action) : Prop := a.creates = true → s.kernel.nextPid ≠ 0

instance (s : Session) (a : Action) : Decidable (FreshPid s a) :=
  inferInstanceAs (Decidable (_ → _))

inductive Outcome (s : Session) : Action → Session → Prop where
  | created {a : Action} (creates : a.creates = true) (parent : Nat) (isKernel isShared : Bool)
      (known : parent < s.kernel.made) (alive : (s.kernel.tasks parent).state ≠ .zombie) :
      Outcome s a { s with kernel := born s.kernel parent isKernel isShared }
  | yielded :
      Outcome s .yieldNow { s with kernel := switched (parked s.kernel) (chosen (parked s.kernel)) }
  | exited (code : BitVec 32) (user : 1 < s.kernel.currentTask) :
      Outcome s (.exit code) ⟨switched (s.kernel.leave code) (chosen (s.kernel.leave code)),
        s.history ++ [.exited s.kernel.currentTask code]⟩
  | reaped (pid : BitVec 64) (child : Nat) (member : child ∈ kids s.kernel)
      (dead : (s.kernel.tasks child).state = .zombie) :
      Outcome s (.waitpid pid) ⟨reaped s.kernel child,
        s.history ++ [.reaped s.kernel.currentTask child (s.kernel.tasks child).exitCode]⟩
  | waited (pid : BitVec 64) : Outcome s (.waitpid pid) s

theorem outcome_coherent (h : Coherent s.kernel) (outcome : Outcome s a t) : Coherent t.kernel := by
  cases outcome with
  | created _ parent isKernel isShared known alive => exact born_coherent h known alive isKernel isShared
  | yielded => exact switched_coherent (parked_paused h)
  | exited code user => exact switched_coherent (leave_paused code h user).1
  | reaped _ child member dead => exact reaped_coherent h dead
  | waited => exact h

theorem outcome_made (outcome : Outcome s a t) : t.kernel.made = s.kernel.made + if a.creates then 1 else 0 := by
  cases outcome with
  | created creates =>
    rw [if_pos creates]
    rfl
  | yielded => exact (parked_kernel s.kernel).1
  | exited code _ => exact (leave_kernel code s.kernel).1
  | reaped => rfl
  | waited => rfl

section Steps
variable {s : Session}

theorem fresh_room {k : Kernel} (h : Tree k) (fits : k.made ≤ 2 ^ 64) (fresh : k.nextPid ≠ 0) : k.made < 2 ^ 64 := by
  by_contra full
  have last : k.made = 2 ^ 64 := by omega
  rw [h.counter, last] at fresh
  exact fresh (by decide)

theorem spawn_born {k : Kernel} (known : parent < k.made) :
    ((k.alloc isKernel isShared).1.addChild parent k.made).spawn k.made = .ok (born k parent isKernel isShared) := by
  have ready : ((born k parent isKernel isShared).tasks k.made).state = .ready := by
    rw [born_tasks known, if_pos rfl]
    rfl
  exact if_pos ready

section

variable (h : Coherent s.kernel)
include h

theorem current_alive : (s.kernel.tasks s.kernel.currentTask).state ≠ .zombie := by
  rw [(h.running _ h.inside).mpr rfl]
  simp

theorem fork_succeeds (user : (s.kernel.tasks s.kernel.currentTask).isKernel = false) :
    act s .fork = .ok { s with kernel := born s.kernel s.kernel.currentTask false false } := by
  have made : Kernel.newFork s.kernel s.kernel.currentTask =
      .ok ((s.kernel.alloc false false).1.addChild s.kernel.currentTask s.kernel.made, s.kernel.made) :=
    if_neg (by rw [user]; simp)
  simp only [act, made, ok_bind, spawn_born h.inside]
  rfl

theorem clone_succeeds (user : (s.kernel.tasks s.kernel.currentTask).isKernel = false) :
    act s .clone = .ok { s with kernel := born s.kernel s.kernel.currentTask false true } := by
  have made : Kernel.newClone s.kernel s.kernel.currentTask =
      .ok ((s.kernel.alloc false true).1.addChild s.kernel.currentTask s.kernel.made, s.kernel.made) :=
    if_neg (by rw [user]; simp)
  simp only [act, made, ok_bind, spawn_born h.inside]
  rfl

theorem spawn_user_succeeds : act s .spawnUser = .ok { s with kernel := born s.kernel 1 false false } := by
  have made : s.kernel.newUser = ((s.kernel.alloc false false).1.addChild 1 s.kernel.made, s.kernel.made) := rfl
  simp only [act, made, spawn_born h.tree.size]
  rfl

theorem spawn_kernel_succeeds (room : s.kernel.made < 2 ^ 64) :
    act s .spawnKernel = .ok { s with kernel := born s.kernel 1 true false } := by
  have size := h.tree.size
  have pid : (s.kernel.alloc true false).1.isRoot s.kernel.made = (s.kernel.nextPid == 1) := by
    simp [Kernel.isRoot, Kernel.alloc, newCommon]
  have other : (s.kernel.alloc true false).1.isRoot s.kernel.made = false := by
    rw [pid, h.tree.counter, beq_eq_false_iff_ne]
    intro same
    have one := (small_pid_eq (n := 1) room (by omega)).mp same
    omega
  have made : s.kernel.newKernel = ((s.kernel.alloc true false).1.addChild 1 s.kernel.made, s.kernel.made) := by
    simp only [Kernel.newKernel]
    rw [show (s.kernel.alloc true false).2 = s.kernel.made from rfl, other]
    rfl
  simp only [act, made, spawn_born h.tree.size]
  rfl

theorem yield_succeeds (small : s.kernel.currentTask < 2 ^ 64) :
    act s .yieldNow = .ok { s with kernel := switched (parked s.kernel) (chosen (parked s.kernel)) } := by
  simp only [act, yield_switches h small]
  rfl

theorem exit_succeeds (code : BitVec 32) (user : 1 < s.kernel.currentTask) (small : s.kernel.currentTask < 2 ^ 64) :
    act s (.exit code) = .ok ⟨switched (s.kernel.leave code) (chosen (s.kernel.leave code)),
      s.history ++ [.exited s.kernel.currentTask code]⟩ := by
  simp only [act, exit_switches code h user small]
  rfl

theorem act_succeeds (fits : s.kernel.made ≤ 2 ^ 64) (permitted : Permitted s.kernel a)
    (fresh : FreshPid s a) : ∃ t, act s a = .ok t ∧ Outcome s a t := by
  have size := h.tree.size
  have inside := h.inside
  cases a with
  | spawnKernel =>
    have room := fresh_room h.tree fits (fresh rfl)
    exact ⟨_, spawn_kernel_succeeds h room, Outcome.created rfl 1 true false size h.tree.root⟩
  | spawnUser => exact ⟨_, spawn_user_succeeds h, Outcome.created rfl 1 false false size h.tree.root⟩
  | yieldNow => exact ⟨_, yield_succeeds h (by omega), Outcome.yielded⟩
  | exit code =>
    have user : 1 < s.kernel.currentTask := by
      obtain ⟨notIdle, notRoot⟩ := permitted
      unfold idleRef at notIdle
      unfold rootRef at notRoot
      omega
    exact ⟨_, exit_succeeds h code user (by omega), Outcome.exited code user⟩
  | fork =>
    exact ⟨_, fork_succeeds h permitted, Outcome.created rfl _ false false inside (current_alive h)⟩
  | clone =>
    exact ⟨_, clone_succeeds h permitted, Outcome.created rfl _ false true inside (current_alive h)⟩
  | waitpid pid =>
    rcases waitpid_cases h pid with ⟨child, member, _, dead, run⟩ | ⟨_, run⟩
    · refine ⟨_, ?_, Outcome.reaped pid child member dead⟩
      simp only [act, run]
      rfl
    refine ⟨_, ?_, Outcome.waited pid⟩
    simp only [act, run]
    rfl

theorem act_outcome (fits : s.kernel.made ≤ 2 ^ 64) (permitted : Permitted s.kernel a)
    (fresh : FreshPid s a) (step : act s a = .ok t) : Outcome s a t := by
  obtain ⟨u, run, outcome⟩ := act_succeeds h fits permitted fresh
  rw [run] at step
  cases step
  exact outcome

theorem zombie_stays (outcome : Outcome s a t) (known : r < s.kernel.made)
    (dead : (s.kernel.tasks r).state = .zombie) : (t.kernel.tasks r).state = .zombie := by
  have switched_dead : ∀ {k : Kernel}, Paused k → (k.tasks r).state = .zombie →
      ((switched k (chosen k)).tasks r).state = .zombie := by
    intro k paused gone
    have other : r ≠ chosen k := by
      intro same
      rw [same] at gone
      exact (chosen_live paused).2 gone
    rw [switched_task]
    simp only [other, ↓reduceIte]
    exact gone
  have other : r ≠ s.kernel.currentTask := by
    intro same
    rw [same, (h.running _ h.inside).mpr rfl] at dead
    cases dead
  cases outcome with
  | created _ parent isKernel isShared known' _ =>
    exact (born_fields known' isKernel isShared r known).2.1.trans dead
  | yielded =>
    apply switched_dead (parked_paused h)
    rw [parked_task]
    simp only [other, ↓reduceIte]
    exact dead
  | exited code user =>
    apply switched_dead (leave_paused code h user).1
    rw [leave_state code h, if_neg other]
    exact dead
  | reaped _ child _ _ => exact (reaped_fields h child r).2.1.trans dead
  | waited => exact dead

end

end Steps

def firstTask : Nat → Task
  | 0 => ⟨0, true, false, .running, 0, none, []⟩
  | 1 => ⟨1, true, false, .ready, 0, none, [2, 3, 4]⟩
  | 2 => ⟨2, true, false, .ready, 0, some 1, []⟩
  | 3 => ⟨3, true, false, .ready, 0, some 1, []⟩
  | 4 => ⟨4, false, false, .ready, 0, some 1, []⟩
  | _ => newCommon 0

/-- The four first tasks are in the queue, behind the running idle task. -/
structure Started (k : Kernel) : Prop where
  tasks : ∀ r, k.tasks r = firstTask r
  made : k.made = 5
  queue : k.readyQueue = [1, 2, 3, 4]
  current : k.currentTask = 0
  counter : k.nextPid = 5

theorem init_started (started : taskInit = .ok k) : Started k := by
  cases started
  refine ⟨?_, rfl, rfl, rfl, rfl⟩
  intro r
  match r with
  | 0 => rfl
  | 1 => rfl
  | 2 => rfl
  | 3 => rfl
  | 4 => rfl
  | n + 5 => rfl

theorem first_children : c ∈ (firstTask p).children ↔ p = 1 ∧ (c = 2 ∨ c = 3 ∨ c = 4) := by
  match p with
  | 0 => simp [firstTask]
  | 1 => simp [firstTask]
  | 2 => simp [firstTask]
  | 3 => simp [firstTask]
  | 4 => simp [firstTask]
  | n + 5 => simp [firstTask, newCommon]

theorem first_tasks {motive : Nat → Prop} (each : ∀ r : Fin 5, motive r) (inside : r < 5) : motive r :=
  each ⟨r, inside⟩

theorem started_tree (h : Started k) : Tree k where
  size := by rw [h.made]; omega
  counter := by rw [h.counter, h.made]; rfl
  pids := by
    intro r inside
    rw [h.made] at inside
    rw [h.tasks]
    exact first_tasks (motive := fun r => (firstTask r).pid = BitVec.ofNat 64 r) (by decide) inside
  blank := by
    intro r outside
    apply List.eq_nil_iff_forall_not_mem.mpr
    intro c member
    rw [h.tasks, first_children] at member
    have := h.made
    omega
  child := by
    intro p c member
    rw [h.tasks, first_children] at member
    obtain ⟨rfl, which⟩ := member
    rw [h.tasks, h.tasks, h.made]
    rcases which with rfl | rfl | rfl <;> simp [firstTask]
  single := by
    intro p
    rw [h.tasks]
    by_cases root : p = 1
    · subst root
      decide
    have none : (firstTask p).children = [] := by
      apply List.eq_nil_iff_forall_not_mem.mpr
      intro c member
      exact root (first_children.mp member).1
    rw [none]
    exact List.nodup_nil
  adopted := by
    intro r above inside _
    rw [h.made] at inside
    refine ⟨1, ?_⟩
    rw [h.tasks, first_children]
    omega
  idle := by rw [h.tasks]; decide
  root := by rw [h.tasks]; decide

theorem init_coherent (started : taskInit = .ok k) : Coherent k ∧ k.made = 5 := by
  have h := init_started started
  refine ⟨⟨started_tree h, ⟨?_, ?_⟩, ?_, ?_⟩, h.made⟩
  · rw [h.queue]
    decide
  · intro r
    rw [h.queue, h.made, h.tasks]
    by_cases inside : r < 5
    · exact first_tasks (motive := fun r => r ∈ [1, 2, 3, 4] ↔ 0 < r ∧ r < 5 ∧ (firstTask r).state = .ready)
        (by decide) inside
    · simp only [List.mem_cons, List.not_mem_nil, or_false]
      omega
  · rw [h.current, h.made]
    omega
  · intro r inside
    rw [h.made] at inside
    rw [h.current, h.tasks]
    exact first_tasks (motive := fun r => (firstTask r).state = .running ↔ r = 0) (by decide) inside

theorem careful_coherent (reach : Reachable (tasking.guarded FreshPid) s) :
    Coherent s.kernel ∧ s.kernel.made ≤ 2 ^ 64 := by
  apply reachable_invariant (fun s => Coherent s.kernel ∧ s.kernel.made ≤ 2 ^ 64) _ _ reach
  · intro s start
    obtain ⟨coherent, made⟩ := init_coherent start.1
    exact ⟨coherent, by omega⟩
  intro s a t kept step
  obtain ⟨fresh, permitted, run⟩ := step
  have outcome := act_outcome kept.1 kept.2 permitted fresh run
  have made := outcome_made outcome
  refine ⟨outcome_coherent kept.1 outcome, ?_⟩
  split at made
  · rename_i creates
    have room := fresh_room kept.1.tree kept.2 (fresh creates)
    omega
  · have fits := kept.2
    omega

/-- The scheduler's state between two steps: one running task, the current one, and a
    queue of exactly the ready tasks. -/
structure Scheduled (k : Kernel) : Prop where
  one_running : k.currentTask < k.made ∧
    ∀ r, r < k.made → ((k.tasks r).state = .running ↔ r = k.currentTask)
  queued_once : k.readyQueue.Nodup
  queue_is_ready : ∀ r, r ∈ k.readyQueue ↔ r < k.made ∧ (k.tasks r).state = .ready ∧ r ≠ idleRef
  no_zombie : ∀ r, r < k.made → (k.tasks r).state = .zombie → r ∉ k.readyQueue ∧ r ≠ k.currentTask

theorem coherent_scheduled (h : Coherent k) : Scheduled k := by
  have queue : ∀ r, r ∈ k.readyQueue ↔ r < k.made ∧ (k.tasks r).state = .ready ∧ r ≠ idleRef := by
    intro r
    rw [h.lined.queued r]
    unfold idleRef
    constructor
    · intro entry
      exact ⟨entry.2.1, entry.2.2, by omega⟩
    · intro entry
      exact ⟨by omega, entry.1, entry.2.1⟩
  refine ⟨⟨h.inside, h.running⟩, h.lined.nodup, queue, ?_⟩
  intro r inside dead
  constructor
  · intro member
    have entry := (queue r).mp member
    rw [dead] at entry
    cases entry.2.1
  intro same
  have running := (h.running r inside).mpr same
  rw [dead] at running
  cases running

theorem parked_queue (other : k.currentTask ≠ 0) : (parked k).readyQueue = k.readyQueue ++ [k.currentTask] := by
  unfold parked
  rw [if_neg other]

theorem yield_to (h : Coherent s.kernel) (other : s.kernel.currentTask ≠ 0)
    (small : s.kernel.currentTask < 2 ^ 64) (queue : s.kernel.readyQueue = next :: rest) :
    ∃ t, act s .yieldNow = .ok t ∧ Coherent t.kernel ∧ t.kernel.made = s.kernel.made ∧
      t.kernel.currentTask = next ∧ t.kernel.readyQueue = rest ++ [s.kernel.currentTask] ∧
      ∀ r, (t.kernel.tasks r).children = (s.kernel.tasks r).children ∧
        (t.kernel.tasks r).isKernel = (s.kernel.tasks r).isKernel := by
  have waiting := parked_queue other
  rw [queue] at waiting
  have head : chosen (parked s.kernel) = next := by simp [chosen, waiting]
  refine ⟨_, yield_succeeds h small, switched_coherent (parked_paused h), (parked_kernel _).1, head, ?_, ?_⟩
  · simp [switched, waiting]
  · intro r
    simp only [switched_task, parked_task, and_self]

structure AtShell (n : Nat) (s : Session) : Prop where
  reach : Reachable (tasking.guarded FreshPid) s
  made : s.kernel.made = n
  current : s.kernel.currentTask = 4
  queue : s.kernel.readyQueue = [1]
  childless : (s.kernel.tasks 4).children = []
  user : (s.kernel.tasks 4).isKernel = false

def attempt (s : Session) (a : Action) : Option Session :=
  if Permitted s.kernel a ∧ FreshPid s a then (act s a).toOption else none

theorem attempt_allowed (s : Session) (a : Action) (t : Session) (done : attempt s a = some t) :
    (tasking.guarded FreshPid).next s a t := by
  unfold attempt at done
  split at done
  · rename_i allowed
    refine ⟨allowed.2, allowed.1, ?_⟩
    cases run : act s a with
    | error p => simp [run, Except.toOption] at done
    | ok u =>
      simp only [run, Except.toOption, Option.some.injEq] at done
      rw [done]
  · cases done

def warmUp : List Action := [.yieldNow, .yieldNow, .exit 0, .exit 0]

theorem shell_reached : ∃ s, AtShell 5 s := by
  have result : ((warmUp.foldlM attempt ⟨initKernel, []⟩).map fun s =>
      (s.kernel.made, s.kernel.currentTask, s.kernel.readyQueue, (s.kernel.tasks 4).children,
        (s.kernel.tasks 4).isKernel)) = some (5, 4, [1], [], false) := by decide
  obtain ⟨s, run, seen⟩ := Option.map_eq_some_iff.mp result
  simp only [Prod.mk.injEq] at seen
  obtain ⟨made, current, queue, childless, user⟩ := seen
  have start : Reachable (tasking.guarded FreshPid) ⟨initKernel, []⟩ := reachable_start ⟨rfl, rfl⟩
  exact ⟨s, reachable_follow attempt_allowed start run, made, current, queue, childless, user⟩

theorem plain_step (reach : Reachable tasking s) (permitted : Permitted s.kernel a) (run : act s a = .ok t) :
    Reachable tasking t :=
  reachable_next reach ⟨permitted, run⟩

theorem careful_step (reach : Reachable (tasking.guarded FreshPid) s) (fresh : FreshPid s a)
    (permitted : Permitted s.kernel a) (run : act s a = .ok t) : Reachable (tasking.guarded FreshPid) t :=
  reachable_next reach ⟨fresh, permitted, run⟩

theorem child_runs (h : AtShell n s) (large : 5 ≤ n) :
    ∃ a b t, act s .fork = .ok a ∧ act a .yieldNow = .ok b ∧ act b .yieldNow = .ok t ∧
      Coherent t.kernel ∧ t.kernel.made = n + 1 ∧ t.kernel.currentTask = n ∧
      t.kernel.readyQueue = [4, 1] ∧ (t.kernel.tasks 4).children = [n] ∧
      (t.kernel.tasks n).children = [] ∧ (t.kernel.tasks 4).isKernel = false := by
  have coherent := (careful_coherent h.reach).1
  have inside := coherent.inside
  rw [h.current] at inside
  have forked := fork_succeeds coherent (by rw [h.current]; exact h.user)
  rw [h.current] at forked
  have bornCoherent := born_coherent coherent inside (by rw [← h.current]; exact current_alive coherent) false false
  have queue : (born s.kernel 4 false false).readyQueue = [1, n] := by
    have appended : (born s.kernel 4 false false).readyQueue = s.kernel.readyQueue ++ [s.kernel.made] := rfl
    rw [appended, h.queue, h.made]
    rfl
  have current : (born s.kernel 4 false false).currentTask = 4 := h.current
  obtain ⟨b, toRoot, rootCoherent, rootMade, rootCurrent, rootQueue, rootTasks⟩ :=
    yield_to (s := { s with kernel := born s.kernel 4 false false }) bornCoherent
      (by rw [current]; omega) (by rw [current]; omega) queue
  obtain ⟨t, toChild, childCoherent, childMade, childCurrent, childQueue, childTasks⟩ :=
    yield_to (s := b) rootCoherent (by omega) (by omega) rootQueue
  have same : ∀ r, (t.kernel.tasks r).children = ((born s.kernel 4 false false).tasks r).children ∧
      (t.kernel.tasks r).isKernel = ((born s.kernel 4 false false).tasks r).isKernel :=
    fun r => ⟨(childTasks r).1.trans (rootTasks r).1, (childTasks r).2.trans (rootTasks r).2⟩
  have other : (4 : Nat) ≠ n := by omega
  refine ⟨_, b, t, forked, toRoot, toChild, childCoherent, ?_, childCurrent, ?_, ?_, ?_, ?_⟩
  · rw [childMade, rootMade, ← h.made]
    rfl
  · rw [childQueue, rootCurrent, current]
    rfl
  · rw [(same 4).1, (born_fields inside false false 4 inside).2.2.2, h.childless, h.made]
    rfl
  · rw [(same n).1, born_tasks inside, h.made]
    simp [newCommon]
  · rw [(same 4).2, born_tasks inside, h.made, if_neg other, if_pos rfl]
    exact h.user

theorem child_exits (h : AtShell n s) (large : 5 ≤ n) (room : n < 2 ^ 64) :
    ∃ t, Reachable (tasking.guarded FreshPid) t ∧ t.kernel.made = n + 1 ∧ t.kernel.currentTask = 4 ∧
      t.kernel.readyQueue = [1] ∧ (t.kernel.tasks 4).children = [n] ∧
      (t.kernel.tasks n).state = .zombie ∧ (t.kernel.tasks 4).isKernel = false := by
  obtain ⟨a, b, c, forked, toRoot, toChild, coherent, made, current, queue, children, own, user⟩ :=
    child_runs h large
  have counter := (careful_coherent h.reach).1.tree.counter
  have fresh : s.kernel.nextPid ≠ 0 := by
    rw [counter, h.made]
    intro zero
    have values := (small_pid_eq (n := 0) room (by omega)).mp zero
    omega
  have allowed : (s.kernel.tasks s.kernel.currentTask).isKernel = false := by
    rw [h.current]
    exact h.user
  have afterFork := careful_step (a := .fork) h.reach (fun _ => fresh) allowed forked
  have atRoot := careful_step (a := .yieldNow) afterFork nofun trivial toRoot
  have atChild := careful_step (a := .yieldNow) atRoot nofun trivial toChild
  have small : c.kernel.currentTask < 2 ^ 64 := by omega
  have step := exit_succeeds coherent 0 (by omega) small
  have permitted : Permitted c.kernel (.exit 0) := by
    unfold Permitted idleRef rootRef
    omega
  have done := careful_step (a := .exit 0) atChild nofun permitted step
  obtain ⟨leftMade, _, leftQueue, _⟩ := leave_kernel 0 c.kernel
  rw [queue] at leftQueue
  have next : chosen (c.kernel.leave 0) = 4 := by
    simp only [chosen, leftQueue, List.head?_cons, Option.getD_some]
  have notOwn := own_not_kid coherent.tree
  have noKids : kids c.kernel = [] := by
    unfold kids
    rw [current]
    exact own
  refine ⟨_, done, ?_, next, ?_, ?_, ?_, ?_⟩
  · exact leftMade.trans made
  · simp only [switched, leftQueue, List.tail_cons]
  · rw [switched_task, leave_tasks 0 notOwn, current]
    simp only [show ¬ (4 : Nat) = n by omega, show ¬ (4 : Nat) = 1 by omega, ↓reduceIte]
    exact children
  · rw [switched_task, leave_tasks 0 notOwn, current, next]
    simp only [show ¬ n = 4 by omega, ↓reduceIte]
  · rw [switched_task, leave_tasks 0 notOwn]
    exact user

theorem shell_cycle (h : AtShell n s) (large : 5 ≤ n) (room : n < 2 ^ 64) : ∃ t, AtShell (n + 1) t := by
  obtain ⟨t, reach, made, current, queue, children, dead, user⟩ := child_exits h large room
  have coherent := (careful_coherent reach).1
  have mine : kids t.kernel = [n] := by
    unfold kids
    rw [current]
    exact children
  rcases waitpid_cases coherent (-1) with ⟨child, member, _, _, run⟩ | ⟨alive, _⟩
  · rw [mine, List.mem_singleton] at member
    subst member
    have step : act t (.waitpid (-1)) = .ok ⟨reaped t.kernel child, t.history ++
        [.reaped t.kernel.currentTask child (t.kernel.tasks child).exitCode]⟩ := by
      simp only [act, run]
      rfl
    refine ⟨_, careful_step (a := .waitpid (-1)) reach nofun trivial step, made, current, queue, ?_, ?_⟩
    · simp only [reaped, Kernel.modify, current, Function.update_self, children]
      simp
    · simp only [reaped, Kernel.modify, current, Function.update_self]
      exact user
  · exact absurd dead (alive n (by rw [mine]; simp) (by simp [Kernel.pidMatches]))

theorem shell_any_count (extra : Nat) (room : extra + 5 ≤ 2 ^ 64) : ∃ s, AtShell (extra + 5) s := by
  induction extra with
  | zero => exact shell_reached
  | succ k ih =>
    obtain ⟨s, h⟩ := ih (by omega)
    rw [Nat.add_right_comm]
    exact shell_cycle h (by omega) (by omega)

def reschedules : Action → Bool
  | .yieldNow | .exit _ => true
  | _ => false

theorem switched_turn {k : Kernel} (queued : k.readyQueue[i]? = some r) : (switched k (chosen k)).currentTask = r ∨
      ∃ j, i = j + 1 ∧ (switched k (chosen k)).readyQueue[j]? = some r := by
  cases i with
  | zero =>
    left
    simp [switched, chosen, List.head?_eq_getElem?, queued]
  | succ j =>
    right
    refine ⟨j, rfl, ?_⟩
    simp [switched, List.getElem?_tail, queued]

theorem turn_step (outcome : Outcome s a t) (queued : s.kernel.readyQueue[i]? = some r) :
    t.kernel.currentTask = r ∨ ∃ j, i = j + [a].countP reschedules ∧ t.kernel.readyQueue[j]? = some r := by
  have behind : ∀ c, (s.kernel.readyQueue ++ [c])[i]? = some r := by
    intro c
    rw [List.getElem?_append_left (List.getElem?_eq_some_iff.mp queued).1]
    exact queued
  cases outcome with
  | created creates =>
    right
    refine ⟨i, ?_, behind _⟩
    cases a <;> first | rfl | cases creates
  | yielded =>
    apply switched_turn
    unfold parked
    split
    · exact queued
    · exact behind _
  | exited code =>
    apply switched_turn
    rw [(leave_kernel code s.kernel).2.2.1]
    exact queued
  | reaped => exact Or.inr ⟨i, rfl, queued⟩
  | waited => exact Or.inr ⟨i, rfl, queued⟩

theorem waits_turn (reach : Reachable (tasking.guarded FreshPid) s) (queued : s.kernel.readyQueue[k]? = some r)
    (run : Run (tasking.guarded FreshPid) s path t) :
    (∃ before after u, path = before ++ after ∧ Run (tasking.guarded FreshPid) s before u ∧
        u.kernel.currentTask = r ∧ before.countP reschedules ≤ k + 1) ∨
      ∃ i, k = i + path.countP reschedules ∧ t.kernel.readyQueue[i]? = some r := by
  induction run with
  | nil => exact Or.inr ⟨k, rfl, queued⟩
  | @snoc _ u' path a before last ih =>
    rcases ih with ⟨first, after, u, split, rest⟩ | ⟨i, turns, waiting⟩
    · exact Or.inl ⟨first, after ++ [a], u, by rw [split, List.append_assoc], rest⟩
    have coherent := careful_coherent (reachable_run reach before)
    have outcome := act_outcome coherent.1 coherent.2 last.2.1 last.1 last.2.2
    rcases turn_step outcome waiting with runs | ⟨j, turn, waiting⟩
    · refine Or.inl ⟨path ++ [a], [], u', (List.append_nil _).symm, Run.snoc before last, runs, ?_⟩
      have one : [a].countP reschedules ≤ 1 := List.countP_le_length
      rw [List.countP_append]
      omega
    · refine Or.inr ⟨j, ?_, waiting⟩
      rw [List.countP_append]
      omega

/-- The task behind `k` others in the queue runs after at most `k + 1` reschedulings, whatever
    the running tasks do meanwhile. -/
theorem ready_task_runs {s t : Session} (reach : Reachable (tasking.guarded FreshPid) s) {k r : Nat}
    (queued : s.kernel.readyQueue[k]? = some r) {path : List Action}
    (run : Run (tasking.guarded FreshPid) s path t) (enough : k < path.countP reschedules) :
    ∃ before after u, path = before ++ after ∧ Run (tasking.guarded FreshPid) s before u ∧
      u.kernel.currentTask = r ∧ before.countP reschedules ≤ k + 1 := by
  rcases waits_turn reach queued run with turn | ⟨i, turns, _⟩
  · exact turn
  · omega

/-- The shell is the fourth in the first queue. -/
theorem shell_runs_fourth : ∃ before after u, warmUp = before ++ after ∧
      Run (tasking.guarded FreshPid) ⟨initKernel, []⟩ before u ∧ u.kernel.currentTask = 4 ∧
      before.countP reschedules ≤ 4 := by
  have done : (warmUp.foldlM attempt ⟨initKernel, []⟩).isSome = true := by decide
  obtain ⟨t, run⟩ := Option.isSome_iff_exists.mp done
  exact ready_task_runs (reachable_start ⟨rfl, rfl⟩) (k := 3) rfl (run_follow attempt_allowed run) (by decide)

end RtosNimbosScheduler
