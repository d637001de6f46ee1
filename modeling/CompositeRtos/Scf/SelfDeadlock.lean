import Mathlib.Logic.Function.Basic
import CompositeRtos.Scf.Daemon

/-!
The daemon's threads and its signal handler on `meta.lock` (`libs/syscall.c`, `libs/scf.c`,
`spin_lock.h`). Every thread has a stack of activations: the handler starts a new one on
top of whatever its thread was doing, and `signal` keeps the signal blocked on that thread
until the handler returns. The kernel takes the lock too. `owner` says who holds it; the
lock word itself is only zero or not, and `spin_unlock` clears it unconditionally.
-/
namespace RtosScfSelfDeadlock
open RtosTransition RtosScfQueue RtosScfIntegrity RtosScfExactlyOnce RtosScfDaemon Function

/-- Where an activation is. `popBody`, `popUnlock`, `pushBody` and `pushUnlock` stand for
    all instructions between the end of `spin_lock` and the store of `spin_unlock`. -/
inductive Position where
  | install
  | popLock
  | popBody
  | popUnlock (result : Except Errno (BitVec 16 × ScfDescriptor))
  | dispatch (index : BitVec 16) (desc : ScfDescriptor)
  | reading (index : BitVec 16)
  | pushLock (index : BitVec 16) (retVal : BitVec 64)
  | pushBody (index : BitVec 16) (retVal : BitVec 64)
  | pushUnlock
  | done

/-- `setup` is `nimbos_setup_syscall` on the main thread and whatever it runs afterwards. -/
inductive Activation where
  | setup | handler | reader
  deriving DecidableEq, Repr

structure Frame where
  activation : Activation
  position : Position

def Position.holds : Position → Bool
  | .popBody | .popUnlock _ | .pushBody _ _ | .pushUnlock => true
  | _ => false

def Position.spins : Position → Bool
  | .popLock | .pushLock _ _ => true
  | _ => false

def Frame.holds (f : Frame) : Bool := f.position.holds
def Frame.spins (f : Frame) : Bool := f.position.spins

inductive Owner (ι : Type) where
  | nobody
  | kernel
  | thread (t : ι)
  deriving DecidableEq

structure Daemon (ι : Type) where
  installed : Bool
  owner : Owner ι
  buf : DaemonBuffer
  shared : SharedQueue
  stack : ι → List Frame

/-- What the environment decides for one instruction. -/
structure Choice (ι : Type) where
  replies : Replies
  ret : BitVec 32
  newThread : ι

inductive Step (ι : Type) where
  | run (t : ι) (choice : Choice ι)
  | signal (t : ι)
  | sigreturn (t : ι)
  | kernelLock
  | kernelUnlock (page : SharedQueue)

section Machine
variable {ι : Type} [DecidableEq ι]

def move (s : Daemon ι) (t : ι) (activation : Activation) (choice : Choice ι) :
    Position → Option (Daemon ι × Position)
  | .install => some ({ s with installed := true }, .popLock)
  | .popLock => if s.owner = .nobody then some ({ s with owner := .thread t }, .popBody) else none
  | .popBody => do
    let (buf, result) ← popSyscallRequest s.buf s.shared
    some ({ s with buf }, .popUnlock result)
  | .popUnlock (.ok (index, desc)) => some ({ s with owner := .nobody }, .dispatch index desc)
  | .popUnlock (.error _) => some ({ s with owner := .nobody }, .done)
  | .dispatch index desc =>
    match pollCase desc.opcode choice.replies with
    | .respond retVal => some (s, .pushLock index retVal)
    | .ignore => some (s, .popLock)
    | .startReader =>
      if s.stack choice.newThread = [] ∧ choice.newThread ≠ t then
        some ({ s with stack := Function.update s.stack choice.newThread [⟨.reader, .reading index⟩] },
          .popLock)
      else none
  | .reading index =>
    match getSyscallRequestFromIndex s.buf s.shared index with
    | none => some (s, .done)
    | some _ => some (s, .pushLock index (choice.ret.signExtend 64))
  | .pushLock index retVal =>
    if s.owner = .nobody then some ({ s with owner := .thread t }, .pushBody index retVal) else none
  | .pushBody index retVal => do
    let (buf, shared, _) ← pushSyscallResponse s.buf s.shared index retVal
    some ({ s with buf, shared }, .pushUnlock)
  | .pushUnlock =>
    some ({ s with owner := .nobody }, if activation = .reader then .done else .popLock)
  | .done => none

def step (s : Daemon ι) : Step ι → Option (Daemon ι)
  | .run t choice =>
    match s.stack t with
    | [] => none
    | frame :: below => do
      let (s, position) ← move s t frame.activation choice frame.position
      some { s with stack := Function.update s.stack t (⟨frame.activation, position⟩ :: below) }
  | .signal t =>
    match s.stack t with
    | [] => none
    | frame :: below =>
      if s.installed ∧ frame.activation ≠ .handler then
        some { s with stack := Function.update s.stack t (⟨.handler, .popLock⟩ :: frame :: below) }
      else none
  | .sigreturn t =>
    match s.stack t with
    | ⟨.handler, .done⟩ :: below => some { s with stack := Function.update s.stack t below }
    | _ => none
  | .kernelLock => if s.owner = .nobody then some { s with owner := .kernel } else none
  | .kernelUnlock page => if s.owner = .kernel then some { s with owner := .nobody, shared := page } else none

def threads (main : ι) (d : DaemonBuffer) (shared : SharedQueue) : Machine (Daemon ι) (Step ι) where
  start s := s = ⟨false, .nobody, d, shared, Function.update (fun _ => []) main [⟨.setup, .install⟩]⟩
  next s a s' := step s a = some s'

/-- A handler spins on the lock that an activation below it, on the same stack, holds. -/
def SelfDeadlock (s : Daemon ι) (t : ι) : Prop :=
  ∃ top below, s.stack t = top :: below ∧ top.activation = .handler ∧ top.spins = true ∧
    ∃ f ∈ below, f.holds = true

/-- The signal reaches no thread between its `spin_lock` and its `spin_unlock`. -/
def OutsideLock (s : Daemon ι) : Step ι → Prop
  | .signal t => ∀ f ∈ s.stack t, f.holds = false
  | _ => True

inductive LockEffect (t : ι) (s s' : Daemon ι) (before after : Position) : Prop where
  | keep (same : after.holds = before.holds) (owner : s'.owner = s.owner)
  | acquire (free : s.owner = .nobody) (out : before.holds = false) (inside : after.holds = true)
      (owner : s'.owner = .thread t)
  | release (inside : before.holds = true) (out : after.holds = false) (owner : s'.owner = .nobody)

/-- The stacks after one instruction of `t`, before its own position is updated: a thread
    may have been started. -/
def Started (t : ι) (s s' : Daemon ι) : Prop :=
  ∀ u, s'.stack u = s.stack u ∨ (u ≠ t ∧ s.stack u = [] ∧ ∃ index, s'.stack u = [⟨.reader, .reading index⟩])

variable {s s' : Daemon ι} {t : ι}

theorem move_spec (run : move s t activation choice before = some (s', after)) :
    LockEffect t s s' before after ∧ Started t s s' := by
  have quiet : ∀ u, s.stack u = s.stack u ∨
      (u ≠ t ∧ s.stack u = [] ∧ ∃ index, s.stack u = [⟨.reader, .reading index⟩]) := fun _ => Or.inl rfl
  cases before with
  | install =>
    cases run
    exact ⟨.keep rfl rfl, quiet⟩
  | popLock =>
    simp only [move] at run
    split at run
    · rename_i free
      cases run
      exact ⟨.acquire free rfl rfl rfl, quiet⟩
    · cases run
  | popBody =>
    obtain ⟨⟨buf, result⟩, _, rest⟩ := Option.bind_eq_some_iff.mp run
    cases rest
    exact ⟨.keep rfl rfl, quiet⟩
  | popUnlock result =>
    cases result with
    | ok request =>
      cases run
      exact ⟨.release rfl rfl rfl, quiet⟩
    | error e =>
      cases run
      exact ⟨.release rfl rfl rfl, quiet⟩
  | dispatch index desc =>
    simp only [move] at run
    split at run
    · cases run
      exact ⟨.keep rfl rfl, quiet⟩
    · cases run
      exact ⟨.keep rfl rfl, quiet⟩
    split at run
    · rename_i fresh
      cases run
      refine ⟨.keep rfl rfl, ?_⟩
      intro u
      by_cases new : u = choice.newThread
      · subst new
        exact Or.inr ⟨fresh.2, fresh.1, index, update_self _ _ _⟩
      · exact Or.inl (update_of_ne new _ _)
    · cases run
  | reading index =>
    simp only [move] at run
    split at run
    · cases run
      exact ⟨.keep rfl rfl, quiet⟩
    · cases run
      exact ⟨.keep rfl rfl, quiet⟩
  | pushLock index retVal =>
    simp only [move] at run
    split at run
    · rename_i free
      cases run
      exact ⟨.acquire free rfl rfl rfl, quiet⟩
    · cases run
  | pushBody index retVal =>
    obtain ⟨⟨buf, shared, result⟩, _, rest⟩ := Option.bind_eq_some_iff.mp run
    cases rest
    exact ⟨.keep rfl rfl, quiet⟩
  | pushUnlock =>
    cases run
    refine ⟨.release rfl ?_ rfl, quiet⟩
    split <;> rfl
  | done => cases run

theorem step_cases (step_run : step s a = some s') :
    (∃ t choice frame below after mid, a = .run t choice ∧ s.stack t = frame :: below ∧
      move s t frame.activation choice frame.position = some (mid, after) ∧
      LockEffect t s s' frame.position after ∧ Started t s mid ∧
      s'.stack = update mid.stack t (⟨frame.activation, after⟩ :: below)) ∨
    (∃ t frame below, a = .signal t ∧ s.stack t = frame :: below ∧ frame.activation ≠ .handler ∧
      s'.owner = s.owner ∧ s'.stack = update s.stack t (⟨.handler, .popLock⟩ :: frame :: below)) ∨
    (∃ t below, a = .sigreturn t ∧ s.stack t = ⟨.handler, .done⟩ :: below ∧
      s'.owner = s.owner ∧ s'.stack = update s.stack t below) ∨
    (a = .kernelLock ∧ s.owner = .nobody ∧ s'.owner = .kernel ∧ s'.stack = s.stack) ∨
    (∃ page, a = .kernelUnlock page ∧ s.owner = .kernel ∧ s'.owner = .nobody ∧ s'.stack = s.stack) := by
  cases a with
  | run t choice =>
    left
    simp only [step] at step_run
    split at step_run
    · cases step_run
    rename_i frame below here
    obtain ⟨⟨mid, after⟩, moved, rest⟩ := Option.bind_eq_some_iff.mp step_run
    cases rest
    obtain ⟨lock, started⟩ := move_spec moved
    refine ⟨t, choice, frame, below, after, mid, rfl, here, moved, ?_, started, rfl⟩
    cases lock with
    | keep same owner => exact .keep same owner
    | acquire free out inside owner => exact .acquire free out inside owner
    | release inside out owner => exact .release inside out owner
  | signal t =>
    right; left
    simp only [step] at step_run
    split at step_run
    · cases step_run
    rename_i frame below here
    split at step_run
    · rename_i allowed
      cases step_run
      exact ⟨t, frame, below, rfl, here, allowed.2, rfl, rfl⟩
    · cases step_run
  | sigreturn t =>
    right; right; left
    simp only [step] at step_run
    split at step_run
    · rename_i below here
      cases step_run
      exact ⟨t, below, rfl, here, rfl, rfl⟩
    · cases step_run
  | kernelLock =>
    right; right; right; left
    simp only [step] at step_run
    split at step_run
    · rename_i free
      cases step_run
      exact ⟨rfl, free, rfl, rfl⟩
    · cases step_run
  | kernelUnlock page =>
    right; right; right; right
    simp only [step] at step_run
    split at step_run
    · rename_i mine
      cases step_run
      exact ⟨page, rfl, mine, rfl, rfl⟩
    · cases step_run

/-- The lock is held by one activation of the owner and by nothing else. -/
def Owned (s : Daemon ι) : Prop :=
  ∀ t, (s.stack t).countP Frame.holds = if s.owner = .thread t then 1 else 0

omit [DecidableEq ι] in
theorem started_count (started : Started t s s') (u : ι) :
    (s'.stack u).countP Frame.holds = (s.stack u).countP Frame.holds := by
  rcases started u with same | ⟨_, empty, index, new⟩
  · rw [same]
  · rw [new, empty]
    rfl

theorem count_cons (f : Frame) (below : List Frame) :
    (f :: below).countP Frame.holds = below.countP Frame.holds + if f.position.holds then 1 else 0 := by
  rw [List.countP_cons]
  rfl

theorem step_owned (owned : Owned s) (run : step s a = some s') : Owned s' := by
  intro u
  have mine := owned u
  rcases step_cases run with ⟨t, choice, frame, below, after, mid, _, here, _, lock, started, stack⟩ |
    ⟨t, frame, below, _, here, _, owner, stack⟩ | ⟨t, below, _, here, owner, stack⟩ |
    ⟨_, free, owner, stack⟩ | ⟨_, _, kernel, owner, stack⟩
  · have whole := owned t
    rw [here, count_cons] at whole
    by_cases same : u = t
    · subst same
      rw [stack, update_self, count_cons]
      cases lock with
      | keep position owner => rw [owner, position, whole]
      | acquire free out inside owner =>
        rw [free, out] at whole
        rw [owner, inside]
        simpa using whole
      | release inside out owner =>
        rw [inside] at whole
        rw [owner, out]
        have last : below.countP Frame.holds = 0 := by
          rw [if_pos rfl] at whole
          split at whole <;> omega
        simp [last]
    · have apart : t ≠ u := Ne.symm same
      rw [stack, update_of_ne same, started_count started, mine]
      cases lock with
      | keep position owner => rw [owner]
      | acquire free out inside owner =>
        rw [free, owner]
        simp [apart]
      | release inside out owner =>
        have holder : s.owner = .thread t := by
          rw [inside] at whole
          by_contra other
          simp [other] at whole
        rw [holder, owner]
        simp [apart]
  · rw [owner, stack]
    by_cases same : u = t
    · subst same
      rw [update_self, count_cons, ← here, mine]
      rfl
    · rw [update_of_ne same, mine]
  · rw [owner, stack]
    by_cases same : u = t
    · subst same
      rw [update_self, ← mine, here, count_cons]
      rfl
    · rw [update_of_ne same, mine]
  · rw [owner, stack, mine, free]
    rfl
  · rw [owner, stack, mine, kernel]
    rfl

theorem holder_owns (owned : Owned s) (member : f ∈ s.stack t) (holds : f.holds = true) : s.owner = .thread t := by
  have positive : 0 < (s.stack t).countP Frame.holds := List.countP_pos_iff.mpr ⟨f, member, holds⟩
  rw [owned t] at positive
  by_contra other
  simp [other] at positive

/-- Nobody can end a self-deadlock: the handler waits for the lock, and what holds it waits
    for the handler. -/
theorem deadlock_stays (owned : Owned s) (stuck : SelfDeadlock s t) (run : step s a = some s') :
    SelfDeadlock s' t := by
  obtain ⟨top, below, here, handler, spins, f, member, holds⟩ := stuck
  have owner : s.owner = .thread t :=
    holder_owns owned (by rw [here]; exact .tail _ member) holds
  have unchanged : s'.stack t = s.stack t → SelfDeadlock s' t := fun same =>
    ⟨top, below, same.trans here, handler, spins, f, member, holds⟩
  apply unchanged
  rcases step_cases run with ⟨u, choice, frame, rest, after, mid, _, there, moved, _, started, stack⟩ |
    ⟨u, frame, rest, _, there, allowed, _, stack⟩ | ⟨u, rest, _, there, _, stack⟩ |
    ⟨_, _, _, stack⟩ | ⟨_, _, _, _, stack⟩
  · by_cases same : t = u
    · subst same
      cases here.symm.trans there
      -- a spinning activation only moves when the lock is free
      cases position : top.position with
      | popLock => simp [position, move, owner] at moved
      | pushLock index retVal => simp [position, move, owner] at moved
      | _ => simp [Frame.spins, Position.spins, position] at spins
    · rw [stack, update_of_ne same]
      rcases started t with kept | ⟨_, empty, _⟩
      · exact kept
      · rw [empty] at here
        cases here
  · by_cases same : t = u
    · subst same
      cases here.symm.trans there
      exact absurd handler allowed
    · rw [stack, update_of_ne same]
  · by_cases same : t = u
    · subst same
      cases here.symm.trans there
      cases spins
    · rw [stack, update_of_ne same]
  · rw [stack]
  · rw [stack]

theorem signal_inside_lock (member : f ∈ s.stack t) (holds : f.holds = true)
    (delivered : step s (.signal t) = some s') : SelfDeadlock s' t := by
  rcases step_cases delivered with ⟨_, _, _, _, _, _, impossible, _⟩ |
    ⟨u, frame, below, same, here, _, _, stack⟩ | ⟨_, _, impossible, _⟩ | ⟨impossible, _⟩ |
    ⟨_, impossible, _⟩
  · cases impossible
  · cases same
    rw [here] at member
    exact ⟨⟨.handler, .popLock⟩, frame :: below, by rw [stack, update_self], rfl, rfl, f,
      member, holds⟩
  · cases impossible
  · cases impossible
  · cases impossible

def TopHolds (s : Daemon ι) : Prop :=
  ∀ t top below, s.stack t = top :: below → ∀ f ∈ below, f.holds = false

theorem step_top_holds (clear : TopHolds s) (outside : OutsideLock s a) (run : step s a = some s') : TopHolds s' := by
  intro u top below here f member
  rcases step_cases run with ⟨t, choice, frame, rest, after, mid, _, there, _, _, started, stack⟩ |
    ⟨t, frame, rest, rfl, there, _, _, stack⟩ | ⟨t, rest, _, there, _, stack⟩ |
    ⟨_, _, _, stack⟩ | ⟨_, _, _, _, stack⟩
  · rw [stack] at here
    by_cases same : u = t
    · subst same
      rw [update_self] at here
      cases here
      exact clear u frame _ there f member
    rw [update_of_ne same] at here
    rcases started u with kept | ⟨_, _, index, new⟩
    · exact clear u top below (kept.symm.trans here) f member
    · cases new.symm.trans here
      cases member
  · rw [stack] at here
    by_cases same : u = t
    · subst same
      rw [update_self] at here
      cases here
      exact outside f (by rw [there]; exact member)
    · rw [update_of_ne same] at here
      exact clear u top below here f member
  · rw [stack] at here
    by_cases same : u = t
    · subst same
      rw [update_self] at here
      subst here
      exact clear u _ _ there f (.tail _ member)
    · rw [update_of_ne same] at here
      exact clear u top below here f member
  · rw [stack] at here
    exact clear u top below here f member
  · rw [stack] at here
    exact clear u top below here f member

theorem start_stack (start : (threads main d shared).start s) (t : ι) :
    s.stack t = [] ∨ s.stack t = [⟨.setup, .install⟩] := by
  cases start
  by_cases same : t = main
  · subst same
    exact Or.inr (by simp)
  · exact Or.inl (by simp [same])

theorem reachable_owned (reach : Reachable (threads main d shared) s) : Owned s := by
  apply reachable_invariant Owned _ _ reach
  · intro first start t
    have free : first.owner = .nobody := by rw [show first = _ from start]
    rcases start_stack start t with empty | one
    · rw [empty, free]
      rfl
    · rw [one, free]
      rfl
  · intro s a s' owned run
    exact step_owned owned run

/-- While no signal reaches a thread inside one of the two locked sections, no handler ever
    spins on a lock held below it. The first signal that does reach such a thread deadlocks
    it at once, and in every later state. -/
theorem no_self_deadlock_outside_lock {main : ι} {d : DaemonBuffer} {shared : SharedQueue}
    (reach : Reachable ((threads main d shared).guarded OutsideLock) s) (t : ι) :
    ¬ SelfDeadlock s t ∧
      ∀ s', (∃ f ∈ s.stack t, f.holds = true) → step s (.signal t) = some s' →
        ∀ path s'', Run (threads main d shared) s' path s'' → SelfDeadlock s'' t := by
  refine ⟨?_, ?_⟩
  · have clear : TopHolds s := by
      apply reachable_invariant TopHolds _ _ reach
      · intro first start u top below here f member
        rcases start_stack start u with empty | one
        · cases empty.symm.trans here
        · cases one.symm.trans here
          cases member
      · intro s a s' clear next
        exact step_top_holds clear next.1 next.2
    rintro ⟨top, below, here, _, _, f, member, holds⟩
    rw [clear t top below here f member] at holds
    cases holds
  · rintro s' ⟨f, member, holds⟩ delivered path s'' run
    have stuck : SelfDeadlock s' t := signal_inside_lock member holds delivered
    have owned : Owned s' := step_owned (reachable_owned (guarded_reachable reach)) delivered
    have both : Owned s'' ∧ SelfDeadlock s'' t := by
      apply run_preserves (fun s => Owned s ∧ SelfDeadlock s t) _ run ⟨owned, stuck⟩
      intro s a s' h next
      exact ⟨step_owned h.1 next, deadlock_stays h.1 h.2 next⟩
    exact both.2

end Machine

def idleChoice : Choice Unit := ⟨noReplies, 0, ()⟩

def mainThread (installed : Bool) (owner : Owner Unit) (stack : List Frame) : Daemon Unit where
  installed := installed
  owner := owner
  buf := oneSlotDaemon
  shared := oneSlotQueue.shared
  stack := Function.update (fun _ => []) () stack

theorem handler_outside_lock_free :
    Reachable ((threads () oneSlotDaemon oneSlotQueue.shared).guarded OutsideLock)
        (mainThread true .nobody [⟨.handler, .popLock⟩, ⟨.setup, .popLock⟩]) ∧
      ¬ SelfDeadlock (mainThread true .nobody [⟨.handler, .popLock⟩, ⟨.setup, .popLock⟩]) () := by
  have start : Reachable ((threads () oneSlotDaemon oneSlotQueue.shared).guarded OutsideLock)
      (mainThread false .nobody [⟨.setup, .install⟩]) := reachable_start rfl
  have installed : Reachable ((threads () oneSlotDaemon oneSlotQueue.shared).guarded OutsideLock)
      (mainThread true .nobody [⟨.setup, .popLock⟩]) :=
    reachable_next (a := .run () idleChoice) start ⟨trivial, rfl⟩
  have outside : ∀ f ∈ (mainThread true .nobody [⟨.setup, .popLock⟩]).stack (), f.holds = false := by
    intro f member
    cases List.mem_singleton.mp member
    rfl
  have delivered : Reachable ((threads () oneSlotDaemon oneSlotQueue.shared).guarded OutsideLock)
      (mainThread true .nobody [⟨.handler, .popLock⟩, ⟨.setup, .popLock⟩]) :=
    reachable_next (a := .signal ()) installed ⟨outside, rfl⟩
  exact ⟨delivered, (no_self_deadlock_outside_lock delivered ()).1⟩

/-- The signal arrives while `nimbos_setup_syscall` polls for the first time and is inside
    `pop_syscall_request`. -/
theorem signal_during_first_poll_deadlocks :
    Reachable (threads () oneSlotDaemon oneSlotQueue.shared)
        (mainThread true (.thread ()) [⟨.handler, .popLock⟩, ⟨.setup, .popBody⟩]) ∧
      SelfDeadlock (mainThread true (.thread ()) [⟨.handler, .popLock⟩, ⟨.setup, .popBody⟩]) () := by
  have start : Reachable (threads () oneSlotDaemon oneSlotQueue.shared)
      (mainThread false .nobody [⟨.setup, .install⟩]) := reachable_start rfl
  have installed : Reachable (threads () oneSlotDaemon oneSlotQueue.shared)
      (mainThread true .nobody [⟨.setup, .popLock⟩]) :=
    reachable_next (a := .run () idleChoice) start rfl
  have locked : Reachable (threads () oneSlotDaemon oneSlotQueue.shared)
      (mainThread true (.thread ()) [⟨.setup, .popBody⟩]) :=
    reachable_next (a := .run () idleChoice) installed rfl
  have delivered : Reachable (threads () oneSlotDaemon oneSlotQueue.shared)
      (mainThread true (.thread ()) [⟨.handler, .popLock⟩, ⟨.setup, .popBody⟩]) :=
    reachable_next (a := .signal ()) locked rfl
  exact ⟨delivered, _, _, rfl, rfl, rfl, ⟨.setup, .popBody⟩, List.mem_cons_self, rfl⟩

end RtosScfSelfDeadlock
