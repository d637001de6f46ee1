import Mathlib.Algebra.GroupWithZero.Nat
import Mathlib.Logic.Function.Basic
import Mathlib.Data.List.Nodup
import CompositeRtos.Lib.Transition

/-!
The kernel's tasks, ready queue and process tree. A task is named by the number of its
allocation, which stands for the address behind an `Arc<Task>`; its `pid` is a separate
machine word taken from `NEXT_PID`. Strong counts are counted over every place that holds
an `Arc<Task>`: the per-CPU slots, `ROOT_TASK`, the ready queue, all children lists and the
local variables of the running function. Every assertion of the source is a `Panic`.
-/
namespace RtosNimbosTask
open RtosTransition

inductive TaskState where
  | ready
  | running
  | zombie
  deriving DecidableEq

structure Task where
  pid : BitVec 64
  isKernel : Bool
  isShared : Bool
  state : TaskState
  exitCode : BitVec 32
  parent : Option Nat
  children : List Nat
  deriving DecidableEq

/-- One CPU: the arena of tasks, `NEXT_PID`, the scheduler's queue and the current task. -/
structure Kernel where
  tasks : Nat → Task
  made : Nat
  nextPid : BitVec 64
  readyQueue : List Nat
  currentTask : Nat

inductive Panic where
  | spawnNotReady
  | currentCount
  | nextCount
  | reschedRunning
  | yieldNotRunning
  | exitIdle
  | exitRoot
  | exitNotRunning
  | exitReturned
  | forkByKernelTask
  | removeIndex
  | reapCount
  deriving DecidableEq

def idleRef : Nat := 0
def rootRef : Nat := 1

def newCommon (pid : BitVec 64) : Task := ⟨pid, false, false, .ready, 0, none, []⟩

namespace Kernel

def modify (k : Kernel) (r : Nat) (f : Task → Task) : Kernel :=
  { k with tasks := Function.update k.tasks r (f (k.tasks r)) }

def setState (k : Kernel) (r : Nat) (state : TaskState) : Kernel :=
  k.modify r fun t => { t with state }

def isRoot (k : Kernel) (r : Nat) : Bool := (k.tasks r).pid == 1

def isIdle (k : Kernel) (r : Nat) : Bool := (k.tasks r).pid == 0

def listedIn (k : Kernel) (r : Nat) : Nat :=
  ((List.range k.made).map fun p => (k.tasks p).children.count r).sum

def strongCount (k : Kernel) (locals : List Nat) (r : Nat) : Nat :=
  locals.count r + (if k.currentTask = r then 1 else 0) + (if idleRef = r then 1 else 0) +
    (if rootRef = r then 1 else 0) + k.readyQueue.count r + k.listedIn r

def alloc (k : Kernel) (isKernel isShared : Bool) : Kernel × Nat :=
  ({ k with
      tasks := Function.update k.tasks k.made { newCommon k.nextPid with isKernel, isShared }
      made := k.made + 1
      nextPid := k.nextPid + 1 }, k.made)

def addChild (k : Kernel) (self child : Nat) : Kernel :=
  (k.modify child fun t => { t with parent := some self }).modify self fun t =>
    { t with children := t.children ++ [child] }

def newKernel (k : Kernel) : Kernel × Nat :=
  let (k, t) := k.alloc true false
  (if k.isRoot t then k else k.addChild rootRef t, t)

def newUser (k : Kernel) : Kernel × Nat :=
  let (k, t) := k.alloc false false
  (k.addChild rootRef t, t)

def newClone (k : Kernel) (self : Nat) : Except Panic (Kernel × Nat) :=
  if (k.tasks self).isKernel then .error .forkByKernelTask
  else
    let (k, t) := k.alloc false true
    .ok (k.addChild self t, t)

def newFork (k : Kernel) (self : Nat) : Except Panic (Kernel × Nat) :=
  if (k.tasks self).isKernel then .error .forkByKernelTask
  else
    let (k, t) := k.alloc false false
    .ok (k.addChild self t, t)

def spawn (k : Kernel) (t : Nat) : Except Panic Kernel :=
  if (k.tasks t).state = .ready then .ok { k with readyQueue := k.readyQueue ++ [t] }
  else .error .spawnNotReady

/-- `switch_to`; the caller's `next_task` is the local that moves into the per-CPU slot. -/
def switchTo (k : Kernel) (curr next : Nat) : Except Panic Kernel :=
  let k := k.setState next .running
  if curr = next then .ok k
  else if k.strongCount [next] curr ≤ 1 then .error .currentCount
  else if k.strongCount [next] next ≤ 1 then .error .nextCount
  else .ok { k with currentTask := next }

def resched (k : Kernel) : Except Panic Kernel :=
  let curr := k.currentTask
  if (k.tasks curr).state = .running then .error .reschedRunning
  else
    match k.readyQueue with
    | next :: rest => { k with readyQueue := rest }.switchTo curr next
    | [] => k.switchTo curr idleRef

def yieldCurrent (k : Kernel) : Except Panic Kernel :=
  let curr := k.currentTask
  if (k.tasks curr).state ≠ .running then .error .yieldNotRunning
  else
    let k := k.setState curr .ready
    let k := if k.isIdle curr then k else { k with readyQueue := k.readyQueue ++ [curr] }
    k.resched

def leave (k : Kernel) (code : BitVec 32) : Kernel :=
  let curr := k.currentTask
  let k := k.setState curr .zombie
  let k := k.modify curr fun t => { t with exitCode := code }
  let k := (k.tasks curr).children.foldl (fun k c => k.addChild rootRef c) k
  k.modify curr fun t => { t with children := [] }

def exitCurrent (k : Kernel) (code : BitVec 32) : Except Panic Kernel :=
  let curr := k.currentTask
  if k.isIdle curr then .error .exitIdle
  else if k.isRoot curr then .error .exitRoot
  else if (k.tasks curr).state ≠ .running then .error .exitNotRunning
  else
    match (k.leave code).resched with
    | .error p => .error p
    | .ok k => if k.currentTask = curr then .error .exitReturned else .ok k

def pidMatches (k : Kernel) (pid : BitVec 64) (t : Nat) : Bool :=
  pid == -1 || (k.tasks t).pid == pid

def waitLoop (k : Kernel) (pid : BitVec 64) : List Nat → Nat → Bool → Option Nat × Bool
  | [], _, found => (none, found)
  | t :: rest, idx, found =>
    if k.pidMatches pid t then
      if (k.tasks t).state = .zombie then (some idx, true) else k.waitLoop pid rest (idx + 1) true
    else k.waitLoop pid rest (idx + 1) found

/-- What `waitpid` returns, and the child it reaped with the exit code it wrote. -/
structure Waited where
  kernel : Kernel
  ret : BitVec 64
  reaped : Option (Nat × BitVec 32)

def waitpid (k : Kernel) (pid : BitVec 64) : Except Panic Waited :=
  let self := k.currentTask
  let children := (k.tasks self).children
  match k.waitLoop pid children 0 false with
  | (some idx, _) =>
    match children[idx]? with
    | none => .error .removeIndex
    | some child =>
      let k := k.modify self fun t => { t with children := t.children.eraseIdx idx }
      if k.strongCount [child] child = 1 then
        .ok ⟨k, (k.tasks child).pid, some (child, (k.tasks child).exitCode)⟩
      else .error .reapCount
  | (none, true) => .ok ⟨k, -2, none⟩
  | (none, false) => .ok ⟨k, -1, none⟩

end Kernel

def perCpuNew : Kernel where
  tasks := Function.update (fun _ => newCommon 0) idleRef
    { newCommon 0 with isKernel := true, state := .running }
  made := 1
  nextPid := 1
  readyQueue := []
  currentTask := idleRef

def taskInit : Except Panic Kernel := do
  let (k, root) := perCpuNew.newKernel
  let k ← k.spawn root
  let (k, first) := k.newKernel
  let k ← k.spawn first
  let (k, second) := k.newKernel
  let k ← k.spawn second
  let (k, shell) := k.newUser
  k.spawn shell

def initKernel : Kernel :=
  match taskInit with
  | .ok k => k
  | .error _ => perCpuNew

inductive Action where
  | spawnKernel
  | spawnUser
  | yieldNow
  | exit (code : BitVec 32)
  | fork
  | clone
  | waitpid (pid : BitVec 64)
  deriving DecidableEq

def Action.creates : Action → Bool
  | .spawnKernel => true
  | .spawnUser => true
  | .fork => true
  | .clone => true
  | _ => false

inductive Event where
  | exited (task : Nat) (code : BitVec 32)
  | reaped (parent task : Nat) (code : BitVec 32)
  deriving DecidableEq

structure Session where
  kernel : Kernel
  history : List Event

/-- One step of the running task; a timer tick is `yieldNow`. -/
def act (s : Session) : Action → Except Panic Session
  | .spawnKernel => do
    let (k, t) := s.kernel.newKernel
    return { s with kernel := ← k.spawn t }
  | .spawnUser => do
    let (k, t) := s.kernel.newUser
    return { s with kernel := ← k.spawn t }
  | .yieldNow => do return { s with kernel := ← s.kernel.yieldCurrent }
  | .exit code => do
    return ⟨← s.kernel.exitCurrent code, s.history ++ [.exited s.kernel.currentTask code]⟩
  | .fork => do
    let (k, t) ← s.kernel.newFork s.kernel.currentTask
    return { s with kernel := ← k.spawn t }
  | .clone => do
    let (k, t) ← s.kernel.newClone s.kernel.currentTask
    return { s with kernel := ← k.spawn t }
  | .waitpid pid => do
    let w ← s.kernel.waitpid pid
    match w.reaped with
    | some (child, code) =>
      return ⟨w.kernel, s.history ++ [.reaped s.kernel.currentTask child code]⟩
    | none => return ⟨w.kernel, s.history⟩

theorem ok_bind (x : α) (f : α → Except Panic β) : (Except.ok x >>= f) = f x := rfl

/-- What the running task's code may do: neither the idle nor the root task exits, and
    only user tasks issue `fork` and `clone`. -/
def Permitted (k : Kernel) : Action → Prop
  | .exit _ => k.currentTask ≠ idleRef ∧ k.currentTask ≠ rootRef
  | .fork => (k.tasks k.currentTask).isKernel = false
  | .clone => (k.tasks k.currentTask).isKernel = false
  | _ => True

instance (k : Kernel) : (a : Action) → Decidable (Permitted k a)
  | .exit _ => inferInstanceAs (Decidable (_ ∧ _))
  | .fork => inferInstanceAs (Decidable (_ = _))
  | .clone => inferInstanceAs (Decidable (_ = _))
  | .spawnKernel => inferInstanceAs (Decidable True)
  | .spawnUser => inferInstanceAs (Decidable True)
  | .yieldNow => inferInstanceAs (Decidable True)
  | .waitpid _ => inferInstanceAs (Decidable True)

def tasking : Machine Session Action where
  start s := taskInit = .ok s.kernel ∧ s.history = []
  next s a t := Permitted s.kernel a ∧ act s a = .ok t

end RtosNimbosTask
