import CompositeRtos.Nimbos.Fork
import CompositeRtos.Nimbos.Scheduler
import Mathlib.Data.Finset.Card
import Mathlib.Data.Finset.Range

/-!
Tasks and their address spaces together. A task holds an `Arc<Mutex<MemorySet>>`: `fork` gives
the child a copy of the set, `clone` a second reference to the same one, and a reference is
given up when `waitpid` drops the task. `exec` loads a program into the set of the task, and
asserts before that nobody else has a reference.
-/
namespace RtosNimbosExec
open RtosTransition RtosLedger RtosFrameMemory RtosRadixWalk RtosOrderedMap RtosNimbosFrames RtosNimbosPageTable Function
open RtosNimbosPageTree RtosNimbosMemorySet RtosNimbosLoadUser RtosNimbosFrameLedger RtosNimbosAddressSpace
open RtosNimbosUserSets RtosNimbosSetCopy RtosNimbosLifecycle RtosNimbosFork
open RtosNimbosTask (Session Action act tasking)
open RtosNimbosTaskInvariant RtosNimbosScheduler List Option

/-- The memory sets on the heap are numbered; `vm` is the field of each task that has not been
    dropped. -/
structure World where
  session : Session
  ram : Ram
  kernel : MemorySet
  sets : OrderedMap Nat MemorySet
  nextSet : Nat
  vm : Nat → Option Nat

inductive Fault where
  | task (p : RtosNimbosTask.Panic)
  | memory (p : Panic)
  | execByKernelTask
  | noVm
  | vmShared
  deriving DecidableEq

inductive Op where
  | yieldNow
  | fork
  | clone
  | exit (code : BitVec 32)
  | waitpid (pid : BitVec 64)
  /-- `none` for a path without a program, `some none` for data that is no ELF file. -/
  | exec (app : Option (Option ElfFile))
  | store (va : VirtAddr) (byte : BitVec 8)

namespace World

def current (w : World) : Nat := w.session.kernel.currentTask

def isKernelTask (w : World) (r : Nat) : Bool := (w.session.kernel.tasks r).isKernel

def made (w : World) : Nat := w.session.kernel.made

def strongCount (w : World) (h : Nat) : Nat := ((Finset.range w.made).filter fun r => w.vm r = some h).card

def setOf (w : World) (r : Nat) : Option MemorySet := (w.vm r).bind w.sets.lookup

def spaceOf (w : World) (r : Nat) : MemorySet := (w.setOf r).getD w.kernel

def put (w : World) (h : Nat) (ms : MemorySet) (ram : Ram) : World := { w with ram := ram, sets := w.sets.insert h ms }

def addSet (w : World) (ms : MemorySet) (ram : Ram) : World :=
  { w.put w.nextSet ms ram with nextSet := w.nextSet + 1 }

def give (w : World) (h : Nat) : World := { w with vm := Function.update w.vm w.made (some h) }

def forget (w : World) (r : Nat) : World := { w with vm := Function.update w.vm r none }

def dropSet (w : World) (h : Nat) : Except Fault World :=
  match w.sets.lookup h with
  | none => .ok w
  | some ms =>
    match ms.drop w.ram with
    | .error e => .error (.memory e)
    | .ok ram => .ok { w with ram := ram, sets := w.sets.erase h }

/-- `Drop` of a task: its reference to a memory set goes, and the set with the last one. -/
def release (w : World) (r : Nat) : Except Fault World :=
  match w.vm r with
  | none => .ok w
  | some h => if (w.forget r).strongCount h = 0 then (w.forget r).dropSet h else .ok (w.forget r)

def step (w : World) (a : Action) : Except Fault World :=
  match act w.session a with
  | .error p => .error (.task p)
  | .ok session => .ok { w with session := session }

def fork (w : World) : Except Fault World :=
  match w.setOf w.current with
  | none => .error .noVm
  | some ms =>
    match ms.dup w.kernel.pt w.ram with
    | .error e => .error (.memory e)
    | .ok (copy, ram) => ((w.addSet copy ram).give w.nextSet).step .fork

def clone (w : World) : Except Fault World :=
  match w.vm w.current with
  | none => .error .noVm
  | some h => (w.give h).step .clone

def exit (w : World) (code : BitVec 32) : Except Fault World :=
  match w.vm w.current with
  | none => w.step (.exit code)
  | some h =>
    if w.strongCount h = 1 then
      match w.sets.lookup h with
      | none => .error .noVm
      | some ms =>
        match ms.clear w.ram with
        | .error e => .error (.memory e)
        | .ok (ms, ram) => (w.put h ms ram).step (.exit code)
    else w.step (.exit code)

def waitpid (w : World) (pid : BitVec 64) : Except Fault World :=
  match w.session.kernel.waitpid pid, w.step (.waitpid pid) with
  | .ok waited, .ok w =>
    match waited.reaped with
    | some (child, _) => w.release child
    | none => .ok w
  | .error p, _ => .error (.task p)
  | _, .error e => .error e

def exec (w : World) (app : Option (Option ElfFile)) : Except Fault World :=
  if w.isKernelTask w.current then .error .execByKernelTask
  else
    match w.vm w.current with
    | none => .error .noVm
    | some h =>
      if w.strongCount h ≠ 1 then .error .vmShared
      else
        match app with
        | none => .ok w
        | some file =>
          match w.sets.lookup h with
          | none => .error .noVm
          | some ms =>
            match ms.clear w.ram with
            | .error e => .error (.memory e)
            | .ok (ms, ram) =>
              match ms.loadUser ram file with
              | .error e => .error (.memory e)
              | .ok (_, _, ms, ram) => .ok (w.put h ms ram)

end World

def perform (w : World) : Op → Except Fault World
  | .yieldNow => w.step .yieldNow
  | .fork => w.fork
  | .clone => w.clone
  | .exit code => w.exit code
  | .waitpid pid => w.waitpid pid
  | .exec app => w.exec app
  | .store va byte =>
    match w.setOf w.current with
    | none => .error .noVm
    | some ms => .ok { w with ram := store ms w.ram va byte }

def Op.action : Op → Option Action
  | .yieldNow => some .yieldNow
  | .fork => some .fork
  | .clone => some .clone
  | .exit code => some (.exit code)
  | .waitpid pid => some (.waitpid pid)
  | _ => none

/-- What the code may do: see `Permitted` of the tasks; programs write to user addresses. -/
def Permitted (w : World) : Op → Prop
  | .exec _ => w.isKernelTask w.current = false
  | .store va _ => UserAddr va
  | op => ∀ a ∈ op.action, RtosNimbosTask.Permitted w.session.kernel a

instance (w : World) (op : Op) : Decidable (Permitted w op) := by
  cases op <;> unfold Permitted <;> infer_instance

/-- Only programs without a segment in the kernel half are loaded, and `NEXT_PID` has not
    wrapped. -/
def Careful (w : World) : Op → Prop
  | .exec (some (some elf)) => ∀ ph ∈ elf.programIter, BelowKernel ph
  | op => ∀ a ∈ op.action, FreshPid w.session a

instance (w : World) (op : Op) : Decidable (Careful w op) := by
  unfold Careful
  split <;> infer_instance

def initial (boot : System) (shell : Option ElfFile) (session : Session) : Except Panic World :=
  match MemorySet.new boot.kernel.pt boot.ram with
  | .error e => .error e
  | .ok (ms, ram) =>
    match ms.loadUser ram shell with
    | .error e => .error e
    | .ok (_, _, ms, ram) =>
      .ok ⟨session, ram, boot.kernel, OrderedMap.empty.insert 0 ms, 1, fun r => if r = 4 then some 0 else none⟩

def worlds (boot : System) (shell : Option ElfFile) : Machine World Op where
  start w := ∃ session, tasking.start session ∧ initial boot shell session = .ok w
  next w op w' := Permitted w op ∧ perform w op = .ok w'

/-! Sets beside the one that is changed. -/

def World.system (w : World) : System := ⟨w.ram, w.kernel, w.sets.entries.map Prod.snd⟩

section Beside

variable {kroot : Nat} {w : World} {h : Nat} {ms : MemorySet} {ram' : Ram}

theorem users_split (at_h : w.sets.lookup h = some ms) :
    w.system.users.Perm ([ms] ++ (w.sets.erase h).entries.map Prod.snd) :=
  (OrderedMap.erase_perm at_h).map Prod.snd

theorem users_put : (w.put h ms' ram').system.users.Perm ([ms'] ++ (w.sets.erase h).entries.map Prod.snd) :=
  (OrderedMap.insert_perm_erase w.sets h ms').map Prod.snd

theorem held_single : ([ms].map held).sum = held ms := by
  rw [map_singleton, sum_singleton]

section

variable (good : Good boot kroot w.system)
include good

theorem good_put (at_h : w.sets.lookup h = some ms)
    (step : Effect w.ram (held ms) ram' (held ms')) (fine : Fine kroot ram' ms') :
    Good boot kroot (w.put h ms' ram').system := by
  exact good_after [ms] [ms'] good (users_split at_h) (users_put) (by rw [held_single, held_single]; exact step)
    fun _ member => mem_singleton.mp member ▸ fine

theorem good_new (unused : w.sets.lookup h = none)
    (step : Effect w.ram 0 ram' (held ms')) (fine : Fine kroot ram' ms') :
    Good boot kroot (w.put h ms' ram').system := by
  have added : (w.put h ms' ram').system.users.Perm ([ms'] ++ w.system.users) :=
    (OrderedMap.insert_perm unused).map Prod.snd
  exact good_after [] [ms'] good (Perm.refl _) added (by rw [held_single]; exact step)
    fun _ member => mem_singleton.mp member ▸ fine

theorem set_sound (at_h : w.sets.lookup h = some ms) : ∃ root pages, Sound w.kernel.pt kroot w.ram root pages ms := by
  have member : ms ∈ w.system.users := List.mem_map_of_mem (OrderedMap.lookup_some at_h)
  obtain ⟨i, here⟩ := List.getElem?_of_mem member
  exact good_sound good here

theorem frames_beside (at_h : w.sets.lookup h = some ms) (step : Effect w.ram (held ms) ram' new) :
    ∀ f ∈ held w.kernel + (((w.sets.erase h).entries.map Prod.snd).map held).sum,
      SameFrame w.ram.bytes ram'.bytes f ∧ ¬ ram'.Available f := by
  have complete := good.complete
  have split : owned w.system = held ms + (held w.kernel + (((w.sets.erase h).entries.map Prod.snd).map held).sum) := by
    rw [owned, ((users_split at_h).map held).sum_eq, map_append, sum_append, held_single]
    exact add_left_comm _ _ _
  rw [split] at complete
  exact effect_beside step (complete_holds complete)

theorem good_without (at_h : w.sets.lookup h = some ms) (step : Effect w.ram (held ms) ram' 0) :
    Good boot kroot { w with ram := ram', sets := w.sets.erase h }.system := by
  exact good_after [ms] [] good (users_split at_h) (Perm.refl _) (by rw [held_single]; exact step)
    fun _ member => by cases member

end

theorem query_outside {pt : PageTable} (tree : Tree ram root) (at_root : pt.rootPaddr = startPaddr root)
    (same : ∀ f, Reached child ram.view root 3 f → SameFrame ram.bytes ram'.bytes f ∧ ¬ ram'.Available f)
    (va : VirtAddr) : pt.query ram' va = pt.query ram va := by
  have kept : ∀ f, Reached child ram.view root 3 f → SameFrame ram.bytes ram'.bytes f :=
    fun f reached => (same f reached).1
  have tree' := tree_outside kept tree fun f reached => (same f reached).2
  rw [query_spec tree' pt at_root va, query_spec tree pt at_root va, leaves_outside kept _ (upper_length va)]

theorem query_beside {ram : Ram} (sound : Sound kernel kroot ram root pages ms)
    (same : ∀ f ∈ held ms + ↑kernel.intrmTables, SameFrame ram.bytes ram'.bytes f ∧ ¬ ram'.Available f)
    (va : VirtAddr) : ms.pt.query ram' va = ms.pt.query ram va := by
  have table := sound.space.table
  refine query_outside table.tree table.at_root (fun f reached => same f ?_) va
  rw [Multiset.mem_add, held, Multiset.mem_add, Multiset.mem_coe, Multiset.mem_coe]
  rcases table_reached sound.space.beside table reached with ours | kernels
  · exact Or.inl (Or.inr ours)
  · exact Or.inr kernels

end Beside

/-! The invariant. -/

structure Linked (boot : System) (kroot : Nat) (w : World) : Prop where
  tasks : Reachable (tasking.guarded FreshPid) w.session
  good : Good boot kroot w.system
  present : ∀ r h, w.vm r = some h → ∃ ms, w.sets.lookup h = some ms
  numbered : ∀ h, w.nextSet ≤ h → w.sets.lookup h = none
  born : ∀ r h, w.vm r = some h → r < w.made
  users : ∀ r, r < w.made → w.isKernelTask r = false → (w.session.kernel.tasks r).state ≠ .zombie → w.vm r ≠ none

theorem outcome_fields (coherent : Coherent s.kernel) (outcome : Outcome s a t) (known : r < s.kernel.made) :
    (t.kernel.tasks r).isKernel = (s.kernel.tasks r).isKernel ∧
      ((t.kernel.tasks r).state ≠ .zombie → (s.kernel.tasks r).state ≠ .zombie) := by
  refine ⟨?_, fun live dead => live (zombie_stays coherent outcome known dead)⟩
  cases outcome with
  | created _ parent isKernel isShared known' _ =>
    have other : r ≠ s.kernel.made := by omega
    simp only [born_tasks known', if_neg other]
    split
    · rename_i same
      rw [same]
    · rfl
  | yielded => simp only [switched_task, parked_task]
  | exited code _ => simp only [switched_task, leave_tasks code (own_not_kid coherent.tree)]
  | reaped _ child _ _ =>
    simp only [reaped, RtosNimbosTask.Kernel.modify, Function.update_apply]
    split
    · rename_i same
      rw [same]
    · rfl
  | waited => rfl

section Tasks

variable {boot : System} {kroot : Nat} {w w' : World} (linked : Linked boot kroot w)

include linked

theorem coherent : Coherent w.session.kernel ∧ w.made ≤ 2 ^ 64 := careful_coherent linked.tasks

theorem current_user (user : w.isKernelTask w.current = false) : ∃ h, w.vm w.current = some h := by
  have inside := (coherent linked).1.inside
  exact ne_none_iff_exists'.mp (linked.users _ inside user (current_alive (coherent linked).1))

section

variable (permitted : RtosNimbosTask.Permitted w.session.kernel a)
include permitted

theorem step_linked (fresh : FreshPid w.session a)
    (vm : Nat → Option Nat) (present : ∀ r h, vm r = some h → ∃ ms, w.sets.lookup h = some ms)
    (born : ∀ r h, vm r = some h → r < w.made + if a.creates then 1 else 0)
    (users : ∀ r, vm r = none → r < w.made + (if a.creates then 1 else 0) → r < w.made ∧ w.vm r = none)
    (run : { w with vm := vm }.step a = .ok w') : Linked boot kroot w' := by
  obtain ⟨coherent, fits⟩ := coherent linked
  rw [World.step] at run
  split at run
  · cases run
  rename_i session acted
  cases run
  have outcome := act_outcome coherent fits permitted fresh acted
  have made : session.kernel.made = w.made + if a.creates then 1 else 0 := outcome_made outcome
  refine ⟨reachable_next linked.tasks ⟨fresh, permitted, acted⟩, linked.good, present, linked.numbered, ?_, ?_⟩
  · intro r h held
    exact Nat.lt_of_lt_of_eq (born r h held) made.symm
  intro r inside user live missing
  have inside : r < w.made + if a.creates then 1 else 0 := Nat.lt_of_lt_of_eq inside made
  obtain ⟨known, none_before⟩ := users r missing inside
  obtain ⟨same_kind, was_live⟩ := outcome_fields coherent outcome known
  exact linked.users r known (same_kind.symm.trans user) (was_live live) none_before

theorem plain_linked (fresh : FreshPid w.session a)
    (makes_none : a.creates = false) (run : w.step a = .ok w') : Linked boot kroot w' := by
  refine step_linked linked permitted fresh w.vm linked.present ?_ ?_ run
  · intro r h held
    simpa [makes_none] using linked.born r h held
  · intro r missing inside
    exact ⟨by simpa [makes_none] using inside, missing⟩

theorem create_linked (fresh : FreshPid w.session a)
    (makes_one : a.creates = true) (at_h : w.sets.lookup h = some ms) (run : (w.give h).step a = .ok w') :
    Linked boot kroot w' := by
  refine step_linked linked permitted fresh (update w.vm w.made (some h)) ?_ ?_ ?_ run
  · intro r h' held
    by_cases new : r = w.made
    · rw [new, update_self] at held
      cases held
      exact ⟨ms, at_h⟩
    · rw [update_of_ne new] at held
      exact linked.present r h' held
  · intro r h' held
    rw [if_pos makes_one]
    by_cases new : r = w.made
    · omega
    · rw [update_of_ne new] at held
      exact Nat.lt_succ_of_lt (linked.born r h' held)
  · intro r missing inside
    rw [if_pos makes_one] at inside
    by_cases new : r = w.made
    · simp [new] at missing
    · rw [update_of_ne new] at missing
      exact ⟨by omega, missing⟩

end

theorem put_linked (at_h : w.sets.lookup h = some ms) (step : Effect w.ram (held ms) ram' (held ms'))
    (fine : Fine kroot ram' ms') : Linked boot kroot (w.put h ms' ram') := by
  refine ⟨linked.tasks, good_put linked.good at_h step fine, ?_, ?_, linked.born, linked.users⟩
  · intro r h' held
    simp only [World.put, OrderedMap.lookup_insert]
    split
    · exact ⟨ms', rfl⟩
    · exact linked.present r h' held
  intro h' beyond
  have other : h' ≠ h := by
    rintro rfl
    rw [linked.numbered h' beyond] at at_h
    cases at_h
  simp only [World.put, OrderedMap.lookup_insert, if_neg other]
  exact linked.numbered h' beyond

theorem add_linked (step : Effect w.ram 0 ram' (held copy)) (fine : Fine kroot ram' copy) :
    Linked boot kroot (w.addSet copy ram') := by
  have unused := linked.numbered w.nextSet (Nat.le_refl _)
  refine ⟨linked.tasks, good_new linked.good unused step fine, ?_, ?_, linked.born, linked.users⟩
  · intro r h held
    simp only [World.addSet, World.put, OrderedMap.lookup_insert]
    split
    · exact ⟨copy, rfl⟩
    · exact linked.present r h held
  intro h beyond
  have beyond : w.nextSet + 1 ≤ h := beyond
  simp only [World.addSet, World.put, OrderedMap.lookup_insert, if_neg (show h ≠ w.nextSet by omega)]
  exact linked.numbered h (by omega)

theorem fork_linked (permitted : RtosNimbosTask.Permitted w.session.kernel .fork) (fresh : FreshPid w.session .fork)
    (run : w.fork = .ok w') : Linked boot kroot w' := by
  rw [World.fork] at run
  split at run
  · cases run
  rename_i ms here
  obtain ⟨h, _, at_h⟩ := bind_eq_some_iff.mp here
  obtain ⟨root, pages, sound⟩ := set_sound linked.good at_h
  have outcome := dup_spec sound
  split at run
  · cases run
  rename_i copy ram dup
  rw [dup] at outcome
  have copied : Copied w.kernel.pt kroot w.ram ms copy ram := outcome
  obtain ⟨root', pages', sound'⟩ := copied.sound
  have added := add_linked linked copied.effect (fine_of_sound sound')
  have at_new : (w.addSet copy ram).sets.lookup w.nextSet = some copy := by
    simp only [World.addSet, World.put, OrderedMap.lookup_insert, if_pos]
  exact create_linked added permitted fresh rfl at_new run

theorem clone_linked (permitted : RtosNimbosTask.Permitted w.session.kernel .clone)
    (fresh : FreshPid w.session .clone) (run : w.clone = .ok w') : Linked boot kroot w' := by
  rw [World.clone] at run
  split at run
  · cases run
  rename_i h held
  obtain ⟨ms, at_h⟩ := linked.present _ h held
  exact create_linked linked permitted fresh rfl at_h run

theorem cleared_linked (at_h : w.sets.lookup h = some ms) (run : ms.clear w.ram = .ok (ms', ram')) :
    Linked boot kroot (w.put h ms' ram') := by
  obtain ⟨root, pages, sound⟩ := set_sound linked.good at_h
  obtain ⟨_, cleared, sound', step⟩ := clear_spec sound
  rw [run] at cleared
  cases cleared
  exact put_linked linked at_h step (fine_of_sound sound')

theorem exit_linked (permitted : RtosNimbosTask.Permitted w.session.kernel (.exit code))
    (run : w.exit code = .ok w') : Linked boot kroot w' := by
  have fresh : FreshPid w.session (.exit code) := fun creates => by cases creates
  rw [World.exit] at run
  split at run
  · exact plain_linked linked permitted fresh rfl run
  rename_i h held
  split at run
  · split at run
    · cases run
    rename_i ms at_h
    split at run
    · cases run
    rename_i cleared
    exact plain_linked (cleared_linked linked at_h cleared) permitted fresh rfl run
  · exact plain_linked linked permitted fresh rfl run

theorem count_zero (h : Nat) : w.strongCount h = 0 ↔ ∀ r, w.vm r ≠ some h := by
  rw [World.strongCount, Finset.card_eq_zero, Finset.filter_eq_empty_iff]
  constructor
  · intro none_held r held
    exact none_held (Finset.mem_range.mpr (linked.born r h held)) held
  · intro none_held r _
    exact none_held r

theorem count_one (mine : w.vm r = some h) :
    w.strongCount h = 1 ↔ ∀ other, other ≠ r → w.vm other ≠ some h := by
  have inside : ∀ other, other ∈ (Finset.range w.made).filter (fun r => w.vm r = some h) ↔ w.vm other = some h := by
    intro other
    rw [Finset.mem_filter, Finset.mem_range]
    exact ⟨And.right, fun held => ⟨linked.born other h held, held⟩⟩
  rw [World.strongCount, Finset.card_eq_one]
  constructor
  · rintro ⟨only, single⟩ other differ held
    have r_only := (inside r).mpr mine
    have other_only := (inside other).mpr held
    rw [single, Finset.mem_singleton] at r_only other_only
    exact differ (other_only.trans r_only.symm)
  intro alone
  refine ⟨r, Finset.ext fun other => ?_⟩
  rw [inside, Finset.mem_singleton]
  constructor
  · intro held
    by_contra differ
    exact alone other differ held
  · rintro rfl
    exact mine

theorem forget_linked (dead : (w.session.kernel.tasks r).state = .zombie) : Linked boot kroot (w.forget r) := by
  have older : ∀ q h, update w.vm r none q = some h → w.vm q = some h := by
    intro q h held
    by_cases same : q = r
    · rw [same, update_self] at held
      cases held
    · rwa [update_of_ne same] at held
  refine ⟨linked.tasks, linked.good, ?_, linked.numbered, ?_, ?_⟩
  · exact fun q h held => linked.present q h (older q h held)
  · exact fun q h held => linked.born q h (older q h held)
  intro q inside user live
  have other : q ≠ r := by
    rintro rfl
    exact live dead
  simpa only [World.forget, update_of_ne other] using linked.users q inside user live

theorem drop_linked (unheld : ∀ r, w.vm r ≠ some h) (run : w.dropSet h = .ok w') : Linked boot kroot w' := by
  rw [World.dropSet] at run
  split at run
  · cases run
    exact linked
  rename_i ms at_h
  obtain ⟨root, pages, sound⟩ := set_sound linked.good at_h
  obtain ⟨ram', dropped, step⟩ := drop_spec sound
  rw [dropped] at run
  cases run
  refine ⟨linked.tasks, good_without linked.good at_h step, ?_, ?_, linked.born, linked.users⟩
  · intro r h' held
    have other : h' ≠ h := by
      rintro rfl
      exact unheld r held
    simp only [OrderedMap.lookup_erase, if_neg other]
    exact linked.present r h' held
  · intro h' beyond
    simp only [OrderedMap.lookup_erase, linked.numbered h' beyond, ite_self]

theorem release_linked (dead : (w.session.kernel.tasks r).state = .zombie) (run : w.release r = .ok w') :
    Linked boot kroot w' := by
  rw [World.release] at run
  split at run
  · cases run
    exact linked
  have left := forget_linked linked dead
  split at run
  · rename_i unheld
    exact drop_linked left ((count_zero left _).mp unheld) run
  · cases run
    exact left

theorem waitpid_linked (run : w.waitpid pid = .ok w') : Linked boot kroot w' := by
  have fresh : FreshPid w.session (.waitpid pid) := fun creates => by cases creates
  have permitted : RtosNimbosTask.Permitted w.session.kernel (.waitpid pid) := trivial
  obtain ⟨coherent, fits⟩ := coherent linked
  rw [World.waitpid] at run
  split at run
  · rename_i waited u ended stepped
    have after := plain_linked linked permitted fresh rfl stepped
    split at run
    · rename_i child code taken
      refine release_linked after ?_ run
      rcases waitpid_cases coherent pid with ⟨reaped, member, _, dead, only⟩ | ⟨_, only⟩
      · rw [ended] at only
        cases only
        cases taken
        rw [World.step] at stepped
        split at stepped
        · cases stepped
        rename_i acted
        cases stepped
        have outcome := act_outcome coherent fits permitted fresh acted
        exact zombie_stays coherent outcome (coherent.tree.child _ _ member).2.2.1 dead
      · rw [ended] at only
        cases only
        cases taken
    · cases run
      exact after
  · cases run
  · cases run

theorem store_linked (user : UserAddr va) (run : perform w (.store va byte) = .ok w') : Linked boot kroot w' := by
  rw [perform] at run
  split at run
  · cases run
  rename_i ms here
  cases run
  obtain ⟨h, _, at_h⟩ := bind_eq_some_iff.mp here
  obtain ⟨root, pages, sound⟩ := set_sound linked.good at_h
  obtain ⟨sound', data_step⟩ := store_step sound user
  have step := effect_frame data_step (sound_holds sound)
  have good := good_after [ms] [ms] linked.good (users_split at_h) (users_split at_h)
    (by rw [held_single]; exact step) (by
      intro other member
      rw [mem_singleton.mp member]
      exact fine_of_sound sound')
  exact ⟨linked.tasks, good, linked.present, linked.numbered, linked.born, linked.users⟩

theorem exec_effect (at_h : w.sets.lookup h = some ms)
    (below : ∀ elf, file = some elf → ∀ ph ∈ elf.programIter, BelowKernel ph) :
    ∃ emptied ram, ms.clear w.ram = .ok (emptied, ram) ∧
      ∀ entry top loaded ram', emptied.loadUser ram file = .ok (entry, top, loaded, ram') →
        Effect w.ram (held ms) ram' (held loaded) ∧ Fine kroot ram' loaded := by
  obtain ⟨root, pages, sound⟩ := set_sound linked.good at_h
  obtain ⟨ram, cleared, sound', step⟩ := clear_spec sound
  refine ⟨_, ram, cleared, ?_⟩
  intro entry top loaded ram' run
  have outcome := load_user_step sound' file below
  rw [run] at outcome
  obtain ⟨⟨pages', sound''⟩, step'⟩ := outcome
  exact ⟨effect_trans step step', fine_of_sound sound''⟩

omit linked in
theorem exec_ok_iff (user : w.isKernelTask w.current = false) (mine : w.vm w.current = some h)
    (at_h : w.sets.lookup h = some ms) (cleared : ms.clear w.ram = .ok (emptied, ram)) (file : Option ElfFile) :
    w.exec (some file) = .ok w' ↔ w.strongCount h = 1 ∧ ∃ entry top loaded ram',
      emptied.loadUser ram file = .ok (entry, top, loaded, ram') ∧ w.put h loaded ram' = w' := by
  simp only [World.exec, user, mine, at_h, cleared, Bool.false_eq_true, if_false]
  by_cases alone : w.strongCount h = 1
  · rw [if_neg (not_not.mpr alone)]
    cases run : emptied.loadUser ram file with
    | error e => simp
    | ok result =>
      obtain ⟨entry, top, loaded, ram'⟩ := result
      constructor
      · intro done
        cases done
        exact ⟨alone, entry, top, loaded, ram', rfl, rfl⟩
      rintro ⟨_, _, _, _, _, same, rfl⟩
      cases same
      rfl
  · rw [if_pos alone]
    simp [alone]

theorem exec_linked (user : w.isKernelTask w.current = false) (careful : Careful w (.exec app))
    (run : w.exec app = .ok w') : Linked boot kroot w' := by
  obtain ⟨h, mine⟩ := current_user linked user
  obtain ⟨ms, at_h⟩ := linked.present _ h mine
  cases app with
  | none =>
    simp only [World.exec, user, mine, Bool.false_eq_true, if_false] at run
    split at run
    · cases run
    · cases run
      exact linked
  | some file =>
    have below : ∀ elf, file = some elf → ∀ ph ∈ elf.programIter, BelowKernel ph := by
      rintro elf rfl
      exact careful
    obtain ⟨emptied, ram, cleared, effect⟩ := exec_effect linked at_h below
    obtain ⟨_, entry, top, loaded, ram', loads, rfl⟩ := (exec_ok_iff user mine at_h cleared file).mp run
    obtain ⟨step, fine⟩ := effect entry top loaded ram' loads
    exact put_linked linked at_h step fine

theorem perform_linked (permitted : Permitted w op) (careful : Careful w op) (run : perform w op = .ok w') :
    Linked boot kroot w' := by
  cases op with
  | yieldNow => exact plain_linked linked (permitted _ rfl) (careful _ rfl) rfl run
  | fork => exact fork_linked linked (permitted _ rfl) (careful _ rfl) run
  | clone => exact clone_linked linked (permitted _ rfl) (careful _ rfl) run
  | exit code => exact exit_linked linked (permitted _ rfl) run
  | waitpid pid => exact waitpid_linked linked run
  | exec app => exact exec_linked linked permitted careful run
  | store va byte => exact store_linked linked permitted run

end Tasks

theorem initial_linked (good : Good boot kroot boot) (no_users : boot.users = [])
    (below : ∀ elf, shell = some elf → ∀ ph ∈ elf.programIter, BelowKernel ph) (started : tasking.start session)
    (made : initial boot shell session = .ok w) : Linked boot kroot w := by
  have created := new_spec good.kernel (good_kernel_tables good)
  rw [initial] at made
  split at made
  · cases made
  rename_i ms ram new
  rw [new] at created
  obtain ⟨_, ⟨root, sound, _⟩, step, _⟩ := created
  have outcome := load_user_step sound shell below
  split at made
  · cases made
  rename_i loaded ram' loads
  rw [loads] at outcome
  obtain ⟨⟨pages, sound'⟩, step'⟩ := outcome
  cases made
  have first := init_started started.1
  have task_count : session.kernel.made = 5 := first.made
  have good' := good_add good (effect_trans step step') (fine_of_sound sound')
  rw [no_users] at good'
  have holder : ∀ r h, (if r = 4 then some 0 else none) = some h → r = 4 ∧ h = 0 := by
    intro r h held
    split at held
    · cases held
      exact ⟨by assumption, rfl⟩
    · cases held
  refine ⟨reachable_start started, good', ?_, ?_, ?_, ?_⟩
  · intro r h held
    obtain ⟨_, rfl⟩ := holder r h held
    exact ⟨loaded, rfl⟩
  · intro h beyond
    have beyond : 1 ≤ h := beyond
    simp only [OrderedMap.lookup_insert, if_neg (show h ≠ 0 by omega)]
    rfl
  · intro r h held
    obtain ⟨rfl, _⟩ := holder r h held
    exact Nat.lt_of_lt_of_eq (by decide : 4 < 5) task_count.symm
  · intro r inside user _ missing
    have inside : r < session.kernel.made := inside
    have user : (session.kernel.tasks r).isKernel = false := user
    rw [task_count] at inside
    rw [first.tasks] at user
    have only_shell : (firstTask r).isKernel = false → r = 4 :=
      first_tasks (motive := fun r => (firstTask r).isKernel = false → r = 4) (by decide) inside
    have missing : (if r = 4 then some 0 else none) = none := missing
    rw [if_pos (only_shell user)] at missing
    cases missing

theorem reachable_linked (booted : Booted boot)
    (below : ∀ elf, shell = some elf → ∀ ph ∈ elf.programIter, BelowKernel ph)
    (reach : Reachable ((worlds boot shell).guarded Careful) w) : ∃ kroot, Linked boot kroot w := by
  obtain ⟨kroot, good⟩ := booted_good booted
  refine ⟨kroot, reachable_invariant (Linked boot kroot) ?_ ?_ reach⟩
  · rintro w ⟨session, started, made⟩
    exact initial_linked good booted.1 below started made
  · rintro w op w' linked ⟨careful, permitted, run⟩
    exact perform_linked linked permitted careful run

structure SeesSame (w w' : World) (r : Nat) : Prop where
  space : w'.spaceOf r = w.spaceOf r
  translations : ∀ va, (w'.spaceOf r).pt.query w'.ram va = (w.spaceOf r).pt.query w.ram va
  bytes : ∀ other, w.setOf r = some other → ∀ va, UserAddr va → look other w'.ram va = look other w.ram va

section Others

variable {boot : System} {kroot : Nat} {w : World} {h : Nat} {ms ms' : MemorySet} {ram' : Ram}
  (good : Good boot kroot w.system) (at_h : w.sets.lookup h = some ms)
  (step : Effect w.ram (held ms) ram' (held ms'))

include good at_h step

theorem kernel_tables_kept (inside : f ∈ w.kernel.pt.intrmTables) :
    SameFrame w.ram.bytes ram'.bytes f ∧ ¬ ram'.Available f := by
  apply frames_beside good at_h step f
  rw [Multiset.mem_add, held, Multiset.mem_add]
  exact Or.inl (Or.inr inside)

theorem kernel_view_kept (va : VirtAddr) : w.kernel.pt.query ram' va = w.kernel.pt.query w.ram va := by
  have space : KernelSpace w.ram w.kernel.pt kroot := good.kernel
  exact query_outside space.ready.tree space.ready.at_root
    (fun f reached => kernel_tables_kept good at_h step (space.tables f reached)) va

theorem other_view_kept (fine : Fine kroot ram' ms') (at_h' : w.sets.lookup h' = some other) (differ : h' ≠ h) :
    (∀ va, other.pt.query ram' va = other.pt.query w.ram va) ∧
      ∀ va, UserAddr va → look other ram' va = look other w.ram va := by
  have member : other ∈ (w.sets.erase h).entries.map Prod.snd :=
    List.mem_map_of_mem ((OrderedMap.mem_erase w.sets h (h', other)).mpr ⟨OrderedMap.lookup_some at_h', differ⟩)
  have same : ∀ f ∈ held other + ↑w.kernel.pt.intrmTables, SameFrame w.ram.bytes ram'.bytes f ∧ ¬ ram'.Available f := by
    intro f inside
    rcases Multiset.mem_add.mp inside with theirs | kernels
    · exact frames_beside good at_h step f (Multiset.mem_add.mpr (Or.inr (mem_total member theirs)))
    · exact kernel_tables_kept good at_h step kernels
  obtain ⟨root, pages, sound⟩ := set_sound good at_h'
  have still_there : (w.put h ms' ram').sets.lookup h' = some other := by
    rw [World.put, OrderedMap.lookup_insert, if_neg differ, at_h']
  obtain ⟨_, _, sound'⟩ := set_sound (good_put good at_h step fine) still_there
  have owns : Holds (pool ram') (held other + ↑w.kernel.pt.intrmTables) := sound_holds_all sound'
  exact ⟨query_beside sound same, (sound_beside sound same owns).2⟩

theorem put_unseen (fine : Fine kroot ram' ms') (unshared : w.vm r ≠ some h) : SeesSame w (w.put h ms' ram') r := by
  have other_set : ∀ h', w.vm r = some h' → h' ≠ h := by
    rintro h' holds rfl
    exact unshared holds
  have same_set : (w.put h ms' ram').setOf r = w.setOf r := by
    simp only [World.setOf, World.put]
    cases holds : w.vm r with
    | none => rfl
    | some h' => simp only [bind_some, OrderedMap.lookup_insert, if_neg (other_set h' holds)]
  have same_space : (w.put h ms' ram').spaceOf r = w.spaceOf r := by
    rw [World.spaceOf, World.spaceOf, same_set, World.put]
  have views : ∀ other, w.setOf r = some other → (∀ va, other.pt.query ram' va = other.pt.query w.ram va) ∧
      ∀ va, UserAddr va → look other ram' va = look other w.ram va := by
    intro other holds
    obtain ⟨h', at_r, at_h'⟩ := bind_eq_some_iff.mp holds
    exact other_view_kept good at_h step fine at_h' (other_set h' at_r)
  refine ⟨same_space, fun va => ?_, fun other holds => (views other holds).2⟩
  rw [same_space, World.spaceOf]
  cases holds : w.setOf r with
  | none => exact kernel_view_kept good at_h step va
  | some other => exact (views other holds).1 va

end Others

theorem exec_of_unshared_set {boot : System} {shell file : Option ElfFile} {w : World} (booted : Booted boot)
    (shell_below : ∀ elf, shell = some elf → ∀ ph ∈ elf.programIter, BelowKernel ph)
    (reach : Reachable ((worlds boot shell).guarded Careful) w) (user : w.isKernelTask w.current = false)
    (below : ∀ elf, file = some elf → ∀ ph ∈ elf.programIter, BelowKernel ph) :
    ∃ h ms emptied ram, w.vm w.current = some h ∧ w.sets.lookup h = some ms ∧
      ms.clear w.ram = .ok (emptied, ram) ∧
      ((∃ w', perform w (.exec (some file)) = .ok w') ↔
        (∀ r, r ≠ w.current → w.vm r ≠ some h) ∧ ∃ image, emptied.loadUser ram file = .ok image) ∧
      ∀ w', perform w (.exec (some file)) = .ok w' → ∀ r, r ≠ w.current → SeesSame w w' r := by
  obtain ⟨kroot, linked⟩ := reachable_linked booted shell_below reach
  obtain ⟨h, mine⟩ := current_user linked user
  obtain ⟨ms, at_h⟩ := linked.present _ h mine
  obtain ⟨emptied, ram, cleared, effect⟩ := exec_effect linked at_h below
  have alone := count_one linked mine
  refine ⟨h, ms, emptied, ram, mine, at_h, cleared, ⟨?_, ?_⟩, ?_⟩
  · rintro ⟨w', run⟩
    obtain ⟨single, entry, top, loaded, ram', loads, _⟩ := (exec_ok_iff user mine at_h cleared file).mp run
    exact ⟨alone.mp single, _, loads⟩
  · rintro ⟨unshared, ⟨entry, top, loaded, ram'⟩, loads⟩
    exact ⟨_, (exec_ok_iff user mine at_h cleared file).mpr
      ⟨alone.mpr unshared, entry, top, loaded, ram', loads, rfl⟩⟩
  intro w' run r other_task
  obtain ⟨single, entry, top, loaded, ram', loads, rfl⟩ := (exec_ok_iff user mine at_h cleared file).mp run
  obtain ⟨step, fine⟩ := effect entry top loaded ram' loads
  exact put_unseen linked.good at_h step fine (alone.mp single r other_task)

def attempt (w : World) (op : Op) : Option World :=
  if Permitted w op ∧ Careful w op then (perform w op).toOption else none

theorem attempt_allowed (boot : System) (shell : Option ElfFile) (w : World) (op : Op) (w' : World)
    (h : attempt w op = some w') : ((worlds boot shell).guarded Careful).next w op w' := by
  unfold attempt at h
  split at h
  · rename_i allowed
    exact ⟨allowed.2, allowed.1, ok_of_to_option h⟩
  · cases h

def fromShell (ops : List Op) : Option World :=
  bootSystem.bind fun boot => RtosNimbosTask.taskInit.toOption.bind fun kernel =>
    (initial boot (some plainProgram) ⟨kernel, []⟩).toOption.bind fun w =>
      ([Op.yieldNow, .yieldNow, .exit 0, .exit 0] ++ ops).foldlM attempt w

theorem from_shell_reachable (h : fromShell ops = some w) :
    ∃ boot, Booted boot ∧ Reachable ((worlds boot (some plainProgram)).guarded Careful) w := by
  obtain ⟨boot, booted, h⟩ := bind_eq_some_iff.mp h
  obtain ⟨kernel, started, h⟩ := bind_eq_some_iff.mp h
  obtain ⟨first, made, run⟩ := bind_eq_some_iff.mp h
  have start : (worlds boot (some plainProgram)).start first :=
    ⟨⟨kernel, []⟩, ⟨ok_of_to_option started, rfl⟩, ok_of_to_option made⟩
  exact ⟨boot, boot_system_booted booted, reachable_follow (attempt_allowed boot _) (reachable_start start) run⟩

theorem plain_program_below (elf : ElfFile) (same : some plainProgram = some elf) :
    ∀ ph ∈ elf.programIter, BelowKernel ph := by
  cases same
  decide

/-- The shell forks, and the child executes a program; the shell keeps what it has. -/
theorem exec_by_child : ∃ boot w w', Booted boot ∧
    Reachable ((worlds boot (some plainProgram)).guarded Careful) w ∧ w.current = 5 ∧ w.vm 4 = some 0 ∧
    perform w (.exec (some (some plainProgram))) = .ok w' ∧ SeesSame w w' 4 := by
  have seen : (fromShell [.fork, .yieldNow, .yieldNow]).map (fun w => (w.isKernelTask w.current, w.current, w.vm 4,
      (perform w (.exec (some (some plainProgram)))).toOption.isSome)) = some (false, 5, some 0, true) := by
    decide +kernel
  obtain ⟨w, run, result⟩ := Option.map_eq_some_iff.mp seen
  simp only [Prod.mk.injEq] at result
  obtain ⟨user, current, parent, done⟩ := result
  obtain ⟨boot, booted, reach⟩ := from_shell_reachable run
  obtain ⟨w', done⟩ := Option.isSome_iff_exists.mp done
  have executed := ok_of_to_option done
  obtain ⟨_, _, _, _, _, _, _, _, others⟩ :=
    exec_of_unshared_set booted plain_program_below reach user plain_program_below
  exact ⟨boot, w, w', booted, reach, current, parent, executed, others w' executed 4 (by rw [current]; decide)⟩

def faultOf : Except Fault World → Option Fault
  | .error e => some e
  | .ok _ => none

/-- The running user task calls `exec` and the kernel panics; `state` is that of task 5. -/
def PanicsBeside (state : RtosNimbosTask.TaskState) : Prop :=
  ∃ boot w, Booted boot ∧ Reachable ((worlds boot (some plainProgram)).guarded Careful) w ∧
    w.isKernelTask w.current = false ∧ (w.session.kernel.tasks 5).state = state ∧
    perform w (.exec (some (some plainProgram))) = .error .vmShared

theorem panics_beside (ops : List Op)
    (seen : (fromShell ops).map (fun w => (w.isKernelTask w.current, (w.session.kernel.tasks 5).state, faultOf (perform w (.exec (some (some plainProgram)))))) = some (false, state, some .vmShared)) :
    PanicsBeside state := by
  obtain ⟨w, run, result⟩ := map_eq_some_iff.mp seen
  simp only [Prod.mk.injEq] at result
  obtain ⟨user, thread, fault⟩ := result
  obtain ⟨boot, booted, reach⟩ := from_shell_reachable run
  refine ⟨boot, w, booted, reach, user, thread, ?_⟩
  cases ended : perform w (.exec (some (some plainProgram))) with
  | error e =>
    rw [ended] at fault
    cases fault
    rfl
  | ok _ =>
    rw [ended] at fault
    cases fault

/-- The shell clones a thread; while it runs, and after it has exited and nobody has waited for
    it, the assertion in `exec` fails. -/
theorem exec_beside_thread_panics : PanicsBeside .ready ∧ PanicsBeside .zombie :=
  ⟨panics_beside [.clone] (by decide +kernel),
    panics_beside [.clone, .yieldNow, .yieldNow, .exit 0] (by decide +kernel)⟩

end RtosNimbosExec
