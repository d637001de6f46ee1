import CompositeRtos.Nimbos.Scheduler

/-!
The process tree over whole runs. A task that was not reaped is in one children list, that
of its parent, and its parent has not exited; `waitpid` answers from that list. The history
records who exited and who was reaped, by whom and with which code. All this holds while
pids stay below 2^63: `waitpid` returns the pid as an `isize`, and a larger one reads as one
of its error values.
-/
namespace RtosNimbosProcessTree
open RtosTransition RtosNimbosTask RtosNimbosTaskInvariant RtosNimbosScheduler List

def SmallPid (s : Session) (a : Action) : Prop :=
  a.creates = true → s.kernel.nextPid ≠ 0 ∧ s.kernel.nextPid.toNat < 2 ^ 63

def reapOf (r : Nat) : Event → Bool
  | .reaped _ t _ => t == r
  | .exited _ _ => false

def exitOf (r : Nat) : Event → Bool
  | .exited t _ => t == r
  | .reaped _ _ _ => false

structure Recorded (s : Session) : Prop where
  listed : ∀ r, 1 < r → r < s.kernel.made → s.history.countP (reapOf r) = 0 →
    ∃ p, r ∈ (s.kernel.tasks p).children
  reaped : ∀ p r code, .reaped p r code ∈ s.history →
    r < s.kernel.made ∧ (s.kernel.tasks r).state = .zombie ∧ (s.kernel.tasks r).parent = some p ∧
      (s.kernel.tasks r).exitCode = code ∧ ∀ q, r ∉ (s.kernel.tasks q).children
  exited : ∀ r code, .exited r code ∈ s.history →
    r < s.kernel.made ∧ (s.kernel.tasks r).state = .zombie ∧ (s.kernel.tasks r).exitCode = code
  dead : ∀ r, r < s.kernel.made → (s.kernel.tasks r).state = .zombie →
    .exited r (s.kernel.tasks r).exitCode ∈ s.history
  reaped_once : ∀ r, s.history.countP (reapOf r) ≤ 1
  exited_once : ∀ r, s.history.countP (exitOf r) ≤ 1

theorem reap_count_pos {history : List Event} (h : history.countP (reapOf r) ≠ 0) :
    ∃ p code, .reaped p r code ∈ history := by
  obtain ⟨e, member, which⟩ := countP_pos_iff.mp (Nat.pos_of_ne_zero h)
  cases e with
  | exited t code => cases which
  | reaped p t code =>
    have same : t = r := by simpa [reapOf] using which
    subst same
    exact ⟨p, code, member⟩

theorem exit_count_zero {history : List Event} (h : ∀ code, .exited r code ∉ history) :
    history.countP (exitOf r) = 0 := by
  apply countP_eq_zero.mpr
  intro e member which
  cases e with
  | exited t code =>
    have same : t = r := by simpa [exitOf] using which
    subst same
    exact h code member
  | reaped p t code => cases which

theorem recorded_of_same (h : Recorded s) (history : t.history = s.history)
    (made : s.kernel.made ≤ t.kernel.made)
    (zombies : ∀ r, r < s.kernel.made → ((t.kernel.tasks r).state = .zombie ↔ (s.kernel.tasks r).state = .zombie) ∧ (t.kernel.tasks r).exitCode = (s.kernel.tasks r).exitCode ∧ (t.kernel.tasks r).parent = (s.kernel.tasks r).parent)
    (lists : ∀ p c, c < s.kernel.made → (c ∈ (t.kernel.tasks p).children ↔ c ∈ (s.kernel.tasks p).children))
    (fresh : ∀ r, s.kernel.made ≤ r → r < t.kernel.made → (t.kernel.tasks r).state ≠ .zombie ∧ ∃ p, r ∈ (t.kernel.tasks p).children) :
    Recorded t := by
  constructor
  case listed =>
    intro r above inside kept
    rw [history] at kept
    by_cases old : r < s.kernel.made
    · obtain ⟨p, member⟩ := h.listed r above old kept
      exact ⟨p, (lists p r old).mpr member⟩
    · exact (fresh r (by omega) inside).2
  case reaped =>
    intro p r code member
    rw [history] at member
    obtain ⟨old, zombie, parent, exitCode, unlisted⟩ := h.reaped p r code member
    obtain ⟨state, sameCode, sameParent⟩ := zombies r old
    refine ⟨by omega, state.mpr zombie, sameParent.trans parent, sameCode.trans exitCode, ?_⟩
    intro q listed
    exact unlisted q ((lists q r old).mp listed)
  case exited =>
    intro r code member
    rw [history] at member
    obtain ⟨old, zombie, exitCode⟩ := h.exited r code member
    obtain ⟨state, sameCode, _⟩ := zombies r old
    exact ⟨by omega, state.mpr zombie, sameCode.trans exitCode⟩
  case dead =>
    intro r inside zombie
    rw [history]
    by_cases old : r < s.kernel.made
    · obtain ⟨state, sameCode, _⟩ := zombies r old
      rw [sameCode]
      exact h.dead r old (state.mp zombie)
    · exact absurd zombie (fresh r (by omega) inside).1
  case reaped_once =>
    rw [history]
    exact h.reaped_once
  case exited_once =>
    rw [history]
    exact h.exited_once

structure Departed (k left : Kernel) (code : BitVec 32) : Prop where
  made : left.made = k.made
  children : ∀ p c, c ∈ (left.tasks p).children ↔
    p ≠ k.currentTask ∧ (c ∈ (k.tasks p).children ∨ (p = 1 ∧ c ∈ kids k))
  zombie : ∀ r, (left.tasks r).state = .zombie ↔ r = k.currentTask ∨ (k.tasks r).state = .zombie
  exitCode : ∀ r, (left.tasks r).exitCode = if r = k.currentTask then code else (k.tasks r).exitCode
  parent : ∀ r, r ∉ kids k → (left.tasks r).parent = (k.tasks r).parent

section Steps
variable {s : Session} (coherent : Coherent s.kernel) (h : Recorded s)
include coherent h

theorem recorded_created (known : parent < s.kernel.made) (isKernel isShared : Bool) :
    Recorded { s with kernel := born s.kernel parent isKernel isShared } := by
  have lists := born_children coherent.tree known isKernel isShared
  refine recorded_of_same h rfl (Nat.le_succ _) ?_ ?_ ?_
  · intro r old
    have fields := born_fields known isKernel isShared r old
    refine ⟨by rw [fields.2.1], ?_, fields.2.2.1⟩
    rw [born_tasks known, if_neg (by omega)]
    split
    · rename_i same
      rw [same]
    · rfl
  · intro p c old
    rw [lists]
    constructor
    · intro either
      rcases either with older | ⟨_, same⟩
      · exact older
      · omega
    · exact Or.inl
  · intro r new inside
    have same : r = s.kernel.made := by
      have made : (born s.kernel parent isKernel isShared).made = s.kernel.made + 1 := rfl
      rw [made] at inside
      omega
    subst same
    refine ⟨?_, parent, (lists parent _).mpr (Or.inr ⟨rfl, rfl⟩)⟩
    rw [born_tasks known, if_pos rfl]
    simp [newCommon]

theorem recorded_yielded :
    Recorded { s with kernel := switched (parked s.kernel) (chosen (parked s.kernel)) } := by
  have live := (chosen_live (parked_paused coherent)).2
  have made := (parked_kernel s.kernel).1
  refine recorded_of_same h rfl (Nat.le_of_eq made.symm) ?_ ?_ ?_
  · intro r old
    refine ⟨?_, by rw [switched_task, parked_task], by rw [switched_task, parked_task]⟩
    rw [switched_task]
    simp only
    have running := (coherent.running r old)
    split
    · rename_i next
      rw [← next, parked_task] at live
      simp only at live
      split at live
      · rename_i self
        simp [running.mpr self]
      · simp [live]
    · rw [parked_task]
      simp only
      split
      · rename_i self
        simp [running.mpr self]
      · rfl
  · intro p c _
    rw [switched_task, parked_task]
  · intro r new inside
    have bound : r < (parked s.kernel).made := inside
    rw [made] at bound
    omega

omit h in
theorem exit_departed (code : BitVec 32) (user : 1 < s.kernel.currentTask) :
    Departed s.kernel (switched (s.kernel.leave code) (chosen (s.kernel.leave code))) code := by
  have live := (chosen_live (leave_paused code coherent user).1).2
  have own := own_not_kid coherent.tree
  refine ⟨(leave_kernel code s.kernel).1, ?_, ?_, ?_, ?_⟩
  · intro p c
    rw [switched_task]
    exact leave_children code coherent p c
  · intro r
    rw [switched_task]
    simp only
    rw [leave_state code coherent] at live ⊢
    split
    · rename_i next
      rw [← next] at live
      split at live
      · exact absurd rfl live
      · rename_i other
        simp [other, live]
    split
    · rename_i self
      simp [self]
    · rename_i other
      simp [other]
  · intro r
    rw [switched_task, leave_tasks code own]
  · intro r unkept
    rw [switched_task, leave_tasks code own]
    simp only [unkept, ↓reduceIte]

theorem recorded_exited (code : BitVec 32) (user : 1 < s.kernel.currentTask) :
    Recorded ⟨switched (s.kernel.leave code) (chosen (s.kernel.leave code)),
      s.history ++ [.exited s.kernel.currentTask code]⟩ := by
  have departed := exit_departed coherent code user
  generalize switched (s.kernel.leave code) (chosen (s.kernel.leave code)) = left at departed
  have inside := coherent.inside
  have alive : ∀ r, (s.kernel.tasks r).state = .zombie → r ≠ s.kernel.currentTask := by
    intro r zombie same
    rw [same, (coherent.running _ inside).mpr rfl] at zombie
    cases zombie
  have notExited : ∀ c, .exited s.kernel.currentTask c ∉ s.history := by
    intro c member
    exact alive _ (h.exited _ c member).2.1 rfl
  constructor
  case listed =>
    intro r above bound kept
    have bound : r < s.kernel.made := departed.made ▸ bound
    simp only [countP_append, countP_singleton, reapOf, Bool.false_eq_true, ↓reduceIte,
      Nat.add_zero] at kept
    obtain ⟨p, member⟩ := h.listed r above bound kept
    by_cases mine : p = s.kernel.currentTask
    · subst mine
      exact ⟨1, (departed.children 1 r).mpr ⟨by omega, Or.inr ⟨rfl, member⟩⟩⟩
    · exact ⟨p, (departed.children p r).mpr ⟨mine, Or.inl member⟩⟩
  case reaped =>
    intro p r c member
    simp only [mem_append, mem_singleton, reduceCtorEq, or_false] at member
    obtain ⟨old, zombie, parent, exitCode, unlisted⟩ := h.reaped p r c member
    have unkept : r ∉ kids s.kernel := unlisted s.kernel.currentTask
    refine ⟨departed.made.symm ▸ old, (departed.zombie r).mpr (Or.inr zombie),
      (departed.parent r unkept).trans parent, ?_, ?_⟩
    · rw [departed.exitCode, if_neg (alive r zombie)]
      exact exitCode
    intro q listed
    obtain ⟨_, older | ⟨_, orphan⟩⟩ := (departed.children q r).mp listed
    · exact unlisted q older
    · exact unkept orphan
  case exited =>
    intro r c member
    simp only [mem_append, mem_singleton, Event.exited.injEq] at member
    rcases member with older | ⟨rfl, rfl⟩
    · obtain ⟨old, zombie, exitCode⟩ := h.exited r c older
      refine ⟨departed.made.symm ▸ old, (departed.zombie r).mpr (Or.inr zombie), ?_⟩
      rw [departed.exitCode, if_neg (alive r zombie)]
      exact exitCode
    · exact ⟨departed.made.symm ▸ inside, (departed.zombie _).mpr (Or.inl rfl),
        by rw [departed.exitCode, if_pos rfl]⟩
  case dead =>
    intro r bound zombie
    have bound : r < s.kernel.made := departed.made ▸ bound
    rw [departed.exitCode, mem_append, mem_singleton]
    rcases (departed.zombie r).mp zombie with same | older
    · rw [if_pos same, same]
      exact Or.inr rfl
    · rw [if_neg (alive r older)]
      exact Or.inl (h.dead r bound older)
  case reaped_once =>
    intro r
    simp only [countP_append, countP_singleton, reapOf, Bool.false_eq_true, ↓reduceIte,
      Nat.add_zero]
    exact h.reaped_once r
  case exited_once =>
    intro r
    rw [countP_append, countP_singleton]
    by_cases same : s.kernel.currentTask = r
    · subst same
      rw [exit_count_zero notExited]
      split <;> omega
    · simp only [exitOf, beq_eq_false_iff_ne.mpr same, Bool.false_eq_true, ↓reduceIte, Nat.add_zero]
      exact h.exited_once r

theorem recorded_reaped (member : child ∈ kids s.kernel) (zombie : (s.kernel.tasks child).state = .zombie) :
    Recorded ⟨reaped s.kernel child,
      s.history ++ [.reaped s.kernel.currentTask child (s.kernel.tasks child).exitCode]⟩ := by
  have fields := reaped_fields coherent child
  obtain ⟨_, _, inside, parent, _⟩ := coherent.tree.child _ _ member
  have notReaped : s.history.countP (reapOf child) = 0 := by
    by_contra some_time
    obtain ⟨p, code, before⟩ := reap_count_pos some_time
    exact (h.reaped p child code before).2.2.2.2 s.kernel.currentTask member
  have reapCount : ∀ r, (s.history ++
      [Event.reaped s.kernel.currentTask child (s.kernel.tasks child).exitCode]).countP (reapOf r) =
      s.history.countP (reapOf r) + if child = r then 1 else 0 := by
    intro r
    rw [countP_append, countP_singleton]
    simp only [reapOf, beq_iff_eq]
  constructor
  case listed =>
    intro r above bound kept
    rw [reapCount] at kept
    split at kept
    · omega
    rename_i other
    obtain ⟨p, listed⟩ := h.listed r above bound kept
    exact ⟨p, ((fields p).2.2.2.2 r).mpr ⟨listed, fun _ => Ne.symm other⟩⟩
  case reaped =>
    intro p r code event
    simp only [mem_append, mem_singleton, Event.reaped.injEq] at event
    rcases event with older | ⟨rfl, rfl, rfl⟩
    · obtain ⟨old, dead, its, exitCode, unlisted⟩ := h.reaped p r code older
      refine ⟨old, (fields r).2.1.trans dead, (fields r).2.2.1.trans its,
        (fields r).2.2.2.1.trans exitCode, ?_⟩
      intro q listed
      exact unlisted q (((fields q).2.2.2.2 r).mp listed).1
    · exact ⟨inside, (fields _).2.1.trans zombie, (fields _).2.2.1.trans parent, (fields _).2.2.2.1,
        reaped_unlisted coherent member⟩
  case exited =>
    intro r code event
    simp only [mem_append, mem_singleton, reduceCtorEq, or_false] at event
    obtain ⟨old, dead, exitCode⟩ := h.exited r code event
    exact ⟨old, (fields r).2.1.trans dead, (fields r).2.2.2.1.trans exitCode⟩
  case dead =>
    intro r bound dead
    rw [(fields r).2.1] at dead
    rw [(fields r).2.2.2.1, mem_append]
    exact Or.inl (h.dead r bound dead)
  case reaped_once =>
    intro r
    have once := h.reaped_once r
    rw [reapCount]
    split
    · rename_i same
      subst same
      omega
    · exact once
  case exited_once =>
    intro r
    rw [countP_append, countP_singleton]
    simp only [exitOf, Bool.false_eq_true, ↓reduceIte, Nat.add_zero]
    exact h.exited_once r

theorem recorded_step (outcome : Outcome s a t) : Recorded t := by
  cases outcome with
  | created _ parent isKernel isShared known _ => exact recorded_created coherent h known isKernel isShared
  | yielded => exact recorded_yielded coherent h
  | exited code user => exact recorded_exited coherent h code user
  | reaped _ child member zombie => exact recorded_reaped coherent h member zombie
  | waited => exact h

end Steps

theorem recorded_start (started : taskInit = .ok s.kernel) (empty : s.history = []) : Recorded s := by
  obtain ⟨coherent, made⟩ := init_coherent started
  have alive : ∀ r, r < s.kernel.made → (s.kernel.tasks r).state ≠ .zombie := by
    intro r inside dead
    have here : r = s.kernel.currentTask ∨ r ∈ s.kernel.readyQueue := by
      have first := init_started started
      rw [first.queue, first.current]
      simp only [mem_cons, not_mem_nil, or_false]
      omega
    have scheduled := (coherent_scheduled coherent).no_zombie r inside dead
    rcases here with same | queued
    · exact scheduled.2 same
    · exact scheduled.1 queued
  constructor
  case listed =>
    intro r above inside _
    exact coherent.tree.adopted r above inside (alive r inside)
  case reaped =>
    intro p r code member
    rw [empty] at member
    cases member
  case exited =>
    intro r code member
    rw [empty] at member
    cases member
  case dead =>
    intro r inside dead
    exact absurd dead (alive r inside)
  case reaped_once =>
    intro r
    simp [empty]
  case exited_once =>
    intro r
    simp [empty]

structure Lineage (s : Session) : Prop where
  coherent : Coherent s.kernel
  bounded : s.kernel.made ≤ 2 ^ 63
  recorded : Recorded s

theorem lineage_reachable (reach : Reachable (tasking.guarded SmallPid) s) : Lineage s := by
  apply reachable_invariant Lineage _ _ reach
  · intro s start
    obtain ⟨coherent, made⟩ := init_coherent start.1
    exact ⟨coherent, by omega, recorded_start start.1 start.2⟩
  intro s a t kept step
  obtain ⟨small, permitted, run⟩ := step
  have bounded := kept.bounded
  have outcome := act_outcome kept.coherent (by omega) permitted (fun creates => (small creates).1) run
  refine ⟨outcome_coherent kept.coherent outcome, ?_, recorded_step kept.coherent kept.recorded outcome⟩
  have made := outcome_made outcome
  split at made
  · rename_i creates
    have value := (small creates).2
    rw [kept.coherent.tree.counter, BitVec.toNat_ofNat] at value
    omega
  · omega

structure Rooted (s : Session) : Prop where
  one_list : ∀ r, r < s.kernel.made → r ≠ idleRef → r ≠ rootRef →
    (∀ p code, .reaped p r code ∉ s.history) →
    ∃ p, (s.kernel.tasks r).parent = some p ∧ (s.kernel.tasks p).state ≠ .zombie ∧
      (s.kernel.tasks p).children.count r = 1 ∧ ∀ q, r ∈ (s.kernel.tasks q).children → q = p
  reaped_once : ∀ r, s.history.countP (reapOf r) ≤ 1
  exited_once : ∀ r, s.history.countP (exitOf r) ≤ 1
  own_code : ∀ p r code, .reaped p r code ∈ s.history → .exited r code ∈ s.history
  own_parent : ∀ p r code, .reaped p r code ∈ s.history → (s.kernel.tasks r).parent = some p

theorem lineage_rooted (h : Lineage s) : Rooted s := by
  have tree := h.coherent.tree
  refine ⟨?_, h.recorded.reaped_once, h.recorded.exited_once, ?_, ?_⟩
  · intro r inside notIdle notRoot kept
    unfold idleRef at notIdle
    unfold rootRef at notRoot
    have never : s.history.countP (reapOf r) = 0 := by
      by_contra some_time
      obtain ⟨p, code, member⟩ := reap_count_pos some_time
      exact kept p code member
    obtain ⟨p, member⟩ := h.recorded.listed r (by omega) inside never
    obtain ⟨_, _, _, parent, alive⟩ := tree.child p r member
    refine ⟨p, parent, alive, ?_, ?_⟩
    · exact count_eq_one_of_mem (tree.single p) member
    intro q other
    have its := (tree.child q r other).2.2.2.1
    rw [parent] at its
    exact (Option.some.inj its).symm
  · intro p r code member
    obtain ⟨inside, dead, _, exitCode, _⟩ := h.recorded.reaped p r code member
    rw [← exitCode]
    exact h.recorded.dead r inside dead
  · intro p r code member
    exact (h.recorded.reaped p r code member).2.2.1

/-- What `waitpid` answers: the values -1 and -2, or a matching zombie child, which leaves
    the caller's list and no other. -/
structure Answered (k : Kernel) (pid : BitVec 64) (w : Kernel.Waited) : Prop where
  no_match : w.ret = -1 ↔ ∀ c ∈ kids k, k.pidMatches pid c = false
  no_zombie : w.ret = -2 ↔ (∃ c ∈ kids k, k.pidMatches pid c = true) ∧
    ∀ c ∈ kids k, k.pidMatches pid c = true → (k.tasks c).state ≠ .zombie
  reaps : (∃ c ∈ kids k, k.pidMatches pid c = true ∧ (k.tasks c).state = .zombie) →
    ∃ c ∈ kids k, k.pidMatches pid c = true ∧ (k.tasks c).state = .zombie ∧
      (k.tasks c).parent = some k.currentTask ∧ w.ret = (k.tasks c).pid ∧
      w.reaped = some (c, (k.tasks c).exitCode) ∧ w.kernel = reaped k c
  keeps : (∀ c ∈ kids k, k.pidMatches pid c = true → (k.tasks c).state ≠ .zombie) →
    w.kernel = k ∧ w.reaped = none

theorem small_pid_no_error {k : Kernel} (h : Tree k) (bounded : k.made ≤ 2 ^ 63) (inside : c < k.made) :
    (k.tasks c).pid ≠ -1 ∧ (k.tasks c).pid ≠ -2 := by
  rw [h.pids c inside]
  constructor
  · intro same
    have value := congrArg BitVec.toNat same
    rw [BitVec.toNat_ofNat, show (-1 : BitVec 64).toNat = 2 ^ 64 - 1 from rfl] at value
    omega
  intro same
  have value := congrArg BitVec.toNat same
  rw [BitVec.toNat_ofNat, show (-2 : BitVec 64).toNat = 2 ^ 64 - 2 from rfl] at value
  omega

theorem waitpid_answers (h : Lineage s) (pid : BitVec 64) :
    ∃ w, s.kernel.waitpid pid = .ok w ∧ Answered s.kernel pid w := by
  have tree := h.coherent.tree
  rcases waitpid_cases h.coherent pid with ⟨child, member, matched, dead, run⟩ | ⟨alive, run⟩
  · obtain ⟨_, _, inside, parent, _⟩ := tree.child _ _ member
    obtain ⟨notOne, notTwo⟩ := small_pid_no_error tree h.bounded inside
    refine ⟨_, run, ⟨?_, ?_, ?_, ?_⟩⟩
    · constructor
      · intro same
        exact absurd same notOne
      intro nobody
      rw [nobody child member] at matched
      cases matched
    · constructor
      · intro same
        exact absurd same notTwo
      · intro only
        exact absurd dead (only.2 child member matched)
    · intro _
      exact ⟨child, member, matched, dead, parent, rfl, rfl, rfl⟩
    · intro only
      exact absurd dead (only child member matched)
  · refine ⟨_, run, ⟨?_, ?_, ?_, ?_⟩⟩
    · by_cases hit : (kids s.kernel).any (s.kernel.pidMatches pid) = true
      · obtain ⟨c, member, matched⟩ := List.any_eq_true.mp hit
        simp only [hit, ↓reduceIte]
        constructor
        · intro same
          exact absurd same (by decide)
        intro nobody
        rw [nobody c member] at matched
        cases matched
      · simp only [hit, Bool.false_eq_true, ↓reduceIte, true_iff]
        intro c member
        by_contra matched
        exact hit (List.any_eq_true.mpr ⟨c, member, by simpa using matched⟩)
    · by_cases hit : (kids s.kernel).any (s.kernel.pidMatches pid) = true
      · simp only [hit, ↓reduceIte, true_iff]
        exact ⟨List.any_eq_true.mp hit, alive⟩
      simp only [hit, Bool.false_eq_true, ↓reduceIte]
      constructor
      · intro same
        exact absurd same (by decide)
      · intro both
        exact absurd (List.any_eq_true.mpr both.1) hit
    · intro some_zombie
      obtain ⟨c, member, matched, dead⟩ := some_zombie
      exact absurd dead (alive c member matched)
    · intro _
      exact ⟨rfl, rfl⟩

theorem orphans_under_root (h : Lineage s) (permitted : Permitted s.kernel (.exit code))
    (step : act s (.exit code) = .ok t) :
    ∀ c ∈ kids s.kernel, (t.kernel.tasks c).parent = some rootRef ∧
      c ∈ (t.kernel.tasks rootRef).children := by
  intro c member
  have bounded := h.bounded
  have outcome := act_outcome h.coherent (by omega) permitted nofun step
  cases outcome with
  | created creates => cases creates
  | exited _ user =>
    rw [switched_task, switched_task]
    constructor
    · simp only
      rw [leave_parent code h.coherent, if_pos member]
      rfl
    · exact (leave_children code h.coherent 1 c).mpr ⟨by omega, Or.inr ⟨rfl, member⟩⟩

end RtosNimbosProcessTree
