import CompositeRtos.Nimbos.ProcessTree
import CompositeRtos.Nimbos.SenderTable

/-!
How long a UPID lives. It is a box that the receiver's `TaskContext` owns, so it goes back
to the heap when `waitpid` drops the receiver; the tables of the senders hold its address as
a plain number, and nothing takes it out again.
-/
namespace RtosNimbosUpidLifetime
open RtosTransition RtosX86 RtosNimbosTask RtosNimbosProcessTree RtosNimbosUintrTasks RtosNimbosSenderTable Function
open RtosUintrMachine (UittEntry)

def newContext : UintrContext := ⟨none, false, false, none⟩

/-- The tasks with the user-interrupt part of their contexts. A number that no task has yet
    has a new context. `boxes` lists the UPIDs on the heap, each with the task that owns it
    and its address; `target` remembers whose UPID a `register_sender` was given. -/
structure System where
  session : Session
  contexts : Nat → UintrContext
  boxes : List (Nat × BitVec 64)
  target : Nat → Nat → Option Nat

inductive Op where
  | task (a : Action)
  | registerHandler (cpu : X86) (handler upidAddr : BitVec 64) (apicId : BitVec 32)
  | registerSender (cpu : X86) (receiver : Nat) (uvec upid uittPtr : BitVec 64)

namespace System

def current (s : System) : Nat := s.session.kernel.currentTask

def table (s : System) (t : Nat) : List UittEntry := (uintrInitSender (s.contexts t)).uitt

def Exited (s : System) (t : Nat) : Prop := ∃ e ∈ s.session.history, exitOf t e = true

/-- `waitpid` has dropped the last `Arc<Task>`, and with it the context. -/
def Dropped (s : System) (t : Nat) : Prop := ∃ e ∈ s.session.history, reapOf t e = true

instance (s : System) (t : Nat) : Decidable (s.Exited t) := inferInstanceAs (Decidable (∃ e ∈ _, _ = true))

instance (s : System) (t : Nat) : Decidable (s.Dropped t) := inferInstanceAs (Decidable (∃ e ∈ _, _ = true))

end System

def reapedChild (before after : Session) : Option Nat :=
  match after.history.drop before.history.length with
  | [.reaped _ child _] => some child
  | _ => none

def dropContext (s : System) : Option Nat → System
  | none => s
  | some child =>
    { s with
      contexts := Function.update s.contexts child newContext
      boxes := s.boxes.filter fun box => box.1 != child }

def note (target : Nat → Nat → Option Nat) (sender receiver : Nat) : Int → Nat → Nat → Option Nat
  | .ofNat index => Function.update target sender (Function.update (target sender) index (some receiver))
  | .negSucc _ => target

def perform (s : System) : Op → Option System
  | .task a =>
    match act s.session a with
    | .error _ => none
    | .ok session => some { dropContext s (reapedChild s.session session) with session }
  | .registerHandler cpu handler upidAddr apicId =>
    let call := sysUintrRegisterHandler (s.contexts s.current) cpu handler upidAddr apicId
    some { s with
      contexts := Function.update s.contexts s.current call.ctx
      boxes := if call.result = 0 then s.boxes else s.boxes ++ [(s.current, call.result)] }
  | .registerSender cpu receiver uvec upid uittPtr =>
    let call := sysUintrRegisterSender uittPtr ⟨s.contexts s.current, cpu, []⟩ upid uvec
    some { s with
      contexts := Function.update s.contexts s.current call.ctx
      target := note s.target s.current receiver call.result }

/-- The heap hands out room that is not in use, and a sender is given the address that
    `register_handler` returned to a task that is not reaped. -/
def Admitted (s : System) : Op → Prop
  | .task a => Permitted s.session.kernel a
  | .registerHandler _ _ upidAddr _ => upidAddr ≠ 0 ∧ ∀ box ∈ s.boxes, box.2 ≠ upidAddr
  | .registerSender _ receiver _ upid _ => ¬ s.Dropped receiver ∧ (receiver, upid) ∈ s.boxes

def senders : Machine System Op where
  start s := tasking.start s.session ∧ s.contexts = (fun _ => newContext) ∧ s.boxes = []
  next s op t := Admitted s op ∧ perform s op = some t

/-- At `addr` lies the UPID of `r`, whose context is still there, and nobody else's. -/
structure Owns (s : System) (r : Nat) (addr : BitVec 64) : Prop where
  kept : ¬ s.Dropped r
  present : (r, addr) ∈ s.boxes
  alone : ∀ q, (q, addr) ∈ s.boxes → q = r

/-- Every valid entry of a task that has not exited has the UPID it was registered for. -/
def NoneDangles (s : System) : Prop :=
  ∀ t i e, ¬ s.Exited t → (s.table t)[i]? = some e → isValid e = true →
    ∃ r, s.target t i = some r ∧ Owns s r e.targetUpidAddr

/-- The condition: whom `waitpid` reaps is not the target of a valid entry of another task
    that has not exited. -/
def Unreferenced (s : System) : Op → Prop
  | .task a => ∀ session child, act s.session a = .ok session → reapedChild s.session session = some child →
    ∀ t i e, t ≠ child → ¬ s.Exited t → (s.table t)[i]? = some e → isValid e = true → s.target t i ≠ some child
  | _ => True

inductive Added (s t : Session) : Prop where
  | nothing (same : t.history = s.history)
  | exit (task : Nat) (code : BitVec 32) (more : t.history = s.history ++ [.exited task code])
  | reap (parent child : Nat) (code : BitVec 32) (more : t.history = s.history ++ [.reaped parent child code])

theorem bind_ok {α β : Type} {x : Except Panic α} {f : α → Except Panic β} {v : β} (run : (x >>= f) = .ok v) :
    ∃ u, x = .ok u ∧ f u = .ok v := by
  cases x with
  | error p => cases run
  | ok u => exact ⟨u, rfl, run⟩

theorem act_added {s t : Session} {a : Action} (run : act s a = .ok t) : Added s t := by
  cases a with
  | spawnKernel =>
    obtain ⟨k, _, done⟩ := bind_ok run
    cases done
    exact Added.nothing rfl
  | spawnUser =>
    obtain ⟨k, _, done⟩ := bind_ok run
    cases done
    exact Added.nothing rfl
  | yieldNow =>
    obtain ⟨k, _, done⟩ := bind_ok run
    cases done
    exact Added.nothing rfl
  | exit code =>
    obtain ⟨k, _, done⟩ := bind_ok run
    cases done
    exact Added.exit _ _ rfl
  | fork =>
    obtain ⟨child, _, later⟩ := bind_ok run
    obtain ⟨k, _, done⟩ := bind_ok later
    cases done
    exact Added.nothing rfl
  | clone =>
    obtain ⟨child, _, later⟩ := bind_ok run
    obtain ⟨k, _, done⟩ := bind_ok later
    cases done
    exact Added.nothing rfl
  | waitpid pid =>
    obtain ⟨w, _, done⟩ := bind_ok run
    split at done
    · cases done
      exact Added.reap _ _ _ rfl
    · cases done
      exact Added.nothing rfl

/-- A step reaps nobody, and then drops nobody, or it reaps one child and ends no task. -/
inductive Passed (s : System) (session : Session) : Prop where
  | calm (nobody : reapedChild s.session session = none)
      (exits : ∀ t, s.Exited t → { s with session }.Exited t)
      (drops : ∀ t, { s with session }.Dropped t ↔ s.Dropped t)
  | reap (child : Nat) (which : reapedChild s.session session = some child)
      (exits : ∀ t, { s with session }.Exited t ↔ s.Exited t)
      (drops : ∀ t, { s with session }.Dropped t ↔ s.Dropped t ∨ t = child)

theorem act_passed (run : act s.session a = .ok session) : Passed s session := by
  cases act_added run with
  | nothing same =>
    refine Passed.calm ?_ ?_ ?_
    · simp [reapedChild, same]
    · simp [System.Exited, same]
    · simp [System.Dropped, same]
  | exit task code more =>
    refine Passed.calm ?_ ?_ ?_
    · simp [reapedChild, more]
    · rintro t ⟨e, member, which⟩
      exact ⟨e, by simp [more, member], which⟩
    · intro t
      simp [System.Dropped, more, or_and_right, exists_or, reapOf]
  | reap parent child code more =>
    refine Passed.reap child ?_ ?_ ?_
    · simp [reapedChild, more]
    · intro t
      simp [System.Exited, more, or_and_right, exists_or, exitOf]
    · intro t
      simp [System.Dropped, more, or_and_right, exists_or, reapOf, eq_comm (a := t)]

section Steps
variable {s t : System}

def Apart (s : System) : Prop := ∀ q r addr, (q, addr) ∈ s.boxes → (r, addr) ∈ s.boxes → q = r

theorem drop_boxes : (dropContext s reaped).boxes ⊆ s.boxes := by
  cases reaped with
  | none => exact List.Subset.refl _
  | some child => exact List.filter_subset_self _

theorem handler_result (cpu : X86) : (sysUintrRegisterHandler ctx cpu handler upidAddr apicId).result = 0 ∨
    (sysUintrRegisterHandler ctx cpu handler upidAddr apicId).result = upidAddr := by
  unfold sysUintrRegisterHandler doUintrRegisterHandler
  split
  · exact Or.inl rfl
  split
  · exact Or.inl rfl
  · exact Or.inr rfl

theorem handler_boxes (run : perform s (.registerHandler cpu handler upidAddr apicId) = some t) :
    t.boxes = s.boxes ∨ t.boxes = s.boxes ++ [(s.current, upidAddr)] := by
  cases run
  by_cases refused : (sysUintrRegisterHandler (s.contexts s.current) cpu handler upidAddr apicId).result = 0
  · exact Or.inl (if_pos refused)
  have given := (handler_result cpu).resolve_left refused
  right
  rw [if_neg refused, given]

theorem apart_step (apart : Apart s) (step : senders.next s op t) : Apart t := by
  obtain ⟨admitted, run⟩ := step
  cases op with
  | task a =>
    simp only [perform] at run
    split at run
    · cases run
    cases run
    intro q r addr mine other
    exact apart q r addr (drop_boxes mine) (drop_boxes other)
  | registerHandler cpu handler upidAddr apicId =>
    have fresh := admitted.2
    intro q r addr mine other
    rcases handler_boxes run with same | more
    · rw [same] at mine other
      exact apart q r addr mine other
    rw [more, List.mem_append, List.mem_singleton, Prod.mk.injEq] at mine other
    rcases mine with old | ⟨rfl, rfl⟩ <;> rcases other with old' | ⟨rfl, same⟩
    · exact apart q r addr old old'
    · exact absurd same (fresh _ old)
    · exact absurd rfl (fresh _ old')
    · rfl
  | registerSender cpu receiver uvec upid uittPtr =>
    cases run
    exact apart

theorem owns_of_apart (apart : Apart t) (kept : ¬ t.Dropped r) (present : (r, addr) ∈ t.boxes) : Owns t r addr :=
  ⟨kept, present, fun q other => apart q r addr other present⟩

/-- The tables of the others survive when a task is dropped, so they have to refer to
    somebody else. -/
theorem reap_iff (h : NoneDangles s) (apart : Apart { dropContext s (some child) with session })
    (exits : ∀ u, { s with session }.Exited u ↔ s.Exited u)
    (drops : ∀ r, { s with session }.Dropped r ↔ s.Dropped r ∨ r = child) :
    NoneDangles { dropContext s (some child) with session } ↔
      ∀ u i e, u ≠ child → ¬ s.Exited u → (s.table u)[i]? = some e → isValid e = true →
        s.target u i ≠ some child := by
  have others : ∀ u, u ≠ child → { dropContext s (some child) with session }.table u = s.table u := by
    intro u other
    simp [dropContext, System.table, update_of_ne other]
  constructor
  · intro none u i e other running found valid target
    obtain ⟨r, target', owns⟩ := none u i e (fun gone => running ((exits u).mp gone))
      (by rw [others u other]; exact found) valid
    cases target.symm.trans target'
    exact owns.kept ((drops _).mpr (Or.inr rfl))
  intro clear u i e running found valid
  by_cases own : u = child
  · subst own
    have empty : { dropContext s (some u) with session }.table u = List.replicate uintrMaxUittNr ⟨0, 0, 0⟩ := by
      simp [dropContext, System.table, newContext, uintrInitSender]
    rw [empty] at found
    exact absurd valid (new_table_unused found)
  have running' : ¬ s.Exited u := fun gone => running ((exits u).mpr gone)
  rw [others u own] at found
  obtain ⟨r, target, owns⟩ := h u i e running' found valid
  have distinct : r ≠ child := fun same => clear u i e own running' found valid (same ▸ target)
  refine ⟨r, target, owns_of_apart apart ?_ ?_⟩
  · intro gone
    exact ((drops r).mp gone).elim owns.kept distinct
  · exact List.mem_filter.mpr ⟨owns.present, by simpa using distinct⟩

theorem task_iff (h : NoneDangles s) (apart : Apart t) (step : senders.next s (.task a) t) :
    NoneDangles t ↔ Unreferenced s (.task a) := by
  obtain ⟨_, run⟩ := step
  simp only [perform] at run
  split at run
  · cases run
  rename_i session acted
  cases run
  cases act_passed acted with
  | calm nobody exits drops =>
    rw [nobody] at apart ⊢
    constructor
    · intro _ session' child acted' which
      cases acted.symm.trans acted'
      cases nobody.symm.trans which
    intro _ u i e running found valid
    obtain ⟨r, target, owns⟩ := h u i e (fun gone => running (exits u gone)) found valid
    exact ⟨r, target, owns_of_apart apart (fun gone => owns.kept ((drops r).mp gone)) owns.present⟩
  | reap child which exits drops =>
    rw [which] at apart ⊢
    rw [reap_iff h apart exits drops]
    constructor
    · intro clear session' child' acted' which'
      cases acted.symm.trans acted'
      cases which.symm.trans which'
      exact clear
    · intro clear
      exact clear session child acted which

theorem handler_none_dangles (h : NoneDangles s) (apart : Apart t)
    (run : perform s (.registerHandler cpu handler upidAddr apicId) = some t) : NoneDangles t := by
  have more : s.boxes ⊆ t.boxes := by
    rcases handler_boxes run with same | more
    · rw [same]
      exact List.Subset.refl _
    · rw [more]
      exact List.subset_append_left _ _
  cases run
  intro u i e running found valid
  have kept : (s.table u)[i]? = some e := by
    rw [← found]
    by_cases own : u = s.current
    · subst own
      have table := (handler_keeps 0 ⟨s.contexts s.current, cpu, []⟩ handler upidAddr apicId).1
      simp only [System.table, update_self]
      exact congrArg (·.uitt[i]?) table.symm
    · simp only [System.table, update_of_ne own]
  obtain ⟨r, target, owns⟩ := h u i e running kept valid
  exact ⟨r, target, owns_of_apart apart owns.kept (more owns.present)⟩

theorem note_other (sender receiver : Nat) (result : Int) {i : Nat} (other : u ≠ sender ∨ result ≠ i) :
    note target sender receiver result u i = target u i := by
  cases result with
  | negSucc n => rfl
  | ofNat n =>
    simp only [note]
    by_cases own : u = sender
    · subst own
      have distinct : i ≠ n := fun same => other.elim (fun differ => differ rfl) fun differ => differ (by simp [same])
      rw [update_self, update_of_ne distinct]
    · rw [update_of_ne own]

theorem sender_none_dangles (h : NoneDangles s) (apart : Apart t)
    (step : senders.next s (.registerSender cpu receiver uvec upid uittPtr) t) : NoneDangles t := by
  obtain ⟨⟨alive, present⟩, run⟩ := step
  have served := register_sender_served uittPtr ⟨s.contexts s.current, cpu, []⟩ upid uvec
  simp only [perform] at run
  generalize sysUintrRegisterSender uittPtr ⟨s.contexts s.current, cpu, []⟩ upid uvec = call at served run
  cases run
  intro u i e running found valid
  suffices found : ∃ r, note s.target s.current receiver call.result u i = some r ∧ ¬ s.Dropped r ∧
      (r, e.targetUpidAddr) ∈ s.boxes by
    obtain ⟨r, target, alive, present⟩ := found
    exact ⟨r, target, owns_of_apart apart alive present⟩
  have stays : (s.table u)[i]? = some e → u ≠ s.current ∨ call.result ≠ i →
      ∃ r, note s.target s.current receiver call.result u i = some r ∧ ¬ s.Dropped r ∧
        (r, e.targetUpidAddr) ∈ s.boxes := by
    intro before other
    rw [note_other _ _ _ other]
    obtain ⟨r, target, owns⟩ := h u i e running before valid
    exact ⟨r, target, owns.kept, owns.present⟩
  by_cases own : u = s.current
  · subst own
    simp only [System.table, update_self] at found
    cases served with
    | null missing =>
      have negative : -einval < 0 := by decide
      exact stays found (Or.inr (by simp only; omega))
    | full given ones =>
      have negative : -enospc < 0 := by decide
      exact stays found (Or.inr (by simp only; omega))
    | @entered n ctx cpu' given bound zero ones table activated msrs =>
      rw [table, List.getElem?_set] at found
      split at found
      · rename_i here
        subst here
        split at found
        · cases found
          exact ⟨receiver, by simp [note], alive, present⟩
        · cases found
      · rename_i other
        exact stays found (Or.inr (by simpa using other))
  · simp only [System.table, update_of_ne own] at found
    exact stays found (Or.inl own)

theorem none_dangles_iff (h : NoneDangles s) (apart : Apart t) (step : senders.next s op t) :
    NoneDangles t ↔ Unreferenced s op := by
  cases op with
  | task a => exact task_iff h apart step
  | registerHandler cpu handler upidAddr apicId =>
    exact ⟨fun _ => trivial, fun _ => handler_none_dangles h apart step.2⟩
  | registerSender cpu receiver uvec upid uittPtr =>
    exact ⟨fun _ => trivial, fun _ => sender_none_dangles h apart step⟩

theorem start_none_dangles (start : senders.start s) : NoneDangles s := by
  intro u i e _ found valid
  have empty : s.table u = List.replicate uintrMaxUittNr ⟨0, 0, 0⟩ := by
    rw [System.table, start.2.1]
    rfl
  rw [empty] at found
  exact absurd valid (new_table_unused found)

end Steps

/-- In every run that reaps only tasks no valid entry refers to, no entry dangles in any
    state, and a further step leaves it so just when it keeps to that too. -/
theorem entries_outlived_by_targets {s : System} (reach : Reachable (senders.guarded Unreferenced) s) :
    NoneDangles s ∧ ∀ op t, senders.next s op t → (NoneDangles t ↔ Unreferenced s op) := by
  have kept : NoneDangles s ∧ Apart s := by
    apply reachable_invariant (fun s => NoneDangles s ∧ Apart s) _ _ reach
    · intro s start
      refine ⟨start_none_dangles start, ?_⟩
      intro q r addr mine
      rw [start.2.2] at mine
      cases mine
    rintro s op t ⟨none, apart⟩ ⟨clear, step⟩
    have apart' := apart_step apart step
    exact ⟨(none_dangles_iff none apart' step).mpr clear, apart'⟩
  exact ⟨kept.1, fun op t step => none_dangles_iff kept.1 (apart_step kept.2 step) step⟩

def bootSystem : System := ⟨⟨initKernel, []⟩, fun _ => newContext, [], fun _ _ => none⟩

instance (s : System) : (op : Op) → Decidable (Admitted s op)
  | .task a => inferInstanceAs (Decidable (Permitted s.session.kernel a))
  | .registerHandler _ _ _ _ => inferInstanceAs (Decidable (_ ∧ _))
  | .registerSender _ _ _ _ _ => inferInstanceAs (Decidable (_ ∧ _))

def attemptCalm (s : System) (op : Op) : Option System :=
  if Admitted s op then (perform s op).filter fun t => (reapedChild s.session t.session).isNone else none

theorem calm_allowed (s : System) (op : Op) (t : System) (done : attemptCalm s op = some t) :
    (senders.guarded Unreferenced).next s op t := by
  unfold attemptCalm at done
  split at done
  · rename_i admitted
    obtain ⟨run, nobody⟩ := Option.filter_eq_some_iff.mp done
    refine ⟨?_, admitted, run⟩
    cases op with
    | task a =>
      intro session child acted which
      simp only [perform, acted, Option.some.injEq] at run
      rw [← run] at nobody
      rw [which] at nobody
      cases nobody
    | registerHandler cpu handler upidAddr apicId => trivial
    | registerSender cpu receiver uvec upid uittPtr => trivial
  · cases done

def receiverExits : List Op :=
  RtosNimbosScheduler.warmUp.map .task ++ [.task .fork, .task .yieldNow, .task .yieldNow,
    .registerHandler bootCpu 0x401000 0x50000 0, .task .yieldNow, .registerSender bootCpu 5 1 0x50000 0x40000,
    .task .yieldNow, .task .yieldNow, .task (.exit 0)]

theorem receiver_exits_reached (run : receiverExits.foldlM attemptCalm bootSystem = some s) :
    Reachable (senders.guarded Unreferenced) s :=
  reachable_follow calm_allowed (reachable_start ⟨⟨rfl, rfl⟩, rfl, rfl⟩) run

/-- As long as the shell does not reap the receiver, its entry has the receiver's UPID. -/
theorem exited_receiver_kept : ∃ s, receiverExits.foldlM attemptCalm bootSystem = some s ∧ s.Exited 5 ∧
    (s.table 4)[0]? = some ⟨1, 1, 0x50000⟩ ∧ NoneDangles s := by
  have result : ((receiverExits.foldlM attemptCalm bootSystem).map fun s =>
      (decide (s.Exited 5), (s.table 4)[0]?)) = some (true, some ⟨1, 1, 0x50000⟩) := by decide +kernel
  obtain ⟨s, run, seen⟩ := Option.map_eq_some_iff.mp result
  simp only [Prod.mk.injEq, decide_eq_true_eq] at seen
  exact ⟨s, run, seen.1, seen.2, (entries_outlived_by_targets (receiver_exits_reached run)).1⟩

/-- The shell then waits for its child: the UPID goes back to the heap, the shell runs on
    and its entry is still valid. -/
theorem reaped_receiver_dangles : ∃ s, Reachable senders s ∧ s.current = 4 ∧ ¬ s.Exited 4 ∧
    (s.table 4)[0]? = some ⟨1, 1, 0x50000⟩ ∧ s.target 4 0 = some 5 ∧ s.Dropped 5 ∧ s.boxes = [] ∧
    ¬ NoneDangles s := by
  have result : ((receiverExits.foldlM attemptCalm bootSystem).bind fun s =>
      (perform s (.task (.waitpid 5))).map fun t =>
        (decide (t.current = 4 ∧ ¬ t.Exited 4 ∧ t.Dropped 5 ∧ t.boxes = []), (t.table 4)[0]?, t.target 4 0)) =
      some (true, some ⟨1, 1, 0x50000⟩, some 5) := by decide +kernel
  obtain ⟨s, run, later⟩ := Option.bind_eq_some_iff.mp result
  obtain ⟨t, reaped, seen⟩ := Option.map_eq_some_iff.mp later
  simp only [Prod.mk.injEq, decide_eq_true_eq] at seen
  obtain ⟨⟨current, running, dropped, boxes⟩, entry, target⟩ := seen
  have admitted : Admitted s (.task (.waitpid 5)) := trivial
  have reach : Reachable senders t :=
    reachable_next (guarded_reachable (receiver_exits_reached run)) ⟨admitted, reaped⟩
  refine ⟨t, reach, current, running, entry, target, dropped, boxes, ?_⟩
  intro none
  obtain ⟨r, same, owns⟩ := none 4 0 _ running entry (entry_valid 1 0x50000)
  rw [target] at same
  cases same
  exact owns.kept dropped

end RtosNimbosUpidLifetime
