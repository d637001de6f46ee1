import Mathlib.Logic.Function.Basic
import CompositeRtos.Scf.Integrity

/-!
Forwarded calls and their condition variables (`scf/syscall.rs`, `handle_irq` of
`scf/queue.rs`). A condition variable lives in the frame of `sys_read` or `sys_write`, and
the token table holds its address. Tasks, the handler and the daemon interleave at every
queue operation, load and store; in the kernel the handler runs with interrupts disabled,
which is one of these interleavings.
-/
namespace RtosScfCondVar
open RtosTransition RtosScfQueue RtosScfIntegrity Function Option

structure SyscallCondVar where
  ok : Bool
  retVal : BitVec 64
  deriving DecidableEq, Repr

def SyscallCondVar.new : SyscallCondVar := ⟨false, 0⟩

/-- `sending` is the loop of `send_request`, `waiting` the loop of `wait`, and `woken` the
    end of `wait` after it has seen `ok`. -/
inductive Stage where
  | outside
  | sending (cond : ScfRequestToken)
  | waiting (cond : ScfRequestToken)
  | woken (cond : ScfRequestToken)
  deriving DecidableEq, Repr

def Stage.cond : Stage → Option ScfRequestToken
  | .outside => none
  | .sending cond | .waiting cond | .woken cond => some cond

/-- Where `handle_irq` is: outside, before a `pop_response`, and before each of the two
    stores of `signal`. -/
inductive Handler where
  | idle
  | polling
  | signalling (token : ScfRequestToken) (retVal : BitVec 64)
  | storing (token : ScfRequestToken)
  deriving DecidableEq, Repr

/-- `signalled` counts the calls of `signal` on the present condition variable of a task. -/
structure Kernel (ι : Type) where
  queue : SyscallQueueBuffer
  memory : ScfRequestToken → SyscallCondVar
  stage : ι → Stage
  handler : Handler
  signalled : ι → Nat

inductive Step (ι : Type) where
  | enter (t : ι) (cond : ScfRequestToken)
  | send (t : ι) (opcode : ScfOpcode) (args : BitVec 64)
  | wait (t : ι)
  | leave (t : ι)
  | timerTick
  | popResponse
  | storeRetVal
  | storeOk
  | daemon (page : SharedQueue)

section Machine
variable {ι : Type} [DecidableEq ι]

def isValid (token : ScfRequestToken) : Bool := token != 0

/-- A call of `signal` with this token counts for the task whose variable it addresses. -/
def Kernel.countSignal (s : Kernel ι) (token : ScfRequestToken) (t : ι) : Nat :=
  if (s.stage t).cond = some token then s.signalled t + 1 else s.signalled t

def step (s : Kernel ι) : Step ι → Option (Kernel ι)
  | .enter t cond =>
    match s.stage t with
    | .outside => some { s with
        memory := Function.update s.memory cond .new
        stage := Function.update s.stage t (.sending cond)
        signalled := Function.update s.signalled t 0 }
    | _ => none
  | .send t opcode args =>
    match s.stage t with
    | .sending cond => do
      let (queue, ok) ← s.queue.sendLocked opcode args cond
      some { s with queue, stage := if ok then Function.update s.stage t (.waiting cond) else s.stage }
    | _ => none
  | .wait t =>
    match s.stage t with
    | .waiting cond =>
      some { s with stage := if (s.memory cond).ok then Function.update s.stage t (.woken cond) else s.stage }
    | _ => none
  | .leave t =>
    match s.stage t with
    | .woken _ => some { s with stage := Function.update s.stage t .outside }
    | _ => none
  | .timerTick =>
    match s.handler with
    | .idle => some { s with handler := .polling }
    | _ => none
  | .popResponse =>
    match s.handler with
    | .polling => do
      let (queue, response) ← s.queue.popResponseLocked
      match response with
      | none => some { s with queue, handler := .idle }
      | some rsp => some { s with
          queue, handler := if isValid rsp.token then .signalling rsp.token rsp.retVal else .polling }
    | _ => none
  | .storeRetVal =>
    match s.handler with
    | .signalling token retVal => some { s with
        memory := Function.update s.memory token { s.memory token with retVal }
        handler := .storing token
        signalled := s.countSignal token }
    | _ => none
  | .storeOk =>
    match s.handler with
    | .storing token => some { s with
        memory := Function.update s.memory token { s.memory token with ok := true }
        handler := .polling }
    | _ => none
  | .daemon page => some { s with queue := { s.queue with shared := page } }

def DaemonWrites (old new : SharedQueue) : Prop :=
  new.desc.map ScfDescriptor.valid = old.desc.map ScfDescriptor.valid ∧
    new.reqRing.length = old.reqRing.length ∧ new.rspRing.length = old.rspRing.length

/-- A new condition variable is at an address of its own, on the stack of its task. -/
def Possible (s : Kernel ι) : Step ι → Prop
  | .enter _ cond => cond ≠ 0 ∧ ∀ u, (s.stage u).cond ≠ some cond
  | .daemon page => DaemonWrites s.queue.shared page
  | _ => True

def forwardedCalls (q : SyscallQueueBuffer) : Machine (Kernel ι) (Step ι) where
  start s := s.queue = q ∧ (∀ t, s.stage t = .outside) ∧ s.handler = .idle ∧ ∀ t, s.signalled t = 0
  next s a s' := Possible s a ∧ step s a = some s'

end Machine

/-- The variable at this address belongs to a task in `wait` that has not been woken, and
    has been signalled `n` times. -/
def Awaited {ι : Type} (s : Kernel ι) (n : Nat) (cond : ScfRequestToken) : Prop :=
  ∃ t, s.stage t = .waiting cond ∧ (s.memory cond).ok = false ∧ s.signalled t = n

def Holds (q : SyscallQueueBuffer) (i : Nat) (cond : ScfRequestToken) : Prop :=
  ∃ e, q.shared.desc[i]? = some e ∧ e.valid = true ∧ q.tokens[i]? = some cond

structure Live {ι : Type} (bits : Nat) (s : Kernel ι) : Prop where
  accounted : Accounted bits s.queue
  nonzero : ∀ t cond, (s.stage t).cond = some cond → cond ≠ 0
  distinct : ∀ t u cond, (s.stage t).cond = some cond → (s.stage u).cond = some cond → t = u
  unsent : ∀ t cond, s.stage t = .sending cond → (s.memory cond).ok = false ∧ s.signalled t = 0
  slots : ∀ i cond, Holds s.queue i cond → Awaited s 0 cond ∧
    (∀ retVal, s.handler ≠ .signalling cond retVal)
  unique : ∀ i j cond, Holds s.queue i cond → Holds s.queue j cond → i = j
  calling : ∀ token retVal, s.handler = .signalling token retVal → Awaited s 0 token
  storing : ∀ token, s.handler = .storing token → Awaited s 1 token
  bounded : ∀ t, s.signalled t ≤ 1

theorem holds_taken {cond : ScfRequestToken} (held : Holds (q.takeSlot i opcode args token) j cond)
    (tokenRoom : i < q.tokens.length) : (j = i ∧ cond = token) ∨ (j ≠ i ∧ Holds q j cond) := by
  obtain ⟨e, entry, valid, there⟩ := held
  simp only [SyscallQueueBuffer.takeSlot] at entry there
  by_cases same : i = j
  · subst same
    rw [List.getElem?_set_self tokenRoom] at there
    cases there
    exact Or.inl ⟨rfl, rfl⟩
  · rw [List.getElem?_set_ne same] at entry there
    exact Or.inr ⟨fun eq => same eq.symm, e, entry, valid, there⟩

theorem holds_released {cond : ScfRequestToken} (entry : q.shared.desc[i]? = some e)
    (held : Holds (q.releaseSlot i e) j cond) : j ≠ i ∧ Holds q j cond := by
  obtain ⟨e', entry', valid, there⟩ := held
  simp only [SyscallQueueBuffer.releaseSlot] at entry' there
  by_cases same : i = j
  · subst same
    rw [List.getElem?_set_self (List.getElem?_eq_some_iff.mp entry).1] at entry'
    cases entry'
    cases valid
  · rw [List.getElem?_set_ne same] at entry' there
    exact ⟨fun eq => same eq.symm, e', entry', valid, there⟩

theorem holds_page (w : DaemonWrites q.shared page) {cond : ScfRequestToken}
    (held : Holds { q with shared := page } j cond) : Holds q j cond := by
  obtain ⟨e, entry, valid, there⟩ := held
  obtain ⟨e', entry', same⟩ := flags_at w.1 entry
  exact ⟨e', entry', same.trans valid, there⟩

section Steps
variable {ι : Type} {s s' : Kernel ι}

theorem awaited_sole (h : Live bits s) {cond : ScfRequestToken} (first : Awaited s n cond)
    (second : Awaited s m cond) : n = m := by
  obtain ⟨t, waiting, _, rfl⟩ := first
  obtain ⟨u, waiting', _, rfl⟩ := second
  rw [h.distinct t u cond (by rw [waiting]; rfl) (by rw [waiting']; rfl)]

theorem sending_not_awaited (h : Live bits s) {cond : ScfRequestToken} (sending : s.stage t = .sending cond) :
    ¬ Awaited s n cond := by
  rintro ⟨u, waiting, _⟩
  have same := h.distinct t u cond (by rw [sending]; rfl) (by rw [waiting]; rfl)
  rw [same, waiting] at sending
  cases sending

theorem daemon_live (h : Live bits s) (w : DaemonWrites s.queue.shared page) :
    Live bits { s with queue := { s.queue with shared := page } } :=
  { h with
    accounted := accounted_page h.accounted w.1 w.2.1 w.2.2
    slots := fun j c held => h.slots j c (holds_page w held)
    unique := fun j k c first second => h.unique j k c (holds_page w first) (holds_page w second) }

/-- The stores of `signal` go to the variable that the handler has in hand; every other
    awaited variable keeps its state. -/
theorem awaited_elsewhere {cond : ScfRequestToken} {cell : SyscallCondVar} {handler : Handler}
    (apart : cond ≠ token) (same : ∀ t, (s.stage t).cond = some cond → counts t = s.signalled t)
    (awaited : Awaited s n cond) :
    Awaited { s with memory := update s.memory token cell, handler, signalled := counts } n cond := by
  obtain ⟨t, waiting, unset, count⟩ := awaited
  refine ⟨t, waiting, ?_, ?_⟩
  · simpa only [update_of_ne apart] using unset
  · rw [← count]
    exact same t (by rw [waiting]; rfl)

variable [DecidableEq ι]

theorem cond_update {after : Stage} {cond : ScfRequestToken}
    (fewer : ∀ c, after.cond = some c → (s.stage t).cond = some c)
    (found : (update s.stage t after u).cond = some cond) : (s.stage u).cond = some cond := by
  by_cases same : u = t
  · subst same
    rw [update_self] at found
    exact fewer cond found
  · rwa [update_of_ne same] at found

theorem awaited_update {after : Stage} {cond : ScfRequestToken} (awaited : Awaited s n cond)
    (other : s.stage t = .waiting cond → (s.memory cond).ok = true) :
    Awaited { s with stage := update s.stage t after } n cond := by
  obtain ⟨u, waiting, unset, count⟩ := awaited
  have apart : u ≠ t := by
    rintro rfl
    rw [other waiting] at unset
    cases unset
  exact ⟨u, by simpa only [update_of_ne apart] using waiting, unset, count⟩

section

variable (h : Live bits s)
include h

theorem enter_live {cond : ScfRequestToken} (possible : Possible s (.enter t cond))
    (run : step s (.enter t cond) = some s') : Live bits s' := by
  obtain ⟨nonnull, fresh⟩ := possible
  simp only [step] at run
  split at run <;> cases run
  rename_i outside
  have other : ∀ {u c}, (s.stage u).cond = some c → c ≠ cond ∧ u ≠ t := by
    intro u c found
    refine ⟨fun same => fresh u (same ▸ found), ?_⟩
    rintro rfl
    rw [outside] at found
    cases found
  have awaited : ∀ {n c}, Awaited s n c → Awaited { s with
      memory := update s.memory cond .new
      stage := update s.stage t (.sending cond)
      signalled := update s.signalled t 0 } n c := by
    rintro n c ⟨u, waiting, unset, count⟩
    obtain ⟨address, task⟩ := other (u := u) (c := c) (by rw [waiting]; rfl)
    refine ⟨u, ?_, ?_, ?_⟩
    · simpa only [update_of_ne task] using waiting
    · simpa only [update_of_ne address] using unset
    · simpa only [update_of_ne task] using count
  exact { h with
    nonzero := by
      intro u c found
      by_cases same : u = t
      · subst same
        simp only [update_self] at found
        cases found
        exact nonnull
      · simp only [update_of_ne same] at found
        exact h.nonzero u c found
    distinct := by
      intro u v c first second
      by_cases left : u = t <;> by_cases right : v = t
      · exact left.trans right.symm
      · simp only [left, update_self] at first
        simp only [update_of_ne right] at second
        cases first
        exact absurd second (fresh v)
      · simp only [update_of_ne left] at first
        simp only [right, update_self] at second
        cases second
        exact absurd first (fresh u)
      · simp only [update_of_ne left] at first
        simp only [update_of_ne right] at second
        exact h.distinct u v c first second
    unsent := by
      intro u c sending
      by_cases same : u = t
      · subst same
        simp only [update_self] at sending
        cases sending
        simp [SyscallCondVar.new]
      simp only [update_of_ne same] at sending
      obtain ⟨address, _⟩ := other (u := u) (c := c) (by rw [sending]; rfl)
      simpa only [update_of_ne address, update_of_ne same] using h.unsent u c sending
    slots := fun j c held => ⟨awaited (h.slots j c held).1, (h.slots j c held).2⟩
    calling := fun token retVal handler => awaited (h.calling token retVal handler)
    storing := fun token handler => awaited (h.storing token handler)
    bounded := by
      intro u
      by_cases same : u = t
      · subst same
        simp
      · simpa only [update_of_ne same] using h.bounded u }

theorem send_live (run : step s (.send t opcode args) = some s') : Live bits s' := by
  simp only [step] at run
  split at run <;> try cases run
  rename_i cond sending
  have notAwaited : ∀ {n}, ¬ Awaited s n cond := sending_not_awaited h sending
  rcases send_accounted h.accounted opcode args cond with
    ⟨_, full⟩ | ⟨room, i, e, _, entry, free, _, sent⟩
  · simp only [full, bind_eq_bind, bind_some, Bool.false_eq_true, ↓reduceIte,
      Option.some.injEq] at run
    subst run
    exact h
  simp only [sent, bind_eq_bind, bind_some, ↓reduceIte, Option.some.injEq] at run
  subst run
  have tokenRoom := (List.getElem?_eq_some_iff.mp (h.accounted.idle i e entry free)).1
  have fewer : ∀ c, (Stage.waiting cond).cond = some c → (s.stage t).cond = some c := by
    intro c same
    rw [sending]
    exact same
  have awaited : ∀ {n c}, Awaited s n c → Awaited { s with
      queue := s.queue.takeSlot i opcode args cond
      stage := update s.stage t (.waiting cond) } n c := by
    intro n c old
    exact awaited_update old (fun waiting => by rw [sending] at waiting; cases waiting)
  exact { h with
    accounted := accounted_take h.accounted entry free room opcode args cond
    nonzero := fun u c found => h.nonzero u c (cond_update fewer found)
    distinct := fun u v c first second =>
      h.distinct u v c (cond_update fewer first) (cond_update fewer second)
    unsent := by
      intro u c still
      have apart : u ≠ t := by
        rintro rfl
        simp only [update_self] at still
        cases still
      simp only [update_of_ne apart] at still
      exact h.unsent u c still
    slots := by
      intro j c held
      rcases holds_taken held tokenRoom with ⟨_, rfl⟩ | ⟨_, old⟩
      · obtain ⟨unset, count⟩ := h.unsent t c sending
        refine ⟨⟨t, update_self .., unset, count⟩, ?_⟩
        intro retVal handler
        exact notAwaited (h.calling c retVal handler)
      · exact ⟨awaited (h.slots j c old).1, (h.slots j c old).2⟩
    unique := by
      intro j k c first second
      rcases holds_taken first tokenRoom with ⟨rfl, rfl⟩ | ⟨_, old⟩ <;>
      rcases holds_taken second tokenRoom with ⟨rfl, same⟩ | ⟨_, old'⟩
      · rfl
      · exact absurd (h.slots k c old').1 notAwaited
      · exact absurd (h.slots j c old).1 (same ▸ notAwaited)
      · exact h.unique j k c old old'
    calling := fun token retVal handler => awaited (h.calling token retVal handler)
    storing := fun token handler => awaited (h.storing token handler) }

theorem passed_live (fewer : ∀ c, after.cond = some c → (s.stage t).cond = some c)
    (settled : ∀ c, s.stage t = .waiting c → (s.memory c).ok = true) (past : ∀ c, after ≠ .sending c) :
    Live bits { s with stage := update s.stage t after } where
  accounted := h.accounted
  nonzero u c found := h.nonzero u c (cond_update fewer found)
  distinct u v c first second := h.distinct u v c (cond_update fewer first) (cond_update fewer second)
  unsent := by
    intro u c still
    have apart : u ≠ t := by
      rintro rfl
      simp only [update_self] at still
      exact past c still
    simp only [update_of_ne apart] at still
    exact h.unsent u c still
  slots j c held := ⟨awaited_update (h.slots j c held).1 (settled c), (h.slots j c held).2⟩
  unique := h.unique
  calling token retVal handler := awaited_update (h.calling token retVal handler) (settled token)
  storing token handler := awaited_update (h.storing token handler) (settled token)
  bounded := h.bounded

theorem wait_live (run : step s (.wait t) = some s') : Live bits s' := by
  simp only [step] at run
  split at run <;> try cases run
  rename_i cond waiting
  split
  · rename_i set
    refine passed_live h ?_ ?_ ?_
    · intro c same
      rw [waiting]
      exact same
    · intro c same
      rw [waiting] at same
      cases same
      exact set
    · intro c same
      cases same
  · exact h

theorem leave_live (run : step s (.leave t) = some s') : Live bits s' := by
  simp only [step] at run
  split at run <;> cases run
  rename_i cond woken
  refine passed_live h ?_ ?_ ?_
  · intro c same
    cases same
  · intro c waiting
    rw [woken] at waiting
    cases waiting
  · intro c same
    cases same

theorem pop_live (run : step s .popResponse = some s') : Live bits s' := by
  simp only [step] at run
  split at run <;> try cases run
  rename_i polling
  have quiet : ∀ {q : SyscallQueueBuffer} {handler : Handler}, Accounted bits q →
      (∀ j c, Holds q j c → Holds s.queue j c) → (handler = .idle ∨ handler = .polling) →
      Live bits { s with queue := q, handler } := by
    intro q handler accounted fewer silent
    exact { h with
      accounted := accounted
      slots := by
        intro j c held
        refine ⟨(h.slots j c (fewer j c held)).1, ?_⟩
        rintro retVal rfl
        rcases silent with silent | silent <;> cases silent
      unique := fun j k c first second => h.unique j k c (fewer j c first) (fewer k c second)
      calling := by
        rintro token retVal rfl
        rcases silent with silent | silent <;> cases silent
      storing := by
        rintro token rfl
        rcases silent with silent | silent <;> cases silent }
  rcases pop_response_cases h.accounted.toSized with
    ⟨_, popped⟩ | ⟨_, index, _, ⟨_, popped⟩ | ⟨_, _, _, popped⟩ | ⟨e, token, _, entry, live, there, popped⟩⟩
  · simp only [popped, bind_eq_bind, bind_some, Option.some.injEq] at run
    subst run
    exact quiet h.accounted (fun _ _ held => held) (Or.inl rfl)
  · simp only [popped, bind_eq_bind, bind_some, Option.some.injEq] at run
    subst run
    exact quiet (accounted_skip h.accounted) (fun _ _ held => held) (Or.inl rfl)
  · simp only [popped, bind_eq_bind, bind_some, Option.some.injEq] at run
    subst run
    exact quiet (accounted_skip h.accounted) (fun _ _ held => held) (Or.inl rfl)
  · have held : Holds s.queue index.toNat token := ⟨e, entry, live, there⟩
    have awaited := (h.slots _ _ held).1
    have valid : isValid token = true := by
      obtain ⟨t, waiting, _⟩ := awaited
      have := h.nonzero t token (by rw [waiting]; rfl)
      simpa [isValid] using this
    simp only [popped, valid, bind_eq_bind, bind_some, Option.some.injEq,
      ↓reduceIte] at run
    subst run
    exact { h with
      accounted := accounted_release h.accounted entry live
      slots := by
        intro j c still
        obtain ⟨apart, old⟩ := holds_released entry still
        refine ⟨(h.slots j c old).1, ?_⟩
        intro retVal same
        cases same
        exact apart (h.unique j index.toNat token old held)
      unique := fun j k c first second =>
        h.unique j k c (holds_released entry first).2 (holds_released entry second).2
      calling := by
        intro token' retVal same
        cases same
        exact awaited
      storing := fun token' same => (by cases same) }

theorem store_ret_val_live (run : step s .storeRetVal = some s') : Live bits s' := by
  simp only [step] at run
  split at run <;> cases run
  rename_i token retVal signalling
  have awaited := h.calling token retVal signalling
  have uncounted : ∀ {c}, c ≠ token → ∀ t, (s.stage t).cond = some c → s.countSignal token t = s.signalled t := by
    intro c apart t found
    rw [Kernel.countSignal, found, if_neg (by simpa using apart)]
  exact { h with
    unsent := by
      intro u c sending
      have apart : c ≠ token := by
        rintro rfl
        exact sending_not_awaited h sending awaited
      have old := h.unsent u c sending
      have count := uncounted apart u (by rw [sending]; rfl)
      simpa only [update_of_ne apart, count] using old
    slots := by
      intro j c held
      obtain ⟨old, free⟩ := h.slots j c held
      have apart : c ≠ token := by
        rintro rfl
        exact free retVal signalling
      exact ⟨awaited_elsewhere apart (uncounted apart) old, fun _ same => (by cases same)⟩
    calling := fun token' retVal' same => (by cases same)
    storing := by
      intro token' same
      cases same
      obtain ⟨t, waiting, unset, count⟩ := awaited
      refine ⟨t, waiting, by simpa using unset, ?_⟩
      simp [Kernel.countSignal, waiting, Stage.cond, count]
    bounded := by
      intro u
      simp only [Kernel.countSignal]
      split
      · rename_i found
        obtain ⟨t, waiting, _, count⟩ := awaited
        have same := h.distinct u t token found (by rw [waiting]; rfl)
        rw [same]
        omega
      · exact h.bounded u }

theorem store_ok_live (run : step s .storeOk = some s') : Live bits s' := by
  simp only [step] at run
  split at run <;> cases run
  rename_i token storing
  have awaited := h.storing token storing
  exact { h with
    unsent := by
      intro u c sending
      have apart : c ≠ token := by
        rintro rfl
        exact sending_not_awaited h sending awaited
      simpa only [update_of_ne apart] using h.unsent u c sending
    slots := by
      intro j c held
      have old := (h.slots j c held).1
      have apart : c ≠ token := by
        rintro rfl
        have := awaited_sole h old awaited
        omega
      exact ⟨awaited_elsewhere apart (fun _ _ => rfl) old, fun _ same => (by cases same)⟩
    calling := fun token' retVal' same => (by cases same)
    storing := fun token' same => (by cases same) }

theorem step_live (possible : Possible s a) (run : step s a = some s') : Live bits s' := by
  cases a with
  | enter t cond => exact enter_live h possible run
  | send t opcode args => exact send_live h run
  | wait t => exact wait_live h run
  | leave t => exact leave_live h run
  | timerTick =>
    simp only [step] at run
    split at run <;> cases run
    exact { h with
      slots := fun j c held => ⟨(h.slots j c held).1, fun _ same => (by cases same)⟩
      calling := fun token retVal same => (by cases same)
      storing := fun token same => (by cases same) }
  | popResponse => exact pop_live h run
  | storeRetVal => exact store_ret_val_live h run
  | storeOk => exact store_ok_live h run
  | daemon page =>
    cases run
    exact daemon_live h possible

end

end Steps

theorem fresh_live {ι : Type} (built : SyscallQueueBuffer.new base size stale = some q)
    (power : capacityFor size = 2 ^ bits) (sized : Sized bits q) {s : Kernel ι} (start : s.queue = q)
    (outside : ∀ t, s.stage t = .outside) (idle : s.handler = .idle) (zero : ∀ t, s.signalled t = 0) :
    Live bits s := by
  have empty : ∀ i cond, ¬ Holds s.queue i cond := by
    rintro i cond ⟨e, entry, valid, _⟩
    rw [start] at entry
    simp only [SyscallQueueBuffer.new] at built
    split at built <;> cases built
    obtain ⟨_, _, same⟩ := List.mem_map.mp (List.mem_of_getElem? entry)
    rw [← same] at valid
    cases valid
  exact {
    accounted := start ▸ new_accounted built power sized
    nonzero := fun t cond found => by rw [outside t] at found; cases found
    distinct := fun t u cond found => by rw [outside t] at found; cases found
    unsent := fun t cond found => by rw [outside t] at found; cases found
    slots := fun i cond held => absurd held (empty i cond)
    unique := fun i j cond held => absurd held (empty i cond)
    calling := fun token retVal same => by rw [idle] at same; cases same
    storing := fun token same => by rw [idle] at same; cases same
    bounded := fun t => by rw [zero t]; exact Nat.zero_le 1 }

/-- Whenever `handle_irq` calls `signal`, and until its last store, the token is the
    address of the condition variable of a task that is still in `wait`, and it is the
    first call for that variable; no variable is ever signalled twice. -/
theorem tokens_never_dangle {ι : Type} [DecidableEq ι] {base size : Nat} {stale : StalePage}
    {q : SyscallQueueBuffer} (built : SyscallQueueBuffer.new base size stale = some q) {s : Kernel ι}
    (reach : Reachable (forwardedCalls q) s) :
    (∀ token retVal, s.handler = .signalling token retVal →
      ∃ t, s.stage t = .waiting token ∧ s.signalled t = 0) ∧
    (∀ token, s.handler = .storing token → ∃ t, s.stage t = .waiting token ∧ s.signalled t = 1) ∧
    (∀ t, s.signalled t ≤ 1) := by
  obtain ⟨bits, power, sized⟩ := new_sized built
  have h : Live bits s := by
    apply reachable_invariant (Live bits) _ _ reach
    · rintro first ⟨start, outside, idle, zero⟩
      exact fresh_live built power sized start outside idle zero
    · rintro s a s' h ⟨possible, run⟩
      exact step_live h possible run
  refine ⟨?_, ?_, h.bounded⟩
  · intro token retVal handler
    obtain ⟨t, waiting, _, count⟩ := h.calling token retVal handler
    exact ⟨t, waiting, count⟩
  intro token handler
  obtain ⟨t, waiting, _, count⟩ := h.storing token handler
  exact ⟨t, waiting, count⟩

def readerCond : ScfRequestToken := 16

def sentQueue : SyscallQueueBuffer := oneSlotQueue.takeSlot 0 .read 7 readerCond
def answeredPage : SharedQueue := ⟨syscallQueueBufferMagic, 1, 1, 1, [⟨true, 1, 7, 5⟩], [0], [0]⟩
def answeredQueue : SyscallQueueBuffer := { sentQueue with shared := answeredPage }

def oneReader (queue : SyscallQueueBuffer) (stage : Stage) (handler : Handler) : Kernel Unit where
  queue := queue
  memory := Function.update (fun _ => .new) readerCond .new
  stage := Function.update (fun _ => .outside) () stage
  handler := handler
  signalled := Function.update (fun _ => 0) () 0

theorem answered_reader_signalled :
    ∃ s : Kernel Unit, Reachable (forwardedCalls oneSlotQueue) s ∧ s.handler = .signalling readerCond 5 ∧
      ∃ t, s.stage t = .waiting readerCond ∧ s.signalled t = 0 := by
  have start : Reachable (forwardedCalls oneSlotQueue)
      (⟨oneSlotQueue, fun _ => .new, fun _ => .outside, .idle, fun _ => 0⟩ : Kernel Unit) :=
    reachable_start ⟨rfl, fun _ => rfl, rfl, fun _ => rfl⟩
  have entered : Reachable (forwardedCalls oneSlotQueue)
      (oneReader oneSlotQueue (.sending readerCond) .idle) :=
    reachable_next (a := .enter () readerCond) start ⟨⟨by decide, fun _ none => (by cases none)⟩, rfl⟩
  have sent : Reachable (forwardedCalls oneSlotQueue) (oneReader sentQueue (.waiting readerCond) .idle) := by
    have send : oneSlotQueue.sendLocked .read 7 readerCond = some (sentQueue, true) := by decide
    refine reachable_next (a := .send () .read 7) entered ⟨trivial, ?_⟩
    simp only [step, oneReader, Function.update_self, send, Option.bind_eq_bind, Option.bind_some,
      Function.update_idem, ↓reduceIte]
  have answered : Reachable (forwardedCalls oneSlotQueue)
      (oneReader answeredQueue (.waiting readerCond) .idle) :=
    reachable_next (a := .daemon answeredPage) sent ⟨⟨rfl, rfl, rfl⟩, rfl⟩
  have ticked : Reachable (forwardedCalls oneSlotQueue)
      (oneReader answeredQueue (.waiting readerCond) .polling) :=
    reachable_next (a := .timerTick) answered ⟨trivial, rfl⟩
  have popped : Reachable (forwardedCalls oneSlotQueue)
      (oneReader (answeredQueue.releaseSlot 0 ⟨true, 1, 7, 5⟩) (.waiting readerCond)
        (.signalling readerCond 5)) := by
    have pop : answeredQueue.popResponseLocked =
        some (answeredQueue.releaseSlot 0 ⟨true, 1, 7, 5⟩, some ⟨1, readerCond, 5⟩) := by decide
    have valid : isValid readerCond = true := by decide
    refine reachable_next (a := .popResponse) ticked ⟨trivial, ?_⟩
    simp only [step, oneReader, pop, valid, Option.bind_eq_bind, Option.bind_some, ↓reduceIte]
  exact ⟨_, popped, rfl, (tokens_never_dangle one_slot_built popped).1 readerCond 5 rfl⟩

end RtosScfCondVar
