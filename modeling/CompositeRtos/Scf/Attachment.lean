import CompositeRtos.Scf.ExactlyOnce

/-!
Daemons that attach to one queue one after another. The logs of a session go on over all
attachments; `attached` says whether a daemon is there. A new daemon starts to read the
request ring at index 0 and takes over the response index from the page, so its place in
the request ring is right only when the number of requests popped so far is a multiple
of 2^16.
-/
namespace RtosScfAttachment
open RtosTransition RtosScfQueue RtosScfIntegrity RtosScfExactlyOnce Option

structure Service where
  session : Session
  attached : Bool
  deriving DecidableEq, Repr

inductive Step where
  | traffic (a : Action)
  | attach
  | leave

def byDaemon : Action → Bool
  | .popRequest | .pushResponse _ _ => true
  | .send _ | .popResponse => false

def serve (s : Service) : Step → Option Service
  | .traffic a => (act s.session a).map fun session => { s with session }
  | .attach =>
    match nimbosSetupSyscallBuffers s.session.queue.shared with
    | .ok daemon => some ⟨{ s.session with daemon }, true⟩
    | .error _ => some s
  | .leave => some { s with attached := false }

/-- A daemon operates while it is attached, answers what it popped before it leaves, and
    attaches when the one before has gone. -/
def Orderly (s : Service) : Step → Prop
  | .traffic a => Allowed s.session a ∧ (byDaemon a = true → s.attached = true)
  | .attach => s.attached = false
  | .leave => s.attached = true ∧ ∀ k, k < s.session.popped.length → k ∈ s.session.pushed.map Prod.fst

def service (q : SyscallQueueBuffer) : Machine Service Step where
  start s := ∃ d, s = ⟨⟨q, d, [], [], [], [], false⟩, false⟩
  next s a t := Orderly s a ∧ serve s a = some t

def InStep (s : Service) : Step → Prop
  | .attach => s.session.popped.length % 2 ^ 16 = 0
  | _ => True

def expected (s : Session) : DaemonBuffer where
  capacityMask := s.queue.capacityMask
  reqIndexLast := BitVec.ofNat 16 s.popped.length
  rspIndexShadow := BitVec.ofNat 16 s.pushed.length

def withExpected (s : Session) : Session := { s with daemon := expected s }

theorem in_flight_expected (h : InFlight bits s f) : expected s = s.daemon := by
  rw [expected, ← h.mask, ← h.reqLast, ← h.rspShadow]

theorem in_flight_with_expected (h : InFlight bits s f) : InFlight bits (withExpected s) f := by
  rw [withExpected, in_flight_expected h]
  exact h

structure Served (bits : Nat) (s : Service) (f : Flight) : Prop where
  flight : InFlight bits (withExpected s.session) f
  daemon : s.attached = true → s.session.daemon = expected s.session
  magic : s.session.queue.shared.magic = syscallQueueBufferMagic
  capacity : s.session.queue.shared.capacity = BitVec.ofNat 16 (2 ^ bits)

/-! Magic number and capacity are written by `new` only. -/

theorem send_labels {q : SyscallQueueBuffer} (run : q.sendLocked opcode args token = some (q', ok)) :
    q'.shared.magic = q.shared.magic ∧ q'.shared.capacity = q.shared.capacity := by
  unfold SyscallQueueBuffer.sendLocked at run
  split at run
  · cases run
    exact ⟨rfl, rfl⟩
  simp only [bind_eq_bind, bind_eq_some_iff] at run
  obtain ⟨_, _, _, _, _, _, _, _, same⟩ := run
  cases same
  exact ⟨rfl, rfl⟩

theorem pop_response_labels (sized : Sized bits q) (run : q.popResponseLocked = some (q', rsp)) :
    q'.shared.magic = q.shared.magic ∧ q'.shared.capacity = q.shared.capacity := by
  rcases pop_response_cases sized with
    ⟨_, same⟩ | ⟨_, _, _, ⟨_, same⟩ | ⟨_, _, _, same⟩ | ⟨_, _, _, _, _, _, same⟩⟩ <;>
  · rw [same] at run
    cases run
    exact ⟨rfl, rfl⟩

theorem push_labels (run : pushSyscallResponse d shared index retVal = some (d', shared', result)) :
    shared'.magic = shared.magic ∧ shared'.capacity = shared.capacity := by
  unfold pushSyscallResponse at run
  split at run
  · cases run
    exact ⟨rfl, rfl⟩
  simp only [bind_eq_bind, bind_eq_some_iff] at run
  obtain ⟨_, _, _, _, _, _, same⟩ := run
  cases same
  exact ⟨rfl, rfl⟩

theorem act_labels {s : Session} (sized : Sized bits s.queue) (run : act s a = some t) :
    t.queue.shared.magic = s.queue.shared.magic ∧ t.queue.shared.capacity = s.queue.shared.capacity := by
  cases a with
  | send r =>
    simp only [act, sessionSend, bind_eq_bind, bind_eq_some_iff] at run
    obtain ⟨⟨q, ok⟩, sent, same⟩ := run
    cases same
    exact send_labels sent
  | popResponse =>
    simp only [act, sessionPopResponse, bind_eq_bind, bind_eq_some_iff] at run
    obtain ⟨⟨q, rsp⟩, popped, same⟩ := run
    have labels := pop_response_labels sized popped
    cases rsp <;> cases same <;> exact labels
  | popRequest =>
    simp only [act, sessionPopRequest, bind_eq_bind, bind_eq_some_iff] at run
    obtain ⟨⟨d, result⟩, _, same⟩ := run
    cases result <;> cases same <;> exact ⟨rfl, rfl⟩
  | pushResponse number retVal =>
    simp only [act, sessionPush, bind_eq_bind, bind_eq_some_iff] at run
    obtain ⟨_, _, ⟨d, shared, result⟩, pushed, same⟩ := run
    have labels := push_labels pushed
    cases result <;> cases same <;> exact labels

theorem act_of_kernel (kernel : byDaemon a = false) (run : act s a = some t) (d : DaemonBuffer) :
    act { s with daemon := d } a = some { t with daemon := d } ∧ t.daemon = s.daemon := by
  cases a with
  | send r =>
    simp only [act, sessionSend, bind_eq_bind, bind_eq_some_iff] at run ⊢
    obtain ⟨⟨q, ok⟩, sent, same⟩ := run
    cases same
    exact ⟨⟨_, sent, rfl⟩, rfl⟩
  | popResponse =>
    simp only [act, sessionPopResponse, bind_eq_bind, bind_eq_some_iff] at run ⊢
    obtain ⟨⟨q, rsp⟩, popped, same⟩ := run
    cases rsp <;> cases same <;> exact ⟨⟨_, popped, rfl⟩, rfl⟩
  | popRequest => cases kernel
  | pushResponse number retVal => cases kernel

theorem setup_of_labels (small : bits ≤ 15) (magic : shared.magic = syscallQueueBufferMagic)
    (capacity : shared.capacity = BitVec.ofNat 16 (2 ^ bits)) :
    nimbosSetupSyscallBuffers shared = .ok ⟨BitVec.ofNat 16 (2 ^ bits - 1), 0, shared.rspIndex⟩ := by
  have powers : ∀ b : Fin 16, BitVec.ofNat 16 (2 ^ b.val) ≠ 0 ∧
      BitVec.ofNat 16 (2 ^ b.val) &&& (BitVec.ofNat 16 (2 ^ b.val) - 1) = 0 ∧
      BitVec.ofNat 16 (2 ^ b.val) - 1 = BitVec.ofNat 16 (2 ^ b.val - 1) := by decide
  obtain ⟨nonzero, single, less⟩ := powers ⟨bits, by omega⟩
  have passes : ¬ (shared.capacity = 0 ∨ shared.capacity &&& (shared.capacity - 1) ≠ 0) := by
    rw [capacity]
    exact not_or.mpr ⟨nonzero, not_not.mpr single⟩
  rw [nimbosSetupSyscallBuffers, if_neg (not_not.mpr magic), if_neg passes, capacity]
  exact congrArg Except.ok (congrArg (fun mask => DaemonBuffer.mk mask 0 shared.rspIndex) less)

section

variable (h : Served bits s f)
include h

theorem setup_succeeds : nimbosSetupSyscallBuffers s.session.queue.shared =
      .ok { expected s.session with reqIndexLast := 0 } := by
  have sized : Sized bits s.session.queue := h.flight.accounted.toSized
  have rsp : s.session.queue.shared.rspIndex = BitVec.ofNat 16 s.session.pushed.length :=
    h.flight.rspIndex
  rw [setup_of_labels sized.small h.magic h.capacity, rsp, expected, sized.mask]

theorem traffic_served (orderly : Orderly s (.traffic a))
    (run : serve s (.traffic a) = some t) : ∃ f', Served bits t f' := by
  obtain ⟨allowed, present⟩ := orderly
  simp only [serve, map_eq_some_iff] at run
  obtain ⟨session, run, rfl⟩ := run
  have sized : Sized bits s.session.queue := h.flight.accounted.toSized
  have labels := act_labels sized run
  have magic := labels.1.trans h.magic
  have capacity := labels.2.trans h.capacity
  cases daemon : byDaemon a with
  | true =>
    have here := present daemon
    have flight : InFlight bits s.session f := by
      have := h.flight
      rw [withExpected, ← h.daemon here] at this
      exact this
    obtain ⟨t', f', run', keep⟩ := act_keeps flight a allowed
    rw [run] at run'
    cases run'
    exact ⟨f', in_flight_with_expected keep, fun _ => (in_flight_expected keep).symm, magic, capacity⟩
  | false =>
    obtain ⟨moved, untouched⟩ := act_of_kernel daemon run (expected s.session)
    have allowed' : Allowed (withExpected s.session) a := by cases a <;> exact allowed
    obtain ⟨t', f', run', keep⟩ := act_keeps h.flight a allowed'
    rw [withExpected, moved] at run'
    cases run'
    have same : expected session = expected s.session := in_flight_expected keep
    refine ⟨f', ?_, ?_, magic, capacity⟩
    · rw [withExpected, same]
      exact keep
    · intro here
      exact untouched.trans ((h.daemon here).trans same.symm)

theorem attach_served (inStep : InStep s .attach) (run : serve s .attach = some t) : Served bits t f := by
  have zero : BitVec.ofNat 16 s.session.popped.length = 0 := by
    apply BitVec.eq_of_toNat_eq
    rw [BitVec.toNat_ofNat]
    exact inStep
  have whole : { expected s.session with reqIndexLast := 0 } = expected s.session := by
    rw [expected, zero]
  rw [serve, setup_succeeds h, whole] at run
  cases run
  exact ⟨h.flight, fun _ => rfl, h.magic, h.capacity⟩

theorem serve_keeps (orderly : Orderly s a) (inStep : InStep s a)
    (run : serve s a = some t) : ∃ f', Served bits t f' := by
  cases a with
  | traffic a => exact traffic_served h orderly run
  | attach => exact ⟨f, attach_served h inStep run⟩
  | leave =>
    cases run
    exact ⟨f, h.flight, fun gone => (by cases gone), h.magic, h.capacity⟩

theorem next_request (here : s.attached = true) :
    ∃ buf result, popSyscallRequest s.session.daemon s.session.queue.shared = some (buf, result) ∧
      (s.session.accepted[s.session.popped.length]? = none → result = .error .busy) ∧
      ∀ r, s.session.accepted[s.session.popped.length]? = some r →
        ∃ index e, result = .ok (index, e) ∧ e.opcode = r.opcode.toU8 ∧ e.args = r.args := by
  rw [h.daemon here]
  have sent : s.session.accepted.length = s.session.popped.length + f.pending.length := h.flight.sentLog
  rcases pop_request_result h.flight with ⟨pending, run⟩ | ⟨ticket, rest, e, pending, opcode, args, run⟩
  · have count : f.pending.length = 0 := by rw [pending]; rfl
    refine ⟨_, _, run, fun _ => rfl, ?_⟩
    intro r found
    have := (List.getElem?_eq_some_iff.mp found).1
    omega
  have first : ticket.number = s.session.popped.length :=
    h.flight.pendingLog 0 ticket (by rw [pending]; rfl)
  have request : s.session.accepted[ticket.number]? = some ticket.request :=
    h.flight.numbered ticket (by simp [Flight.live, pending])
  rw [first] at request
  refine ⟨_, _, run, ?_, ?_⟩
  · intro missing
    rw [request] at missing
    cases missing
  intro r found
  rw [request] at found
  cases found
  exact ⟨_, e, rfl, opcode, args⟩

theorem quiet_attach (quiet : s.session.accepted.length = s.session.popped.length)
    (setup : nimbosSetupSyscallBuffers s.session.queue.shared = .ok d) :
    popSyscallRequest d s.session.queue.shared = some (d, .error .busy) ↔ InStep s .attach := by
  have index : s.session.queue.shared.reqIndex = BitVec.ofNat 16 s.session.popped.length :=
    (h.flight.reqIndex).trans (by rw [withExpected, quiet])
  rw [setup_succeeds h] at setup
  cases setup
  have zero : BitVec.ofNat 16 s.session.popped.length = 0 ↔ InStep s .attach := by
    rw [← BitVec.toNat_inj, BitVec.toNat_ofNat]
    rfl
  rw [← zero, ← index]
  constructor
  · intro busy
    by_contra moved
    have waiting : hasRequest { expected s.session with reqIndexLast := 0 } s.session.queue.shared = true := by
      simpa [hasRequest] using Ne.symm moved
    simp only [popSyscallRequest, waiting, bind_eq_bind, bind_eq_some_iff, ↓reduceIte] at busy
    obtain ⟨_, _, busy⟩ := busy
    split at busy
    · cases busy
    · obtain ⟨_, _, busy⟩ := bind_eq_some_iff.mp busy
      cases busy
  · intro still
    simp [popSyscallRequest, hasRequest, still]

end

theorem fresh_served (built : SyscallQueueBuffer.new base size stale = some q)
    (power : capacityFor size = 2 ^ bits) (sized : Sized bits q) (d : DaemonBuffer) :
    Served bits ⟨⟨q, d, [], [], [], [], false⟩, false⟩ ⟨[], [], [], []⟩ := by
  have labels : q.shared.magic = syscallQueueBufferMagic ∧ q.shared.rspIndex = 0 ∧
      q.shared.capacity = BitVec.ofNat 16 (2 ^ bits) := by
    simp only [SyscallQueueBuffer.new, power] at built
    split at built
    · cases built
      exact ⟨rfl, rfl, rfl⟩
    · cases built
  obtain ⟨magic, rsp, capacity⟩ := labels
  have attached : nimbosSetupSyscallBuffers q.shared = .ok ⟨q.capacityMask, 0, 0⟩ := by
    rw [setup_of_labels sized.small magic capacity, rsp, sized.mask]
  exact ⟨fresh_in_flight built attached power sized, fun none => (by cases none), magic, capacity⟩

theorem service_invariant (built : SyscallQueueBuffer.new base size stale = some q)
    (reach : Reachable ((service q).guarded InStep) s) : ∃ bits f, Served bits s f := by
  obtain ⟨bits, power, sized⟩ := new_sized built
  have inv : ∃ f, Served bits s f := by
    apply reachable_invariant (fun s => ∃ f, Served bits s f) _ _ reach
    · rintro first ⟨d, rfl⟩
      exact ⟨_, fresh_served built power sized d⟩
    · rintro s a t ⟨f, h⟩ ⟨inStep, orderly, run⟩
      exact serve_keeps h orderly inStep run
  exact ⟨bits, inv⟩

/-- While every daemon attaches with the request counter at 0, the requests popped over
    all attachments are the accepted ones in order, without a gap or a repetition, and
    the next pop returns the oldest one left or reports busy. An attachment to a quiet
    queue at any other count makes `pop_syscall_request` return something else than busy. -/
theorem reattached_pops_in_order {base size : Nat} {stale : StalePage} {q : SyscallQueueBuffer}
    (built : SyscallQueueBuffer.new base size stale = some q) {s : Service}
    (reach : Reachable ((service q).guarded InStep) s) :
    (s.session.popped.map fun p => (p.2.opcode, p.2.args)) <+:
      (s.session.accepted.map fun r => (r.opcode.toU8, r.args)) ∧
    (s.attached = true → ∃ buf result,
      popSyscallRequest s.session.daemon s.session.queue.shared = some (buf, result) ∧
      (s.session.accepted[s.session.popped.length]? = none → result = .error .busy) ∧
      ∀ r, s.session.accepted[s.session.popped.length]? = some r →
        ∃ index e, result = .ok (index, e) ∧ e.opcode = r.opcode.toU8 ∧ e.args = r.args) ∧
    (∃ d, nimbosSetupSyscallBuffers s.session.queue.shared = .ok d ∧
      (s.session.accepted.length = s.session.popped.length →
        (popSyscallRequest d s.session.queue.shared = some (d, .error .busy) ↔ InStep s .attach))) := by
  obtain ⟨bits, f, h⟩ := service_invariant built reach
  refine ⟨?_, next_request h, _, setup_succeeds h, fun quiet => quiet_attach h quiet (setup_succeeds h)⟩
  apply prefix_of_pointwise
  intro k p found
  obtain ⟨r, request, opcode, args⟩ := h.flight.poppedLog k p found
  exact ⟨r, request, by rw [opcode, args]⟩

def waitingOne : Service where
  session := ⟨oneSlotQueue.takeSlot 0 .read 7 9, oneSlotDaemon, [⟨.read, 7, 9⟩], [], [], [], false⟩
  attached := true

theorem waiting_one_popped_first :
    Reachable ((service oneSlotQueue).guarded InStep) waitingOne ∧
      ∃ buf index e, popSyscallRequest waitingOne.session.daemon waitingOne.session.queue.shared =
        some (buf, .ok (index, e)) ∧ e.opcode = ScfOpcode.read.toU8 ∧ e.args = 7 := by
  have start : Reachable ((service oneSlotQueue).guarded InStep)
      ⟨⟨oneSlotQueue, oneSlotDaemon, [], [], [], [], false⟩, false⟩ := reachable_start ⟨_, rfl⟩
  have attached : Reachable ((service oneSlotQueue).guarded InStep)
      ⟨⟨oneSlotQueue, oneSlotDaemon, [], [], [], [], false⟩, true⟩ :=
    reachable_next (a := .attach) start ⟨rfl, rfl, by decide⟩
  have sent : Reachable ((service oneSlotQueue).guarded InStep) waitingOne :=
    reachable_next (a := .traffic (.send ⟨.read, 7, 9⟩)) attached
      ⟨trivial, ⟨trivial, fun none => (by cases none)⟩, by decide⟩
  obtain ⟨_, next, _⟩ := reattached_pops_in_order one_slot_built sent
  obtain ⟨buf, result, run, _, found⟩ := next rfl
  obtain ⟨index, e, rfl, opcode, args⟩ := found ⟨.read, 7, 9⟩ rfl
  exact ⟨sent, buf, index, e, run, opcode, args⟩

def secondDaemon : Service := ⟨{ roundTrip with daemon := ⟨0, 0, 1⟩ }, true⟩

/-- The second daemon pops the request of the first one again: every accepted request
    has been popped and answered, and `pop_syscall_request` does not report busy. -/
theorem second_daemon_pops_stale :
    Reachable (service oneSlotQueue) secondDaemon ∧
      secondDaemon.session.accepted.length = secondDaemon.session.popped.length ∧
      popSyscallRequest secondDaemon.session.daemon secondDaemon.session.queue.shared =
        some (⟨0, 1, 1⟩, .ok (0, ⟨false, 1, 7, 5⟩)) := by
  have go : ∀ {s t : Service} (a : Step), Reachable (service oneSlotQueue) s →
      Orderly s a → serve s a = some t → Reachable (service oneSlotQueue) t :=
    fun a h orderly step => reachable_next (a := a) h ⟨orderly, step⟩
  have start : Reachable (service oneSlotQueue)
      ⟨⟨oneSlotQueue, oneSlotDaemon, [], [], [], [], false⟩, false⟩ := reachable_start ⟨_, rfl⟩
  have attached := go .attach start rfl (by decide : serve _ _ = some
    ⟨⟨oneSlotQueue, oneSlotDaemon, [], [], [], [], false⟩, true⟩)
  have sent := go (.traffic (.send ⟨.read, 7, 9⟩)) attached ⟨trivial, fun none => (by cases none)⟩
    (by decide : serve _ _ = some waitingOne)
  have popped := go (.traffic .popRequest) sent ⟨trivial, fun _ => rfl⟩ (by decide : serve _ _ = some
    ⟨⟨oneSlotQueue.takeSlot 0 .read 7 9, ⟨0, 1, 0⟩, [⟨.read, 7, 9⟩], [(0, ⟨true, 1, 7, 0⟩)], [], [],
      false⟩, true⟩)
  have pushed := go (.traffic (.pushResponse 0 5)) popped ⟨by simp [Allowed], fun _ => rfl⟩
    (by decide : serve _ _ = some
      ⟨⟨{ oneSlotQueue.takeSlot 0 .read 7 9 with
          shared := ⟨syscallQueueBufferMagic, 1, 1, 1, [⟨true, 1, 7, 5⟩], [0], [0]⟩ },
        ⟨0, 1, 1⟩, [⟨.read, 7, 9⟩], [(0, ⟨true, 1, 7, 0⟩)], [(0, 5)], [], false⟩, true⟩)
  have delivered := go (.traffic .popResponse) pushed ⟨trivial, fun none => (by cases none)⟩
    (by decide : serve _ _ = some ⟨roundTrip, true⟩)
  have gone := go .leave delivered ⟨rfl, by simp [roundTrip]⟩ (by decide : serve _ _ = some ⟨roundTrip, false⟩)
  have again := go .attach gone rfl (by decide : serve _ _ = some secondDaemon)
  exact ⟨again, rfl, by decide⟩

end RtosScfAttachment
