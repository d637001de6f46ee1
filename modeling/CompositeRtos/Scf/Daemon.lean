import CompositeRtos.Scf.AnyOpcode

/-!
The Linux daemon (`libs/syscall.c`): `poll_requests` pops one request after another and
dispatches on its opcode byte; a read is handed to a thread of its own. Kernel, main
thread and reader threads interleave at every queue operation. What the system calls
return is chosen by the environment.
-/
namespace RtosScfDaemon
open RtosTransition RtosScfQueue RtosScfIntegrity RtosScfExactlyOnce RtosScfAnyOpcode List
open Option (bind_eq_bind bind_eq_some_iff bind_some)

def ipcOpRead : BitVec 8 := 1
def ipcOpWrite : BitVec 8 := 2
def icpOpInitUintr : BitVec 8 := 5

structure Replies where
  pthreadCreate : BitVec 32
  write : BitVec 32
  registerSender : BitVec 32
  registerHandler : BitVec 64
  createFd : BitVec 32
  ioctl : BitVec 32
  upidAddr : BitVec 64
  deriving DecidableEq, Repr

/-- The value pushed by the `ICP_OP_INIT_UINTR` case; each `break` pushes 0 first. -/
def initUintr (r : Replies) : BitVec 64 :=
  if r.registerSender.slt 0 then 0
  else if r.registerHandler ≠ 0 then 0
  else if r.createFd.slt 0 then 0
  else if r.ioctl.slt 0 then 0
  else r.upidAddr

inductive Outcome where
  | respond (retVal : BitVec 64)
  | startReader
  | ignore
  deriving DecidableEq, Repr

/-- The `switch` of `poll_requests`. The result of `pthread_create` is not looked at. -/
def pollCase (opcode : BitVec 8) (r : Replies) : Outcome :=
  if opcode = ipcOpRead then if r.pthreadCreate = 0 then .startReader else .ignore
  else if opcode = ipcOpWrite then .respond (r.write.signExtend 64)
  else if opcode = icpOpInitUintr then .respond (initUintr r)
  else .ignore

inductive Main where
  | outside
  | looping
  | handling (number : Nat)
  deriving DecidableEq, Repr

structure Dispatch where
  opcode : BitVec 8
  replies : Replies
  deriving DecidableEq, Repr

/-- `readers` are the running threads, by the request that each one serves. -/
structure Process where
  session : Session
  main : Main
  readers : List Nat
  dispatched : List Dispatch
  deriving DecidableEq, Repr

inductive Step where
  | place (r : RawRequest)
  | popResponse
  | poll
  | pop
  | dispatch (replies : Replies)
  | finish (number : Nat) (ret : BitVec 32)

def getSyscallRequestFromIndex (buf : DaemonBuffer) (shared : SharedQueue) (index : BitVec 16) :
    Option ScfDescriptor :=
  if index > buf.capacityMask then none else shared.desc[index.toNat]?

def readThreadFn (s : Session) (number : Nat) (ret : BitVec 32) : Option Session := do
  let (index, _) ← s.popped[number]?
  match getSyscallRequestFromIndex s.daemon s.queue.shared index with
  | none => some s
  | some _ => sessionPush s number (ret.signExtend 64)

def step (p : Process) : Step → Option Process
  | .place r => (sessionPlace p.session r).map fun session => { p with session }
  | .popResponse => (sessionPopResponse p.session).map fun session => { p with session }
  | .poll => if p.main = .outside then some { p with main := .looping } else none
  | .pop =>
    if p.main = .looping then do
      let (daemon, result) ← popSyscallRequest p.session.daemon p.session.queue.shared
      match result with
      | .ok request => some { p with
          session := { p.session with daemon, popped := p.session.popped ++ [request] }
          main := .handling p.session.popped.length }
      | .error _ => some { p with session := { p.session with daemon }, main := .outside }
    else none
  | .dispatch replies =>
    match p.main with
    | .handling number => do
      let (_, desc) ← p.session.popped[number]?
      let dispatched := p.dispatched ++ [⟨desc.opcode, replies⟩]
      match pollCase desc.opcode replies with
      | .respond retVal => do
        let session ← sessionPush p.session number retVal
        some { p with session, main := .looping, dispatched }
      | .startReader => some { p with main := .looping, readers := number :: p.readers, dispatched }
      | .ignore => some { p with main := .looping, dispatched }
    | _ => none
  | .finish number ret =>
    if number ∈ p.readers then do
      let session ← readThreadFn p.session number ret
      some { p with session, readers := p.readers.erase number }
    else none

def daemonProcess (q : SyscallQueueBuffer) (d : DaemonBuffer) : Machine Process Step where
  start p := p = ⟨⟨q, d, [], [], [], [], false⟩, .outside, [], []⟩
  next p a p' := step p a = some p'

def Answered (d : Dispatch) : Prop :=
  d.opcode = ipcOpWrite ∨ d.opcode = icpOpInitUintr ∨
    (d.opcode = ipcOpRead ∧ d.replies.pthreadCreate = 0)

instance (d : Dispatch) : Decidable (Answered d) :=
  inferInstanceAs (Decidable (_ ∨ _))

theorem answered_iff (d : Dispatch) : Answered d ↔ pollCase d.opcode d.replies ≠ .ignore := by
  have apart : ipcOpRead ≠ ipcOpWrite ∧ ipcOpRead ≠ icpOpInitUintr := by decide
  unfold Answered pollCase
  by_cases read : d.opcode = ipcOpRead
  · by_cases started : d.replies.pthreadCreate = 0 <;> simp [read, apart, started]
  rw [if_neg read]
  by_cases write : d.opcode = ipcOpWrite
  · simp [write]
  rw [if_neg write]
  by_cases init : d.opcode = icpOpInitUintr
  · simp [init]
  · simp [read, write, init]

/-! The descriptors taken are those of the requests on their way. -/

def Balanced (bits : Nat) (s : Session) : Prop :=
  s.queue.freeCount.toNat + s.accepted.length = 2 ^ bits + s.delivered.length

theorem send_balanced (h : InFlight bits s f) (balanced : Balanced bits s) (run : sessionSend s r = some t) :
    Balanced bits t := by
  rcases send_accounted h.accounted r.opcode r.args r.token with
    ⟨_, sent⟩ | ⟨room, i, e, _, _, _, _, sent⟩
  · simp only [sessionSend, sent, bind_eq_bind, bind_some, Option.some.injEq] at run
    subst run
    exact balanced
  simp only [sessionSend, sent, bind_eq_bind, bind_some, Option.some.injEq] at run
  subst run
  have positive : s.queue.freeCount.toNat ≠ 0 := fun zero => room (BitVec.eq_of_toNat_eq zero)
  have bound := s.queue.freeCount.isLt
  have one : (1 : BitVec 16).toNat = 1 := rfl
  simp only [Balanced, SyscallQueueBuffer.takeSlot, BitVec.toNat_sub, one, length_append, length_singleton, ↓reduceIte] at balanced ⊢
  omega

theorem pop_response_balanced (h : InFlight bits s f) (balanced : Balanced bits s)
    (run : sessionPopResponse s = some t) : Balanced bits t := by
  rcases pop_response_cases h.accounted.toSized with
    ⟨_, popped⟩ | ⟨_, _, _, ⟨_, popped⟩ | ⟨_, _, _, popped⟩ | ⟨e, token, _, _, _, _, popped⟩⟩
  case inr.inr.inr =>
    simp only [sessionPopResponse, popped, bind_eq_bind, bind_some,
      Option.some.injEq] at run
    subst run
    have small := h.accounted.capacity_le
    have free := h.accounted.free
    have count := countP_le_length (p := isFreeDesc) (l := s.queue.shared.desc)
    have size := h.accounted.desc
    have one : (1 : BitVec 16).toNat = 1 := rfl
    simp only [Balanced, SyscallQueueBuffer.releaseSlot, BitVec.toNat_add, one, length_append, length_singleton] at balanced ⊢
    omega
  all_goals
    simp only [sessionPopResponse, popped, bind_eq_bind, bind_some,
      Option.some.injEq] at run
    subst run
    exact balanced

theorem pop_request_balanced (balanced : Balanced bits s) (run : sessionPopRequest s = some t) : Balanced bits t := by
  simp only [sessionPopRequest, bind_eq_bind, bind_eq_some_iff] at run
  obtain ⟨⟨daemon, result⟩, _, same⟩ := run
  cases result <;> cases same <;> exact balanced

theorem push_balanced (balanced : Balanced bits s) (run : sessionPush s number retVal = some t) :
    Balanced bits t := by
  simp only [sessionPush, bind_eq_bind, bind_eq_some_iff] at run
  obtain ⟨_, _, ⟨daemon, shared, result⟩, _, same⟩ := run
  cases result <;> cases same <;> exact balanced

/-- What holds of the queue whatever bytes were placed. -/
structure Kept (bits : Nat) (s : Session) : Prop where
  flight : ∃ f, InFlight bits (blank s) f
  balanced : Balanced bits (blank s)

theorem place_kept (h : Kept bits s) (run : sessionPlace s r = some t) :
    Kept bits t ∧ t.popped = s.popped ∧ t.pushed = s.pushed := by
  obtain ⟨f, flight⟩ := h.flight
  have sent := session_place_blank run
  obtain ⟨t', f', run', keep⟩ := send_keeps flight
  rw [sent] at run'
  cases run'
  refine ⟨⟨⟨f', keep⟩, send_balanced flight h.balanced sent⟩, ?_⟩
  simp only [sessionPlace, bind_eq_bind, bind_eq_some_iff] at run
  obtain ⟨_, _, same⟩ := run
  cases same
  exact ⟨rfl, rfl⟩

theorem pop_response_kept (h : Kept bits s) (run : sessionPopResponse s = some t) :
    Kept bits t ∧ t.popped = s.popped ∧ t.pushed = s.pushed := by
  obtain ⟨f, flight⟩ := h.flight
  have popped := session_pop_response_blank run
  obtain ⟨t', f', run', keep⟩ := pop_response_keeps flight
  rw [popped] at run'
  cases run'
  refine ⟨⟨⟨f', keep⟩, pop_response_balanced flight h.balanced popped⟩, ?_⟩
  simp only [sessionPopResponse, bind_eq_bind, bind_eq_some_iff] at run
  obtain ⟨⟨_, response⟩, _, same⟩ := run
  cases response <;> cases same <;> exact ⟨rfl, rfl⟩

theorem pop_request_kept (h : Kept bits s) (run : sessionPopRequest s = some t) : Kept bits t := by
  obtain ⟨f, flight⟩ := h.flight
  have popped := session_pop_request_blank run
  obtain ⟨t', f', run', keep⟩ := pop_request_keeps flight
  rw [popped] at run'
  cases run'
  exact ⟨⟨f', keep⟩, pop_request_balanced h.balanced popped⟩

theorem push_kept (h : Kept bits s) (inside : number < s.popped.length) (fresh : number ∉ s.pushed.map Prod.fst)
    (run : sessionPush s number retVal = some t) :
    Kept bits t ∧ t.popped = s.popped ∧ t.pushed = s.pushed ++ [(number, retVal)] := by
  obtain ⟨f, flight⟩ := h.flight
  have pushed := session_push_blank run
  obtain ⟨t', f', run', keep, log⟩ := push_result flight
    (by simpa [blank] using inside : number < (blank s).popped.length) fresh
  rw [pushed] at run'
  cases run'
  refine ⟨⟨⟨f', keep⟩, push_balanced h.balanced pushed⟩, ?_, log⟩
  simp only [sessionPush, bind_eq_bind, bind_eq_some_iff] at run
  obtain ⟨_, _, ⟨_, _, result⟩, _, same⟩ := run
  cases result <;> cases same <;> rfl

/-- The index of a popped request stays within the mask until its answer is pushed, so
    `read_thread_fn` gets its descriptor. -/
theorem read_thread_pushes (h : Kept bits s) (fresh : number ∉ s.pushed.map Prod.fst)
    (run : readThreadFn s number ret = some t) : sessionPush s number (ret.signExtend 64) = some t := by
  obtain ⟨f, flight⟩ := h.flight
  simp only [readThreadFn, bind_eq_bind, bind_eq_some_iff] at run
  obtain ⟨⟨index, desc⟩, found, run⟩ := run
  have entry : (blank s).popped[number]? = some (index, blankDesc desc) := by
    simp [blank, found, blankEntry]
  obtain ⟨ticket, held, _, rfl⟩ := flight.heldLog number _ entry fresh
  have live : ticket ∈ f.live := by simp [Flight.live, held]
  obtain ⟨word, inMask⟩ := ticket_word flight live
  obtain ⟨e, there, _⟩ := flight.backed.present ticket live
  have room : ticket.slot < s.queue.shared.desc.length := by
    have := (List.getElem?_eq_some_iff.mp there).1
    simpa [blank, blankQueue, blankShared] using this
  have inMask : ¬ slotWord ticket > s.daemon.capacityMask := inMask
  have got : getSyscallRequestFromIndex s.daemon s.queue.shared (slotWord ticket) =
      some s.queue.shared.desc[ticket.slot] := by
    rw [getSyscallRequestFromIndex, if_neg inMask, word]
    exact List.getElem?_eq_getElem room
  simp only [got] at run
  exact run

def inHand : Main → Nat
  | .handling _ => 1
  | .outside | .looping => 0

def Taken (p : Process) (number : Nat) : Prop :=
  number ∈ p.readers ∨ number ∈ p.session.pushed.map Prod.fst

structure Tracked (bits : Nat) (p : Process) : Prop where
  kept : Kept bits p.session
  progress : p.session.popped.length = p.dispatched.length + inHand p.main
  current : ∀ number, p.main = .handling number → number = p.dispatched.length
  opcodes : ∀ (k : Nat) (d : Dispatch), p.dispatched[k]? = some d →
    ∃ e, p.session.popped[k]? = some e ∧ d.opcode = e.2.opcode
  done : ∀ (k : Nat) (d : Dispatch), p.dispatched[k]? = some d → (Answered d ↔ Taken p k)
  within : ∀ k, Taken p k → k < p.dispatched.length
  running : p.readers.Nodup
  apart : ∀ k ∈ p.readers, k ∉ p.session.pushed.map Prod.fst

section

variable (h : Tracked bits p)
include h

theorem kernel_tracked (kept : Kept bits session)
    (popped : session.popped = p.session.popped) (pushed : session.pushed = p.session.pushed) :
    Tracked bits { p with session } where
  kept := kept
  progress := by rw [popped]; exact h.progress
  current := h.current
  opcodes := by rw [popped]; exact h.opcodes
  done := by simpa only [Taken, pushed] using h.done
  within := by simpa only [Taken, pushed] using h.within
  running := h.running
  apart := by rw [pushed]; exact h.apart

theorem pop_tracked (run : step p .pop = some p') : Tracked bits p' := by
  simp only [step] at run
  split at run <;> try cases run
  rename_i looping
  simp only [bind_eq_bind, bind_eq_some_iff] at run
  obtain ⟨⟨daemon, result⟩, popped, run⟩ := run
  have progress := h.progress
  rw [looping, inHand] at progress
  cases result with
  | ok request =>
    cases run
    have kept := pop_request_kept h.kept (t := { p.session with
      daemon, popped := p.session.popped ++ [request] }) (by simp [sessionPopRequest, popped])
    exact { h with
      kept := kept
      progress := by simp [inHand, progress]
      current := by
        intro number same
        cases same
        exact progress
      opcodes := by
        intro k d found
        obtain ⟨e, there, same⟩ := h.opcodes k d found
        exact ⟨e, by rw [List.getElem?_append_left (List.getElem?_eq_some_iff.mp there).1]; exact there, same⟩ }
  | error e =>
    cases run
    have kept := pop_request_kept h.kept (t := { p.session with daemon }) (by simp [sessionPopRequest, popped])
    exact { h with kept := kept, progress := progress, current := fun _ same => (by cases same) }

theorem dispatched_tracked (hand : p.main = .handling number)
    (found : p.session.popped[number]? = some e) (replies : Replies) (kept : Kept bits session)
    (popped : session.popped = p.session.popped)
    (taken : ∀ k, (k ∈ readers ∨ k ∈ session.pushed.map Prod.fst) ↔ Taken p k ∨ (k = number ∧ Answered ⟨e.2.opcode, replies⟩))
    (running : readers.Nodup) (apart : ∀ k ∈ readers, k ∉ session.pushed.map Prod.fst) :
    Tracked bits
      ⟨session, .looping, readers, p.dispatched ++ [⟨e.2.opcode, replies⟩]⟩ where
  kept := kept
  progress := by
    have progress := h.progress
    rw [hand, inHand] at progress
    rw [popped, progress]
    simp [inHand]
  current := fun _ same => (by cases same)
  opcodes := by
    have last := h.current number hand
    rw [popped]
    intro k d at_k
    rcases snoc_some at_k with old | ⟨rfl, rfl⟩
    · exact h.opcodes k d old
    · rw [last] at found
      exact ⟨e, found, rfl⟩
  done := by
    have last := h.current number hand
    intro k d at_k
    rw [Taken, taken k]
    rcases snoc_some at_k with old | ⟨rfl, rfl⟩
    · have earlier := (List.getElem?_eq_some_iff.mp old).1
      rw [h.done k d old]
      have other : k ≠ number := by omega
      simp [other]
    · have fresh : ¬ Taken p p.dispatched.length := fun taken => by have := h.within _ taken; omega
      simp [fresh, last]
  within := by
    have last := h.current number hand
    intro k inTaken
    have old := (taken k).mp inTaken
    simp only [length_append, length_singleton]
    rcases old with old | ⟨rfl, _⟩
    · have := h.within k old
      omega
    · omega
  running := running
  apart := apart

theorem dispatch_tracked (run : step p (.dispatch replies) = some p') : Tracked bits p' := by
  simp only [step] at run
  split at run <;> try cases run
  rename_i number hand
  have last := h.current number hand
  have fresh : ¬ Taken p number := fun taken => by have := h.within _ taken; omega
  simp only [Taken, not_or] at fresh
  simp only [bind_eq_bind, bind_eq_some_iff] at run
  obtain ⟨⟨index, desc⟩, found, run⟩ := run
  have inside := (List.getElem?_eq_some_iff.mp found).1
  have answered := answered_iff ⟨desc.opcode, replies⟩
  cases outcome : pollCase desc.opcode replies with
  | respond retVal =>
    simp only [outcome, bind_eq_some_iff] at run
    obtain ⟨session, pushed, same⟩ := run
    cases same
    obtain ⟨kept, popped, log⟩ := push_kept h.kept inside fresh.2 pushed
    have yes : Answered ⟨desc.opcode, replies⟩ := answered.mpr (by simp [outcome])
    refine dispatched_tracked h hand found replies kept popped ?_ h.running ?_
    · intro k
      simp only [log, yes, Taken, map_append, map_cons, map_nil, mem_append,
        mem_singleton, and_true, or_assoc]
    intro k reader
    simp only [log, map_append, map_cons, map_nil, mem_append,
      mem_singleton, not_or]
    exact ⟨h.apart k reader, fun same => fresh.1 (same ▸ reader)⟩
  | startReader =>
    simp only [outcome] at run
    cases run
    have yes : Answered ⟨desc.opcode, replies⟩ := answered.mpr (by simp [outcome])
    refine dispatched_tracked h hand found replies h.kept rfl ?_ ?_ ?_
    · intro k
      simp only [yes, Taken, mem_cons, and_true]
      tauto
    · exact nodup_cons.mpr ⟨fresh.1, h.running⟩
    intro k reader
    rcases mem_cons.mp reader with rfl | old
    · exact fresh.2
    · exact h.apart k old
  | ignore =>
    simp only [outcome] at run
    cases run
    have no : ¬ Answered ⟨desc.opcode, replies⟩ := fun yes => answered.mp yes outcome
    refine dispatched_tracked h hand found replies h.kept rfl ?_ h.running h.apart
    intro k
    simp [no, Taken]

theorem finish_tracked (run : step p (.finish number ret) = some p') : Tracked bits p' := by
  simp only [step] at run
  split at run <;> try cases run
  rename_i reader
  simp only [bind_eq_bind, bind_eq_some_iff] at run
  obtain ⟨session, finished, same⟩ := run
  cases same
  have before := h.within number (Or.inl reader)
  have inside : number < p.session.popped.length := by
    have := h.progress
    omega
  have fresh := h.apart number reader
  obtain ⟨kept, popped, log⟩ := push_kept h.kept inside fresh (read_thread_pushes h.kept fresh finished)
  have taken : ∀ k, (k ∈ p.readers.erase number ∨ k ∈ session.pushed.map Prod.fst) ↔ Taken p k := by
    intro k
    simp only [log, Taken, map_append, map_cons, map_nil, mem_append,
      mem_singleton, h.running.mem_erase_iff]
    by_cases same : k = number
    · simp [same, reader]
    · simp [same]
  exact {
    kept := kept
    progress := by rw [popped]; exact h.progress
    current := h.current
    opcodes := by rw [popped]; exact h.opcodes
    done := fun k d found => (h.done k d found).trans (taken k).symm
    within := fun k inTaken => h.within k ((taken k).mp inTaken)
    running := h.running.erase number
    apart := by
      intro k left
      obtain ⟨other, old⟩ := h.running.mem_erase_iff.mp left
      simp only [log, map_append, map_cons, map_nil, mem_append, mem_singleton, not_or]
      exact ⟨h.apart k old, other⟩ }

theorem step_tracked (run : step p a = some p') : Tracked bits p' := by
  cases a with
  | place r =>
    obtain ⟨session, placed, rfl⟩ := Option.map_eq_some_iff.mp run
    obtain ⟨kept, popped, pushed⟩ := place_kept h.kept placed
    exact kernel_tracked h kept popped pushed
  | popResponse =>
    obtain ⟨session, got, rfl⟩ := Option.map_eq_some_iff.mp run
    obtain ⟨kept, popped, pushed⟩ := pop_response_kept h.kept got
    exact kernel_tracked h kept popped pushed
  | poll =>
    simp only [step] at run
    split at run <;> cases run
    rename_i outside
    have progress := h.progress
    rw [outside] at progress
    exact { h with progress := progress, current := fun _ same => (by cases same) }
  | pop => exact pop_tracked h run
  | dispatch replies => exact dispatch_tracked h run
  | finish number ret => exact finish_tracked h run

end

theorem fresh_kept (built : SyscallQueueBuffer.new base size stale = some q)
    (attached : nimbosSetupSyscallBuffers q.shared = .ok d) (power : capacityFor size = 2 ^ bits)
    (sized : Sized bits q) : Kept bits ⟨q, d, [], [], [], [], false⟩ := by
  have small := sized.capacity_le
  have blanked : SyscallQueueBuffer.new base size { stale with desc := fun i => blankDesc (stale.desc i) } =
      some (blankQueue q) := by
    simp only [SyscallQueueBuffer.new] at built ⊢
    split at built
    · rename_i fits
      cases built
      rw [if_pos fits]
      simp [blankQueue, blankShared, blankDesc]
    · cases built
  have free : q.freeCount = BitVec.ofNat 16 (2 ^ bits) := by
    simp only [SyscallQueueBuffer.new, power] at built
    split at built <;> cases built
    rfl
  have blankSized : Sized bits (blankQueue q) :=
    ⟨sized.small, sized.mask, sized.tokens, by simpa [blankQueue, blankShared] using sized.desc,
      sized.reqRing, sized.rspRing⟩
  refine ⟨⟨_, fresh_in_flight blanked attached power blankSized⟩, ?_⟩
  simp only [Balanced, blank, blankQueue, free, BitVec.toNat_ofNat, map_nil, length_nil]
  omega

theorem daemon_invariant (built : SyscallQueueBuffer.new base size stale = some q)
    (attached : nimbosSetupSyscallBuffers q.shared = .ok d) (reach : Reachable (daemonProcess q d) p) :
    ∃ bits, capacityFor size = 2 ^ bits ∧ Tracked bits p := by
  obtain ⟨bits, power, sized⟩ := new_sized built
  refine ⟨bits, power, reachable_invariant (Tracked bits) ?_ ?_ reach⟩
  · rintro first rfl
    exact {
      kept := fresh_kept built attached power sized
      progress := rfl
      current := fun _ same => (by cases same)
      opcodes := by simp
      done := by simp
      within := by simp [Taken]
      running := nodup_nil
      apart := by simp }
  · intro p a p' h run
    exact step_tracked h run

theorem covers_iff_length {xs : List Nat} (once : xs.Nodup) (below : ∀ k ∈ xs, k < n) :
    (∀ k, k < n → k ∈ xs) ↔ xs.length = n := by
  have subset : xs ⊆ List.range n := fun k member => mem_range.mpr (below k member)
  constructor
  · intro all
    have most := once.length_le_of_subset subset
    have least := nodup_range.length_le_of_subset
      (fun k member => all k (mem_range.mp member) : List.range n ⊆ xs)
    rw [length_range] at most least
    omega
  intro full k inside
  by_contra missing
  have longer := (nodup_cons.mpr ⟨missing, once⟩).length_le_of_subset
    (cons_subset.mpr ⟨mem_range.mpr inside, subset⟩)
  rw [length_cons, length_range] at longer
  omega

/-- When `poll_requests` has returned and all reader threads have finished, every popped
    request has been answered exactly once iff each one was a write, a user-interrupt
    setup, or a read whose thread was created; and, with the responses drained, all
    descriptors are free again under the same condition. -/
theorem requests_answered_iff {base size : Nat} {stale : StalePage} {q : SyscallQueueBuffer}
    {d : DaemonBuffer} (built : SyscallQueueBuffer.new base size stale = some q)
    (attached : nimbosSetupSyscallBuffers q.shared = .ok d) {p : Process}
    (reach : Reachable (daemonProcess q d) p) (returned : p.main = .outside) (finished : p.readers = []) :
    p.dispatched.map Dispatch.opcode = (p.session.popped.map fun e => e.2.opcode) ∧
    ((∀ k, k < p.session.popped.length → (p.session.pushed.map Prod.fst).count k = 1) ↔
      ∀ r ∈ p.dispatched, Answered r) ∧
    (p.session.accepted.length = p.session.popped.length → p.session.drained = true →
      (p.session.queue.freeCount.toNat = capacityFor size ↔ ∀ r ∈ p.dispatched, Answered r)) := by
  obtain ⟨bits, power, h⟩ := daemon_invariant built attached reach
  obtain ⟨f, flight⟩ := h.kept.flight
  have progress := h.progress
  rw [returned, inHand] at progress
  have once : (p.session.pushed.map Prod.fst).Nodup := flight.once
  have known : ∀ k ∈ p.session.pushed.map Prod.fst, k < p.session.popped.length := by
    intro k pushed
    have := h.within k (Or.inr pushed)
    omega
  have answered : (∀ r ∈ p.dispatched, Answered r) ↔
      ∀ k, k < p.session.popped.length → k ∈ p.session.pushed.map Prod.fst := by
    constructor
    · intro all k inside
      have found := List.getElem?_eq_getElem (show k < p.dispatched.length by omega)
      have taken := (h.done k _ found).mp (all _ (List.getElem_mem _))
      simpa [Taken, finished] using taken
    intro all r member
    obtain ⟨k, inside, rfl⟩ := List.getElem_of_mem member
    exact (h.done k _ (List.getElem?_eq_getElem inside)).mpr (Or.inr (all k (by omega)))
  refine ⟨?_, ?_, ?_⟩
  · apply List.ext_getElem?
    intro k
    rw [List.getElem?_map, List.getElem?_map]
    cases found : p.dispatched[k]? with
    | none =>
      have outside := List.getElem?_eq_none_iff.mp found
      rw [List.getElem?_eq_none_iff.mpr (by omega)]
      rfl
    | some r =>
      obtain ⟨e, there, same⟩ := h.opcodes k r found
      simp [there, same]
  · rw [answered]
    refine forall_congr' fun k => forall_congr' fun _ => ?_
    rw [List.Nodup.count once]
    simp
  · intro popped drained
    rw [answered, power]
    have balanced : p.session.queue.freeCount.toNat + p.session.accepted.length =
        2 ^ bits + p.session.delivered.length := by
      simpa [Balanced, blank, blankQueue] using h.kept.balanced
    have pushed : p.session.pushed.length = p.session.delivered.length := by
      have count := pushed_count flight
      rw [flight.drainedLog drained] at count
      simpa [blank] using count
    rw [covers_iff_length once known, List.length_map]
    omega

def noReplies : Replies := ⟨0, 0, 0, 0, 0, 0, 0⟩

/-- The kernel places one request, the daemon polls until the ring is empty, a reader
    thread finishes if there is one, and the kernel drains the responses. -/
def served (opcode : BitVec 8) (threads : List Step) : Option Process :=
  ([Step.place ⟨opcode, 7, 9⟩, .poll, .pop, .dispatch noReplies, .pop] ++ threads ++
    [Step.popResponse, Step.popResponse]).foldlM step
    ⟨⟨oneSlotQueue, oneSlotDaemon, [], [], [], [], false⟩, .outside, [], []⟩

theorem served_reachable (run : served opcode threads = some p) :
    Reachable (daemonProcess oneSlotQueue oneSlotDaemon) p := by
  have start : Reachable (daemonProcess oneSlotQueue oneSlotDaemon)
      ⟨⟨oneSlotQueue, oneSlotDaemon, [], [], [], [], false⟩, .outside, [], []⟩ := reachable_start rfl
  exact reachable_follow (fun _ _ _ step => step) start run

def oneServed (opcode : BitVec 8) (ret : BitVec 64) : Process where
  session := {
    queue := { oneSlotQueue with
      reqIndexShadow := 1, rspIndexLast := 1
      shared := { oneSlotQueue.shared with
        reqIndex := 1, rspIndex := 1, desc := [⟨false, opcode, 7, ret⟩] } }
    daemon := ⟨0, 1, 1⟩
    accepted := [⟨nameOf opcode, 7, 9⟩]
    popped := [(0, ⟨true, opcode, 7, 0⟩)]
    pushed := [(0, ret)]
    delivered := [⟨opcode, 9, ret⟩]
    drained := true }
  main := .outside
  readers := []
  dispatched := [⟨opcode, noReplies⟩]

theorem read_request_answered :
    Reachable (daemonProcess oneSlotQueue oneSlotDaemon) (oneServed ipcOpRead 5) ∧
      (oneServed ipcOpRead 5).session.queue.freeCount.toNat = capacityFor 44 := by
  have reach := served_reachable (by decide : served ipcOpRead [.finish 0 5] = some (oneServed ipcOpRead 5))
  obtain ⟨_, _, drained⟩ := requests_answered_iff one_slot_built
    (by decide : nimbosSetupSyscallBuffers oneSlotQueue.shared = .ok oneSlotDaemon) reach rfl rfl
  exact ⟨reach, (drained rfl rfl).mpr (by decide)⟩

/-- An `Open` request: popped, no case for it, and its descriptor is never freed. -/
def openIgnored : Process where
  session := {
    queue := oneSlotQueue.takeSlot 0 .openFile 7 9
    daemon := ⟨0, 1, 0⟩
    accepted := [⟨.openFile, 7, 9⟩]
    popped := [(0, ⟨true, 3, 7, 0⟩)]
    pushed := []
    delivered := []
    drained := true }
  main := .outside
  readers := []
  dispatched := [⟨3, noReplies⟩]

theorem open_request_unanswered :
    Reachable (daemonProcess oneSlotQueue oneSlotDaemon) openIgnored ∧
      openIgnored.main = .outside ∧ openIgnored.readers = [] ∧
      (openIgnored.session.pushed.map Prod.fst).count 0 = 0 ∧
      openIgnored.session.drained = true ∧ openIgnored.session.queue.freeCount = 0 := by
  have reach := served_reachable
    (by decide : served ScfOpcode.openFile.toU8 [] = some openIgnored)
  exact ⟨reach, rfl, rfl, rfl, rfl, rfl⟩

end RtosScfDaemon
