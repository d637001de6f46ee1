import Mathlib.Data.List.TakeWhile
import CompositeRtos.Scf.Attachment
import CompositeRtos.Scf.CondVar
import CompositeRtos.Scf.Daemon

/-!
The two consumers of the queue on rings with malformed entries. `handle_irq` drains the
response ring until `pop_response` returns nothing, and `poll_requests` the request ring
until `pop_syscall_request` fails. The first loop cannot tell a rejected entry from an
empty ring; the second one meets a rejected entry again at every call.
-/
namespace RtosScfMalformed
open RtosTransition RtosRing RtosScfQueue RtosScfIntegrity RtosScfExactlyOnce BitVec List Option

/-- A ring of 16-bit indices between a consumer's counter and a published one. -/
structure Waiting (ring : List (BitVec 16)) (last index : BitVec 16) (first : Nat)
    (entries : List (BitVec 16)) : Prop where
  last : last = BitVec.ofNat 16 first
  index : index = BitVec.ofNat 16 (first + entries.length)
  ring : Holds ring first entries

def waitingEntries (ring : List (BitVec 16)) (last index : BitVec 16) : List (BitVec 16) :=
  window ring 0 last.toNat (index - last).toNat

theorem waiting_entries (ring : List (BitVec 16)) (last index : BitVec 16)
    (few : (index - last).toNat ≤ ring.length) :
    Waiting ring last index last.toNat (waitingEntries ring last index) := by
  have counted : last + (index - last) = index := by
    rw [BitVec.add_comm, BitVec.sub_add_cancel]
  refine ⟨by simp, ?_, holds_window 0 few⟩
  rw [waitingEntries, window_length, ofNat_add, ofNat_toNat, ofNat_toNat,
    setWidth_eq, setWidth_eq, counted]

theorem waiting_none_iff (h : Waiting ring last index first entries) (small : ring.length ≤ 2 ^ 15) :
    last = index ↔ entries = [] := by
  have few := h.ring.1
  rw [h.last, h.index, truncated_counters_agree (Nat.le_add_right _ _) (by omega)]
  rw [← length_eq_zero_iff]
  omega

theorem waiting_first (h : Waiting ring last index first (i :: rest)) (small : bits ≤ 15)
    (size : ring.length = 2 ^ bits) :
    ring[(last &&& BitVec.ofNat 16 (2 ^ bits - 1)).toNat]? = some i := by
  rw [h.last, masked_counter first (by omega), ← size]
  exact holds_head h.ring

theorem waiting_rest (h : Waiting ring last index first (i :: rest)) :
    Waiting ring (last + 1) index (first + 1) rest := by
  refine ⟨by rw [h.last, counter_word], ?_, holds_tail h.ring⟩
  rw [h.index, length_cons]
  congr 1
  omega

/-- The loop of `handle_irq`, with the calls of `signal` that it makes, in order. -/
def handleIrqFuel : Nat → SyscallQueueBuffer →
    Option (SyscallQueueBuffer × List (ScfRequestToken × BitVec 64))
  | 0, _ => none
  | fuel + 1, q => do
    let (q, response) ← q.popResponseLocked
    match response with
    | none => some (q, [])
    | some rsp =>
      let (q, calls) ← handleIrqFuel fuel q
      some (q, if RtosScfCondVar.isValid rsp.token then (rsp.token, rsp.retVal) :: calls else calls)

/-- Every round but the last consumes a published entry. -/
def handleIrq (q : SyscallQueueBuffer) :
    Option (SyscallQueueBuffer × List (ScfRequestToken × BitVec 64)) :=
  handleIrqFuel ((q.shared.rspIndex - q.rspIndexLast).toNat + 1) q

def publishedResponses (q : SyscallQueueBuffer) : List (BitVec 16) :=
  waitingEntries q.shared.rspRing q.rspIndexLast q.shared.rspIndex

def Live (q : SyscallQueueBuffer) (i : BitVec 16) : Prop :=
  ∃ e, q.shared.desc[i.toNat]? = some e ∧ e.valid = true

/-- Every entry but the last names a descriptor in use, and no two name the same one. -/
def GenuineButLast (q : SyscallQueueBuffer) (entries : List (BitVec 16)) : Prop :=
  entries.dropLast.Nodup ∧ ∀ i ∈ entries.dropLast, Live q i

def Signalled (q : SyscallQueueBuffer) (entries : List (BitVec 16))
    (calls : List (ScfRequestToken × BitVec 64)) : Prop :=
  ∀ i ∈ entries, ∀ e token, q.shared.desc[i.toNat]? = some e → e.valid = true →
    q.tokens[i.toNat]? = some token → RtosScfCondVar.isValid token = true →
    (token, e.retVal) ∈ calls

theorem released_sized (sized : Sized bits q) (slot : Nat) (e : ScfDescriptor) : Sized bits (q.releaseSlot slot e) :=
  ⟨sized.small, sized.mask, by simpa [SyscallQueueBuffer.releaseSlot] using sized.tokens,
    by simpa [SyscallQueueBuffer.releaseSlot] using sized.desc, sized.reqRing, sized.rspRing⟩

theorem live_released (entry : q.shared.desc[i.toNat]? = some e) :
    Live (q.releaseSlot i.toNat e) j ↔ Live q j ∧ j ≠ i := by
  have inside := (List.getElem?_eq_some_iff.mp entry).1
  by_cases same : j = i
  · subst same
    constructor
    · rintro ⟨e', found, valid⟩
      simp only [SyscallQueueBuffer.releaseSlot, List.getElem?_set_self inside] at found
      cases found
      cases valid
    · intro h
      exact absurd rfl h.2
  · have apart : i.toNat ≠ j.toNat := fun eq => same (eq_of_toNat_eq eq.symm)
    simp only [Live, SyscallQueueBuffer.releaseSlot, List.getElem?_set_ne apart]
    exact ⟨fun h => ⟨h, same⟩, And.left⟩

theorem genuine_cons (entry : q.shared.desc[i.toNat]? = some e) (valid : e.valid = true) :
    GenuineButLast q (i :: rest) ↔ GenuineButLast (q.releaseSlot i.toNat e) rest := by
  cases rest with
  | nil => simp [GenuineButLast]
  | cons j rest =>
    have live : Live q i := ⟨e, entry, valid⟩
    simp only [GenuineButLast, dropLast_cons_cons, nodup_cons, forall_mem_cons, live_released entry]
    constructor
    · rintro ⟨⟨fresh, once⟩, _, others⟩
      exact ⟨once, fun k member => ⟨others k member, fun same => fresh (same ▸ member)⟩⟩
    · rintro ⟨once, others⟩
      exact ⟨⟨fun member => (others i member).2 rfl, once⟩, live, fun k member => (others k member).1⟩

theorem signalled_cons (entry : q.shared.desc[i.toNat]? = some e) (mine : q.tokens[i.toNat]? = some token)
    (later : Signalled (q.releaseSlot i.toNat e) rest calls) :
    Signalled q (i :: rest)
      (if RtosScfCondVar.isValid token then (token, e.retVal) :: calls else calls) := by
  intro j member e' token' entry' valid' token_at addressed
  by_cases same : j = i
  · subst same
    cases entry.symm.trans entry'
    cases mine.symm.trans token_at
    rw [if_pos addressed]
    exact .head _
  have apart : i.toNat ≠ j.toNat := fun eq => same (eq_of_toNat_eq eq.symm)
  have queued : j ∈ rest := (mem_cons.mp member).resolve_left same
  have call : (token', e'.retVal) ∈ calls := by
    refine later j queued e' token' ?_ valid' ?_ addressed
    · simpa [SyscallQueueBuffer.releaseSlot, List.getElem?_set_ne apart] using entry'
    · simpa [SyscallQueueBuffer.releaseSlot, List.getElem?_set_ne apart] using token_at
  split
  · exact .tail _ call
  · exact call

theorem rejected_round (sized : Sized bits q)
    (h : Waiting q.shared.rspRing q.rspIndexLast q.shared.rspIndex first (i :: rest))
    (dead : ¬ Live q i) :
    (q.skipEntry.rspIndexLast = q.skipEntry.shared.rspIndex ↔ GenuineButLast q (i :: rest)) ∧
      (GenuineButLast q (i :: rest) → Signalled q (i :: rest) []) := by
  have alone : GenuineButLast q (i :: rest) ↔ rest = [] := by
    cases rest with
    | nil => simp [GenuineButLast]
    | cons j rest =>
      simp only [GenuineButLast, dropLast_cons_cons, forall_mem_cons, reduceCtorEq, iff_false]
      exact fun genuine => dead genuine.2.1
  have small := sized.capacity_le
  refine ⟨?_, ?_⟩
  · rw [alone]
    exact waiting_none_iff (waiting_rest h) (by rw [sized.rspRing]; exact small)
  intro genuine
  rw [alone.mp genuine]
  intro j member e token entry valid
  cases mem_singleton.mp member
  exact absurd ⟨e, entry, valid⟩ dead

theorem drain_spec (sized : Sized bits q)
    (h : Waiting q.shared.rspRing q.rspIndexLast q.shared.rspIndex first entries) :
    ∃ q' calls, handleIrqFuel (entries.length + 1) q = some (q', calls) ∧
      (q'.rspIndexLast = q'.shared.rspIndex ↔ GenuineButLast q entries) ∧
      (GenuineButLast q entries → Signalled q entries calls) := by
  have small := sized.capacity_le
  induction entries generalizing q first with
  | nil =>
    have drained := (waiting_none_iff h (by rw [sized.rspRing]; exact small)).mpr rfl
    rcases pop_response_cases sized with ⟨_, pop⟩ | ⟨more, _⟩
    · refine ⟨q, [], ?_, ?_, ?_⟩
      · simp [handleIrqFuel, pop]
      · simp [GenuineButLast, drained]
      · intro _ i member
        cases member
    · exact absurd drained more
  | cons i rest ih =>
    have more : q.rspIndexLast ≠ q.shared.rspIndex := fun same =>
      cons_ne_nil _ _ ((waiting_none_iff h (by rw [sized.rspRing]; exact small)).mp same)
    have oldest : q.shared.rspRing[(q.rspIndexLast &&& q.capacityMask).toNat]? = some i := by
      rw [sized.mask]
      exact waiting_first h sized.small sized.rspRing
    rcases pop_response_cases sized with ⟨same, _⟩ | ⟨_, j, found, rejected | rejected | accepted⟩
    · exact absurd same more
    · cases oldest.symm.trans found
      obtain ⟨outside, pop⟩ := rejected
      have dead : ¬ Live q i := by
        rintro ⟨e, entry, _⟩
        have inside := (List.getElem?_eq_some_iff.mp entry).1
        rw [sized.desc] at inside
        exact outside inside
      exact ⟨q.skipEntry, [], by simp [handleIrqFuel, pop], rejected_round sized h dead⟩
    · cases oldest.symm.trans found
      obtain ⟨e, entry, free, pop⟩ := rejected
      have dead : ¬ Live q i := by
        rintro ⟨e', entry', valid⟩
        cases entry.symm.trans entry'
        rw [free] at valid
        cases valid
      exact ⟨q.skipEntry, [], by simp [handleIrqFuel, pop], rejected_round sized h dead⟩
    · cases oldest.symm.trans found
      obtain ⟨e, token, inside, entry, valid, mine, pop⟩ := accepted
      have sized' := released_sized sized i.toNat e
      obtain ⟨q', calls, run, consumed, signalled⟩ :=
        ih sized' (waiting_rest h)
      refine ⟨q', if RtosScfCondVar.isValid token then (token, e.retVal) :: calls else calls, ?_, ?_, ?_⟩
      · rw [length_cons, handleIrqFuel, pop]
        simp only [bind_eq_bind, bind_some, run]
      · rw [consumed, genuine_cons entry valid]
      · intro genuine
        exact signalled_cons entry mine (signalled ((genuine_cons entry valid).mp genuine))

/-- `handle_irq` always returns, and it has consumed every published entry and signalled
    every task named among them just when no entry but the last is rejected: the loop
    stops behind the first entry that is out of range, free or a duplicate. -/
theorem responses_drained_iff {bits : Nat} {q : SyscallQueueBuffer} (sized : Sized bits q)
    (few : (q.shared.rspIndex - q.rspIndexLast).toNat ≤ 2 ^ bits) :
    ∃ q' calls, handleIrq q = some (q', calls) ∧
      ((q'.rspIndexLast = q'.shared.rspIndex ∧ Signalled q (publishedResponses q) calls) ↔
        GenuineButLast q (publishedResponses q)) := by
  have h := waiting_entries q.shared.rspRing q.rspIndexLast q.shared.rspIndex
    (by rw [sized.rspRing]; exact few)
  obtain ⟨q', calls, run, consumed, signalled⟩ := drain_spec sized h
  rw [waitingEntries, window_length] at run
  refine ⟨q', calls, run, ?_⟩
  constructor
  · intro all
    exact consumed.mp all.1
  · intro genuine
    exact ⟨consumed.mpr genuine, signalled genuine⟩

def twoSlotQueue : SyscallQueueBuffer where
  freeCount := 2
  capacityMask := 1
  reqIndexShadow := 0
  rspIndexLast := 0
  tokens := [0, 0]
  shared := ⟨syscallQueueBufferMagic, 2, 0, 0, [⟨false, 0, 0, 0⟩, ⟨false, 0, 0, 0⟩], [0, 0], [0, 0]⟩

theorem two_slot_built : SyscallQueueBuffer.new 0x1000 72 blankPage = some twoSlotQueue := by
  decide

def readSent : SyscallQueueBuffer := twoSlotQueue.takeSlot 0 .read 7 RtosScfCondVar.readerCond
def responsePage (ring : List (BitVec 16)) : SharedQueue :=
  { readSent.shared with rspIndex := 2, rspRing := ring }
def responded (ring : List (BitVec 16)) : SyscallQueueBuffer :=
  { readSent with shared := responsePage ring }

theorem bad_entry_last_drained :
    ∃ q' calls, handleIrq (responded [0, 9]) = some (q', calls) ∧
      q'.rspIndexLast = q'.shared.rspIndex ∧ (RtosScfCondVar.readerCond, 0) ∈ calls := by
  have sized : Sized 1 (responded [0, 9]) := ⟨by decide, rfl, rfl, rfl, rfl, rfl⟩
  have entries : publishedResponses (responded [0, 9]) = [0, 9] := by decide
  obtain ⟨q', calls, run, drained⟩ := responses_drained_iff sized (by decide)
  have genuine : GenuineButLast (responded [0, 9]) (publishedResponses (responded [0, 9])) := by
    rw [entries]
    refine ⟨by decide, ?_⟩
    intro i member
    cases List.mem_singleton.mp member
    exact ⟨⟨true, 1, 7, 0⟩, rfl, rfl⟩
  obtain ⟨consumed, signalled⟩ := drained.mpr genuine
  rw [entries] at signalled
  exact ⟨q', calls, run, consumed,
    signalled 0 (by decide) ⟨true, 1, 7, 0⟩ _ rfl rfl rfl (by decide)⟩

/-- An out-of-range index in front of the answer: `handle_irq` returns with the answer
    unread, and the reader goes on waiting. -/
theorem bad_entry_first_blocks :
    Reachable (RtosScfCondVar.forwardedCalls twoSlotQueue)
        (RtosScfCondVar.oneReader (responded [9, 0]) (.waiting RtosScfCondVar.readerCond) .polling) ∧
      publishedResponses (responded [9, 0]) = [9, 0] ∧
      (responded [9, 0]).tokens[0]? = some RtosScfCondVar.readerCond ∧
      handleIrq (responded [9, 0]) = some ((responded [9, 0]).skipEntry, []) ∧
      (responded [9, 0]).skipEntry.rspIndexLast ≠ (responded [9, 0]).skipEntry.shared.rspIndex := by
  refine ⟨?_, by decide, by decide, by decide, by decide⟩
  have start : Reachable (RtosScfCondVar.forwardedCalls twoSlotQueue)
      (⟨twoSlotQueue, fun _ => .new, fun _ => .outside, .idle, fun _ => 0⟩ : RtosScfCondVar.Kernel Unit) :=
    reachable_start ⟨rfl, fun _ => rfl, rfl, fun _ => rfl⟩
  have entered : Reachable (RtosScfCondVar.forwardedCalls twoSlotQueue)
      (RtosScfCondVar.oneReader twoSlotQueue (.sending RtosScfCondVar.readerCond) .idle) :=
    reachable_next (a := .enter () RtosScfCondVar.readerCond) start
      ⟨⟨by decide, fun _ none => (by cases none)⟩, rfl⟩
  have sent : Reachable (RtosScfCondVar.forwardedCalls twoSlotQueue)
      (RtosScfCondVar.oneReader readSent (.waiting RtosScfCondVar.readerCond) .idle) := by
    have send : twoSlotQueue.sendLocked .read 7 RtosScfCondVar.readerCond = some (readSent, true) := by
      decide
    refine reachable_next (a := .send () .read 7) entered ⟨trivial, ?_⟩
    simp only [RtosScfCondVar.step, RtosScfCondVar.oneReader, Function.update_self, send,
      Option.bind_eq_bind, Option.bind_some, Function.update_idem, ↓reduceIte]
  have answered : Reachable (RtosScfCondVar.forwardedCalls twoSlotQueue)
      (RtosScfCondVar.oneReader (responded [9, 0]) (.waiting RtosScfCondVar.readerCond) .idle) :=
    reachable_next (a := .daemon (responsePage [9, 0])) sent ⟨⟨rfl, rfl, rfl⟩, rfl⟩
  exact reachable_next (a := .timerTick) answered ⟨trivial, rfl⟩

/-- What `poll_requests` does with a popped request. A read runs on a thread of its own,
    and a case that pushes a response ignores the result of the push. -/
def dispatch (buf : DaemonBuffer) (shared : SharedQueue) (index : BitVec 16) :
    RtosScfDaemon.Outcome → Option (DaemonBuffer × SharedQueue)
  | .respond retVal => do
    let (buf, shared, _) ← pushSyscallResponse buf shared index retVal
    some (buf, shared)
  | .startReader | .ignore => some (buf, shared)

/-- The loop of `poll_requests`, with the indices that it pops. The `k`-th request of the
    call is handled with the `k`-th replies of the environment. -/
def pollRequestsFuel : Nat → (Nat → RtosScfDaemon.Replies) → DaemonBuffer → SharedQueue →
    Option (DaemonBuffer × SharedQueue × List (BitVec 16))
  | 0, _, _, _ => none
  | fuel + 1, replies, buf, shared => do
    let (buf, result) ← popSyscallRequest buf shared
    match result with
    | .error _ => some (buf, shared, [])
    | .ok (index, desc) =>
      let (buf, shared) ← dispatch buf shared index (RtosScfDaemon.pollCase desc.opcode (replies 0))
      let (buf, shared, popped) ← pollRequestsFuel fuel (fun k => replies (k + 1)) buf shared
      some (buf, shared, index :: popped)

def pollRequests (replies : Nat → RtosScfDaemon.Replies) (buf : DaemonBuffer) (shared : SharedQueue) :
    Option (DaemonBuffer × SharedQueue × List (BitVec 16)) :=
  pollRequestsFuel ((shared.reqIndex - buf.reqIndexLast).toNat + 1) replies buf shared

/-- The daemon and everything that has been put into the request ring since it attached. -/
structure Polled where
  daemon : DaemonBuffer
  shared : SharedQueue
  published : List (BitVec 16)
  popped : List (BitVec 16)
  deriving DecidableEq, Repr

/-- The other side may publish any index and rewrite the descriptors; it does not overwrite
    an entry that has not been consumed. `respond` is the push of a reader thread. -/
inductive Step where
  | publish (index : BitVec 16) (desc : List ScfDescriptor)
  | respond (index : BitVec 16) (retVal : BitVec 64)
  | poll (replies : Nat → RtosScfDaemon.Replies)

def step (s : Polled) : Step → Option Polled
  | .publish index desc =>
    if desc.length = s.shared.desc.length ∧
        (s.shared.reqIndex - s.daemon.reqIndexLast).toNat < s.shared.reqRing.length then
      some { s with
        published := s.published ++ [index]
        shared := { s.shared with
          desc
          reqRing := s.shared.reqRing.set (s.shared.reqIndex &&& s.daemon.capacityMask).toNat index
          reqIndex := s.shared.reqIndex + 1 } }
    else none
  | .respond index retVal => do
    let (daemon, shared, _) ← pushSyscallResponse s.daemon s.shared index retVal
    some { s with daemon, shared }
  | .poll replies => do
    let (daemon, shared, popped) ← pollRequests replies s.daemon s.shared
    some { s with daemon, shared, popped := s.popped ++ popped }

def polling (shared : SharedQueue) (d : DaemonBuffer) : Machine Polled Step where
  start s := s = ⟨d, shared, [], []⟩
  next s a t := step s a = some t

def wellFormed (mask index : BitVec 16) : Bool := decide (index ≤ mask)

structure Shaped (bits : Nat) (buf : DaemonBuffer) (shared : SharedQueue) : Prop where
  small : bits ≤ 15
  mask : buf.capacityMask = BitVec.ofNat 16 (2 ^ bits - 1)
  desc : shared.desc.length = 2 ^ bits
  reqRing : shared.reqRing.length = 2 ^ bits
  rspRing : shared.rspRing.length = 2 ^ bits

section Poll
variable {bits first : Nat} {buf : DaemonBuffer} {shared : SharedQueue} {index : BitVec 16}

section

variable (h : Shaped bits buf shared)
include h

theorem Shaped.within_iff (i : BitVec 16) : i ≤ buf.capacityMask ↔ i.toNat < 2 ^ bits := by
  have le : 2 ^ bits ≤ 2 ^ 15 := Nat.pow_le_pow_right (by omega) h.small
  have pos : 0 < 2 ^ bits := Nat.pow_pos (by omega)
  rw [le_def, h.mask, toNat_ofNat]
  omega

theorem Shaped.cell_lt (i : BitVec 16) : (i &&& buf.capacityMask).toNat < 2 ^ bits := by
  have pos : 0 < 2 ^ bits := Nat.pow_pos (by omega)
  have masked := masked_counter (w := 16) i.toNat (show bits ≤ 16 by have := h.small; omega)
  rw [ofNat_toNat, setWidth_eq, ← h.mask] at masked
  rw [masked]
  exact Nat.mod_lt _ pos

structure SameRequests (buf buf' : DaemonBuffer) (shared shared' : SharedQueue) : Prop where
  mask : buf'.capacityMask = buf.capacityMask
  last : buf'.reqIndexLast = buf.reqIndexLast
  index : shared'.reqIndex = shared.reqIndex
  ring : shared'.reqRing = shared.reqRing

theorem push_same_requests (index : BitVec 16) (retVal : BitVec 64) :
    ∃ buf' shared' result, pushSyscallResponse buf shared index retVal = some (buf', shared', result) ∧
      Shaped bits buf' shared' ∧ SameRequests buf buf' shared shared' := by
  by_cases outside : index > buf.capacityMask
  · exact ⟨buf, shared, .error .inval, by rw [pushSyscallResponse, if_pos outside], h, rfl, rfl, rfl, rfl⟩
  have inside : index.toNat < shared.desc.length := by
    rw [h.desc]
    exact (h.within_iff index).mp (BitVec.not_lt.mp outside)
  have cell : (buf.rspIndexShadow &&& buf.capacityMask).toNat < shared.rspRing.length := by
    rw [h.rspRing]
    exact h.cell_lt _
  let entry : ScfDescriptor := { shared.desc[index.toNat] with retVal }
  let ring := shared.rspRing.set (buf.rspIndexShadow &&& buf.capacityMask).toNat index
  refine ⟨{ buf with rspIndexShadow := buf.rspIndexShadow + 1 }, { shared with
      desc := shared.desc.set index.toNat entry, rspRing := ring, rspIndex := buf.rspIndexShadow + 1 },
    .ok (), ?_, ⟨h.small, h.mask, ?_, h.reqRing, ?_⟩, rfl, rfl, rfl, rfl⟩
  · rw [pushSyscallResponse, if_neg outside, List.getElem?_eq_getElem inside]
    simp only [bind_eq_bind, bind_some, store_at_inside _ inside, store_at_inside _ cell]
    rfl
  · simpa using h.desc
  · simpa [ring] using h.rspRing

theorem dispatch_same_requests (index : BitVec 16) (outcome : RtosScfDaemon.Outcome) :
    ∃ buf' shared', dispatch buf shared index outcome = some (buf', shared') ∧
      Shaped bits buf' shared' ∧ SameRequests buf buf' shared shared' := by
  cases outcome with
  | respond retVal =>
    obtain ⟨buf', shared', result, push, shaped, same⟩ := push_same_requests h index retVal
    exact ⟨buf', shared', by simp [dispatch, push], shaped, same⟩
  | startReader => exact ⟨buf, shared, rfl, h, rfl, rfl, rfl, rfl⟩
  | ignore => exact ⟨buf, shared, rfl, h, rfl, rfl, rfl, rfl⟩

theorem pop_request_spec
    (waiting : Waiting shared.reqRing buf.reqIndexLast shared.reqIndex first entries) :
    (entries = [] → hasRequest buf shared = false ∧
      popSyscallRequest buf shared = some (buf, .error .busy)) ∧
    (∀ index rest, entries = index :: rest → hasRequest buf shared = true ∧
      ((wellFormed buf.capacityMask index = false ∧
          popSyscallRequest buf shared = some (buf, .error .inval)) ∨
        (wellFormed buf.capacityMask index = true ∧ ∃ e,
          popSyscallRequest buf shared =
            some ({ buf with reqIndexLast := buf.reqIndexLast + 1 }, .ok (index, e))))) := by
  have small : shared.reqRing.length ≤ 2 ^ 15 := by
    rw [h.reqRing]
    exact Nat.pow_le_pow_right (by omega) h.small
  have empty := waiting_none_iff waiting small
  refine ⟨?_, ?_⟩
  · intro none
    have idle : hasRequest buf shared = false := by simp [hasRequest, empty.mpr none]
    exact ⟨idle, by simp [popSyscallRequest, idle]⟩
  rintro index rest rfl
  have more : hasRequest buf shared = true := by
    simpa [hasRequest] using fun same => cons_ne_nil _ _ (empty.mp same)
  have oldest : shared.reqRing[(buf.reqIndexLast &&& buf.capacityMask).toNat]? = some index := by
    rw [h.mask]
    exact waiting_first waiting h.small h.reqRing
  refine ⟨more, ?_⟩
  by_cases inside : index ≤ buf.capacityMask
  · right
    have room : index.toNat < shared.desc.length := by
      rw [h.desc]
      exact (h.within_iff index).mp inside
    have within : ¬ index > buf.capacityMask := BitVec.not_lt.mpr inside
    refine ⟨by simpa [wellFormed] using inside, shared.desc[index.toNat], ?_⟩
    simp only [popSyscallRequest, more, oldest, within, List.getElem?_eq_getElem room,
      bind_eq_bind, bind_some, ↓reduceIte]
  · left
    have outside : index > buf.capacityMask := BitVec.not_le.mp inside
    refine ⟨by simpa [wellFormed] using inside, ?_⟩
    simp only [popSyscallRequest, more, oldest, outside, bind_eq_bind, bind_some,
      ↓reduceIte]

theorem poll_spec
    (waiting : Waiting shared.reqRing buf.reqIndexLast shared.reqIndex first entries)
    (replies : Nat → RtosScfDaemon.Replies) :
    ∃ buf' shared', pollRequestsFuel (entries.length + 1) replies buf shared =
        some (buf', shared', entries.takeWhile (wellFormed buf.capacityMask)) ∧
      Shaped bits buf' shared' ∧ buf'.capacityMask = buf.capacityMask ∧
      Waiting shared'.reqRing buf'.reqIndexLast shared'.reqIndex
        (first + (entries.takeWhile (wellFormed buf.capacityMask)).length)
        (entries.dropWhile (wellFormed buf.capacityMask)) := by
  induction entries generalizing buf shared first replies with
  | nil =>
    obtain ⟨_, pop⟩ := (pop_request_spec h waiting).1 rfl
    exact ⟨buf, shared, by simp [pollRequestsFuel, pop], h, rfl, waiting⟩
  | cons index rest ih =>
    obtain ⟨_, malformed | accepted⟩ := (pop_request_spec h waiting).2 index rest rfl
    · obtain ⟨bad, pop⟩ := malformed
      rw [takeWhile_cons_of_neg (by simp [bad]), dropWhile_cons_of_neg (by simp [bad])]
      exact ⟨buf, shared, by simp [pollRequestsFuel, pop], h, rfl, waiting⟩
    obtain ⟨good, e, pop⟩ := accepted
    have shaped : Shaped bits { buf with reqIndexLast := buf.reqIndexLast + 1 } shared :=
      ⟨h.small, h.mask, h.desc, h.reqRing, h.rspRing⟩
    obtain ⟨buf₁, shared₁, sent, shaped₁, same⟩ := dispatch_same_requests shaped index
      (RtosScfDaemon.pollCase e.opcode (replies 0))
    have waiting₁ : Waiting shared₁.reqRing buf₁.reqIndexLast shared₁.reqIndex (first + 1) rest := by
      rw [same.ring, same.last, same.index]
      exact waiting_rest waiting
    obtain ⟨buf', shared', run, shaped', mask, left⟩ := ih shaped₁ waiting₁ (fun k => replies (k + 1))
    rw [same.mask] at run mask left
    rw [takeWhile_cons_of_pos good, dropWhile_cons_of_pos good]
    refine ⟨buf', shared', ?_, shaped', mask, ?_⟩
    · rw [length_cons, pollRequestsFuel, pop]
      simp only [bind_eq_bind, bind_some, sent, run]
    rw [length_cons, show first + ((rest.takeWhile (wellFormed buf.capacityMask)).length + 1) =
      first + 1 + (rest.takeWhile (wellFormed buf.capacityMask)).length by omega]
    exact left

end

/-- Nothing published is lost or repeated: it has been popped or is waiting. -/
structure InRing (bits : Nat) (s : Polled) (pending : List (BitVec 16)) : Prop where
  shaped : Shaped bits s.daemon s.shared
  waiting : Waiting s.shared.reqRing s.daemon.reqIndexLast s.shared.reqIndex s.popped.length pending
  log : s.published = s.popped ++ pending
  good : ∀ i ∈ s.popped, wellFormed s.daemon.capacityMask i = true

section

variable (h : InRing bits s pending)
include h

theorem outstanding : (s.shared.reqIndex - s.daemon.reqIndexLast).toNat = pending.length := by
  have few := h.waiting.ring.1
  have le : 2 ^ bits ≤ 2 ^ 15 := Nat.pow_le_pow_right (by omega) h.shaped.small
  rw [h.shaped.reqRing] at few
  rw [h.waiting.last, h.waiting.index, ofNat_add, BitVec.add_comm, BitVec.add_sub_cancel, toNat_ofNat]
  omega

theorem publish_in_ring (run : step s (.publish index desc) = some t) :
    InRing bits t (pending ++ [index]) := by
  simp only [step] at run
  split at run
  · rename_i guard
    obtain ⟨sameLength, room⟩ := guard
    cases run
    rw [outstanding h] at room
    have cell : (s.shared.reqIndex &&& s.daemon.capacityMask).toNat =
        (s.popped.length + pending.length) % s.shared.reqRing.length := by
      rw [h.waiting.index, h.shaped.mask, h.shaped.reqRing]
      exact masked_counter _ (by have := h.shaped.small; omega)
    refine ⟨⟨h.shaped.small, h.shaped.mask, ?_, ?_, h.shaped.rspRing⟩, ⟨h.waiting.last, ?_, ?_⟩, ?_, h.good⟩
    · exact sameLength.trans h.shaped.desc
    · simpa using h.shaped.reqRing
    · simp only [h.waiting.index, counter_word, length_append, length_singleton, Nat.add_assoc]
    · simp only [cell]
      exact holds_push index h.waiting.ring room
    · simp [h.log]
  · cases run

theorem poll_in_ring (replies : Nat → RtosScfDaemon.Replies) :
    ∃ t, step s (.poll replies) = some t ∧ t.published = s.published ∧
      t.daemon.capacityMask = s.daemon.capacityMask ∧
      t.popped = s.popped ++ pending.takeWhile (wellFormed s.daemon.capacityMask) ∧
      InRing bits t (pending.dropWhile (wellFormed s.daemon.capacityMask)) := by
  obtain ⟨daemon, shared, run, shaped, mask, waiting⟩ := poll_spec h.shaped h.waiting replies
  refine ⟨⟨daemon, shared, s.published,
    s.popped ++ pending.takeWhile (wellFormed s.daemon.capacityMask)⟩, ?_, rfl, mask, rfl, shaped, ?_, ?_, ?_⟩
  · simp only [step, pollRequests, outstanding h, run, bind_eq_bind, bind_some]
  · simpa using waiting
  · simp [h.log, takeWhile_append_dropWhile]
  · intro i member
    rw [mask]
    rcases mem_append.mp member with old | new
    · exact h.good i old
    · exact mem_takeWhile_imp new

theorem step_in_ring (run : step s a = some t) :
    ∃ pending', InRing bits t pending' := by
  cases a with
  | publish index desc => exact ⟨_, publish_in_ring h run⟩
  | respond index retVal =>
    obtain ⟨daemon, shared, result, push, shaped, same⟩ := push_same_requests h.shaped index retVal
    simp only [step, push, bind_eq_bind, bind_some, Option.some.injEq] at run
    subst run
    refine ⟨pending, shaped, ?_, h.log, ?_⟩
    · rw [same.ring, same.last, same.index]
      exact h.waiting
    · rw [same.mask]
      exact h.good
  | poll replies =>
    obtain ⟨t', run', _, _, _, ring⟩ := poll_in_ring h replies
    cases run.symm.trans run'
    exact ⟨_, ring⟩

end

end Poll

/-- The next call of `pop_syscall_request` consumes a ring entry if it finds one. -/
def ConsumesNext (s : Polled) : Prop :=
  hasRequest s.daemon s.shared = true → ∃ buf result,
    popSyscallRequest s.daemon s.shared = some (buf, result) ∧
      buf.reqIndexLast = s.daemon.reqIndexLast + 1

theorem consumes_next_iff (h : InRing bits s pending) :
    ConsumesNext s ↔ ∀ index ∈ pending.head?, wellFormed s.daemon.capacityMask index = true := by
  obtain ⟨idle, busy⟩ := pop_request_spec h.shaped h.waiting
  cases pending with
  | nil => simp [ConsumesNext, (idle rfl).1]
  | cons index rest =>
    obtain ⟨more, malformed | accepted⟩ := busy index rest rfl
    · obtain ⟨bad, pop⟩ := malformed
      simp [ConsumesNext, more, pop, bad]
    · obtain ⟨good, e, pop⟩ := accepted
      simp [ConsumesNext, more, pop, good]

theorem polling_invariant (built : SyscallQueueBuffer.new base size stale = some q)
    (attached : nimbosSetupSyscallBuffers q.shared = .ok d) (reach : Reachable (polling q.shared d) s) :
    ∃ bits pending, InRing bits s pending := by
  obtain ⟨bits, power, sized⟩ := new_sized built
  have fresh := RtosScfAttachment.fresh_served built power sized d
  have ready := RtosScfAttachment.setup_of_labels sized.small fresh.magic fresh.capacity
  have idle : q.shared.reqIndex = 0 := fresh.flight.reqIndex
  refine ⟨bits, ?_⟩
  apply reachable_invariant (fun s => ∃ pending, InRing bits s pending) _ _ reach
  · rintro first rfl
    have same : d = ⟨BitVec.ofNat 16 (2 ^ bits - 1), 0, q.shared.rspIndex⟩ :=
      Except.ok.inj (attached.symm.trans ready)
    subst same
    exact ⟨[], ⟨sized.small, rfl, sized.desc, sized.reqRing, sized.rspRing⟩,
      ⟨rfl, idle, holds_nil⟩, rfl, by simp⟩
  · rintro s a t ⟨pending, h⟩ run
    exact step_in_ring h run

/-- A call of `poll_requests` always returns, and by then everything published in front of
    the first malformed index has been popped, once and in order. Every well-formed request
    has been popped and the next pop does not stand still just when no malformed index has
    been published. -/
theorem requests_polled_iff {base size : Nat} {stale : StalePage} {q : SyscallQueueBuffer}
    (built : SyscallQueueBuffer.new base size stale = some q) {d : DaemonBuffer}
    (attached : nimbosSetupSyscallBuffers q.shared = .ok d) {s : Polled}
    (reach : Reachable (polling q.shared d) s) (replies : Nat → RtosScfDaemon.Replies) :
    ∃ t, step s (.poll replies) = some t ∧ t.published = s.published ∧
      t.popped = s.published.takeWhile (wellFormed s.daemon.capacityMask) ∧
      ((t.popped = s.published.filter (wellFormed s.daemon.capacityMask) ∧ ConsumesNext t) ↔
        ∀ i ∈ s.published, wellFormed s.daemon.capacityMask i = true) := by
  obtain ⟨bits, pending, h⟩ := polling_invariant built attached reach
  obtain ⟨t, run, same, mask, popped, ring⟩ := poll_in_ring h replies
  have split : t.popped = s.published.takeWhile (wellFormed s.daemon.capacityMask) := by
    rw [popped, h.log, List.takeWhile_append_of_pos h.good]
  refine ⟨t, run, same, split, ?_⟩
  constructor
  · rintro ⟨_, consumes⟩
    rw [consumes_next_iff ring, mask] at consumes
    have drained : pending.dropWhile (wellFormed s.daemon.capacityMask) = [] := by
      cases left : pending.dropWhile (wellFormed s.daemon.capacityMask) with
      | nil => rfl
      | cons index rest =>
        have bad := List.head?_dropWhile_not (wellFormed s.daemon.capacityMask) pending
        rw [left] at bad consumes
        simp only [List.head?_cons] at bad
        rw [consumes index rfl] at bad
        cases bad
    intro i member
    rw [h.log] at member
    rcases List.mem_append.mp member with old | new
    · exact h.good i old
    · exact List.dropWhile_eq_nil_iff.mp drained i new
  · intro all
    have drained : pending.dropWhile (wellFormed s.daemon.capacityMask) = [] :=
      List.dropWhile_eq_nil_iff.mpr fun i member => all i (by rw [h.log]; exact List.mem_append_right _ member)
    refine ⟨?_, ?_⟩
    · rw [split, List.takeWhile_eq_self_iff.mpr all, List.filter_eq_self.mpr all]
    · rw [consumes_next_iff ring, drained]
      simp

def twoSlotDaemon : DaemonBuffer := ⟨1, 0, 0⟩

def pollable (requests popped : List (BitVec 16)) (ring : List (BitVec 16)) : Polled where
  daemon := ⟨1, BitVec.ofNat 16 popped.length, 0⟩
  shared := { twoSlotQueue.shared with reqIndex := BitVec.ofNat 16 requests.length, reqRing := ring }
  published := requests
  popped := popped

def publish (index : BitVec 16) : Step := .publish index twoSlotQueue.shared.desc

theorem well_formed_request_polled :
    ∃ t, step (pollable [1] [] [1, 0]) (.poll fun _ => RtosScfDaemon.noReplies) = some t ∧
      t.popped = [1] ∧ ConsumesNext t := by
  have start : Reachable (polling twoSlotQueue.shared twoSlotDaemon) (pollable [] [] [0, 0]) :=
    reachable_start rfl
  have reach : Reachable (polling twoSlotQueue.shared twoSlotDaemon) (pollable [1] [] [1, 0]) :=
    reachable_next (a := publish 1) start (by decide : step _ _ = some _)
  have attached : nimbosSetupSyscallBuffers twoSlotQueue.shared = .ok twoSlotDaemon := by decide
  obtain ⟨t, run, _, _, all⟩ := requests_polled_iff two_slot_built attached reach
    fun _ => RtosScfDaemon.noReplies
  have good : ∀ i ∈ (pollable [1] [] [1, 0]).published,
      wellFormed (pollable [1] [] [1, 0]).daemon.capacityMask i = true := by
    intro i member
    cases List.mem_singleton.mp member
    rfl
  have kept : (pollable [1] [] [1, 0]).published.filter
      (wellFormed (pollable [1] [] [1, 0]).daemon.capacityMask) = [1] := by decide
  obtain ⟨popped, consumes⟩ := all.mpr good
  exact ⟨t, run, popped.trans kept, consumes⟩

/-- Index 9 in front of index 0: however often the daemon polls, nothing is popped, and the
    pop that finds a request leaves the counter where it was. -/
theorem malformed_request_wedges :
    Reachable (polling twoSlotQueue.shared twoSlotDaemon) (pollable [9, 0] [] [9, 0]) ∧
      (∀ replies, step (pollable [9, 0] [] [9, 0]) (.poll replies) = some (pollable [9, 0] [] [9, 0])) ∧
      wellFormed 1 0 = true ∧ ¬ ConsumesNext (pollable [9, 0] [] [9, 0]) := by
  have start : Reachable (polling twoSlotQueue.shared twoSlotDaemon) (pollable [] [] [0, 0]) :=
    reachable_start rfl
  have first : Reachable (polling twoSlotQueue.shared twoSlotDaemon) (pollable [9] [] [9, 0]) :=
    reachable_next (a := publish 9) start (by decide : step _ _ = some _)
  have second : Reachable (polling twoSlotQueue.shared twoSlotDaemon) (pollable [9, 0] [] [9, 0]) :=
    reachable_next (a := publish 0) first (by decide : step _ _ = some _)
  have pop : popSyscallRequest (pollable [9, 0] [] [9, 0]).daemon (pollable [9, 0] [] [9, 0]).shared =
      some (⟨1, 0, 0⟩, .error .inval) := by decide
  refine ⟨second, fun _ => rfl, by decide, ?_⟩
  intro consumes
  obtain ⟨buf, result, run, advanced⟩ := consumes (by decide)
  cases pop.symm.trans run
  exact absurd advanced (by decide)

end RtosScfMalformed
