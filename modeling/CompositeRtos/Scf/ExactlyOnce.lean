import CompositeRtos.Lib.Ring
import CompositeRtos.Scf.Integrity

/-!
Kernel and daemon together. The daemon attaches to a fresh queue and then both sides take
atomic steps in any order; the daemon answers each request it popped at most once, in
any order. A session records what the four operations returned. The invariant relates
the page to three abstract collections of requests in flight: a FIFO of requests sent
and not yet popped, a bag of requests the daemon holds, and a FIFO of answers.
-/
namespace RtosScfExactlyOnce
open RtosTransition RtosRing RtosScfQueue RtosScfIntegrity List Option

structure Request where
  opcode : ScfOpcode
  args : BitVec 64
  token : ScfRequestToken
  deriving DecidableEq, Repr

/-- `pushed` names the popped request that each answer is for by its position among the
    pops. `drained` is set when `pop_response` returns `None`, until the next push. -/
structure Session where
  queue : SyscallQueueBuffer
  daemon : DaemonBuffer
  accepted : List Request
  popped : List (BitVec 16 × ScfDescriptor)
  pushed : List (Nat × BitVec 64)
  delivered : List ScfResponse
  drained : Bool
  deriving DecidableEq, Repr

inductive Action where
  | send (request : Request)
  | popResponse
  | popRequest
  | pushResponse (number : Nat) (retVal : BitVec 64)

def sessionSend (s : Session) (r : Request) : Option Session := do
  let (queue, ok) ← s.queue.sendLocked r.opcode r.args r.token
  some { s with queue, accepted := if ok then s.accepted ++ [r] else s.accepted }

def sessionPopResponse (s : Session) : Option Session := do
  let (queue, response) ← s.queue.popResponseLocked
  match response with
  | some rsp => some { s with queue, delivered := s.delivered ++ [rsp] }
  | none => some { s with queue, drained := true }

def sessionPopRequest (s : Session) : Option Session := do
  let (daemon, result) ← popSyscallRequest s.daemon s.queue.shared
  match result with
  | .ok request => some { s with daemon, popped := s.popped ++ [request] }
  | .error _ => some { s with daemon }

def sessionPush (s : Session) (number : Nat) (retVal : BitVec 64) : Option Session := do
  let (index, _) ← s.popped[number]?
  let (daemon, shared, result) ← pushSyscallResponse s.daemon s.queue.shared index retVal
  match result with
  | .ok () => some { s with
      daemon, queue := { s.queue with shared }, drained := false
      pushed := s.pushed ++ [(number, retVal)] }
  | .error _ => some { s with daemon, queue := { s.queue with shared } }

def act (s : Session) : Action → Option Session
  | .send r => sessionSend s r
  | .popResponse => sessionPopResponse s
  | .popRequest => sessionPopRequest s
  | .pushResponse number retVal => sessionPush s number retVal

def Allowed (s : Session) : Action → Prop
  | .pushResponse number _ => number < s.popped.length ∧ number ∉ s.pushed.map Prod.fst
  | _ => True

def forwarding (q : SyscallQueueBuffer) (d : DaemonBuffer) : Machine Session Action where
  start s := s = ⟨q, d, [], [], [], [], false⟩
  next s a t := Allowed s a ∧ act s a = some t

/-- A request in flight: the slot it occupies and its position among the accepted sends. -/
structure Ticket where
  slot : Nat
  number : Nat
  request : Request
  deriving DecidableEq

def Ticket.respond (t : Ticket) (retVal : BitVec 64) : ScfResponse :=
  { opcode := t.request.opcode.toU8, token := t.request.token, retVal }

/-- The descriptor and token tables hold exactly the requests in flight. -/
structure Backed (q : SyscallQueueBuffer) (live : List Ticket) : Prop where
  distinct : (live.map Ticket.slot).Nodup
  present : ∀ t ∈ live, ∃ e, q.shared.desc[t.slot]? = some e ∧ e.valid = true ∧
    e.opcode = t.request.opcode.toU8 ∧ e.args = t.request.args ∧
    q.tokens[t.slot]? = some t.request.token
  covered : ∀ (i : Nat) (e : ScfDescriptor), q.shared.desc[i]? = some e → e.valid = true →
    ∃ t ∈ live, t.slot = i

theorem backed_perm (h : Backed q live) (perm : live.Perm other) : Backed q other := by
  refine ⟨(perm.map Ticket.slot).nodup_iff.mp h.distinct, ?_, ?_⟩
  · intro t member
    exact h.present t (perm.mem_iff.mpr member)
  intro i e entry valid
  obtain ⟨t, member, slot⟩ := h.covered i e entry valid
  exact ⟨t, perm.mem_iff.mp member, slot⟩

theorem backed_length (sized : Sized bits q) (h : Backed q live) : live.length ≤ 2 ^ bits := by
  have subset : live.map Ticket.slot ⊆ List.range (2 ^ bits) := by
    intro i member
    obtain ⟨t, inside, same⟩ := List.mem_map.mp member
    obtain ⟨e, entry, _⟩ := h.present t inside
    rw [mem_range, ← same, ← sized.desc]
    exact (List.getElem?_eq_some_iff.mp entry).1
  simpa using h.distinct.length_le_of_subset subset

theorem backed_slot_lt (sized : Sized bits q) (h : Backed q live) (member : t ∈ live) : t.slot < 2 ^ bits := by
  obtain ⟨e, entry, _⟩ := h.present t member
  rw [← sized.desc]
  exact (List.getElem?_eq_some_iff.mp entry).1

theorem backed_take (h : Backed q live) (room : q.tokens.length = q.shared.desc.length) {e : ScfDescriptor}
    (entry : q.shared.desc[i]? = some e) (free : e.valid = false) (number : Nat) (r : Request) :
    Backed (q.takeSlot i r.opcode r.args r.token) (⟨i, number, r⟩ :: live) := by
  have inside := (List.getElem?_eq_some_iff.mp entry).1
  have apart : ∀ t ∈ live, i ≠ t.slot := by
    intro t member same
    obtain ⟨e', entry', valid, _⟩ := h.present t member
    rw [← same, entry] at entry'
    cases entry'
    rw [free] at valid
    cases valid
  refine ⟨?_, ?_, ?_⟩
  · rw [map_cons, nodup_cons]
    refine ⟨?_, h.distinct⟩
    intro member
    obtain ⟨t, inLive, same⟩ := List.mem_map.mp member
    exact apart t inLive same.symm
  · intro t member
    simp only [SyscallQueueBuffer.takeSlot]
    rcases mem_cons.mp member with rfl | old
    · exact ⟨_, List.getElem?_set_self inside, rfl, rfl, rfl,
        List.getElem?_set_self (by rw [room]; exact inside)⟩
    · rw [List.getElem?_set_ne (apart t old), List.getElem?_set_ne (apart t old)]
      exact h.present t old
  · intro j e' entry' valid
    simp only [SyscallQueueBuffer.takeSlot] at entry'
    by_cases same : i = j
    · exact ⟨_, (.head _), same⟩
    rw [List.getElem?_set_ne same] at entry'
    obtain ⟨t, old, slot⟩ := h.covered j e' entry' valid
    exact ⟨t, .tail _ old, slot⟩

theorem backed_release (h : Backed q (t :: live)) : Backed (q.releaseSlot t.slot e) live := by
  have nodup := h.distinct
  rw [map_cons, nodup_cons] at nodup
  have apart : ∀ u ∈ live, t.slot ≠ u.slot := by
    intro u member same
    exact nodup.1 (by rw [same]; exact List.mem_map_of_mem member)
  refine ⟨nodup.2, ?_, ?_⟩
  · intro u member
    simp only [SyscallQueueBuffer.releaseSlot]
    rw [List.getElem?_set_ne (apart u member), List.getElem?_set_ne (apart u member)]
    exact h.present u (.tail _ member)
  intro i e' entry valid
  simp only [SyscallQueueBuffer.releaseSlot] at entry
  by_cases same : t.slot = i
  · subst same
    rw [List.getElem?_set] at entry
    simp only [↓reduceIte] at entry
    split at entry
    · cases entry
      simp at valid
    · cases entry
  · rw [List.getElem?_set_ne same] at entry
    obtain ⟨u, member, slot⟩ := h.covered i e' entry valid
    rcases mem_cons.mp member with rfl | inLive
    · exact absurd slot same
    · exact ⟨u, inLive, slot⟩

theorem backed_answer (h : Backed q live) (entry : q.shared.desc[i]? = some e)
    (written : shared.desc = q.shared.desc.set i { e with retVal }) : Backed { q with shared } live := by
  have inside := (List.getElem?_eq_some_iff.mp entry).1
  refine ⟨h.distinct, ?_, ?_⟩
  · intro t member
    obtain ⟨e', entry', valid, rest⟩ := h.present t member
    change ∃ e, shared.desc[t.slot]? = some e ∧ _
    rw [written]
    by_cases same : i = t.slot
    · subst same
      rw [entry] at entry'
      cases entry'
      exact ⟨_, List.getElem?_set_self inside, valid, rest⟩
    · rw [List.getElem?_set_ne same]
      exact ⟨e', entry', valid, rest⟩
  · intro j e' entry' valid
    change shared.desc[j]? = some e' at entry'
    rw [written] at entry'
    by_cases same : i = j
    · subst same
      rw [List.getElem?_set_self inside] at entry'
      cases entry'
      exact h.covered i e entry valid
    · rw [List.getElem?_set_ne same] at entry'
      exact h.covered j e' entry' valid

structure Flight where
  pending : List Ticket
  held : List Ticket
  answered : List (Ticket × BitVec 64)
  done : List (Nat × BitVec 64)

def Flight.live (f : Flight) : List Ticket :=
  f.pending ++ (f.held ++ f.answered.map Prod.fst)

def slotWord (t : Ticket) : BitVec 16 := BitVec.ofNat 16 t.slot

def answerKey (p : Ticket × BitVec 64) : Nat × BitVec 64 := (p.1.number, p.2)

/-- The response owed for an answer: opcode and token of the accepted request with the
    answered number, and the pushed value. -/
def answerOf (accepted : List Request) (p : Nat × BitVec 64) : Option ScfResponse :=
  accepted[p.1]?.map fun r => { opcode := r.opcode.toU8, token := r.token, retVal := p.2 }

structure InFlight (bits : Nat) (s : Session) (f : Flight) : Prop where
  accounted : Accounted bits s.queue
  backed : Backed s.queue f.live
  values : ∀ p ∈ f.answered, ∃ e, s.queue.shared.desc[p.1.slot]? = some e ∧ e.retVal = p.2
  mask : s.daemon.capacityMask = s.queue.capacityMask
  reqShadow : s.queue.reqIndexShadow = BitVec.ofNat 16 s.accepted.length
  reqIndex : s.queue.shared.reqIndex = BitVec.ofNat 16 s.accepted.length
  reqLast : s.daemon.reqIndexLast = BitVec.ofNat 16 s.popped.length
  rspShadow : s.daemon.rspIndexShadow = BitVec.ofNat 16 s.pushed.length
  rspIndex : s.queue.shared.rspIndex = BitVec.ofNat 16 s.pushed.length
  rspLast : s.queue.rspIndexLast = BitVec.ofNat 16 s.delivered.length
  reqRing : Holds s.queue.shared.reqRing s.popped.length (f.pending.map slotWord)
  rspRing : Holds s.queue.shared.rspRing s.delivered.length (f.answered.map fun p => slotWord p.1)
  sentLog : s.accepted.length = s.popped.length + f.pending.length
  pendingLog : ∀ (i : Nat) (t : Ticket), f.pending[i]? = some t → t.number = s.popped.length + i
  numbered : ∀ t ∈ f.live, s.accepted[t.number]? = some t.request
  poppedLog : ∀ (k : Nat) (p : BitVec 16 × ScfDescriptor), s.popped[k]? = some p →
    ∃ r, s.accepted[k]? = some r ∧ p.2.opcode = r.opcode.toU8 ∧ p.2.args = r.args
  heldLog : ∀ (k : Nat) (p : BitVec 16 × ScfDescriptor), s.popped[k]? = some p →
    k ∉ s.pushed.map Prod.fst → ∃ t ∈ f.held, t.number = k ∧ p.1 = slotWord t
  known : ∀ p ∈ s.pushed, p.1 < s.popped.length
  once : (s.pushed.map Prod.fst).Nodup
  pushedLog : s.pushed = f.done ++ f.answered.map answerKey
  deliveredLog : s.delivered.map some = f.done.map (answerOf s.accepted)
  drainedLog : s.drained = true → f.answered = []

section Invariant
variable {s : Session} {f : Flight}

theorem counter_word : BitVec.ofNat 16 n + 1 = BitVec.ofNat 16 (n + 1) := by
  apply BitVec.eq_of_toNat_eq
  have one : (1 : BitVec 16).toNat = 1 := rfl
  rw [BitVec.toNat_add, one, BitVec.toNat_ofNat, BitVec.toNat_ofNat]
  omega

theorem ring_cell (sized : Sized bits s.queue) :
    (BitVec.ofNat 16 n &&& s.queue.capacityMask).toNat = n % 2 ^ bits := by
  rw [sized.mask]
  exact masked_counter n (by have := sized.small; omega)

theorem answer_of_append {accepted : List Request} (inside : p.1 < accepted.length) :
    answerOf (accepted ++ [r]) p = answerOf accepted p := by
  simp only [answerOf, List.getElem?_append_left inside]

theorem delivered_count (h : InFlight bits s f) : s.delivered.length = f.done.length := by
  simpa using congrArg length h.deliveredLog

theorem pushed_count (h : InFlight bits s f) : s.pushed.length = s.delivered.length + f.answered.length := by
  have split := congrArg length h.pushedLog
  have delivered := delivered_count h
  simp only [length_append, length_map] at split
  omega

theorem live_count (h : InFlight bits s f) : f.pending.length + (f.held.length + f.answered.length) ≤ 2 ^ bits := by
  have bound := backed_length h.accounted.toSized h.backed
  simpa [Flight.live] using bound

theorem snoc_some {α : Type} {xs : List α} {x y : α} (found : (xs ++ [x])[k]? = some y) :
    xs[k]? = some y ∨ k = xs.length ∧ y = x := by
  rcases Nat.lt_or_ge k xs.length with old | new
  · rw [List.getElem?_append_left old] at found
    exact Or.inl found
  have last : k = xs.length := by
    have := (List.getElem?_eq_some_iff.mp found).1
    simp at this
    omega
  subst last
  rw [List.getElem?_append_right new, Nat.sub_self] at found
  cases found
  exact Or.inr ⟨rfl, rfl⟩

theorem ticket_word (h : InFlight bits s f) (member : t ∈ f.live) :
    (slotWord t).toNat = t.slot ∧ ¬ slotWord t > s.daemon.capacityMask := by
  have sized := h.accounted.toSized
  have slot := backed_slot_lt sized h.backed member
  have word : (slotWord t).toNat = t.slot := sized.slot_index slot
  refine ⟨word, ?_⟩
  rw [h.mask]
  have := (sized.within_mask_iff (slotWord t)).mpr (by rw [word]; exact slot)
  simpa using this

theorem answered_live (member : p ∈ f.answered) : p.1 ∈ f.live := by
  simp only [Flight.live, mem_append, List.mem_map]
  exact Or.inr (Or.inr ⟨p, member, rfl⟩)

/-! Each operation moves one ticket. The fields that are named below are those that the
    move changes. -/

section

variable (h : InFlight bits s f)
include h

theorem sent_in_flight {i : Nat} {e : ScfDescriptor}
    (entry : s.queue.shared.desc[i]? = some e) (free : e.valid = false) (room : s.queue.freeCount ≠ 0)
    (r : Request) :
    InFlight bits { s with
        queue := s.queue.takeSlot i r.opcode r.args r.token, accepted := s.accepted ++ [r] }
      { f with pending := f.pending ++ [⟨i, s.accepted.length, r⟩] } := by
  have sized := h.accounted.toSized
  have accounted := accounted_take h.accounted entry free room r.opcode r.args r.token
  have front := backed_take h.backed (sized.tokens.trans sized.desc.symm) entry free s.accepted.length r
  have perm : ((⟨i, s.accepted.length, r⟩ : Ticket) :: f.live).Perm
      ((f.pending ++ [⟨i, s.accepted.length, r⟩]) ++ (f.held ++ f.answered.map Prod.fst)) := by
    rw [List.append_assoc]
    exact perm_middle.symm
  have backed := backed_perm front perm
  have sent := h.sentLog
  exact { h with
    accounted := accounted
    backed := backed
    values := by
      intro p member
      obtain ⟨e', entry', value⟩ := h.values p member
      have nodup := front.distinct
      rw [map_cons, nodup_cons] at nodup
      have there : p.1.slot ∈ f.live.map Ticket.slot := List.mem_map_of_mem (answered_live member)
      have apart : i ≠ p.1.slot := fun same => nodup.1 (same ▸ there)
      refine ⟨e', ?_, value⟩
      simp only [SyscallQueueBuffer.takeSlot]
      rw [List.getElem?_set_ne apart]
      exact entry'
    reqShadow := by
      simp only [SyscallQueueBuffer.takeSlot, h.reqShadow, counter_word, length_append, length_singleton]
    reqIndex := by
      simp only [SyscallQueueBuffer.takeSlot, h.reqShadow, counter_word, length_append, length_singleton]
    reqRing := by
      have bound := backed_length accounted.toSized backed
      simp only [length_append, length_singleton] at bound
      have grown := holds_push (slotWord ⟨i, s.accepted.length, r⟩) h.reqRing
        (by rw [length_map, sized.reqRing]; omega)
      simp only [SyscallQueueBuffer.takeSlot, map_append, map_cons, map_nil]
      rw [h.reqShadow, ring_cell sized]
      rw [length_map, ← sent, sized.reqRing] at grown
      exact grown
    sentLog := by
      simp only [length_append, length_singleton]
      omega
    pendingLog := by
      intro j u found
      rcases snoc_some found with old | ⟨last, rfl⟩
      · exact h.pendingLog j u old
      · change s.accepted.length = s.popped.length + j
        omega
    numbered := by
      intro u member
      rcases mem_cons.mp (perm.mem_iff.mpr member) with rfl | old
      · simp
      have number := h.numbered u old
      rw [List.getElem?_append_left (List.getElem?_eq_some_iff.mp number).1]
      exact number
    poppedLog := by
      intro k p found
      obtain ⟨q, request, rest⟩ := h.poppedLog k p found
      refine ⟨q, ?_, rest⟩
      rw [List.getElem?_append_left (List.getElem?_eq_some_iff.mp request).1]
      exact request
    deliveredLog := by
      rw [h.deliveredLog]
      apply map_congr_left
      intro p member
      have pushed : p ∈ s.pushed := by rw [h.pushedLog]; exact mem_append_left _ member
      have before := h.known p pushed
      exact (answer_of_append (by omega)).symm }

theorem send_keeps : ∃ t f', sessionSend s r = some t ∧ InFlight bits t f' := by
  rcases send_accounted h.accounted r.opcode r.args r.token with
    ⟨_, run⟩ | ⟨room, i, e, _, entry, free, _, run⟩
  · refine ⟨s, f, ?_, h⟩
    simp [sessionSend, run]
  · refine ⟨_, _, ?_, sent_in_flight h entry free room r⟩
    simp [sessionSend, run]

theorem popped_in_flight {ticket : Ticket} {rest : List Ticket}
    (pending : f.pending = ticket :: rest) {e : ScfDescriptor}
    (opcode : e.opcode = ticket.request.opcode.toU8) (args : e.args = ticket.request.args) :
    InFlight bits { s with
        daemon := { s.daemon with reqIndexLast := s.daemon.reqIndexLast + 1 }
        popped := s.popped ++ [(slotWord ticket, e)] }
      { f with pending := rest, held := f.held ++ [ticket] } := by
  have perm : f.live.Perm (rest ++ ((f.held ++ [ticket]) ++ f.answered.map Prod.fst)) := by
    simp only [Flight.live, pending, List.cons_append, List.append_assoc]
    rw [← List.append_assoc rest f.held, ← List.append_assoc rest f.held]
    exact perm_middle.symm
  have first := h.pendingLog 0 ticket (by rw [pending]; rfl)
  have count : f.pending.length = rest.length + 1 := by rw [pending]; rfl
  have sent := h.sentLog
  exact { h with
    backed := backed_perm h.backed perm
    reqLast := by
      simp only [h.reqLast, counter_word, length_append, length_singleton]
    reqRing := by
      have ring := h.reqRing
      rw [pending, map_cons] at ring
      simp only [length_append, length_singleton]
      exact holds_tail ring
    sentLog := by
      simp only [length_append, length_singleton]
      omega
    pendingLog := by
      intro i u found
      have number := h.pendingLog (i + 1) u (by rw [pending]; exact found)
      simp only [length_append, length_singleton]
      omega
    numbered := fun u inLive => h.numbered u (perm.mem_iff.mpr inLive)
    poppedLog := by
      intro k p found
      rcases snoc_some found with old | ⟨rfl, rfl⟩
      · exact h.poppedLog k p old
      have number := h.numbered ticket (by simp [Flight.live, pending])
      rw [first] at number
      exact ⟨ticket.request, number, opcode, args⟩
    heldLog := by
      intro k p found fresh
      rcases snoc_some found with old | ⟨rfl, rfl⟩
      · obtain ⟨u, inHeld, rest⟩ := h.heldLog k p old fresh
        exact ⟨u, mem_append_left _ inHeld, rest⟩
      · exact ⟨ticket, by simp, first, rfl⟩
    known := by
      intro p inPushed
      have := h.known p inPushed
      simp only [length_append, length_singleton]
      omega }

theorem pop_request_result :
    (f.pending = [] ∧ popSyscallRequest s.daemon s.queue.shared = some (s.daemon, .error .busy)) ∨
    ∃ ticket rest e, f.pending = ticket :: rest ∧ e.opcode = ticket.request.opcode.toU8 ∧
      e.args = ticket.request.args ∧
      popSyscallRequest s.daemon s.queue.shared =
        some ({ s.daemon with reqIndexLast := s.daemon.reqIndexLast + 1 }, .ok (slotWord ticket, e)) := by
  have sized := h.accounted.toSized
  have small := sized.capacity_le
  have live := live_count h
  have sent := h.sentLog
  have same : s.daemon.reqIndexLast = s.queue.shared.reqIndex ↔ s.popped.length = s.accepted.length := by
    rw [h.reqLast, h.reqIndex]
    exact truncated_counters_agree (by omega) (by omega)
  cases pending : f.pending with
  | nil =>
    have idle : hasRequest s.daemon s.queue.shared = false := by
      have zero : f.pending.length = 0 := by rw [pending]; rfl
      simp only [hasRequest, bne_eq_false_iff_eq]
      exact same.mpr (by omega)
    exact Or.inl ⟨rfl, by simp [popSyscallRequest, idle]⟩
  | cons ticket rest =>
    have waiting : hasRequest s.daemon s.queue.shared = true := by
      have count : f.pending.length = rest.length + 1 := by rw [pending]; rfl
      simp only [hasRequest, bne_iff_ne, ne_eq]
      exact fun eq => by have := same.mp eq; omega
    have member : ticket ∈ f.live := by simp [Flight.live, pending]
    obtain ⟨word, inMask⟩ := ticket_word h member
    have ring := h.reqRing
    rw [pending, map_cons] at ring
    have cell := holds_head ring
    rw [sized.reqRing, ← ring_cell sized, ← h.reqLast, ← h.mask] at cell
    obtain ⟨e, entry, _, opcode, args, _⟩ := h.backed.present ticket member
    refine Or.inr ⟨ticket, rest, e, rfl, opcode, args, ?_⟩
    simp only [popSyscallRequest, waiting, cell, inMask, word, entry, bind_eq_bind,
      bind_some, ↓reduceIte]

theorem pop_request_keeps :
    ∃ t f', sessionPopRequest s = some t ∧ InFlight bits t f' := by
  rcases pop_request_result h with ⟨_, run⟩ | ⟨ticket, rest, e, pending, opcode, args, run⟩
  · refine ⟨s, f, ?_, h⟩
    simp [sessionPopRequest, run]
  · refine ⟨_, _, ?_, popped_in_flight h pending opcode args⟩
    simp only [sessionPopRequest, run, bind_eq_bind, bind_some]

end

theorem accounted_answer (h : Accounted bits q) (entry : q.shared.desc[i]? = some e)
    (written : shared.desc = q.shared.desc.set i { e with retVal })
    (req_ring : shared.reqRing = q.shared.reqRing) (rsp_ring : shared.rspRing.length = q.shared.rspRing.length) :
    Accounted bits { q with shared } := by
  have inside := (List.getElem?_eq_some_iff.mp entry).1
  have flags : shared.desc.map ScfDescriptor.valid = q.shared.desc.map ScfDescriptor.valid := by
    apply ext_getElem?
    intro j
    simp only [written, List.getElem?_map]
    by_cases eq : i = j
    · subst eq
      rw [List.getElem?_set_self inside, entry]
      rfl
    · rw [List.getElem?_set_ne eq]
  exact accounted_page h flags (congrArg length req_ring) rsp_ring

def answeredPage (s : Session) (cell : Nat) (ticket : Ticket) (e : ScfDescriptor) (retVal : BitVec 64) :
    SharedQueue :=
  { s.queue.shared with
    desc := s.queue.shared.desc.set ticket.slot { e with retVal }
    rspRing := s.queue.shared.rspRing.set cell (slotWord ticket)
    rspIndex := s.daemon.rspIndexShadow + 1 }

section

variable (h : InFlight bits s f)
include h

theorem pushed_in_flight (inHeld : ticket ∈ f.held)
    (inside : ticket.number < s.popped.length) (fresh : ticket.number ∉ s.pushed.map Prod.fst)
    (entry : s.queue.shared.desc[ticket.slot]? = some e) (retVal : BitVec 64) :
    InFlight bits { s with
        daemon := { s.daemon with rspIndexShadow := s.daemon.rspIndexShadow + 1 }
        queue := { s.queue with shared := answeredPage s (s.pushed.length % 2 ^ bits) ticket e retVal }
        drained := false, pushed := s.pushed ++ [(ticket.number, retVal)] }
      { f with held := f.held.erase ticket, answered := f.answered ++ [(ticket, retVal)] } := by
  have sized := h.accounted.toSized
  have live := live_count h
  have heldCount : 0 < f.held.length := length_pos_of_mem inHeld
  have descRoom := (List.getElem?_eq_some_iff.mp entry).1
  have perm : f.live.Perm (f.pending ++
      (f.held.erase ticket ++ (f.answered ++ [(ticket, retVal)]).map Prod.fst)) := by
    refine Perm.append_left f.pending ?_
    refine ((perm_cons_erase inHeld).append_right _).trans ?_
    rw [map_append, ← List.append_assoc]
    exact (perm_append_singleton _ _).symm
  have apart : ∀ p ∈ f.answered, ticket.slot ≠ p.1.slot := by
    have nodup := h.backed.distinct
    simp only [Flight.live, map_append] at nodup
    intro p inAnswered eq
    have tail := (nodup_append.mp nodup).2.1
    exact (nodup_append.mp tail).2.2 _ (List.mem_map_of_mem inHeld) _
      (List.mem_map_of_mem (List.mem_map_of_mem inAnswered)) eq
  exact { h with
    accounted := accounted_answer h.accounted entry rfl rfl (by simp [answeredPage])
    backed := backed_perm (backed_answer h.backed entry rfl) perm
    values := by
      intro p inAnswered
      rcases mem_append.mp inAnswered with old | new
      · obtain ⟨e', entry', value⟩ := h.values p old
        refine ⟨e', ?_, value⟩
        simp only [answeredPage]
        rw [List.getElem?_set_ne (apart p old)]
        exact entry'
      simp only [mem_singleton] at new
      subst new
      exact ⟨_, List.getElem?_set_self descRoom, rfl⟩
    rspShadow := by
      simp only [h.rspShadow, counter_word, length_append, length_singleton]
    rspIndex := by
      simp only [answeredPage, h.rspShadow, counter_word, length_append, length_singleton]
    rspRing := by
      have grown := holds_push (slotWord ticket) h.rspRing
        (by rw [length_map, sized.rspRing]; omega)
      rw [length_map, ← pushed_count h, sized.rspRing] at grown
      simp only [answeredPage, map_append, map_cons, map_nil]
      exact grown
    numbered := fun u inLive => h.numbered u (perm.mem_iff.mpr inLive)
    heldLog := by
      intro k p found unanswered
      simp only [map_append, map_cons, map_nil, mem_append, mem_singleton,
        not_or] at unanswered
      obtain ⟨u, inHeld', number', index'⟩ := h.heldLog k p found unanswered.1
      refine ⟨u, ?_, number', index'⟩
      apply (mem_erase_of_ne ?_).mpr inHeld'
      rintro rfl
      exact unanswered.2 number'.symm
    known := by
      intro p inPushed
      rcases mem_append.mp inPushed with old | new
      · exact h.known p old
      simp only [mem_singleton] at new
      subst new
      exact inside
    once := by
      rw [map_append, nodup_append]
      refine ⟨h.once, by simp, ?_⟩
      intro a inOld b inNew eq
      simp only [map_cons, map_nil, mem_singleton] at inNew
      subst inNew
      exact fresh (eq ▸ inOld)
    pushedLog := by
      simp only [map_append, map_cons, map_nil]
      rw [h.pushedLog, List.append_assoc, answerKey]
    drainedLog := fun impossible => by cases impossible }

theorem push_result (inside : number < s.popped.length) (fresh : number ∉ s.pushed.map Prod.fst) :
    ∃ t f', sessionPush s number retVal = some t ∧ InFlight bits t f' ∧
      t.pushed = s.pushed ++ [(number, retVal)] := by
  have sized := h.accounted.toSized
  have found := List.getElem?_eq_getElem inside
  obtain ⟨ticket, inHeld, rfl, index⟩ := h.heldLog number _ found fresh
  have member : ticket ∈ f.live := by simp [Flight.live, inHeld]
  obtain ⟨word, inMask⟩ := ticket_word h member
  obtain ⟨e, entry, _⟩ := h.backed.present ticket member
  have descRoom := (List.getElem?_eq_some_iff.mp entry).1
  have ringIndex : (s.daemon.rspIndexShadow &&& s.daemon.capacityMask).toNat = s.pushed.length % 2 ^ bits := by
    rw [h.rspShadow, h.mask]
    exact ring_cell sized
  have ringRoom : s.pushed.length % 2 ^ bits < s.queue.shared.rspRing.length := by
    rw [sized.rspRing]
    exact Nat.mod_lt _ (Nat.pow_pos (by omega))
  refine ⟨_, _, ?_, pushed_in_flight h inHeld inside fresh entry retVal, rfl⟩
  simp only [sessionPush, pushSyscallResponse, found, index, inMask, word, entry, ringIndex,
    store_at_inside _ descRoom, store_at_inside _ ringRoom, bind_eq_bind, bind_some,
    ↓reduceIte]
  rfl

theorem push_keeps (inside : number < s.popped.length) (fresh : number ∉ s.pushed.map Prod.fst) :
    ∃ t f', sessionPush s number retVal = some t ∧ InFlight bits t f' := by
  obtain ⟨t, f', run, keep, _⟩ := push_result h inside fresh
  exact ⟨t, f', run, keep⟩

theorem delivered_in_flight (answered : f.answered = (ticket, retVal) :: rest)
    (entry : s.queue.shared.desc[ticket.slot]? = some e) (valid : e.valid = true) :
    InFlight bits { s with
        queue := s.queue.releaseSlot ticket.slot e, delivered := s.delivered ++ [ticket.respond retVal] }
      { f with answered := rest, done := f.done ++ [(ticket.number, retVal)] } := by
  have perm : f.live.Perm (ticket :: (f.pending ++ (f.held ++ rest.map Prod.fst))) := by
    simp only [Flight.live, answered, map_cons]
    rw [← List.append_assoc, ← List.append_assoc]
    exact perm_middle
  have front := backed_perm h.backed perm
  have number := h.numbered ticket (by simp [Flight.live, answered])
  exact { h with
    accounted := accounted_release h.accounted entry valid
    backed := backed_release front
    values := by
      intro p inRest
      obtain ⟨e', entry', value'⟩ := h.values p (by rw [answered]; exact .tail _ inRest)
      have nodup := front.distinct
      rw [map_cons, nodup_cons] at nodup
      have apart : ticket.slot ≠ p.1.slot := by
        intro eq
        apply nodup.1
        rw [eq]
        simp only [map_append, mem_append, List.mem_map]
        exact Or.inr (Or.inr ⟨p.1, ⟨p, inRest, rfl⟩, rfl⟩)
      refine ⟨e', ?_, value'⟩
      simp only [SyscallQueueBuffer.releaseSlot]
      rw [List.getElem?_set_ne apart]
      exact entry'
    rspLast := by
      simp only [SyscallQueueBuffer.releaseSlot, h.rspLast, counter_word, length_append, length_singleton]
    rspRing := by
      have ring := h.rspRing
      rw [answered, map_cons] at ring
      simp only [length_append, length_singleton]
      exact holds_tail ring
    numbered := fun u inLive => h.numbered u (perm.mem_iff.mpr (.tail _ inLive))
    pushedLog := by
      rw [h.pushedLog, answered]
      simp [answerKey]
    deliveredLog := by
      simp only [map_append, map_cons, map_nil]
      rw [h.deliveredLog]
      congr 1
      simp [answerOf, number, Ticket.respond]
    drainedLog := by
      intro drained
      have := h.drainedLog drained
      rw [answered] at this
      cases this }

theorem pop_response_keeps :
    ∃ t f', sessionPopResponse s = some t ∧ InFlight bits t f' := by
  have sized := h.accounted.toSized
  have small := sized.capacity_le
  have live := live_count h
  have pushed := pushed_count h
  have same : s.queue.rspIndexLast = s.queue.shared.rspIndex ↔ s.delivered.length = s.pushed.length := by
    rw [h.rspLast, h.rspIndex]
    exact truncated_counters_agree (by omega) (by omega)
  cases answered : f.answered with
  | nil =>
    have zero : f.answered.length = 0 := by rw [answered]; rfl
    have idle := same.mpr (by omega)
    rcases pop_response_cases sized with ⟨_, run⟩ | ⟨busy, _⟩
    · refine ⟨{ s with drained := true }, f, ?_, ?_⟩
      · simp [sessionPopResponse, run]
      · exact { h with drainedLog := fun _ => answered }
    · exact absurd idle busy
  | cons head rest =>
    obtain ⟨ticket, retVal⟩ := head
    have count : f.answered.length = rest.length + 1 := by rw [answered]; rfl
    have member : ticket ∈ f.live := by simp [Flight.live, answered]
    have slot := backed_slot_lt sized h.backed member
    have word : (slotWord ticket).toNat = ticket.slot := sized.slot_index slot
    have ring := h.rspRing
    rw [answered, map_cons] at ring
    have cell := holds_head ring
    rw [sized.rspRing, ← ring_cell sized, ← h.rspLast] at cell
    obtain ⟨e, entry, valid, opcode, _, token⟩ := h.backed.present ticket member
    obtain ⟨e', entry', value⟩ := h.values (ticket, retVal) (by simp [answered])
    rw [entry] at entry'
    cases entry'
    -- of the ways `pop_response` can end, the ring and the tables leave one
    rcases pop_response_cases sized with ⟨idle, _⟩ | ⟨_, index, read, outside | stale | popped⟩
    · have := same.mp idle
      omega
    · rw [cell] at read
      cases read
      exact absurd (by rw [word]; exact slot) outside.1
    · obtain ⟨e'', entry'', free, _⟩ := stale
      rw [cell] at read
      cases read
      rw [word, entry] at entry''
      cases entry''
      rw [valid] at free
      cases free
    · obtain ⟨e'', token', _, entry'', _, held, run⟩ := popped
      rw [cell] at read
      cases read
      rw [word] at entry'' held run
      rw [entry] at entry''
      cases entry''
      rw [token] at held
      cases held
      refine ⟨_, _, ?_, delivered_in_flight h answered entry valid⟩
      simp only [sessionPopResponse, run, bind_eq_bind, bind_some, opcode, value]
      rfl

theorem act_keeps (a : Action) (allowed : Allowed s a) : ∃ t f', act s a = some t ∧ InFlight bits t f' := by
  cases a with
  | send r => exact send_keeps h
  | popResponse => exact pop_response_keeps h
  | popRequest => exact pop_request_keeps h
  | pushResponse number retVal => exact push_keeps h allowed.1 allowed.2

end

end Invariant

theorem fresh_in_flight (built : SyscallQueueBuffer.new base size stale = some q)
    (attached : nimbosSetupSyscallBuffers q.shared = .ok d) (power : capacityFor size = 2 ^ bits)
    (sized : Sized bits q) : InFlight bits ⟨q, d, [], [], [], [], false⟩ ⟨[], [], [], []⟩ := by
  have accounted := new_accounted built power sized
  simp only [SyscallQueueBuffer.new] at built
  split at built
  · cases built
    simp only [nimbosSetupSyscallBuffers] at attached
    split at attached
    · cases attached
    split at attached
    · cases attached
    cases attached
    constructor <;> first | exact accounted | exact holds_nil | rfl | skip
    · refine ⟨by simp [Flight.live], by simp [Flight.live], ?_⟩
      intro i e entry valid
      obtain ⟨_, _, same⟩ := List.mem_map.mp (mem_of_getElem? entry)
      rw [← same] at valid
      cases valid
    all_goals simp [Flight.live]
  · cases built

theorem forwarding_invariant (built : SyscallQueueBuffer.new base size stale = some q)
    (attached : nimbosSetupSyscallBuffers q.shared = .ok d) (reach : Reachable (forwarding q d) s) :
    ∃ bits f, InFlight bits s f := by
  obtain ⟨bits, power, sized⟩ := new_sized built
  have inv : ∃ f, InFlight bits s f := by
    apply reachable_invariant (fun s => ∃ f, InFlight bits s f) _ _ reach
    · intro first start
      cases start
      exact ⟨_, fresh_in_flight built attached power sized⟩
    rintro s a t ⟨f, h⟩ ⟨allowed, step⟩
    obtain ⟨t', f', run, keep⟩ := act_keeps h a allowed
    rw [step] at run
    cases run
    exact ⟨f', keep⟩
  exact ⟨bits, inv⟩

theorem prefix_of_pointwise {xs : List α} {ys : List β} (f : α → γ) (g : β → γ)
    (h : ∀ (k : Nat) (x : α), xs[k]? = some x → ∃ y, ys[k]? = some y ∧ f x = g y) : xs.map f <+: ys.map g := by
  rw [prefix_iff_getElem?]
  intro k inside
  rw [length_map] at inside
  obtain ⟨y, found, same⟩ := h k xs[k] (List.getElem?_eq_getElem inside)
  rw [List.getElem?_map, found, getElem_map]
  simp [same]

/-- Requests reach the daemon once each and in order; answers reach the kernel once each
    and in push order, with the opcode and token of the request that was popped and the
    value pushed for it; and no step panics. -/
theorem scf_exactly_once {base size : Nat} {stale : StalePage} {q : SyscallQueueBuffer}
    {d : DaemonBuffer} (built : SyscallQueueBuffer.new base size stale = some q)
    (attached : nimbosSetupSyscallBuffers q.shared = .ok d) {s : Session}
    (reach : Reachable (forwarding q d) s) :
    (s.popped.map fun p => (p.2.opcode, p.2.args)) <+:
      (s.accepted.map fun r => (r.opcode.toU8, r.args)) ∧
    s.delivered.map some <+: s.pushed.map (answerOf s.accepted) ∧
    (s.drained = true → s.delivered.map some = s.pushed.map (answerOf s.accepted)) ∧
    (s.pushed.map Prod.fst).Nodup ∧
    (∀ p ∈ s.pushed, p.1 < s.popped.length) ∧
    (∀ a, Allowed s a → ∃ t, act s a = some t) := by
  obtain ⟨bits, f, h⟩ := forwarding_invariant built attached reach
  refine ⟨?_, ?_, ?_, h.once, h.known, ?_⟩
  · apply prefix_of_pointwise
    intro k p found
    obtain ⟨r, request, opcode, args⟩ := h.poppedLog k p found
    exact ⟨r, request, by rw [opcode, args]⟩
  · rw [h.deliveredLog, h.pushedLog, List.map_append]
    exact List.prefix_append _ _
  · intro drained
    rw [h.deliveredLog, h.pushedLog, h.drainedLog drained]
    simp
  · intro a allowed
    obtain ⟨t, _, run, _⟩ := act_keeps h a allowed
    exact ⟨t, run⟩

def oneSlotDaemon : DaemonBuffer := ⟨0, 0, 0⟩

def roundTrip : Session where
  queue := { oneSlotQueue with
    reqIndexShadow := 1, rspIndexLast := 1
    shared := { oneSlotQueue.shared with reqIndex := 1, rspIndex := 1, desc := [⟨false, 1, 7, 5⟩] } }
  daemon := ⟨0, 1, 1⟩
  accepted := [⟨.read, 7, 9⟩]
  popped := [(0, ⟨true, 1, 7, 0⟩)]
  pushed := [(0, 5)]
  delivered := [⟨1, 9, 5⟩]
  drained := false

theorem round_trip_exactly_once :
    Reachable (forwarding oneSlotQueue oneSlotDaemon) roundTrip ∧
      roundTrip.delivered.map some <+: roundTrip.pushed.map (answerOf roundTrip.accepted) := by
  have go : ∀ {s t : Session} (a : Action), Reachable (forwarding oneSlotQueue oneSlotDaemon) s →
      Allowed s a → act s a = some t → Reachable (forwarding oneSlotQueue oneSlotDaemon) t :=
    fun a h allowed step => reachable_next (a := a) h ⟨allowed, step⟩
  have start : Reachable (forwarding oneSlotQueue oneSlotDaemon)
      ⟨oneSlotQueue, oneSlotDaemon, [], [], [], [], false⟩ := reachable_start rfl
  have sent := go (.send ⟨.read, 7, 9⟩) start trivial (by decide : act _ _ = some
    ⟨oneSlotQueue.takeSlot 0 .read 7 9, oneSlotDaemon, [⟨.read, 7, 9⟩], [], [], [], false⟩)
  have popped := go .popRequest sent trivial (by decide : act _ _ = some
    ⟨oneSlotQueue.takeSlot 0 .read 7 9, ⟨0, 1, 0⟩, [⟨.read, 7, 9⟩], [(0, ⟨true, 1, 7, 0⟩)], [], [], false⟩)
  have pushed := go (.pushResponse 0 5) popped (by simp [Allowed]) (by decide : act _ _ = some
    ⟨{ oneSlotQueue.takeSlot 0 .read 7 9 with
        shared := ⟨syscallQueueBufferMagic, 1, 1, 1, [⟨true, 1, 7, 5⟩], [0], [0]⟩ },
      ⟨0, 1, 1⟩, [⟨.read, 7, 9⟩], [(0, ⟨true, 1, 7, 0⟩)], [(0, 5)], [], false⟩)
  have reach := go .popResponse pushed trivial (by decide : act _ _ = some roundTrip)
  obtain ⟨_, delivered, _⟩ := scf_exactly_once one_slot_built (by decide : _ = Except.ok oneSlotDaemon) reach
  exact ⟨reach, delivered⟩

end RtosScfExactlyOnce
