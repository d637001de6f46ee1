import CompositeRtos.Lib.Transition
import CompositeRtos.Scf.Queue

/-!
The kernel's side of the queue against an arbitrary peer. Linux may rewrite the response
index, the response ring and every descriptor field except the `valid` flags between any
two kernel calls. The free-slot accounting and the token table depend on nothing else.
-/
namespace RtosScfIntegrity
open RtosTransition RtosScfQueue BitVec List Option

def isFreeDesc (e : ScfDescriptor) : Bool := !e.valid

/-- The accounting every kernel call keeps: the counter is the number of free
    descriptors, and a free descriptor has no token. -/
structure Accounted (bits : Nat) (q : SyscallQueueBuffer) : Prop extends Sized bits q where
  free : q.freeCount.toNat = q.shared.desc.countP isFreeDesc
  idle : ∀ (i : Nat) (e : ScfDescriptor), q.shared.desc[i]? = some e → e.valid = false → q.tokens[i]? = some defaultToken

theorem new_accounted (built : SyscallQueueBuffer.new base size stale = some q)
    (power : capacityFor size = 2 ^ bits) (sized : Sized bits q) : Accounted bits q := by
  refine ⟨sized, ?_, ?_⟩
  · have small := sized.capacity_le
    simp only [SyscallQueueBuffer.new] at built
    split at built
    · cases built
      simp only [power, toNat_ofNat]
      rw [countP_eq_length.mpr]
      · simp only [length_map, length_range]
        omega
      intro e member
      obtain ⟨i, _, same⟩ := List.mem_map.mp member
      subst same
      rfl
    · cases built
  · intro i e entry _
    have inside : i < 2 ^ bits := by
      rw [← sized.desc]
      exact (List.getElem?_eq_some_iff.mp entry).1
    simp only [SyscallQueueBuffer.new] at built
    split at built
    · cases built
      rw [List.getElem?_replicate, power, if_pos inside]
    · cases built

section

variable (h : Accounted bits q)
include h

theorem accounted_take (entry : q.shared.desc[i]? = some e) (free : e.valid = false)
    (room : q.freeCount ≠ 0) (opcode : ScfOpcode) (args : BitVec 64) (token : ScfRequestToken) :
    Accounted bits (q.takeSlot i opcode args token) := by
  obtain ⟨inside, same⟩ := List.getElem?_eq_some_iff.mp entry
  refine ⟨⟨h.small, h.mask, ?_, ?_, ?_, h.rspRing⟩, ?_, ?_⟩
  · simpa [SyscallQueueBuffer.takeSlot] using h.tokens
  · simpa [SyscallQueueBuffer.takeSlot] using h.desc
  · simpa [SyscallQueueBuffer.takeSlot] using h.reqRing
  · have positive : 1 ≤ q.freeCount.toNat := by
      have nonzero : q.freeCount.toNat ≠ 0 := fun zero => room (eq_of_toNat_eq zero)
      omega
    have one : (1 : BitVec 16).toNat = 1 := rfl
    have bound := q.freeCount.isLt
    have count := h.free
    simp only [SyscallQueueBuffer.takeSlot]
    rw [toNat_sub, one, countP_set inside]
    simp only [isFreeDesc, same, free, Bool.not_false, Bool.not_true, ↓reduceIte,
      Bool.false_eq_true] at count ⊢
    omega
  · intro j e' entry' free'
    simp only [SyscallQueueBuffer.takeSlot] at entry' ⊢
    by_cases eq : i = j
    · subst eq
      rw [List.getElem?_set_self inside] at entry'
      cases entry'
      simp at free'
    · rw [List.getElem?_set_ne eq] at entry' ⊢
      exact h.idle j e' entry' free'

theorem accounted_skip : Accounted bits q.skipEntry :=
  ⟨⟨h.small, h.mask, h.tokens, h.desc, h.reqRing, h.rspRing⟩, h.free, h.idle⟩

theorem accounted_release (entry : q.shared.desc[i]? = some e) (live : e.valid = true) :
    Accounted bits (q.releaseSlot i e) := by
  obtain ⟨inside, same⟩ := List.getElem?_eq_some_iff.mp entry
  refine ⟨⟨h.small, h.mask, ?_, ?_, h.reqRing, h.rspRing⟩, ?_, ?_⟩
  · simpa [SyscallQueueBuffer.releaseSlot] using h.tokens
  · simpa [SyscallQueueBuffer.releaseSlot] using h.desc
  · have total : q.shared.desc.countP isFreeDesc + 1 ≤ q.shared.desc.length := by
      have le := countP_le_length (p := isFreeDesc) (l := q.shared.desc)
      have busy : q.shared.desc.countP isFreeDesc ≠ q.shared.desc.length := by
        intro all
        have free := countP_eq_length.mp all e (mem_of_getElem? entry)
        simp [isFreeDesc, live] at free
      omega
    have small := h.capacity_le
    have count := h.free
    have size := h.desc
    have one : (1 : BitVec 16).toNat = 1 := rfl
    simp only [SyscallQueueBuffer.releaseSlot]
    rw [toNat_add, one, countP_set inside]
    simp only [isFreeDesc, same, live, Bool.not_false, Bool.not_true, ↓reduceIte,
      Bool.false_eq_true] at count total ⊢
    omega
  · intro j e' entry' free'
    simp only [SyscallQueueBuffer.releaseSlot] at entry' ⊢
    by_cases eq : i = j
    · subst eq
      rw [List.getElem?_set_self (by rw [h.tokens, ← h.desc]; exact inside)]
    · rw [List.getElem?_set_ne eq] at entry' ⊢
      exact h.idle j e' entry' free'

theorem full_iff_all_valid : q.freeCount = 0 ↔ ∀ e ∈ q.shared.desc, e.valid = true := by
  have count : q.freeCount = 0 ↔ q.shared.desc.countP isFreeDesc = 0 := by
    rw [← h.free]
    exact ⟨fun zero => by rw [zero]; rfl, fun zero => eq_of_toNat_eq zero⟩
  rw [count, countP_eq_zero]
  simp [isFreeDesc]

theorem send_accounted (opcode : ScfOpcode) (args : BitVec 64) (token : ScfRequestToken) :
    (q.freeCount = 0 ∧ q.sendLocked opcode args token = some (q, false)) ∨
    (q.freeCount ≠ 0 ∧ ∃ i e, i < 2 ^ bits ∧ q.shared.desc[i]? = some e ∧ e.valid = false ∧
      q.findFreeDescLocked = some (BitVec.ofNat 16 i) ∧
      q.sendLocked opcode args token = some (q.takeSlot i opcode args token, true)) := by
  rcases send_cases h.toSized with full | stuck | taken
  · exact Or.inl full
  · exact absurd ((full_iff_all_valid h).mpr stuck.2.1) stuck.1
  · exact Or.inr taken

end

def LinuxWrites (old new : SharedQueue) : Prop :=
  ∃ rspIndex rspRing desc, rspRing.length = old.rspRing.length ∧
    desc.map ScfDescriptor.valid = old.desc.map ScfDescriptor.valid ∧
    new = { old with rspIndex, rspRing, desc }

/-- The queue with what an observer of the kernel calls has seen: which slot each
    accepted send took, and the tokens handed back by `pop_response`. -/
structure Traffic where
  queue : SyscallQueueBuffer
  sent : List (Nat × ScfRequestToken)
  returned : List ScfRequestToken
  deriving DecidableEq, Repr

inductive Call where
  | send (opcode : ScfOpcode) (args : BitVec 64) (token : ScfRequestToken)
  | popResponse
  | linux (page : SharedQueue)

def kernelSend (s : Traffic) (opcode : ScfOpcode) (args : BitVec 64) (token : ScfRequestToken) :
    Option Traffic := do
  let (queue, accepted) ← s.queue.sendLocked opcode args token
  if accepted then
    let slot ← s.queue.findFreeDescLocked
    some { s with queue, sent := s.sent ++ [(slot.toNat, token)] }
  else some { s with queue }

def kernelPop (s : Traffic) : Option Traffic := do
  let (queue, response) ← s.queue.popResponseLocked
  match response with
  | some rsp => some { s with queue, returned := s.returned ++ [rsp.token] }
  | none => some { s with queue }

def hostile (q : SyscallQueueBuffer) : Machine Traffic Call where
  start s := s = ⟨q, [], []⟩
  next s call t :=
    match call with
    | .send opcode args token => kernelSend s opcode args token = some t
    | .popResponse => kernelPop s = some t
    | .linux page => LinuxWrites s.queue.shared page ∧
        t = { s with queue := { s.queue with shared := page } }

def latestToken (sent : List (Nat × ScfRequestToken)) (slot : Nat) : Option ScfRequestToken :=
  (sent.reverse.find? fun p => p.1 == slot).map Prod.snd

theorem latest_token_append :
    latestToken (sent ++ [(slot, token)]) i = if slot = i then some token else latestToken sent i := by
  by_cases same : slot = i <;> simp [latestToken, same]

def heldBy (token : ScfRequestToken) (p : ScfDescriptor × ScfRequestToken) : Bool :=
  p.1.valid && p.2 == token

def outstanding (q : SyscallQueueBuffer) (token : ScfRequestToken) : Nat :=
  (q.shared.desc.zip q.tokens).countP (heldBy token)

theorem zip_set (xs : List α) (i : Nat) (x : α) (y : β) :
    (xs.set i x).zip (ys.set i y) = (xs.zip ys).set i (x, y) := by
  apply ext_getElem?
  intro j
  by_cases same : i = j
  · subst same
    simp only [List.getElem?_set, zip, List.getElem?_zipWith, length_zipWith, Nat.lt_min]
    by_cases hx : i < xs.length <;> by_cases hy : i < ys.length <;> simp [hx, hy]
  · simp [zip, List.getElem?_zipWith, List.getElem?_set_ne same]

theorem outstanding_set (entry : q.shared.desc[i]? = some e) (held : q.tokens[i]? = some t) (e' : ScfDescriptor)
    (t' token : ScfRequestToken) :
    ((q.shared.desc.set i e').zip (q.tokens.set i t')).countP (heldBy token) +
        (if heldBy token (e, t) then 1 else 0) =
      outstanding q token + (if heldBy token (e', t') then 1 else 0) := by
  have inside : i < (q.shared.desc.zip q.tokens).length := by
    have hx := (List.getElem?_eq_some_iff.mp entry).1
    have hy := (List.getElem?_eq_some_iff.mp held).1
    simp only [length_zip]
    omega
  have pair : (q.shared.desc.zip q.tokens)[i] = (e, t) := by
    rw [getElem_zip, (List.getElem?_eq_some_iff.mp entry).2, (List.getElem?_eq_some_iff.mp held).2]
  rw [zip_set, countP_set inside, pair, outstanding]
  have present : heldBy token (e, t) = true → 0 < (q.shared.desc.zip q.tokens).countP (heldBy token) := by
    intro yes
    exact countP_pos_iff.mpr ⟨_, getElem_mem inside, by rw [pair]; exact yes⟩
  split
  · rename_i yes
    have := present yes
    omega
  · omega

structure Intact (bits : Nat) (s : Traffic) : Prop where
  accounted : Accounted bits s.queue
  owner : ∀ (i : Nat) (e : ScfDescriptor), s.queue.shared.desc[i]? = some e → e.valid = true →
    s.queue.tokens[i]? = latestToken s.sent i
  counted : ∀ token, s.returned.count token + outstanding s.queue token =
    (s.sent.map Prod.snd).count token

theorem intact_send (h : Intact bits s) (step : kernelSend s opcode args token = some t) : Intact bits t := by
  rcases send_accounted h.accounted opcode args token with full | ⟨room, i, e, inside, entry, free, slot, run⟩
  · simp only [kernelSend, full.2, bind_eq_bind, bind_some, Bool.false_eq_true,
      ↓reduceIte, Option.some.injEq] at step
    subst step
    exact h
  simp only [kernelSend, run, slot, bind_eq_bind, bind_some, ↓reduceIte,
    h.accounted.slot_index inside, Option.some.injEq] at step
  subst step
  have idle := h.accounted.idle i e entry free
  have descRoom := (List.getElem?_eq_some_iff.mp entry).1
  have tokenRoom := (List.getElem?_eq_some_iff.mp idle).1
  refine ⟨accounted_take h.accounted entry free room opcode args token, ?_, ?_⟩
  · intro j e' entry' live
    rw [latest_token_append]
    simp only [SyscallQueueBuffer.takeSlot] at entry' ⊢
    split
    · rename_i same
      subst same
      rw [List.getElem?_set_self tokenRoom]
    rename_i apart
    rw [List.getElem?_set_ne apart] at entry' ⊢
    exact h.owner j e' entry' live
  · intro other
    have counted := h.counted other
    have change := outstanding_set entry idle
      { valid := true, opcode := opcode.toU8, args, retVal := 0 } token other
    simp only [heldBy, free, Bool.false_and, Bool.false_eq_true, ↓reduceIte, Bool.true_and,
      beq_iff_eq] at change
    simp only [map_append, map_cons, map_nil, count_append,
      count_singleton, beq_iff_eq]
    simp only [outstanding, SyscallQueueBuffer.takeSlot] at counted change ⊢
    omega

theorem intact_pop (h : Intact bits s) (step : kernelPop s = some t) : Intact bits t := by
  rcases pop_response_cases h.accounted.toSized with ⟨_, run⟩ | ⟨_, index, _, skipped | skipped | popped⟩
  · simp only [kernelPop, run, bind_eq_bind, bind_some, Option.some.injEq] at step
    subst step
    exact h
  · simp only [kernelPop, skipped.2, bind_eq_bind, bind_some, Option.some.injEq] at step
    subst step
    exact ⟨accounted_skip h.accounted, h.owner, h.counted⟩
  · obtain ⟨_, _, _, run⟩ := skipped
    simp only [kernelPop, run, bind_eq_bind, bind_some, Option.some.injEq] at step
    subst step
    exact ⟨accounted_skip h.accounted, h.owner, h.counted⟩
  · obtain ⟨e, token, inside, entry, live, held, run⟩ := popped
    simp only [kernelPop, run, bind_eq_bind, bind_some, Option.some.injEq] at step
    subst step
    have descRoom := (List.getElem?_eq_some_iff.mp entry).1
    refine ⟨accounted_release h.accounted entry live, ?_, ?_⟩
    · intro j e' entry' live'
      simp only [SyscallQueueBuffer.releaseSlot] at entry' ⊢
      by_cases same : index.toNat = j
      · subst same
        rw [List.getElem?_set_self descRoom] at entry'
        cases entry'
        simp at live'
      · rw [List.getElem?_set_ne same] at entry' ⊢
        exact h.owner j e' entry' live'
    · intro other
      have counted := h.counted other
      have change := outstanding_set entry held { e with valid := false } defaultToken other
      simp only [heldBy, live, Bool.false_and, Bool.false_eq_true, ↓reduceIte, Bool.true_and,
        beq_iff_eq] at change
      simp only [count_append, count_singleton, beq_iff_eq]
      simp only [outstanding, SyscallQueueBuffer.releaseSlot] at counted change ⊢
      omega

theorem flags_at {old new : List ScfDescriptor}
    (flags : new.map ScfDescriptor.valid = old.map ScfDescriptor.valid) {i : Nat} {e : ScfDescriptor}
    (entry : new[i]? = some e) : ∃ e', old[i]? = some e' ∧ e'.valid = e.valid := by
  have cell := congrArg (fun l => l[i]?) flags
  simp only [List.getElem?_map, entry] at cell
  cases found : old[i]? with
  | none => simp [found] at cell
  | some e' => exact ⟨e', rfl, by simpa [found] using cell.symm⟩

theorem flags_decide_count {old new : List ScfDescriptor} (p : Bool → Bool)
    (flags : new.map ScfDescriptor.valid = old.map ScfDescriptor.valid) :
    new.countP (fun e => p e.valid) = old.countP (fun e => p e.valid) := by
  have same := congrArg (countP p) flags
  simpa [countP_map, Function.comp_def] using same

theorem accounted_page {bits : Nat} {q : SyscallQueueBuffer} (h : Accounted bits q) {page : SharedQueue}
    (flags : page.desc.map ScfDescriptor.valid = q.shared.desc.map ScfDescriptor.valid)
    (req_ring : page.reqRing.length = q.shared.reqRing.length)
    (rsp_ring : page.rspRing.length = q.shared.rspRing.length) :
    Accounted bits { q with shared := page } := by
  have sized := h.toSized
  have size : page.desc.length = q.shared.desc.length := by
    simpa using congrArg length flags
  refine ⟨⟨sized.small, sized.mask, sized.tokens, size.trans sized.desc, req_ring.trans sized.reqRing,
    rsp_ring.trans sized.rspRing⟩, ?_, ?_⟩
  · exact h.free.trans (flags_decide_count (fun v => !v) flags).symm
  intro i e entry free
  obtain ⟨e', entry', same⟩ := flags_at flags entry
  exact h.idle i e' entry' (same.trans free)

theorem flags_decide_outstanding {old new : List ScfDescriptor}
    (flags : new.map ScfDescriptor.valid = old.map ScfDescriptor.valid) :
    (new.zip tokens).countP (heldBy token) = (old.zip tokens).countP (heldBy token) := by
  induction old generalizing new tokens with
  | nil =>
    cases new with
    | nil => rfl
    | cons e new => simp at flags
  | cons e old ih =>
    cases new with
    | nil => simp at flags
    | cons e' new =>
      simp only [map_cons, List.cons.injEq] at flags
      cases tokens with
      | nil => rfl
      | cons t tokens =>
        simp only [zip_cons_cons, countP_cons, ih flags.2, heldBy, flags.1]
        rfl

theorem intact_linux {bits : Nat} {s : Traffic} (h : Intact bits s) (w : LinuxWrites s.queue.shared page) :
    Intact bits { s with queue := { s.queue with shared := page } } := by
  obtain ⟨rspIndex, rspRing, desc, ring, flags, rfl⟩ := w
  refine ⟨accounted_page h.accounted flags rfl ring, ?_, ?_⟩
  · intro i e entry live
    obtain ⟨e', entry', same⟩ := flags_at flags entry
    exact h.owner i e' entry' (same.trans live)
  intro token
  simp only [outstanding]
  rw [flags_decide_outstanding flags]
  exact h.counted token

theorem intact_reachable (built : SyscallQueueBuffer.new base size stale = some q)
    (power : capacityFor size = 2 ^ bits) (sized : Sized bits q) (reach : Reachable (hostile q) s) :
    Intact bits s := by
  apply reachable_invariant (Intact bits) _ _ reach
  · intro first start
    cases start
    have accounted := new_accounted built power sized
    refine ⟨accounted, ?_, ?_⟩
    · intro i e entry live
      have allFree : e.valid = false := by
        simp only [SyscallQueueBuffer.new] at built
        split at built
        · cases built
          obtain ⟨_, _, same⟩ := List.mem_map.mp (mem_of_getElem? entry)
          rw [← same]
        · cases built
      rw [allFree] at live
      cases live
    · intro token
      simp only [count_nil, map_nil, Nat.zero_add, outstanding]
      rw [countP_eq_zero]
      rintro ⟨e, t⟩ member
      have inDesc := (of_mem_zip member).1
      simp only [SyscallQueueBuffer.new] at built
      split at built
      · cases built
        obtain ⟨_, _, same⟩ := List.mem_map.mp inDesc
        simp [heldBy, ← same]
      · cases built
  · intro s call t inv step
    cases call with
    | send opcode args token => exact intact_send inv step
    | popResponse => exact intact_pop inv step
    | linux page =>
      obtain ⟨writes, rfl⟩ := step
      exact intact_linux inv writes

/-- After every call of every run against an arbitrary peer: the counter and the token
    table are exact, `send` never panics and refuses exactly when all descriptors are in
    use, `pop_response` never panics, and no token comes back more often than it was sent. -/
theorem queue_integrity {base size : Nat} {stale : StalePage} {q : SyscallQueueBuffer}
    (built : SyscallQueueBuffer.new base size stale = some q) {s : Traffic}
    (reach : Reachable (hostile q) s) :
    s.queue.freeCount.toNat = (s.queue.shared.desc.filter fun e => !e.valid).length ∧
    s.queue.freeCount.toNat ≤ capacityFor size ∧
    s.queue.shared.desc.length = capacityFor size ∧
    (∀ i, i < capacityFor size → ∃ e token, s.queue.shared.desc[i]? = some e ∧
      s.queue.tokens[i]? = some token ∧
      (e.valid = false → token = defaultToken) ∧
      (e.valid = true → latestToken s.sent i = some token)) ∧
    (∀ opcode args token, ∃ q' accepted,
      s.queue.sendLocked opcode args token = some (q', accepted) ∧
      (accepted = false ↔ ∀ e ∈ s.queue.shared.desc, e.valid = true)) ∧
    (∃ q' response, s.queue.popResponseLocked = some (q', response)) ∧
    (∀ token, s.returned.count token ≤ (s.sent.map Prod.snd).count token) := by
  obtain ⟨bits, power, sized⟩ := new_sized built
  have h := intact_reachable built power sized reach
  have free := h.accounted.free
  have most := List.countP_le_length (p := isFreeDesc) (l := s.queue.shared.desc)
  refine ⟨?_, ?_, ?_, ?_, ?_, ?_, ?_⟩
  · rw [free, List.countP_eq_length_filter]
    rfl
  · rw [power, ← h.accounted.desc, free]
    exact most
  · rw [power, h.accounted.desc]
  · intro i inside
    rw [power] at inside
    have entry := List.getElem?_eq_getElem (l := s.queue.shared.desc) (by rw [h.accounted.desc]; exact inside)
    have token := List.getElem?_eq_getElem (l := s.queue.tokens) (by rw [h.accounted.tokens]; exact inside)
    refine ⟨_, _, entry, token, ?_, ?_⟩
    · intro idle
      have default := h.accounted.idle i _ entry idle
      rw [token] at default
      exact Option.some.inj default
    · intro live
      rw [← h.owner i _ entry live, token]
  · intro opcode args token
    have full := full_iff_all_valid h.accounted
    rcases send_accounted h.accounted opcode args token with refused | ⟨room, i, e, _, _, _, _, run⟩
    · exact ⟨_, _, refused.2, by simp only [true_iff]; exact full.mp refused.1⟩
    · exact ⟨_, _, run, by simp only [Bool.true_eq_false, false_iff]; exact fun all => room (full.mpr all)⟩
  · rcases pop_response_cases h.accounted.toSized with ⟨_, run⟩ | ⟨_, _, _, skipped | skipped | popped⟩
    · exact ⟨_, _, run⟩
    · exact ⟨_, _, skipped.2⟩
    · obtain ⟨_, _, _, run⟩ := skipped
      exact ⟨_, _, run⟩
    · obtain ⟨_, _, _, _, _, _, run⟩ := popped
      exact ⟨_, _, run⟩
  · intro token
    have counted := h.counted token
    omega

def blankPage : StalePage := ⟨fun _ => ⟨false, 0, 0, 0⟩, fun _ => 0, fun _ => 0⟩

def oneSlotQueue : SyscallQueueBuffer where
  freeCount := 1
  capacityMask := 0
  reqIndexShadow := 0
  rspIndexLast := 0
  tokens := [0]
  shared := ⟨syscallQueueBufferMagic, 1, 0, 0, [⟨false, 0, 0, 0⟩], [0], [0]⟩

theorem one_slot_built : SyscallQueueBuffer.new 0x1000 44 blankPage = some oneSlotQueue := by
  decide

theorem one_slot_queue_intact :
    let s : Traffic := ⟨oneSlotQueue.takeSlot 0 .read 7 9, [(0, 9)], []⟩
    Reachable (hostile oneSlotQueue) s ∧ s.queue.freeCount.toNat ≤ capacityFor 44 ∧
      latestToken s.sent 0 = some 9 := by
  intro s
  have fresh : Reachable (hostile oneSlotQueue) ⟨oneSlotQueue, [], []⟩ := reachable_start rfl
  have sent : kernelSend ⟨oneSlotQueue, [], []⟩ .read 7 9 = some s := by decide
  have reach : Reachable (hostile oneSlotQueue) s := reachable_next (a := .send .read 7 9) fresh sent
  obtain ⟨_, bound, _⟩ := queue_integrity one_slot_built reach
  exact ⟨reach, bound, rfl⟩

end RtosScfIntegrity
