import CompositeRtos.Scf.ExactlyOnce

/-!
Requests with any opcode byte. The queue never looks at the byte, so a session that places
arbitrary bytes behaves as one that places only `Nop` and hides the bytes of the
descriptors: `blank` is that view, and every operation commutes with it.
-/
namespace RtosScfAnyOpcode
open RtosScfQueue RtosScfExactlyOnce Option

structure RawRequest where
  opcode : BitVec 8
  args : BitVec 64
  token : ScfRequestToken
  deriving DecidableEq, Repr

/-- `send_locked` with the opcode as the byte that it writes. -/
def place (q : SyscallQueueBuffer) (opcode : BitVec 8) (args : BitVec 64) (token : ScfRequestToken) :
    Option (SyscallQueueBuffer × Bool) :=
  if q.isFull then some (q, false)
  else do
    let entryIdx ← q.findFreeDescLocked
    let tokens ← storeAt q.tokens entryIdx.toNat token
    let desc ← storeAt q.shared.desc entryIdx.toNat { valid := true, opcode, args, retVal := 0 }
    let reqRing ← storeAt q.shared.reqRing (q.reqIndexShadow &&& q.capacityMask).toNat entryIdx
    let shadow := q.reqIndexShadow + 1
    some ({ q with
      tokens, freeCount := q.freeCount - 1, reqIndexShadow := shadow
      shared := { q.shared with desc, reqRing, reqIndex := shadow } }, true)

theorem send_is_place : q.sendLocked opcode args token = place q opcode.toU8 args token := rfl

def nameOf (byte : BitVec 8) : ScfOpcode :=
  match byte with
  | 0 => .nop
  | 1 => .read
  | 2 => .write
  | 3 => .openFile
  | 4 => .close
  | _ => .unknown

def sessionPlace (s : Session) (r : RawRequest) : Option Session := do
  let (queue, ok) ← place s.queue r.opcode r.args r.token
  some { s with
    queue, accepted := if ok then s.accepted ++ [⟨nameOf r.opcode, r.args, r.token⟩] else s.accepted }

def blankDesc (e : ScfDescriptor) : ScfDescriptor := { e with opcode := 0 }

def blankShared (p : SharedQueue) : SharedQueue := { p with desc := p.desc.map blankDesc }

def blankQueue (q : SyscallQueueBuffer) : SyscallQueueBuffer := { q with shared := blankShared q.shared }

def blankEntry (p : BitVec 16 × ScfDescriptor) : BitVec 16 × ScfDescriptor := (p.1, blankDesc p.2)

def blankResponse (r : ScfResponse) : ScfResponse := { r with opcode := 0 }

def blank (s : Session) : Session where
  queue := blankQueue s.queue
  daemon := s.daemon
  accepted := s.accepted.map fun r => { r with opcode := .nop }
  popped := s.popped.map blankEntry
  pushed := s.pushed
  delivered := s.delivered.map blankResponse
  drained := s.drained

theorem store_at_map (f : α → β) (run : storeAt cells i x = some cells') :
    storeAt (cells.map f) i (f x) = some (cells'.map f) := by
  simp only [storeAt] at run
  split at run
  · cases run
    simp [storeAt, *]
  · cases run

theorem find_free_blank : (blankQueue q).findFreeDescLocked = q.findFreeDescLocked := by
  simp only [SyscallQueueBuffer.findFreeDescLocked, blankQueue, blankShared, List.findIdx?_map]
  rfl

theorem blank_desc_at {i : Nat} (entry : p.desc[i]? = some e) : (blankShared p).desc[i]? = some (blankDesc e) := by
  simp [blankShared, entry]

theorem place_blank (run : place q opcode args token = some (q', ok)) :
    (blankQueue q).sendLocked .nop args token = some (blankQueue q', ok) := by
  rw [send_is_place]
  simp only [place, find_free_blank] at run ⊢
  change (if q.isFull then _ else _) = _
  split at run
  · cases run
    rename_i full
    rw [if_pos full]
  rename_i room
  rw [if_neg room]
  simp only [bind_eq_bind, bind_eq_some_iff] at run ⊢
  obtain ⟨index, found, tokens, stored, desc, written, ring, queued, same⟩ := run
  cases same
  exact ⟨index, found, tokens, stored, _, store_at_map blankDesc written, ring, queued, rfl⟩

theorem free_desc_blank (run : q.freeDescLocked index = some q') :
    (blankQueue q).freeDescLocked index = some (blankQueue q') := by
  simp only [SyscallQueueBuffer.freeDescLocked] at run ⊢
  change (if index ≤ q.capacityMask then _ else _) = _
  split at run
  · rename_i inside
    rw [if_pos inside]
    simp only [bind_eq_bind, bind_eq_some_iff] at run ⊢
    obtain ⟨tokens, cleared, entry, found, desc, written, same⟩ := run
    cases same
    exact ⟨tokens, cleared, _, blank_desc_at found, _, store_at_map blankDesc written, rfl⟩
  · cases run

theorem pop_response_blank (run : q.popResponseLocked = some (q', rsp)) :
    (blankQueue q).popResponseLocked = some (blankQueue q', rsp.map blankResponse) := by
  simp only [SyscallQueueBuffer.popResponseLocked] at run ⊢
  change (if q.hasResponse then _ else _) = _
  split at run
  · rename_i waiting
    rw [if_pos waiting]
    simp only [bind_eq_bind, bind_eq_some_iff] at run ⊢
    obtain ⟨index, read, run⟩ := run
    refine ⟨index, read, ?_⟩
    change (if index > q.capacityMask then _ else _) = _
    split at run
    · rename_i outside
      rw [if_pos outside]
      cases run
      rfl
    rename_i inside
    rw [if_neg inside]
    simp only [bind_eq_some_iff] at run ⊢
    obtain ⟨entry, found, run⟩ := run
    refine ⟨_, blank_desc_at found, ?_⟩
    change (if (!entry.valid) = true then _ else _) = _
    split at run
    · rename_i stale
      rw [if_pos stale]
      cases run
      rfl
    rename_i live
    rw [if_neg live]
    simp only [bind_eq_some_iff] at run ⊢
    obtain ⟨token, held, freed, released, same⟩ := run
    cases same
    exact ⟨token, held, _, free_desc_blank released, rfl⟩
  · rename_i idle
    rw [if_neg idle]
    cases run
    rfl

theorem pop_request_blank (run : popSyscallRequest d p = some (d', result)) :
    popSyscallRequest d (blankShared p) = some (d', result.map blankEntry) := by
  simp only [popSyscallRequest] at run ⊢
  change (if hasRequest d p then _ else _) = _
  split at run
  · rename_i waiting
    rw [if_pos waiting]
    simp only [bind_eq_bind, bind_eq_some_iff] at run ⊢
    obtain ⟨index, read, run⟩ := run
    refine ⟨index, read, ?_⟩
    split at run
    · rename_i outside
      rw [if_pos outside]
      cases run
      rfl
    rename_i inside
    rw [if_neg inside]
    simp only [bind_eq_some_iff] at run ⊢
    obtain ⟨entry, found, same⟩ := run
    cases same
    exact ⟨_, blank_desc_at found, rfl⟩
  · rename_i idle
    rw [if_neg idle]
    cases run
    rfl

theorem push_response_blank {index : BitVec 16}
    (run : pushSyscallResponse d p index retVal = some (d', p', result)) :
    pushSyscallResponse d (blankShared p) index retVal = some (d', blankShared p', result) := by
  simp only [pushSyscallResponse] at run ⊢
  split at run
  · rename_i outside
    rw [if_pos outside]
    cases run
    rfl
  rename_i inside
  rw [if_neg inside]
  simp only [bind_eq_bind, bind_eq_some_iff] at run ⊢
  obtain ⟨entry, found, desc, written, ring, queued, same⟩ := run
  cases same
  exact ⟨_, blank_desc_at found, _, store_at_map blankDesc written, ring, queued, rfl⟩

/-! The same for the operations of a session. -/

theorem session_place_blank (run : sessionPlace s r = some t) :
    sessionSend (blank s) ⟨.nop, r.args, r.token⟩ = some (blank t) := by
  simp only [sessionPlace, sessionSend, bind_eq_bind, bind_eq_some_iff] at run ⊢
  obtain ⟨⟨queue, ok⟩, placed, same⟩ := run
  cases same
  refine ⟨_, place_blank placed, ?_⟩
  cases ok <;> simp [blank]

theorem session_pop_response_blank (run : sessionPopResponse s = some t) :
    sessionPopResponse (blank s) = some (blank t) := by
  simp only [sessionPopResponse, bind_eq_bind, bind_eq_some_iff] at run ⊢
  obtain ⟨⟨queue, response⟩, popped, same⟩ := run
  refine ⟨_, pop_response_blank popped, ?_⟩
  cases response with
  | none =>
    cases same
    rfl
  | some rsp =>
    cases same
    simp [blank]

theorem session_pop_request_blank (run : sessionPopRequest s = some t) :
    sessionPopRequest (blank s) = some (blank t) := by
  simp only [sessionPopRequest, bind_eq_bind, bind_eq_some_iff] at run ⊢
  obtain ⟨⟨daemon, result⟩, popped, same⟩ := run
  refine ⟨_, pop_request_blank popped, ?_⟩
  cases result with
  | error e =>
    cases same
    rfl
  | ok request =>
    cases same
    simp [blank, Except.map]

theorem session_push_blank (run : sessionPush s number retVal = some t) :
    sessionPush (blank s) number retVal = some (blank t) := by
  simp only [sessionPush, bind_eq_bind, bind_eq_some_iff] at run ⊢
  obtain ⟨⟨index, desc⟩, found, ⟨daemon, shared, result⟩, pushed, same⟩ := run
  refine ⟨blankEntry (index, desc), by simp [blank, found], _, push_response_blank pushed, ?_⟩
  cases result <;> cases same <;> rfl

end RtosScfAnyOpcode
