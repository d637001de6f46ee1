import Mathlib.Data.Finset.Interval
import Mathlib.Data.Nat.Log
import Mathlib.Order.Interval.Finset.Nat
import CompositeRtos.Lib.Transition
import CompositeRtos.Lib.Shares

/-!
The data pool of forwarded calls (`scf/allocator.rs`) and the parts of `sys_write` and
`sys_read` (`scf/syscall.rs`) that use it. The buddy heap is a parameter: what is known of
it is that it serves and takes back blocks of the size computed from the layout. Tasks
interleave at every lock of the heap.
-/
namespace RtosScfDataPool
open RtosTransition RtosShares Option

structure Layout where
  size : Nat
  align : Nat
  deriving DecidableEq, Repr

/-- `max(next_power_of_two(size), align, size_of::<usize>())`. -/
def Layout.blockSize (l : Layout) : Nat := max (2 ^ Nat.clog 2 l.size) (max l.align 8)

def block (ptr : Nat) (l : Layout) : Finset Nat := Finset.Ico ptr (ptr + l.blockSize)

/-- The buddy allocator, as far as its set of free bytes goes. -/
structure Heap (H : Type) where
  free : H → Finset Nat
  alloc : H → Layout → Option (Nat × H)
  dealloc : H → Nat → Layout → H
  alloc_takes : ∀ {h l ptr h'}, alloc h l = some (ptr, h') →
    block ptr l ⊆ free h ∧ free h' = free h \ block ptr l
  dealloc_returns : ∀ h ptr l, free (dealloc h ptr l) = free h ∪ block ptr l

/-- A Rust type as the allocator sees it. -/
structure Sized where
  size : Nat
  align : Nat

def u8 : Sized := ⟨1, 1⟩
/-- `#[repr(C)] struct ReadWriteArgs { fd: u32, buf_offset: u64, len: u64 }`. -/
def readWriteArgs : Sized := ⟨24, 8⟩

def layoutNew (T : Sized) : Layout := ⟨T.size, T.align⟩

structure SyscallDataBuffer (H : Type) where
  baseVaddr : Nat
  size : Nat
  heap : H

namespace SyscallDataBuffer
variable {H : Type} (model : Heap H)

def contains (pool : SyscallDataBuffer H) (ptr : Nat) : Prop :=
  pool.baseVaddr ≤ ptr ∧ ptr < pool.baseVaddr + pool.size

instance (pool : SyscallDataBuffer H) (ptr : Nat) : Decidable (pool.contains ptr) :=
  inferInstanceAs (Decidable (_ ∧ _))

def offsetOf (pool : SyscallDataBuffer H) (ptr : Nat) : Option Nat :=
  if pool.contains ptr then some (ptr - pool.baseVaddr) else none

def allocCommon (pool : SyscallDataBuffer H) (l : Layout) : Option (Nat × SyscallDataBuffer H) :=
  (model.alloc pool.heap l).map fun (ptr, heap) => (ptr, { pool with heap })

def allocUninit (pool : SyscallDataBuffer H) (T : Sized) : Option (Nat × SyscallDataBuffer H) :=
  pool.allocCommon model (layoutNew T)

def allocArrayUninit (pool : SyscallDataBuffer H) (T : Sized) (len : Nat) :
    Option (Nat × SyscallDataBuffer H) :=
  pool.allocCommon model ⟨T.size * len, T.align⟩

def dealloc (pool : SyscallDataBuffer H) (T : Sized) (ptr : Nat) : Option (SyscallDataBuffer H) :=
  if pool.contains ptr then some { pool with heap := model.dealloc pool.heap ptr (layoutNew T) }
  else none

end SyscallDataBuffer

inductive Forwarded where
  | sysRead | sysWrite
  deriving DecidableEq, Repr

structure Call where
  name : Forwarded
  len : Nat
  deriving DecidableEq, Repr

def chunkSize : Nat := 256

/-- How far a task is in `sys_read` or `sys_write`; both use the pool in the same way.
    `requested` lasts from the allocation of the arguments to the return of `wait`. -/
inductive Phase where
  | outside
  | chunkHeld (call : Call) (chunk : Nat)
  | requested (call : Call) (chunk args : Nat)
  | answered (call : Call) (chunk args : Nat)
  | chunkReleased (call : Call) (chunk args : Nat)
  | argsReleased (call : Call) (chunk : Nat)
  deriving DecidableEq, Repr

structure Tasks (ι H : Type) where
  pool : SyscallDataBuffer H
  phase : ι → Phase
  completed : List Call

inductive Step (ι : Type) where
  | enter (t : ι) (call : Call)
  | request (t : ι)
  | respond (t : ι)
  | freeChunk (t : ι)
  | freeArgs (t : ι)
  | leave (t : ι)

section Calls
variable {ι H : Type} [DecidableEq ι] (model : Heap H)

def Tasks.become (s : Tasks ι H) (t : ι) (pool : SyscallDataBuffer H) (phase : Phase) : Tasks ι H :=
  { s with pool, phase := Function.update s.phase t phase }

def step (s : Tasks ι H) : Step ι → Option (Tasks ι H)
  | .enter t call =>
    match s.phase t with
    | .outside =>
      if call.len < chunkSize then do
        let (chunk, pool) ← s.pool.allocArrayUninit model u8 call.len
        some (s.become t pool (.chunkHeld call chunk))
      else none
    | _ => none
  | .request t =>
    match s.phase t with
    | .chunkHeld call chunk => do
      let _ ← s.pool.offsetOf chunk
      let (args, pool) ← s.pool.allocUninit model readWriteArgs
      let _ ← pool.offsetOf args
      some (s.become t pool (.requested call chunk args))
    | _ => none
  | .respond t =>
    match s.phase t with
    | .requested call chunk args => some (s.become t s.pool (.answered call chunk args))
    | _ => none
  | .freeChunk t =>
    match s.phase t with
    | .answered call chunk args => do
      let pool ← s.pool.dealloc model u8 chunk
      some (s.become t pool (.chunkReleased call chunk args))
    | _ => none
  | .freeArgs t =>
    match s.phase t with
    | .chunkReleased call chunk args => do
      let pool ← s.pool.dealloc model readWriteArgs args
      some (s.become t pool (.argsReleased call chunk))
    | _ => none
  | .leave t =>
    match s.phase t with
    | .argsReleased call _ =>
      some { s.become t s.pool .outside with completed := s.completed ++ [call] }
    | _ => none

def forwarded (pool : SyscallDataBuffer H) : Machine (Tasks ι H) (Step ι) where
  start s := s = ⟨pool, fun _ => .outside, []⟩
  next s a t := step model s a = some t

end Calls

def chunkLayout (call : Call) : Layout := ⟨u8.size * call.len, u8.align⟩

/-- Bytes of the chunk that `dealloc::<u8>` does not give back. -/
def leak (call : Call) : Nat := (chunkLayout call).blockSize - (layoutNew u8).blockSize

theorem block_card : (block ptr l).card = l.blockSize := by
  simp [block]

theorem byte_block : (layoutNew u8).blockSize = 8 := by
  simp [layoutNew, u8, Layout.blockSize]

theorem byte_block_subset : block ptr (layoutNew u8) ⊆ block ptr (chunkLayout call) := by
  apply Finset.Ico_subset_Ico_right
  have least : 8 ≤ (chunkLayout call).blockSize := by simp [Layout.blockSize]
  rw [byte_block]
  omega

theorem leak_card : (block ptr (chunkLayout call) \ block ptr (layoutNew u8)).card = leak call := by
  rw [Finset.card_sdiff_of_subset (byte_block_subset), block_card, block_card, leak]

theorem leak_zero_iff (call : Call) : leak call = 0 ↔ call.len ≤ 8 := by
  have size : (chunkLayout call).blockSize = max (2 ^ Nat.clog 2 call.len) 8 := by
    simp [chunkLayout, u8, Layout.blockSize]
  rw [leak, byte_block, size]
  constructor
  · intro none
    have grown := Nat.le_pow_clog (show 1 < 2 by omega) call.len
    omega
  intro short
  have exponent : Nat.clog 2 call.len ≤ 3 := Nat.clog_le_of_le_pow short
  have power := Nat.pow_le_pow_right (show 0 < 2 by omega) exponent
  omega

/-! Who has each byte. -/

inductive Owner (ι : Type) where
  | pool | lost
  | chunk (t : ι)
  | args (t : ι)

def chunkShare : Phase → Finset Nat
  | .outside => ∅
  | .chunkHeld call chunk | .requested call chunk _ | .answered call chunk _ =>
    block chunk (chunkLayout call)
  | .chunkReleased call chunk _ | .argsReleased call chunk =>
    block chunk (chunkLayout call) \ block chunk (layoutNew u8)

def argsShare : Phase → Finset Nat
  | .requested _ _ args | .answered _ _ args | .chunkReleased _ _ args =>
    block args (layoutNew readWriteArgs)
  | .outside | .chunkHeld _ _ | .argsReleased _ _ => ∅

def owns {ι : Type} (free lost : Finset Nat) (phase : ι → Phase) : Owner ι → Finset Nat
  | .pool => free
  | .lost => lost
  | .chunk t => chunkShare (phase t)
  | .args t => argsShare (phase t)

section Moves
variable {ι : Type} [DecidableEq ι] {phase : ι → Phase} {t : ι} {after : Phase}

theorem owns_update (pool : m = .pool → free' = free) (lose : m = .lost → lost' = lost)
    (chunk : m = .chunk t → chunkShare after = chunkShare (phase t))
    (args : m = .args t → argsShare after = argsShare (phase t)) :
    owns free' lost' (Function.update phase t after) m = owns free lost phase m := by
  cases m with
  | pool => exact pool rfl
  | lost => exact lose rfl
  | chunk u =>
    by_cases same : u = t
    · subst same
      simpa [owns] using chunk rfl
    · simp [owns, same]
  | args u =>
    by_cases same : u = t
    · subst same
      simpa [owns] using args rfl
    · simp [owns, same]

end Moves

/-- Every byte of the pool is free, in use by a call, or among the bytes that completed
    calls have leaked. -/
structure Divided {ι H : Type} (model : Heap H) (total : Finset Nat) (s : Tasks ι H) (lost : Finset Nat) : Prop where
  shares : Shares (owns (model.free s.pool.heap) lost s.phase) total
  count : lost.card = (s.completed.map leak).sum

theorem start_divided (model : Heap H) (pool : SyscallDataBuffer H) :
    Divided model (model.free pool.heap) (⟨pool, fun _ => .outside, []⟩ : Tasks ι H) ∅ := by
  refine ⟨⟨?_, ?_⟩, rfl⟩
  · intro k l differ
    cases k <;> cases l <;> first | exact absurd rfl differ | simp [owns, chunkShare, argsShare]
  intro x
  constructor
  · intro inside
    exact ⟨.pool, inside⟩
  rintro ⟨owner, inside⟩
  cases owner with
  | pool => exact inside
  | lost | chunk | args => simp [owns, chunkShare, argsShare] at inside

section Conservation
variable {ι H : Type} [DecidableEq ι] {model : Heap H} {total lost : Finset Nat} {s s' : Tasks ι H}

theorem alloc_common_takes {pool : SyscallDataBuffer H} (run : pool.allocCommon model l = some (ptr, pool')) :
    block ptr l ⊆ model.free pool.heap ∧ model.free pool'.heap = model.free pool.heap \ block ptr l := by
  simp only [SyscallDataBuffer.allocCommon, map_eq_some_iff] at run
  obtain ⟨⟨ptr', heap⟩, taken, same⟩ := run
  cases same
  exact model.alloc_takes taken

theorem dealloc_gives {pool : SyscallDataBuffer H} (run : pool.dealloc model T ptr = some pool') :
    model.free pool'.heap = model.free pool.heap ∪ block ptr (layoutNew T) := by
  simp only [SyscallDataBuffer.dealloc] at run
  split at run
  · cases run
    exact model.dealloc_returns _ _ _
  · cases run

section

variable (h : Divided model total s lost)
include h

theorem enter_divided (run : step model s (.enter t call) = some s') : Divided model total s' lost := by
  simp only [step] at run
  split at run <;> try cases run
  rename_i outside
  split at run <;> try cases run
  simp only [bind_eq_bind, bind_eq_some_iff] at run
  obtain ⟨⟨chunk, pool⟩, taken, same⟩ := run
  cases same
  obtain ⟨within, left⟩ := alloc_common_takes taken
  refine ⟨?_, h.count⟩
  simp only [Tasks.become, left]
  refine shares_moved h.shares (k := .pool) (l := .chunk t) ⟨by simp, within, rfl, ?_, ?_⟩
  · simp [owns, chunkShare, outside, chunkLayout]
  intro _ pool taken
  exact owns_update (fun e => absurd e pool) (fun _ => rfl) (fun e => absurd e taken) fun _ => by
    simp [argsShare, outside]

theorem request_divided (run : step model s (.request t) = some s') : Divided model total s' lost := by
  simp only [step] at run
  split at run <;> try cases run
  rename_i held
  simp only [bind_eq_bind, bind_eq_some_iff] at run
  obtain ⟨_, _, ⟨args, pool⟩, taken, _, _, same⟩ := run
  cases same
  obtain ⟨within, left⟩ := alloc_common_takes taken
  refine ⟨?_, h.count⟩
  simp only [Tasks.become, left]
  refine shares_moved h.shares (k := .pool) (l := .args t) ⟨by simp, within, rfl, ?_, ?_⟩
  · simp [owns, argsShare, held]
  intro _ pool taken
  exact owns_update (fun e => absurd e pool) (fun _ => rfl) (fun _ => by simp [chunkShare, held])
    fun e => absurd e taken

theorem respond_divided (run : step model s (.respond t) = some s') : Divided model total s' lost := by
  simp only [step] at run
  split at run <;> cases run
  rename_i call chunk args waiting
  have same : owns (model.free s.pool.heap) lost (Function.update s.phase t (.answered call chunk args)) =
      owns (model.free s.pool.heap) lost s.phase :=
    funext fun _ => owns_update (fun _ => rfl) (fun _ => rfl) (fun _ => by rw [waiting]; rfl)
      (fun _ => by rw [waiting]; rfl)
  refine ⟨?_, h.count⟩
  simp only [Tasks.become]
  rw [same]
  exact h.shares

theorem free_chunk_divided (run : step model s (.freeChunk t) = some s') :
    Divided model total s' lost := by
  simp only [step] at run
  split at run <;> try cases run
  rename_i call chunk args answered
  simp only [bind_eq_bind, bind_eq_some_iff] at run
  obtain ⟨pool, given, same⟩ := run
  cases same
  refine ⟨?_, h.count⟩
  simp only [Tasks.become, dealloc_gives given]
  refine shares_moved h.shares (k := .chunk t) (l := .pool) ⟨by simp, ?_, ?_, rfl, ?_⟩
  · rw [owns, answered]
    exact byte_block_subset
  · simp [owns, chunkShare, answered]
  intro _ given pool
  exact owns_update (fun e => absurd e pool) (fun _ => rfl) (fun e => absurd e given) fun _ => by
    simp [argsShare, answered]

theorem free_args_divided (run : step model s (.freeArgs t) = some s') : Divided model total s' lost := by
  simp only [step] at run
  split at run <;> try cases run
  rename_i call chunk args released
  simp only [bind_eq_bind, bind_eq_some_iff] at run
  obtain ⟨pool, given, same⟩ := run
  cases same
  refine ⟨?_, h.count⟩
  simp only [Tasks.become, dealloc_gives given]
  refine shares_moved h.shares (k := .args t) (l := .pool) ⟨by simp, ?_, ?_, rfl, ?_⟩
  · simp [owns, argsShare, released]
  · simp [owns, argsShare, released]
  intro _ given pool
  exact owns_update (fun e => absurd e pool) (fun _ => rfl) (fun _ => by simp [chunkShare, released])
    fun e => absurd e given

theorem leave_divided (run : step model s (.leave t) = some s') : ∃ lost', Divided model total s' lost' := by
  simp only [step] at run
  split at run <;> cases run
  rename_i call chunk released
  have moved : Moved (owns (model.free s.pool.heap) lost s.phase)
      (owns (model.free s.pool.heap) (lost ∪ chunkShare (s.phase t)) (Function.update s.phase t .outside))
      (.chunk t) .lost (chunkShare (s.phase t)) := by
    refine ⟨by simp, fun _ inside => inside, by simp [owns, chunkShare], rfl, ?_⟩
    intro _ given lose
    exact owns_update (fun _ => rfl) (fun e => absurd e lose) (fun e => absurd e given) fun _ => by
      simp [argsShare, released]
  refine ⟨lost ∪ chunkShare (s.phase t), shares_moved h.shares moved, ?_⟩
  have grown := taker_card h.shares moved
  simp only [owns] at grown
  rw [grown, h.count, released]
  simp [chunkShare, leak_card]

theorem step_divided (run : step model s a = some s') : ∃ lost', Divided model total s' lost' := by
  cases a with
  | enter t call => exact ⟨_, enter_divided h run⟩
  | request t => exact ⟨_, request_divided h run⟩
  | respond t => exact ⟨_, respond_divided h run⟩
  | freeChunk t => exact ⟨_, free_chunk_divided h run⟩
  | freeArgs t => exact ⟨_, free_args_divided h run⟩
  | leave t => exact leave_divided h run

end

/-- After completed calls the free bytes are those from before exactly when no call was
    longer than 8 bytes; each longer call has taken `leak` bytes out of the pool for good. -/
theorem pool_conserved_iff {pool : SyscallDataBuffer H}
    (reach : Reachable (forwarded model pool) s) (idle : ∀ t, s.phase t = .outside) :
    (model.free s.pool.heap = model.free pool.heap ↔ ∀ call ∈ s.completed, call.len ≤ 8) ∧
    model.free s.pool.heap ⊆ model.free pool.heap ∧
    (model.free pool.heap).card = (model.free s.pool.heap).card + (s.completed.map leak).sum := by
  have inv : ∃ lost, Divided model (model.free pool.heap) s lost := by
    apply reachable_invariant (fun s => ∃ lost, Divided model (model.free pool.heap) s lost) _ _ reach
    · rintro first rfl
      exact ⟨∅, start_divided model pool⟩
    · rintro s a s' ⟨lost, h⟩ run
      exact step_divided h run
  obtain ⟨lost, h⟩ := inv
  have card : (model.free pool.heap).card = (model.free s.pool.heap).card + (s.completed.map leak).sum := by
    rw [← h.count]
    apply two_shares_card h.shares (k := .pool) (l := .lost) (by simp)
    intro m pool lose
    cases m with
    | pool => exact absurd rfl pool
    | lost => exact absurd rfl lose
    | chunk t => simp [owns, idle t, chunkShare]
    | args t => simp [owns, idle t, argsShare]
  have subset : model.free s.pool.heap ⊆ model.free pool.heap := share_subset h.shares .pool
  refine ⟨?_, subset, card⟩
  have none : (s.completed.map leak).sum = 0 ↔ ∀ call ∈ s.completed, call.len ≤ 8 := by
    simp [List.sum_eq_zero_iff_forall_eq_nat, leak_zero_iff]
  rw [← none]
  constructor
  · intro same
    rw [same] at card
    omega
  · intro zero
    exact Finset.eq_of_subset_of_card_le subset (by omega)

end Conservation

/-- A heap that serves the lowest aligned block below `bound`. -/
def firstFit (bound : Nat) : Heap (Finset Nat) where
  free h := h
  alloc h l :=
    ((List.range bound).find? fun ptr => ptr % l.blockSize = 0 ∧ block ptr l ⊆ h).map
      fun ptr => (ptr, h \ block ptr l)
  dealloc h ptr l := h ∪ block ptr l
  alloc_takes := by
    intro h l ptr h' run
    obtain ⟨found, serves, same⟩ := Option.map_eq_some_iff.mp run
    cases same
    have fits := List.find?_some serves
    simp only [decide_eq_true_eq] at fits
    exact ⟨fits.2, rfl⟩
  dealloc_returns _ _ _ := rfl

def smallPool : SyscallDataBuffer (Finset Nat) := ⟨64, 64, Finset.Ico 64 128⟩

def oneCall (call : Call) : Option (Tasks Unit (Finset Nat)) :=
  [Step.enter () call, .request (), .respond (), .freeChunk (), .freeArgs (), .leave ()].foldlM
    (step (firstFit 128)) ⟨smallPool, fun _ => .outside, []⟩

def afterCall (call : Call) : Option (Finset Nat × List Call × Phase) :=
  (oneCall call).map fun s => (s.pool.heap, s.completed, s.phase ())

theorem after_call_reachable (ran : afterCall call = some (free, done, .outside)) :
    ∃ s : Tasks Unit (Finset Nat), Reachable (forwarded (firstFit 128) smallPool) s ∧
      (∀ t, s.phase t = .outside) ∧ s.completed = done ∧ s.pool.heap = free := by
  obtain ⟨s, run, same⟩ := map_eq_some_iff.mp ran
  simp only [Prod.mk.injEq] at same
  obtain ⟨heap, completed, idle⟩ := same
  have start : Reachable (forwarded (firstFit 128) smallPool)
      (⟨smallPool, fun _ => .outside, []⟩ : Tasks Unit (Finset Nat)) := reachable_start rfl
  have reach := reachable_follow (fun _ _ _ step => step) start run
  exact ⟨s, reach, fun _ => idle, completed, heap⟩

theorem short_write_conserved :
    ∃ s : Tasks Unit (Finset Nat), Reachable (forwarded (firstFit 128) smallPool) s ∧
      (∀ t, s.phase t = .outside) ∧ s.completed = [⟨.sysWrite, 8⟩] ∧
      (firstFit 128).free s.pool.heap = (firstFit 128).free smallPool.heap := by
  obtain ⟨s, reach, idle, completed, _⟩ := after_call_reachable
    (by decide +kernel : afterCall ⟨.sysWrite, 8⟩ = some (Finset.Ico 64 128, [⟨.sysWrite, 8⟩], .outside))
  refine ⟨s, reach, idle, completed, (pool_conserved_iff reach idle).1.mpr ?_⟩
  rw [completed]
  decide

/-- A write of 9 bytes takes a block of 16 and gives back 8 of them. -/
theorem nine_byte_write_leaks :
    ∃ s : Tasks Unit (Finset Nat), Reachable (forwarded (firstFit 128) smallPool) s ∧
      (∀ t, s.phase t = .outside) ∧ s.completed = [⟨.sysWrite, 9⟩] ∧
      (firstFit 128).free s.pool.heap = (firstFit 128).free smallPool.heap \ Finset.Ico 72 80 ∧
      (firstFit 128).free s.pool.heap ≠ (firstFit 128).free smallPool.heap := by
  obtain ⟨s, reach, idle, completed, heap⟩ := after_call_reachable
    (by decide +kernel : afterCall ⟨.sysWrite, 9⟩ =
      some (Finset.Ico 64 128 \ Finset.Ico 72 80, [⟨.sysWrite, 9⟩], .outside))
  refine ⟨s, reach, idle, completed, heap, ?_⟩
  change s.pool.heap ≠ smallPool.heap
  rw [heap]
  decide

end RtosScfDataPool
