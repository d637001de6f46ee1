import Mathlib.Order.Interval.Finset.Nat
import CompositeRtos.Lib.Transition
import CompositeRtos.Nimbos.FrameAllocator

/-!
The free-list allocator as a set. A session is an allocator together with the set of the
values that were allocated and not deallocated since; the calls keep the two in step, so
every question about the allocator has its answer in the set.
-/
namespace RtosNimbosFreeSet
open RtosTransition RtosNimbosFrames

structure Session where
  allocator : FreeListAllocator
  allocated : Finset Nat

inductive Call where
  | alloc
  | dealloc (value : Nat)

/-- One call. A failed assert ends the run. -/
def Session.call (s : Session) : Call → Option Session
  | .alloc =>
    match s.allocator.alloc with
    | none => some s
    | some (value, rest) => some ⟨rest, insert value s.allocated⟩
  | .dealloc value =>
    match s.allocator.dealloc value with
    | .error _ => none
    | .ok rest => some ⟨rest, s.allocated.erase value⟩

def calls (start stop : Nat) : Machine Session Call where
  start s := s = ⟨FreeListAllocator.init start stop, ∅⟩
  next s c t := s.call c = some t

/-- `available_space` as the machine computes it: the sum with `range.end` may wrap. -/
def availableSpaceUsize (a : FreeListAllocator) : BitVec 64 :=
  BitVec.ofNat 64 a.freeList.length + BitVec.ofNat 64 a.stop - BitVec.ofNat 64 a.nextAvailable

theorem available_space_usize (ahead : a.nextAvailable ≤ a.stop) (small : a.availableSpace < 2 ^ 64) :
    (availableSpaceUsize a).toNat = a.availableSpace := by
  have sum : a.freeList.length + a.stop = a.availableSpace + a.nextAvailable := by
    simp only [FreeListAllocator.availableSpace]
    omega
  have words : availableSpaceUsize a = BitVec.ofNat 64 a.availableSpace := by
    rw [availableSpaceUsize, ← BitVec.ofNat_add, sum, BitVec.ofNat_add, BitVec.add_sub_cancel]
  rw [words, BitVec.toNat_ofNat, Nat.mod_eq_of_lt small]

theorem alloc_range {a : FreeListAllocator} (h : a.alloc = some (v, a')) :
    a'.start = a.start ∧ a'.stop = a.stop ∧ a.nextAvailable ≤ a'.nextAvailable := by
  obtain ⟨start, stop, ⟨_, next⟩ | ⟨_, _, rfl, _, next⟩⟩ := FreeListAllocator.alloc_cases h
  · exact ⟨start, stop, Nat.le_of_eq next.symm⟩
  · exact ⟨start, stop, by omega⟩

theorem dealloc_range {a : FreeListAllocator} (h : a.dealloc value = .ok a') :
    a.Issued value ∧ a'.start = a.start ∧ a'.stop = a.stop ∧ a'.nextAvailable = a.nextAvailable := by
  unfold FreeListAllocator.dealloc at h
  split at h
  · cases h
  split at h
  · cases h
  split at h
  · cases h
  rename_i low high unlisted
  cases h
  exact ⟨⟨by omega, by omega, unlisted⟩, rfl, rfl, rfl⟩

structure Represents (start stop : Nat) (s : Session) : Prop where
  first : s.allocator.start = start
  last : s.allocator.stop = stop
  low : start ≤ s.allocator.nextAvailable
  high : s.allocator.nextAvailable ≤ stop
  members : ∀ v, v ∈ s.allocated ↔ s.allocator.Issued v
  counted : s.allocator.availableSpace + s.allocated.card = stop - start

section Ranges

variable {start stop : Nat}

theorem represents_init (valid : start ≤ stop) : Represents start stop ⟨FreeListAllocator.init start stop, ∅⟩ where
  first := rfl
  last := rfl
  low := Nat.le_refl _
  high := valid
  members := by
    intro v
    simp only [FreeListAllocator.Issued, FreeListAllocator.init, Finset.notMem_empty, false_iff]
    omega
  counted := by simp [FreeListAllocator.availableSpace, FreeListAllocator.init]

theorem represents_alloc (inv : Represents start stop s) (h : s.allocator.alloc = some (v, rest)) :
    v ∉ s.allocated ∧ Represents start stop ⟨rest, insert v s.allocated⟩ := by
  obtain ⟨first, last, ahead⟩ := alloc_range h
  have sane : s.allocator.start ≤ s.allocator.nextAvailable := by
    rw [inv.first]
    exact inv.low
  obtain ⟨issued, space⟩ := FreeListAllocator.alloc_issued sane h
  have fresh : v ∉ s.allocated := by
    intro member
    have available := (FreeListAllocator.alloc_some h).1
    exact FreeListAllocator.issued_unavailable ((inv.members v).mp member) available
  refine ⟨fresh, ?_⟩
  have low := inv.low
  have high := inv.high
  have bound := rest.ordered
  have counted := inv.counted
  refine ⟨first.trans inv.first, last.trans inv.last, by simp only; omega, ?_, ?_, ?_⟩
  · rw [first, last, inv.first, inv.last] at bound
    simp only
    omega
  · intro u
    rw [issued u, Finset.mem_insert, inv.members u]
    exact or_comm
  · simp only [Finset.card_insert_of_notMem fresh]
    omega

theorem represents_dealloc (inv : Represents start stop s) (h : s.allocator.dealloc v = .ok rest) :
    Represents start stop ⟨rest, s.allocated.erase v⟩ := by
  obtain ⟨handed, first, last, ahead⟩ := dealloc_range h
  obtain ⟨rest', same, issued, space⟩ := FreeListAllocator.dealloc_issued handed
  have equal : rest' = rest := Except.ok.inj (same.symm.trans h)
  subst equal
  have member : v ∈ s.allocated := (inv.members v).mpr handed
  have low := inv.low
  have high := inv.high
  have counted := inv.counted
  have positive := Finset.card_pos.mpr ⟨v, member⟩
  refine ⟨first.trans inv.first, last.trans inv.last, by simp only; omega, by simp only; omega, ?_, ?_⟩
  · intro u
    rw [issued u, Finset.mem_erase, inv.members u]
    exact and_comm
  · simp only [Finset.card_erase_of_mem member]
    omega

theorem represents_call (inv : Represents start stop s) (step : s.call c = some t) : Represents start stop t := by
  cases c with
  | alloc =>
    simp only [Session.call] at step
    cases found : s.allocator.alloc with
    | none =>
      rw [found] at step
      cases step
      exact inv
    | some result =>
      obtain ⟨v, rest⟩ := result
      rw [found] at step
      cases step
      exact (represents_alloc inv found).2
  | dealloc v =>
    simp only [Session.call] at step
    cases freed : s.allocator.dealloc v with
    | error e =>
      rw [freed] at step
      cases step
    | ok rest =>
      rw [freed] at step
      cases step
      exact represents_dealloc inv freed

theorem represents_reachable (valid : start ≤ stop) (run : Reachable (calls start stop) s) :
    Represents start stop s := by
  apply reachable_invariant (Represents start stop) _ _ run
  · intro s first
    cases first
    exact represents_init valid
  · intro s c t inv step
    exact represents_call inv step

namespace Represents

variable {s : Session} (inv : Represents start stop s)
include inv

theorem subset : s.allocated ⊆ Finset.Ico start stop := by
  intro v member
  obtain ⟨low, high, _⟩ := (inv.members v).mp member
  have := inv.high
  rw [inv.first] at low
  exact Finset.mem_Ico.mpr ⟨low, by omega⟩

theorem alloc_value (h : s.allocator.alloc = some (v, rest)) : v ∈ Finset.Ico start stop ∧ v ∉ s.allocated := by
  obtain ⟨fresh, after⟩ := represents_alloc inv h
  exact ⟨after.subset (Finset.mem_insert_self v _), fresh⟩

theorem alloc_none_iff : s.allocator.alloc = none ↔ s.allocated = Finset.Ico start stop := by
  constructor
  · intro h
    have space := FreeListAllocator.alloc_none h
    have counted := inv.counted
    apply Finset.eq_of_subset_of_card_le inv.subset
    rw [Nat.card_Ico]
    omega
  intro whole
  cases found : s.allocator.alloc with
  | none => rfl
  | some result =>
    obtain ⟨inside, fresh⟩ := inv.alloc_value found
    rw [whole] at fresh
    exact absurd inside fresh

theorem dealloc_error_iff (v : Nat) : (∃ e, s.allocator.dealloc v = .error e) ↔ v ∉ s.allocated := by
  constructor
  · rintro ⟨e, h⟩ member
    obtain ⟨rest, ok, _⟩ := FreeListAllocator.dealloc_issued ((inv.members v).mp member)
    rw [h] at ok
    cases ok
  intro outside
  cases freed : s.allocator.dealloc v with
  | error e => exact ⟨e, rfl⟩
  | ok rest =>
    have handed := (dealloc_range freed).1
    exact absurd ((inv.members v).mpr handed) outside

end Represents

/-- In every run the allocator answers as the set does: it is exhausted when the set is the
    whole range, hands out a value that is not in the set, accepts back exactly the values
    of the set, and counts what the set leaves. -/
theorem free_list_is_set (valid : start ≤ stop) (usize : stop < 2 ^ 64) {s : Session}
    (run : Reachable (calls start stop) s) :
    (s.allocator.alloc = none ↔ s.allocated = Finset.Ico start stop) ∧
      (∀ v rest, s.allocator.alloc = some (v, rest) → v ∈ Finset.Ico start stop ∧ v ∉ s.allocated) ∧
      (∀ v, (∃ e, s.allocator.dealloc v = .error e) ↔ v ∉ s.allocated) ∧
      s.allocated ⊆ Finset.Ico start stop ∧
      (availableSpaceUsize s.allocator).toNat = (Finset.Ico start stop).card - s.allocated.card := by
  have inv := represents_reachable valid run
  refine ⟨inv.alloc_none_iff, ?_, inv.dealloc_error_iff, inv.subset, ?_⟩
  · intro v rest h
    exact inv.alloc_value h
  have counted := inv.counted
  have ahead : s.allocator.nextAvailable ≤ s.allocator.stop := by
    rw [inv.last]
    exact inv.high
  rw [available_space_usize ahead (by omega), Nat.card_Ico]
  omega

end Ranges

/-- Two values are allocated from a range of three and the first one is given back. -/
theorem one_of_three_allocated :
    ∃ s : Session, Reachable (calls 7 10) s ∧ s.allocated = {8} ∧
      (availableSpaceUsize s.allocator).toNat = 2 ∧ (∃ e, s.allocator.dealloc 7 = .error e) := by
  let path : List Call := [.alloc, .alloc, .dealloc 7]
  let first : Session := ⟨FreeListAllocator.init 7 10, ∅⟩
  have done : ((path.foldlM Session.call first).map Session.allocated) = some {8} := by decide +kernel
  obtain ⟨s, ended, set⟩ := Option.map_eq_some_iff.mp done
  have reached : Reachable (calls 7 10) s :=
    reachable_follow (fun _ _ _ step => step) (reachable_start rfl) ended
  obtain ⟨_, _, freed, _, space⟩ := free_list_is_set (by decide) (by decide) reached
  rw [set] at space freed
  exact ⟨s, reached, set, space, (freed 7).mpr (by decide)⟩

end RtosNimbosFreeSet
