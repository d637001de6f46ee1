import Mathlib.Order.Interval.Finset.Nat
import CompositeRtos.Lib.Transition
import CompositeRtos.Rvm.MemorySet

/-!
Physical frames and the bitmap allocator behind them. The bitmap is the set of its free
indices: it answers a request with any range of free indices whose first one is aligned as
asked for. The address of a frame adds the base of the pool, and nothing aligns the base to
more than a page.
-/
namespace RtosRvmFrames
open RtosTransition RtosRvmMemorySet BitVec

def capacity : Nat := 2 ^ 20

structure FrameAllocator where
  base : BitVec 64
  inner : Finset Nat

structure Frame where
  startPaddr : BitVec 64
  frameCount : Nat
  deriving DecidableEq

def pageCount (size : BitVec 64) : Nat := (alignUp size).toNat / 4096

namespace FrameAllocator

/-- The bitmap panics at an index beyond its capacity. -/
def init (base size : BitVec 64) : Option FrameAllocator :=
  if pageCount size ≤ capacity then some ⟨alignUp base, Finset.range (pageCount size)⟩ else none

def paddr (a : FrameAllocator) (idx : Nat) : BitVec 64 := BitVec.ofNat 64 idx * 4096 + a.base

def alloc (a : FrameAllocator) (idx : Nat) : BitVec 64 × FrameAllocator :=
  (a.paddr idx, { a with inner := a.inner.erase idx })

def allocContiguous (a : FrameAllocator) (frameCount idx : Nat) : BitVec 64 × FrameAllocator :=
  (a.paddr idx, { a with inner := a.inner \ Finset.Ico idx (idx + frameCount) })

def dealloc (a : FrameAllocator) (target : BitVec 64) : FrameAllocator :=
  { a with inner := insert ((target - a.base).toNat / 4096) a.inner }

def deallocContiguous (a : FrameAllocator) (target : BitVec 64) (frameCount : Nat) : FrameAllocator :=
  let startIdx := (target - a.base).toNat / 4096
  { a with inner := a.inner ∪ Finset.Ico startIdx (startIdx + frameCount) }

def dropFrame (a : FrameAllocator) (f : Frame) : FrameAllocator :=
  match f.frameCount with
  | 0 => a
  | 1 => a.dealloc f.startPaddr
  | _ => a.deallocContiguous f.startPaddr f.frameCount

end FrameAllocator

/-- A live frame with the index it was made from and the alignment that was asked for. -/
structure Live where
  frame : Frame
  first : Nat
  align : Option Nat
  deriving DecidableEq

structure Pool where
  allocator : FrameAllocator
  live : List Live

/-- The calls with the answer of the bitmap. `drop` names a live frame by its position. -/
inductive Action where
  | new (answer : Option Nat)
  | newContiguous (frameCount alignLog2 : Nat) (answer : Option Nat)
  | drop (position : Nat)

def Pool.act (p : Pool) : Action → Option Pool
  | .new none => some p
  | .new (some idx) =>
    if idx ∈ p.allocator.inner then
      let (start, rest) := p.allocator.alloc idx
      some ⟨rest, ⟨⟨start, 1⟩, idx, none⟩ :: p.live⟩
    else none
  | .newContiguous _ _ none => some p
  | .newContiguous frameCount alignLog2 (some idx) =>
    if 1 ≤ frameCount ∧ Finset.Ico idx (idx + frameCount) ⊆ p.allocator.inner ∧ 2 ^ alignLog2 ∣ idx then
      let (start, rest) := p.allocator.allocContiguous frameCount idx
      some ⟨rest, ⟨⟨start, frameCount⟩, idx, some alignLog2⟩ :: p.live⟩
    else none
  | .drop position =>
    (p.live[position]?).map fun x => ⟨p.allocator.dropFrame x.frame, p.live.eraseIdx position⟩

def allocating (base size : BitVec 64) : Machine Pool Action where
  start p := ∃ a, FrameAllocator.init base size = some a ∧ p = ⟨a, []⟩
  next p c q := p.act c = some q

def Frame.Contains (f : Frame) (addr : Nat) : Prop :=
  f.startPaddr.toNat ≤ addr ∧ addr < f.startPaddr.toNat + f.frameCount * 4096

structure Right (base size : BitVec 64) (p : Pool) : Prop where
  apart : p.live.Pairwise fun x y => ∀ addr, ¬ (x.frame.Contains addr ∧ y.frame.Contains addr)
  inside : ∀ x ∈ p.live, ∀ addr, x.frame.Contains addr → base.toNat ≤ addr ∧ addr < base.toNat + size.toNat
  aligned : ∀ x ∈ p.live, ∀ a, x.align = some a → 4096 <<< a ∣ x.frame.startPaddr.toNat

def BaseAligned (base : BitVec 64) : Action → Prop
  | .newContiguous _ alignLog2 _ => 4096 <<< alignLog2 ∣ base.toNat
  | _ => True

/-- The pool ends below the end of the address space, also when both ends are rounded up. -/
def Addressable (base size : BitVec 64) : Prop := base.toNat + size.toNat + 2 * 4096 ≤ 2 ^ 64

def WholePages (base size : BitVec 64) : Prop := 4096 ∣ base.toNat ∧ 4096 ∣ size.toNat

def Live.indices (x : Live) : Finset Nat := Finset.Ico x.first (x.first + x.frame.frameCount)

/-- The indices of the live frames and the free ones do not overlap, and every live frame is
    where its index says. -/
structure Kept (base size : BitVec 64) (p : Pool) : Prop where
  based : p.allocator.base = alignUp base
  free : p.allocator.inner ⊆ Finset.range (pageCount size)
  apart : p.live.Pairwise fun x y => Disjoint x.indices y.indices
  taken : ∀ x ∈ p.live, Disjoint x.indices p.allocator.inner
  bounded : ∀ x ∈ p.live, x.indices ⊆ Finset.range (pageCount size)
  start : ∀ x ∈ p.live, x.frame.startPaddr = p.allocator.paddr x.first
  counted : ∀ x ∈ p.live, 1 ≤ x.frame.frameCount
  aligned : ∀ x ∈ p.live, ∀ a, x.align = some a → 2 ^ a ∣ x.first

theorem align_up_value (small : v.toNat + 4096 ≤ 2 ^ 64) : (alignUp v).toNat = (v.toNat + 4095) / 4096 * 4096 := by
  rw [align_up_floor, Nat.mod_eq_of_lt (by omega)]
  rfl

theorem paddr_value (fits : Addressable base size) {a : FrameAllocator} (based : a.base = alignUp base)
    (bound : idx < pageCount size) : (a.paddr idx).toNat = (alignUp base).toNat + 4096 * idx := by
  unfold Addressable at fits
  have base_value := align_up_value (v := base) (by omega)
  have size_value := align_up_value (v := size) (by omega)
  unfold pageCount at bound
  have product : (BitVec.ofNat 64 idx * 4096).toNat = 4096 * idx := by
    rw [toNat_mul, toNat_ofNat, show (4096 : BitVec 64).toNat = 4096 from rfl]
    omega
  rw [FrameAllocator.paddr, based, toNat_add, product]
  omega

theorem index_of_paddr (fits : Addressable base size) {a : FrameAllocator} (based : a.base = alignUp base)
    (bound : idx < pageCount size) : (a.paddr idx - a.base).toNat / 4096 = idx := by
  have value := paddr_value fits based bound
  rw [toNat_sub, value, based]
  omega

theorem kept_init (start : FrameAllocator.init base size = some a) : Kept base size ⟨a, []⟩ := by
  unfold FrameAllocator.init at start
  split at start
  · cases start
    exact ⟨rfl, Finset.Subset.refl _, List.Pairwise.nil, by simp, by simp, by simp, by simp, by simp⟩
  · cases start

theorem kept_add (inv : Kept base size p) (free : x.indices ⊆ p.allocator.inner)
    (left : rest = p.allocator.inner \ x.indices) (start : x.frame.startPaddr = p.allocator.paddr x.first)
    (counted : 1 ≤ x.frame.frameCount) (aligned : ∀ a, x.align = some a → 2 ^ a ∣ x.first) :
    Kept base size ⟨{ p.allocator with inner := rest }, x :: p.live⟩ := by
  subst left
  refine ⟨inv.based, Finset.sdiff_subset.trans inv.free, ?_, ?_, ?_, ?_, ?_, ?_⟩
  · refine List.pairwise_cons.mpr ⟨?_, inv.apart⟩
    intro y member
    exact ((inv.taken y member).mono_right free).symm
  · intro y member
    rcases List.mem_cons.mp member with rfl | old
    · exact Finset.disjoint_sdiff
    · exact (inv.taken y old).mono_right Finset.sdiff_subset
  · intro y member
    rcases List.mem_cons.mp member with rfl | old
    · exact free.trans inv.free
    · exact inv.bounded y old
  · intro y member
    rcases List.mem_cons.mp member with rfl | old
    · exact start
    · exact inv.start y old
  · intro y member
    rcases List.mem_cons.mp member with rfl | old
    · exact counted
    · exact inv.counted y old
  · intro y member
    rcases List.mem_cons.mp member with rfl | old
    · exact aligned
    · exact inv.aligned y old

section

variable (fits : Addressable base size)
include fits

theorem drop_frees (inv : Kept base size p) (member : x ∈ p.live) :
    p.allocator.dropFrame x.frame = { p.allocator with inner := p.allocator.inner ∪ x.indices } := by
  have counted := inv.counted x member
  have here : x.first ∈ x.indices := Finset.mem_Ico.mpr ⟨Nat.le_refl _, by omega⟩
  have bound := Finset.mem_range.mp (inv.bounded x member here)
  have index : (x.frame.startPaddr - p.allocator.base).toNat / 4096 = x.first := by
    rw [inv.start x member]
    exact index_of_paddr fits inv.based bound
  unfold FrameAllocator.dropFrame
  split
  · omega
  · rename_i one
    rw [FrameAllocator.dealloc, index, Live.indices, one, Nat.Ico_succ_singleton, Finset.union_comm,
      Finset.singleton_union]
  · rw [FrameAllocator.deallocContiguous, index]
    rfl

theorem kept_drop (inv : Kept base size p) (found : p.live[k]? = some x) :
    Kept base size ⟨p.allocator.dropFrame x.frame, p.live.eraseIdx k⟩ := by
  have member := List.mem_of_getElem? found
  have sub : (p.live.eraseIdx k).Sublist p.live := List.eraseIdx_sublist ..
  have others : ∀ y ∈ p.live.eraseIdx k, Disjoint y.indices x.indices := by
    intro y rest
    obtain ⟨j, bound, other, rfl⟩ := List.mem_eraseIdx_iff_getElem.mp rest
    obtain ⟨k_bound, same⟩ := List.getElem?_eq_some_iff.mp found
    rcases Nat.lt_or_gt_of_ne other with below | above
    · have apart := List.pairwise_iff_getElem.mp inv.apart j k bound k_bound below
      rw [same] at apart
      exact apart
    have apart := List.pairwise_iff_getElem.mp inv.apart k j k_bound bound above
    rw [same] at apart
    exact apart.symm
  rw [drop_frees fits inv member]
  refine ⟨inv.based, ?_, inv.apart.sublist sub, ?_, ?_, ?_, ?_, ?_⟩
  · exact Finset.union_subset inv.free (inv.bounded x member)
  · intro y rest
    exact Finset.disjoint_union_right.mpr ⟨inv.taken y (sub.subset rest), others y rest⟩
  · intro y rest
    exact inv.bounded y (sub.subset rest)
  · intro y rest
    exact inv.start y (sub.subset rest)
  · intro y rest
    exact inv.counted y (sub.subset rest)
  · intro y rest
    exact inv.aligned y (sub.subset rest)

theorem kept_act (inv : Kept base size p) (step : p.act c = some q) :
    Kept base size q := by
  cases c with
  | new answer =>
    cases answer with
    | none =>
      cases step
      exact inv
    | some idx =>
      simp only [Pool.act] at step
      split at step
      · rename_i free
        cases step
        have single : (⟨⟨p.allocator.paddr idx, 1⟩, idx, none⟩ : Live).indices = {idx} := Nat.Ico_succ_singleton idx
        refine kept_add inv ?_ ?_ rfl (Nat.le_refl 1) (by simp)
        · rw [FrameAllocator.alloc, single]
          exact Finset.singleton_subset_iff.mpr free
        · rw [FrameAllocator.alloc, single, Finset.sdiff_singleton_eq_erase]
      · cases step
  | newContiguous frameCount alignLog2 answer =>
    cases answer with
    | none =>
      cases step
      exact inv
    | some idx =>
      simp only [Pool.act] at step
      split at step
      · rename_i answered
        obtain ⟨counted, free, aligned⟩ := answered
        cases step
        refine kept_add inv free rfl rfl counted ?_
        intro a asked
        cases asked
        exact aligned
      · cases step
  | drop k =>
    obtain ⟨x, found, rfl⟩ := Option.map_eq_some_iff.mp step
    exact kept_drop fits inv found

theorem kept_reachable (run : Reachable (allocating base size) p) :
    Kept base size p := by
  apply reachable_invariant (Kept base size) _ _ run
  · rintro p ⟨a, start, rfl⟩
    exact kept_init start
  · intro p c q inv step
    exact kept_act fits inv step

end

theorem first_bound (inv : Kept base size p) (member : x ∈ p.live) : x.first < pageCount size := by
  have counted := inv.counted x member
  have here : x.first ∈ x.indices := Finset.mem_Ico.mpr ⟨Nat.le_refl _, by omega⟩
  exact Finset.mem_range.mp (inv.bounded x member here)

theorem whole_pool (whole : WholePages base size) : alignUp base = base ∧ pageCount size * 4096 = size.toNat := by
  obtain ⟨⟨b, base_pages⟩, ⟨c, size_pages⟩⟩ := whole
  have base_value := align_up_value (v := base) (by omega)
  have size_value := align_up_value (v := size) (by omega)
  refine ⟨eq_of_toNat_eq (by omega), ?_⟩
  unfold pageCount
  omega

section

variable (fits : Addressable base size)
include fits

theorem start_value (inv : Kept base size p) (member : x ∈ p.live) :
    x.frame.startPaddr.toNat = (alignUp base).toNat + 4096 * x.first := by
  rw [inv.start x member]
  exact paddr_value fits inv.based (first_bound inv member)

theorem contains_index (inv : Kept base size p) (member : x ∈ p.live) (byte : x.frame.Contains addr) :
    (alignUp base).toNat ≤ addr ∧ (addr - (alignUp base).toNat) / 4096 ∈ x.indices := by
  have start := start_value fits inv member
  obtain ⟨low, high⟩ := byte
  refine ⟨by omega, Finset.mem_Ico.mpr ⟨?_, ?_⟩⟩
  · omega
  · omega

theorem frames_apart (inv : Kept base size p) :
    p.live.Pairwise fun x y => ∀ addr, ¬ (x.frame.Contains addr ∧ y.frame.Contains addr) := by
  apply inv.apart.imp_of_mem
  rintro x y x_member y_member apart addr ⟨in_x, in_y⟩
  have index := (contains_index fits inv x_member in_x).2
  have index' := (contains_index fits inv y_member in_y).2
  exact Finset.disjoint_left.mp apart index index'

theorem frames_inside (whole : WholePages base size) (inv : Kept base size p)
    (member : x ∈ p.live) (byte : x.frame.Contains addr) :
    base.toNat ≤ addr ∧ addr < base.toNat + size.toNat := by
  obtain ⟨same, pages⟩ := whole_pool whole
  obtain ⟨low, index⟩ := contains_index fits inv member byte
  have bound := Finset.mem_range.mp (inv.bounded x member index)
  rw [same] at low bound
  omega

theorem start_aligned_iff (inv : Kept base size p) (member : x ∈ p.live)
    (asked : x.align = some a) : 4096 <<< a ∣ x.frame.startPaddr.toNat ↔ 4096 <<< a ∣ (alignUp base).toNat := by
  have index : 4096 <<< a ∣ 4096 * x.first := by
    rw [Nat.shiftLeft_eq]
    exact Nat.mul_dvd_mul_left 4096 (inv.aligned x member a asked)
  rw [start_value fits inv member]
  exact (Nat.dvd_add_iff_left index).symm

theorem right_of_kept (whole : WholePages base size) (inv : Kept base size p)
    (asked : ∀ x ∈ p.live, ∀ a, x.align = some a → 4096 <<< a ∣ base.toNat) : Right base size p where
  apart := frames_apart fits inv
  inside := fun _ member _ byte => frames_inside fits whole inv member byte
  aligned := by
    intro x member a align
    rw [start_aligned_iff fits inv member align, (whole_pool whole).1]
    exact asked x member a align

end

theorem asked_reachable (run : Reachable ((allocating base size).guarded fun _ c => BaseAligned base c) p) :
    ∀ x ∈ p.live, ∀ a, x.align = some a → 4096 <<< a ∣ base.toNat := by
  apply reachable_invariant (fun p => ∀ x ∈ p.live, ∀ a, x.align = some a → 4096 <<< a ∣ base.toNat) _ _ run
  · rintro p ⟨_, _, rfl⟩ x member
    cases member
  rintro p c q inv ⟨ok, step⟩
  cases c with
  | new answer =>
    cases answer with
    | none =>
      cases step
      exact inv
    | some idx =>
      simp only [allocating, Pool.act] at step
      split at step
      · cases step
        intro x member a align
        rcases List.mem_cons.mp member with rfl | old
        · cases align
        · exact inv x old a align
      · cases step
  | newContiguous frameCount alignLog2 answer =>
    cases answer with
    | none =>
      cases step
      exact inv
    | some idx =>
      simp only [allocating, Pool.act] at step
      split at step
      · cases step
        intro x member a align
        rcases List.mem_cons.mp member with rfl | old
        · cases align
          exact ok
        · exact inv x old a align
      · cases step
  | drop k =>
    obtain ⟨y, _, rfl⟩ := Option.map_eq_some_iff.mp step
    intro x member
    exact inv x (List.mem_of_mem_eraseIdx member)

section AllRuns

variable {base size : BitVec 64}

def fresh (base size : BitVec 64) : Pool := ⟨⟨alignUp base, Finset.range (pageCount size)⟩, []⟩

theorem fresh_reachable (accepted : pageCount size ≤ capacity) : Reachable (allocating base size) (fresh base size) :=
  reachable_start ⟨_, if_pos accepted, rfl⟩

theorem first_frame (base : BitVec 64) (accepted : pageCount size ≤ capacity) (some_page : 0 < pageCount size)
    (a : Nat) :
    ∃ p x, Reachable (allocating base size) p ∧ x ∈ p.live ∧ x.align = some a := by
  have free : Finset.Ico 0 (0 + 1) ⊆ Finset.range (pageCount size) := by
    rw [Nat.Ico_succ_singleton]
    exact Finset.singleton_subset_iff.mpr (Finset.mem_range.mpr some_page)
  have step : (fresh base size).act (.newContiguous 1 a (some 0)) = some _ :=
    if_pos ⟨Nat.le_refl 1, free, Nat.dvd_zero _⟩
  exact ⟨_, _, reachable_next (fresh_reachable accepted) step, (.head _), rfl⟩

theorem last_frame (base : BitVec 64) (accepted : pageCount size ≤ capacity) (some_page : 0 < pageCount size) :
    ∃ p x, Reachable (allocating base size) p ∧ x ∈ p.live ∧ x.first = pageCount size - 1 ∧ x.frame.frameCount = 1 := by
  have free : pageCount size - 1 ∈ Finset.range (pageCount size) := Finset.mem_range.mpr (by omega)
  have step : (fresh base size).act (.new (some (pageCount size - 1))) = some _ := if_pos free
  exact ⟨_, _, reachable_next (fresh_reachable accepted) step, (.head _), rfl, rfl⟩

theorem zero_of_all (all : ∀ a, 4096 <<< a ∣ v) : v = 0 := by
  by_contra positive
  have least := Nat.le_of_dvd (Nat.pos_of_ne_zero positive) (all v)
  have large : v < 2 ^ v := Nat.lt_two_pow_self
  omega

theorem pool_of_right (fits : Addressable base size) (accepted : pageCount size ≤ capacity)
    (some_page : 0 < pageCount size) (always : ∀ p, Reachable (allocating base size) p → Right base size p) :
    base = 0 ∧ 4096 ∣ size.toNat := by
  have rounded : (alignUp base).toNat = 0 := by
    apply zero_of_all
    intro a
    obtain ⟨p, x, run, member, asked⟩ := first_frame base accepted some_page a
    rw [← start_aligned_iff fits (kept_reachable fits run) member asked]
    exact (always p run).aligned x member a asked
  have base_value := align_up_value (v := base) (by unfold Addressable at fits; omega)
  have size_value := align_up_value (v := size) (by unfold Addressable at fits; omega)
  have zero : base.toNat = 0 := by omega
  refine ⟨eq_of_toNat_eq zero, ?_⟩
  -- the last byte of the last frame is inside the pool
  obtain ⟨p, x, run, member, last, single⟩ := last_frame base accepted some_page
  have start := start_value fits (kept_reachable fits run) member
  have byte : x.frame.Contains (x.frame.startPaddr.toNat + 4095) := ⟨by omega, by rw [single]; omega⟩
  have inside := (always p run).inside x member _ byte
  unfold pageCount at last some_page
  omega

theorem right_of_pool (fits : Addressable base size) (pool : pageCount size = 0 ∨ base = 0 ∧ 4096 ∣ size.toNat)
    (run : Reachable (allocating base size) p) : Right base size p := by
  have inv := kept_reachable fits run
  rcases pool with none | ⟨zero, whole⟩
  · have empty : p.live = [] := by
      apply List.eq_nil_iff_forall_not_mem.mpr
      intro x member
      have bound := first_bound inv member
      omega
    rw [show p = ⟨p.allocator, []⟩ by rw [← empty]]
    exact ⟨List.Pairwise.nil, by simp, by simp⟩
  · have divides : ∀ n, n ∣ base.toNat := by
      intro n
      rw [zero]
      exact Nat.dvd_zero n
    exact right_of_kept fits ⟨divides _, whole⟩ inv fun _ _ _ _ => divides _

end AllRuns

/-- A pool of whole pages, in every run whose contiguous requests ask for no more alignment
    than the base has: the frames are right in every state. In every run at all they are so
    exactly if the pool has no page, or starts at address 0 and ends at a page boundary. -/
theorem frames_right {base size : BitVec 64} (fits : Addressable base size) (accepted : pageCount size ≤ capacity) :
    (WholePages base size → ∀ p,
        Reachable ((allocating base size).guarded fun _ c => BaseAligned base c) p → Right base size p) ∧
      ((∀ p, Reachable (allocating base size) p → Right base size p) ↔
        pageCount size = 0 ∨ base = 0 ∧ 4096 ∣ size.toNat) := by
  refine ⟨?_, ?_, ?_⟩
  · intro whole p run
    exact right_of_kept fits whole (kept_reachable fits (guarded_reachable run)) (asked_reachable run)
  · intro always
    rcases Nat.eq_zero_or_pos (pageCount size) with none | some_page
    · exact Or.inl none
    · exact Or.inr (pool_of_right fits accepted some_page always)
  · intro pool p run
    exact right_of_pool fits pool run

/-- Two frames at a multiple of 8 KiB, from a pool that starts at one. -/
theorem two_pages_aligned :
    ∃ p, Reachable (allocating 0x2000 0x6000) p ∧ p.live = [⟨⟨0x4000, 2⟩, 2, some 1⟩] ∧ Right 0x2000 0x6000 p := by
  have done : ((fresh 0x2000 0x6000).act (.newContiguous 2 1 (some 2))).map Pool.live =
      some [⟨⟨0x4000, 2⟩, 2, some 1⟩] := by decide +kernel
  obtain ⟨p, step, live⟩ := Option.map_eq_some_iff.mp done
  have fits : Addressable 0x2000 0x6000 := by unfold Addressable; decide
  have accepted : pageCount 0x6000 ≤ capacity := by decide
  have start : Reachable ((allocating 0x2000 0x6000).guarded fun _ c => BaseAligned 0x2000 c) (fresh 0x2000 0x6000) :=
    reachable_start ⟨_, if_pos accepted, rfl⟩
  have aligned : BaseAligned 0x2000 (.newContiguous 2 1 (some 2)) :=
    show 4096 <<< 1 ∣ (0x2000 : BitVec 64).toNat by decide
  have taken : ((allocating 0x2000 0x6000).guarded fun _ c => BaseAligned 0x2000 c).next (fresh 0x2000 0x6000)
      (.newContiguous 2 1 (some 2)) p := ⟨aligned, step⟩
  have run := reachable_next start taken
  exact ⟨p, guarded_reachable run, live, (frames_right fits accepted).1 ⟨by decide, by decide⟩ p run⟩

/-- A base that is aligned to a page only gives a contiguous frame that is aligned to a page
    only; and half a page at the end of the pool is handed out as a whole one. -/
theorem base_adds_its_own_alignment :
    (∃ p, Reachable (allocating 0x1000 0x4000) p ∧ p.live = [⟨⟨0x1000, 1⟩, 0, some 1⟩] ∧ ¬ Right 0x1000 0x4000 p) ∧
      ∃ p, Reachable (allocating 0x1000 0x800) p ∧ p.live = [⟨⟨0x1000, 1⟩, 0, none⟩] ∧ ¬ Right 0x1000 0x800 p := by
  constructor
  · have done : ((fresh 0x1000 0x4000).act (.newContiguous 1 1 (some 0))).map Pool.live =
        some [⟨⟨0x1000, 1⟩, 0, some 1⟩] := by decide +kernel
    obtain ⟨p, step, live⟩ := Option.map_eq_some_iff.mp done
    refine ⟨p, reachable_next (fresh_reachable (by decide)) step, live, ?_⟩
    intro right
    have aligned := right.aligned _ (by rw [live]; exact List.mem_cons_self) 1 rfl
    exact absurd aligned (by decide)
  · have done : ((fresh 0x1000 0x800).act (.new (some 0))).map Pool.live =
        some [⟨⟨0x1000, 1⟩, 0, none⟩] := by decide +kernel
    obtain ⟨p, step, live⟩ := Option.map_eq_some_iff.mp done
    refine ⟨p, reachable_next (fresh_reachable (by decide)) step, live, ?_⟩
    intro right
    have inside := right.inside _ (by rw [live]; exact List.mem_cons_self) 0x1800 ⟨by decide, by decide⟩
    exact absurd inside.2 (by decide)

end RtosRvmFrames
