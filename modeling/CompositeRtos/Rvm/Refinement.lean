import CompositeRtos.Lib.Transition
import CompositeRtos.Rvm.Layout

/-!
A memory set refines the map from addresses to the regions that contain them. Regions are
permitted when they are what the constructors build from addresses of the domain. In every
run of insertions, deletions and clearings in which no call fails for another reason than
an overlap, the stored regions are disjoint, and a query of the page table answers what the
region of the address says, whatever page sizes were chosen.
-/
namespace RtosRvmRefinement
open RtosTransition RtosOrderedMap RtosRvmPte RtosRvmPageTable RtosRvmPageTree RtosRvmMemorySet
open RtosRvmPages RtosRvmLayout BitVec

abbrev State := MemorySet × HostMemory

inductive Action where
  | insert (region : MemoryRegion)
  | delete (start : BitVec 64)
  | clear

def act (P : GenericPTE) (s : State) : Action → HvResult State
  | .insert region => s.1.insert P s.2 region
  | .delete start => s.1.delete P s.2 start
  | .clear => s.1.clear P s.2

def Rejected (s : State) : Action → Prop
  | .insert region => region.size ≠ 0 ∧ s.1.testFreeArea region = false
  | _ => False

def PermittedAction (dom : BitVec 64 → Prop) : Action → Prop
  | .insert region => Permitted dom region
  | _ => True

def machine (P : Format) (dom : BitVec 64 → Prop) : Machine State Action where
  start s := ∃ mem, MemorySet.new mem = .ok s
  next s a t := PermittedAction dom a ∧
    (act P.toGenericPTE s a = .ok t ∨ Rejected s a ∧ t = s)

/-- The abstract memory set: an address has the target and the flags of its region. -/
def translate (set : MemorySet) (va : BitVec 64) : Option (PhysAddr × MemFlags) :=
  (set.regions.entries.find? fun e => Covers e.2 va).map fun e => (target e.2 va, e.2.flags)

def Agrees : Option (PhysAddr × MemFlags) → PagingResult (PhysAddr × MemFlags × PageSize) → Prop
  | none, answer => answer = .error (.err .notMapped)
  | some (paddr, flags), answer =>
    ∃ reported size, answer = .ok (paddr, reported, size) ∧ SameAccess reported flags

def Touched (set : MemorySet) : Action → BitVec 64 → Prop
  | .insert region, va => Covers region va
  | .delete start, va => ∃ region, set.regions.lookup start.toNat = some region ∧ Covers region va
  | .clear, va => ∃ e ∈ set.regions.entries, Covers e.2 va

def Stored (set : MemorySet) (r : MemoryRegion) : Prop := (r.start.toNat, r) ∈ set.regions.entries

structure Sound (P : Format) (dom : BitVec 64 → Prop) (s : State) : Prop where
  keyed : ∀ e ∈ s.1.regions.entries, e.1 = e.2.start.toNat
  nonempty : ∀ e ∈ s.1.regions.entries, e.2.size ≠ 0
  holds : Holds P dom s.2 s.1.pt.root (Stored s.1)

/-! The overlap test looks at the two neighbours of the new region only. -/

theorem covers_iff (no_overflow : r.start.toNat + r.size.toNat < 2 ^ 64) : Covers r va ↔
      r.start.toNat ≤ va.toNat ∧ va.toNat < r.start.toNat + r.size.toNat := by
  have := va.isLt
  have := r.start.isLt
  rw [Covers, toNat_sub]
  omega

theorem size_positive {r : MemoryRegion} (nonempty : r.size ≠ 0) : 0 < r.size.toNat := by
  by_contra zero
  apply nonempty
  apply eq_of_toNat_eq
  simp only [ofNat_eq_ofNat, toNat_ofNat]
  omega

theorem start_covered (nonempty : r.size ≠ 0) : Covers r r.start := by
  rw [Covers, BitVec.sub_self]
  exact size_positive nonempty

theorem not_overlap_iff {r : MemoryRegion} (r_fits : r.start.toNat + r.size.toNat < 2 ^ 64)
    (other_fits : other.start.toNat + other.size.toNat < 2 ^ 64) :
    r.isOverlapWith other = false ↔ r.start.toNat + r.size.toNat ≤ other.start.toNat ∨
      other.start.toNat + other.size.toNat ≤ r.start.toNat := by
  simp only [MemoryRegion.isOverlapWith, Bool.not_eq_false', Bool.or_eq_true, decide_eq_true_eq,
    le_def, ge_iff_le, toNat_add_of_lt r_fits, toNat_add_of_lt other_fits]

section Step

variable {P : Format} {dom : BitVec 64 → Prop} {s : State} (sound : Sound P dom s)

include sound

theorem stored_of_mem (member : e ∈ s.1.regions.entries) : Stored s.1 e.2 := by
  rw [Stored, ← sound.keyed e member]
  exact member

theorem stored_ordered (here : Stored s.1 r) (here' : Stored s.1 r') (first : r.start.toNat < r'.start.toNat) :
    r.start.toNat + r.size.toNat ≤ r'.start.toNat := by
  by_contra beyond
  have fits := (sound.holds.permitted r here).no_overflow
  have covered : Covers r r'.start := (covers_iff fits).mpr ⟨by omega, by omega⟩
  have same := sound.holds.disjoint r r' r'.start here here' covered (start_covered (sound.nonempty _ here'))
  rw [same] at first
  exact Nat.lt_irrefl _ first

theorem free_of_test (permitted : Permitted dom region) (free : s.1.testFreeArea region = true)
    (r : MemoryRegion) (va : BitVec 64) (here : Stored s.1 r) (covered : Covers r va) : ¬ Covers region va := by
  have fits := (sound.holds.permitted r here).no_overflow
  rw [covers_iff fits] at covered
  rw [covers_iff permitted.no_overflow]
  rw [MemorySet.testFreeArea, Bool.and_eq_true] at free
  by_cases before : r.start.toNat < region.start.toNat
  · -- the region next to the new one on this side ends before it, and `r` is no later
    cases neighbour : s.1.regions.lastBefore region.start.toNat with
    | none =>
      have after := OrderedMap.last_before_none neighbour here
      omega
    | some e =>
      obtain ⟨member, ahead, latest⟩ := OrderedMap.last_before_some neighbour
      have stored := stored_of_mem sound member
      have clear := free.1
      rw [neighbour] at clear
      simp only [Bool.not_eq_true', not_overlap_iff (sound.holds.permitted _ stored).no_overflow
        permitted.no_overflow] at clear
      have key := sound.keyed e member
      rcases latest _ here before with same | earlier
      · have same_region : r = e.2 := congrArg Prod.snd same
        rw [← same_region] at clear
        omega
      · have ordered := stored_ordered sound here stored (by rw [← key]; exact earlier)
        omega
  · cases neighbour : s.1.regions.firstFrom region.start.toNat with
    | none =>
      have ahead := OrderedMap.first_from_none neighbour here
      omega
    | some e =>
      obtain ⟨member, behind, earliest⟩ := OrderedMap.first_from_some neighbour
      have stored := stored_of_mem sound member
      have positive := size_positive (sound.nonempty e member)
      have clear := free.2
      rw [neighbour] at clear
      simp only [Bool.not_eq_true', not_overlap_iff (sound.holds.permitted _ stored).no_overflow
        permitted.no_overflow] at clear
      have key := sound.keyed e member
      rcases earliest _ here (by omega) with same | later
      · have same_region : r = e.2 := congrArg Prod.snd same
        rw [← same_region] at clear
        omega
      · omega

theorem stored_insert (nonempty : region.size ≠ 0) (apart : ∀ r va, Stored s.1 r → Covers r va → ¬ Covers region va) :
    Stored ⟨s.1.regions.insert region.start.toNat region, pt⟩ = fun r => r = region ∨ Stored s.1 r := by
  funext r
  simp only [Stored, OrderedMap.mem_insert, Prod.mk.injEq, eq_iff_iff]
  constructor
  · rintro (⟨_, new⟩ | ⟨old, _⟩)
    · exact Or.inl new
    · exact Or.inr old
  rintro (rfl | old)
  · exact Or.inl ⟨rfl, rfl⟩
  refine Or.inr ⟨old, fun same_start => ?_⟩
  have at_start : r.start = region.start := eq_of_toNat_eq same_start
  apply apart r r.start old (start_covered (sound.nonempty _ old))
  rw [at_start]
  exact start_covered nonempty

theorem stored_erase (here : Stored s.1 region) :
    Stored ⟨s.1.regions.erase region.start.toNat, pt⟩ = fun r => Stored s.1 r ∧ r ≠ region := by
  funext r
  simp only [Stored, OrderedMap.mem_erase, eq_iff_iff]
  constructor
  · rintro ⟨old, other⟩
    refine ⟨old, fun same => other ?_⟩
    rw [same]
  rintro ⟨old, other⟩
  refine ⟨old, fun same_start => other ?_⟩
  have at_start : r.start = region.start := eq_of_toNat_eq same_start
  apply sound.holds.disjoint r region r.start old here (start_covered (sound.nonempty _ old))
  rw [at_start]
  exact start_covered (sound.nonempty _ here)

end Step

/-! What an action does: it keeps the invariant, and it leaves the leaves of all other
    addresses as they are. -/

structure Kept (P : Format) (dom : BitVec 64 → Prop) (s t : State) (touched : BitVec 64 → Prop) : Prop where
  sound : Sound P dom t
  answers : ∀ va, dom va → ¬ touched va →
    t.1.query P.toGenericPTE t.2 va = s.1.query P.toGenericPTE s.2 va

theorem kept_refl (sound : Sound P dom s) : Kept P dom s s touched :=
  ⟨sound, fun _ _ _ => rfl⟩

variable {P : Format} {dom : BitVec 64 → Prop} (separates : Separates dom) {s t : State}

include separates

theorem insert_kept (sound : Sound P dom s) (permitted : Permitted dom region)
    (run : s.1.insert P.toGenericPTE s.2 region = .ok t) : Kept P dom s t (Covers region) := by
  rw [MemorySet.insert] at run
  split at run
  · cases run
    exact kept_refl sound
  rename_i nonempty
  split at run
  · cases run
  rename_i free
  split at run
  · cases run
  rename_i pt' mem' mapping
  cases run
  have apart := free_of_test sound permitted (by simpa using free)
  obtain ⟨same_root, holds, mapped⟩ := map_region sound.holds permitted apart mapping
  refine ⟨⟨?_, ?_, ?_⟩, ?_⟩
  · intro e member
    rcases (OrderedMap.mem_insert _ _ _ e).mp member with rfl | ⟨old, _⟩
    · rfl
    · exact sound.keyed e old
  · intro e member
    rcases (OrderedMap.mem_insert _ _ _ e).mp member with rfl | ⟨old, _⟩
    · exact nonempty
    · exact sound.nonempty e old
  · rw [stored_insert sound nonempty apart, same_root]
    exact holds
  · intro va known outside
    apply query_congr sound.holds.tree (by rw [same_root]; exact holds.tree)
    intro size
    rw [same_root]
    apply mapped.elsewhere
    intro page member same
    exact outside (covers_of_same_entry separates permitted member known same)

theorem delete_kept (sound : Sound P dom s) (run : s.1.delete P.toGenericPTE s.2 start = .ok t) :
    Kept P dom s t (Touched s.1 (.delete start)) := by
  rw [MemorySet.delete] at run
  split at run
  · rename_i region found
    have member := OrderedMap.lookup_some found
    have here := stored_of_mem sound member
    have key : start.toNat = region.start.toNat := sound.keyed _ member
    obtain ⟨mem', unmapping, holds, unmapped⟩ := unmap_region separates sound.holds here
    simp only [unmapping, Except.ok.injEq] at run
    subst run
    refine ⟨⟨?_, ?_, ?_⟩, ?_⟩
    · intro e remaining
      exact sound.keyed e ((OrderedMap.mem_erase _ _ e).mp remaining).1
    · intro e remaining
      exact sound.nonempty e ((OrderedMap.mem_erase _ _ e).mp remaining).1
    · rw [key, stored_erase sound here]
      exact holds
    · intro va known outside
      apply query_congr sound.holds.tree holds.tree
      intro size
      apply unmapped.elsewhere
      intro page in_region same
      exact outside ⟨region, found, covers_of_same_entry separates (sound.holds.permitted region here)
        in_region known same⟩
  · cases run

theorem unmap_all_holds (keyed : ∀ e ∈ entries, e.1 = e.2.start.toNat)
    (sorted : entries.Pairwise fun a b => a.1 < b.1)
    (holds : Holds P dom mem pt.root fun r => (r.start.toNat, r) ∈ entries) :
    ∃ mem', MemorySet.unmapAll P.toGenericPTE pt entries mem = .ok mem' ∧
      Holds P dom mem' pt.root fun _ => False := by
  induction entries generalizing mem with
  | nil => exact ⟨mem, rfl, by simpa using holds⟩
  | cons e rest ih =>
    obtain ⟨ahead, sorted_rest⟩ := List.pairwise_cons.mp sorted
    obtain ⟨key, region⟩ := e
    have at_key : key = region.start.toNat := keyed _ (.head _)
    have here : (region.start.toNat, region) ∈ (key, region) :: rest := by simp [at_key]
    obtain ⟨mem1, unmapping, holds1, _⟩ := unmap_region separates holds here
    have remaining : (fun r => (r.start.toNat, r) ∈ (key, region) :: rest ∧ r ≠ region) =
        fun r : MemoryRegion => (r.start.toNat, r) ∈ rest := by
      funext r
      simp only [List.mem_cons, Prod.mk.injEq, eq_iff_iff]
      constructor
      · rintro ⟨⟨_, same⟩ | later, other⟩
        · exact absurd same other
        · exact later
      intro later
      refine ⟨Or.inr later, fun same => ?_⟩
      have less : key < r.start.toNat := ahead _ later
      rw [same, at_key] at less
      exact Nat.lt_irrefl _ less
    rw [remaining] at holds1
    obtain ⟨mem', run, holds'⟩ := ih (fun e later => keyed e (.tail _ later)) sorted_rest holds1
    exact ⟨mem', by rw [MemorySet.unmapAll, unmapping]; exact run, holds'⟩

theorem clear_sound (sound : Sound P dom s) (run : s.1.clear P.toGenericPTE s.2 = .ok t) : Sound P dom t := by
  obtain ⟨mem', unmapping, holds⟩ := unmap_all_holds separates sound.keyed s.1.regions.sorted sound.holds
  simp only [MemorySet.clear, unmapping, Except.ok.injEq] at run
  subst run
  have stored : Stored ⟨OrderedMap.empty, s.1.pt⟩ = fun _ => False := by
    funext r
    simp [Stored, OrderedMap.empty]
  refine ⟨by simp [OrderedMap.empty], by simp [OrderedMap.empty], ?_⟩
  rw [stored]
  exact holds

theorem query_agrees (sound : Sound P dom s) (known : dom va) :
    Agrees (translate s.1 va) (s.1.query P.toGenericPTE s.2 va) := by
  unfold translate
  cases found : s.1.regions.entries.find? fun e => decide (Covers e.2 va) with
  | none =>
    apply query_outside separates sound.holds known
    intro r here covered
    have missed := List.find?_eq_none.mp found _ here
    simp only [decide_eq_true_eq] at missed
    exact missed covered
  | some e =>
    have covered : Covers e.2 va := by simpa using List.find?_some found
    exact query_inside sound.holds (stored_of_mem sound (List.mem_of_find?_eq_some found)) covered

theorem clear_kept (sound : Sound P dom s) (run : s.1.clear P.toGenericPTE s.2 = .ok t) :
    Kept P dom s t (Touched s.1 .clear) := by
  have sound' := clear_sound separates sound run
  refine ⟨sound', fun va known outside => ?_⟩
  have before := query_outside separates sound.holds known
    (fun r here covered => outside ⟨_, here, covered⟩)
  have empty : t.1.regions.entries = [] := by
    rw [MemorySet.clear] at run
    split at run
    · cases run
    · cases run
      rfl
  have after := query_outside separates sound'.holds known (by
    intro r here
    rw [Stored, empty] at here
    cases here)
  rw [MemorySet.query, MemorySet.query, before, after]

theorem step_kept (sound : Sound P dom s) (step : (machine P dom).next s a t) :
    Kept P dom s t (Touched s.1 a) := by
  obtain ⟨permitted, ok | ⟨_, same⟩⟩ := step
  · cases a with
    | insert region => exact insert_kept separates sound permitted ok
    | delete start => exact delete_kept separates sound ok
    | clear => exact clear_kept separates sound ok
  · subst same
    exact kept_refl sound

omit separates in
theorem start_sound (start : (machine P dom).start s) : Sound P dom s := by
  obtain ⟨mem, made⟩ := start
  rw [MemorySet.new] at made
  split at made
  · cases made
  rename_i pt mem' fresh
  cases made
  obtain ⟨tree, unused⟩ := new_tree (P := P) fresh
  have nothing : ∀ r, ¬ Stored ⟨OrderedMap.empty, pt⟩ r := by
    intro r here
    cases here
  refine ⟨by simp [OrderedMap.empty], by simp [OrderedMap.empty], tree, ?_, ?_, ?_, ?_⟩
  · exact fun r here => absurd here (nothing r)
  · exact fun r _ _ here => absurd here (nothing r)
  · exact fun r here => absurd here (nothing r)
  · exact fun va size used => absurd (unused va size) used

theorem run_sound (reached : Reachable (machine P dom) s) : Sound P dom s :=
  reachable_invariant (Sound P dom) (fun _ start => start_sound start)
    (fun _ _ _ before step => (step_kept separates before step).sound) reached

theorem memory_set_refines (reached : Reachable (machine P dom) s) :
    (∀ e ∈ s.1.regions.entries, e.2.size ≠ 0) ∧
    (∀ e ∈ s.1.regions.entries, ∀ e' ∈ s.1.regions.entries, e ≠ e' →
      ∀ va, ¬ (Covers e.2 va ∧ Covers e'.2 va)) ∧
    (∀ va, dom va → Agrees (translate s.1 va) (s.1.query P.toGenericPTE s.2 va)) ∧
    (∀ a t, (machine P dom).next s a t → ∀ va, dom va → ¬ Touched s.1 a va →
      t.1.query P.toGenericPTE t.2 va = s.1.query P.toGenericPTE s.2 va) := by
  have sound := run_sound separates reached
  refine ⟨sound.nonempty, ?_, fun va known => query_agrees separates sound known, ?_⟩
  · rintro e member e' member' other va ⟨covered, covered'⟩
    have same := sound.holds.disjoint _ _ va (stored_of_mem sound member) (stored_of_mem sound member')
      covered covered'
    have same_key : e.1 = e'.1 := by
      rw [sound.keyed e member, sound.keyed e' member', same]
    exact other (Prod.ext same_key same)
  · intro a t step va known outside
    exact (step_kept separates sound step).answers va known outside

def smallMemory : HostMemory where
  bytes := fun _ => 0xa5
  free := [16, 17, 18, 19, 20, 21, 22, 23, 24]
  ascending := by decide
  window := by decide

def mixedRegion : MemoryRegion :=
  .newWithOffsetMapper 0x200000 0x200000 0x201000 (MemFlags.read ||| MemFlags.write)

omit separates in
theorem mixed_region_permitted : Permitted Canonical mixedRegion := by
  have fits : mixedRegion.start.toNat + mixedRegion.size.toNat < 2 ^ 64 := by decide
  have low : mixedRegion.start.toNat = 0x200000 := by decide
  have long : mixedRegion.size.toNat = 0x201000 := by decide
  refine ⟨by decide, offset_mapper_whole_pages _ _ _ _, fits, ?_, ?_⟩
  · intro va covered
    rw [covers_iff fits] at covered
    exact Or.inl (by omega)
  intro va covered
  rw [covers_iff fits] at covered
  have identity : mixedRegion.mapper.mapFn va = va := BitVec.sub_zero va
  rw [identity]
  omega

omit separates in
theorem mixed_pages_translate : ∃ s, Reachable (machine hostFormat Canonical) s ∧
    Agrees (some (0x2abcde, MemFlags.read ||| MemFlags.write)) (s.1.query ptEntry s.2 0x2abcde) ∧
    Agrees (some (0x400123, MemFlags.read ||| MemFlags.write)) (s.1.query ptEntry s.2 0x400123) ∧
    Agrees none (s.1.query ptEntry s.2 0x401000) := by
  have result : (((MemorySet.new smallMemory).toOption.bind fun s =>
      (act ptEntry s (.insert mixedRegion)).toOption).map fun s =>
        (translate s.1 0x2abcde, translate s.1 0x400123, translate s.1 0x401000)) =
      some (some (0x2abcde, MemFlags.read ||| MemFlags.write),
        some (0x400123, MemFlags.read ||| MemFlags.write), none) := by
    decide
  obtain ⟨s, run, seen⟩ := Option.map_eq_some_iff.mp result
  obtain ⟨first, made, inserted⟩ := Option.bind_eq_some_iff.mp run
  simp only [Prod.mk.injEq] at seen
  have reach : Reachable (machine hostFormat Canonical) s :=
    reachable_next (reachable_start ⟨smallMemory, ok_of_to_option made⟩)
      (a := .insert mixedRegion) ⟨mixed_region_permitted, Or.inl (ok_of_to_option inserted)⟩
  have agrees := (memory_set_refines canonical_separates reach).2.2.1
  refine ⟨s, reach, ?_, ?_, ?_⟩
  · rw [← seen.1]
    exact agrees _ (by decide)
  · rw [← seen.2.1]
    exact agrees _ (by decide)
  · rw [← seen.2.2]
    exact agrees _ (by decide)

end RtosRvmRefinement
