import CompositeRtos.Rvm.FailedUpdate

/-!
A memory set and its clone. `clone_from` copies the root table only, so both page tables go
through the same tables below it, and what the clone does to a page under an entry of the
root that was there when it was made is done to the original too. The clone takes over the
list of regions. When it is dropped it unmaps them, and the original is left without the
pages of its own regions. Only an original without regions does not notice.
-/
namespace RtosRvmCloneSharing
open RtosTransition RtosOrderedMap RtosFrameMemory RtosRadixWalk RtosRvmPte RtosRvmPageTable RtosRvmPageTree
open RtosRvmMemorySet RtosRvmLayout RtosRvmRefinement RtosRvmConfinement RtosRvmFailedUpdate

def copyTable (mem : HostMemory) (dst src : Nat) : HostMemory :=
  { mem with bytes := fun a => if a / 4096 = dst then mem.bytes (4096 * src + a % 4096) else mem.bytes a }

def cloneFrom (mem : HostMemory) (src : PageTable) : HvResult (PageTable × HostMemory) :=
  match PageTable.new mem with
  | .error fault => .error fault
  | .ok (pt, mem) => .ok (pt, copyTable mem pt.root src.root)

def clone (s : State) : HvResult State :=
  match cloneFrom s.2 s.1.pt with
  | .error fault => .error fault
  | .ok (pt, mem) => .ok (⟨s.1.regions, pt⟩, mem)

/-- Frame `f` goes back to the allocator. Its contents stay. -/
def dealloc (mem : HostMemory) (f : Nat) : HostMemory :=
  if small : f < 2 ^ 40 then
    { bytes := mem.bytes
      free := mem.free.filter (· < f) ++ f :: mem.free.filter (f < ·)
      ascending := by
        have before := mem.ascending.filter (fun g => decide (g < f))
        have after := mem.ascending.filter (fun g => decide (f < g))
        refine List.pairwise_append.mpr ⟨before, List.pairwise_cons.mpr ⟨?_, after⟩, ?_⟩
        · intro g later
          simpa using (List.mem_filter.mp later).2
        · intro g earlier h later
          have less : g < f := by simpa using (List.mem_filter.mp earlier).2
          rcases List.mem_cons.mp later with rfl | beyond
          · exact less
          · have greater : f < h := by simpa using (List.mem_filter.mp beyond).2
            omega
      window := by
        intro g member
        rcases List.mem_append.mp member with earlier | later
        · exact mem.window g (List.mem_filter.mp earlier).1
        · rcases List.mem_cons.mp later with rfl | beyond
          · exact small
          · exact mem.window g (List.mem_filter.mp beyond).1 }
  else mem

def dropSet (P : GenericPTE) (s : State) : HvResult HostMemory :=
  match s.1.clear P s.2 with
  | .error fault => .error fault
  | .ok (set, mem) => .ok ((set.pt.root :: set.pt.intrmTables).foldl dealloc mem)

theorem dealloc_bytes (frames : List Nat) (mem : HostMemory) : (frames.foldl dealloc mem).bytes = mem.bytes := by
  induction frames generalizing mem with
  | nil => rfl
  | cons f rest ih =>
    rw [List.foldl_cons, ih, dealloc]
    split <;> rfl

theorem query_bytes (same : mem'.bytes = mem.bytes) (pt : PageTable) (va : BitVec 64) :
    PageTable.query P mem' pt va = PageTable.query P mem pt va := by
  have entries : ∀ slot, mem'.entry slot = mem.entry slot := by
    intro slot
    rw [HostMemory.entry, HostMemory.view, same, HostMemory.entry, HostMemory.view]
  simp only [PageTable.query, PageTable.getEntryMut, entries]

theorem copy_view : (copyTable mem dst src).view h i = if h = dst then mem.view src i else mem.view h i := by
  split
  · rename_i here
    have cells : ∀ k, k < 8 →
        (copyTable mem dst src).bytes (entryCells h i k) = mem.bytes (entryCells src i k) := by
      intro k bound
      have := i.isLt
      simp only [copyTable, here, if_pos (entry_cells_inside dst i bound)]
      congr 1
      simp only [entryCells]
      omega
    simp only [HostMemory.view, tableView, RtosByteMemory.loadWord, cells 0 (by omega), cells 1 (by omega),
      cells 2 (by omega), cells 3 (by omega), cells 4 (by omega), cells 5 (by omega), cells 6 (by omega),
      cells 7 (by omega)]
  · rename_i other
    apply view_same
    intro a inside
    have outside : a / 4096 ≠ dst := by omega
    simp only [copyTable, if_neg outside]

variable {P : Format} {s c : State}

variable (P) in
/-- A clone right after it was made: a root of its own with the entries of the other. -/
structure Cloned (s c : State) : Prop where
  regions : c.1.regions = s.1.regions
  tree : Tree P c.2 c.1.pt.root
  leaves : ∀ va size, leafOf P c.2 c.1.pt.root va size = leafOf P s.2 s.1.pt.root va size
  copied : ∀ i, c.2.view c.1.pt.root i = s.2.view s.1.pt.root i
  kept : ∀ i, c.2.view s.1.pt.root i = s.2.view s.1.pt.root i
  in_use : s.1.pt.root ∉ c.2.free
  aside : ¬ Reached (shape P).child c.2.view c.1.pt.root 3 s.1.pt.root

theorem new_allocated (run : PageTable.new mem = .ok (pt, mem')) : Allocated mem mem' pt.root := by
  rw [PageTable.new] at run
  split at run
  · cases run
  rename_i alloc
  cases run
  exact new_zero_spec alloc

theorem clone_cloned (tree : Tree P s.2 s.1.pt.root) (run : clone s = .ok c) : Cloned P s c := by
  rw [clone] at run
  split at run
  · cases run
  rename_i made
  cases run
  rw [cloneFrom] at made
  split at made
  · cases made
  rename_i pt wiped fresh
  simp only [Except.ok.injEq, Prod.mk.injEq] at made
  obtain ⟨rfl, rfl⟩ := made
  have allocated := new_allocated fresh
  have not_reached := allocated_fresh tree allocated
  have other : s.1.pt.root ≠ pt.root := fun same => not_reached (same ▸ ⟨[], Nat.zero_le 3, rfl⟩)
  have copied : ∀ i, (copyTable wiped pt.root s.1.pt.root).view pt.root i = s.2.view s.1.pt.root i := by
    intro i
    rw [copy_view, if_pos rfl, allocated.elsewhere _ i other]
  have elsewhere : ∀ h i, h ≠ pt.root → (copyTable wiped pt.root s.1.pt.root).view h i = s.2.view h i := by
    intro h i ne
    rw [copy_view, if_neg ne, allocated.elsewhere h i ne]
  have still_used : ∀ f, Reached (shape P).child s.2.view s.1.pt.root 3 f → f < 2 ^ 40 ∧ f ∉ wiped.free := by
    intro f reached
    obtain ⟨small, used⟩ := tree.live f reached
    exact ⟨small, fun free => used (allocated.remaining f free)⟩
  refine ⟨rfl, ?_, ?_, copied, fun i => elsewhere _ i other, ?_, ?_⟩
  · exact RtosTableTree.copied_tree tree not_reached copied elsewhere
      ⟨s.2.window pt.root allocated.was_free, allocated.taken⟩ still_used
  · intro va size
    rw [leafOf, leaf, RtosTableTree.copied_cell not_reached copied elsewhere _ (upper_short va size), leafOf, leaf]
  · exact (still_used _ ⟨[], Nat.zero_le 3, rfl⟩).2
  · rintro ⟨q, short, ends⟩
    cases q with
    | nil => exact other (Option.some.inj ends).symm
    | cons i rest =>
      rw [RtosTableTree.copied_walk not_reached copied elsewhere short] at ends
      cases tree.separated _ [] _ short (Nat.zero_le 3) ends rfl

theorem clone_answers (tree : Tree P s.2 s.1.pt.root) (cloned : Cloned P s c) (va : BitVec 64) :
    c.1.query P.toGenericPTE c.2 va = s.1.query P.toGenericPTE s.2 va :=
  query_congr tree cloned.tree (cloned.leaves va)

/-! The life of the clone. -/

theorem passed_refl (booked : Booked P s) : Passed P s s := ⟨booked, rfl, footprint_refl, rfl⟩

theorem passed_trans (first : Passed P s t) (later : Passed P t u) : Passed P s u := by
  have footprint := later.footprint
  rw [first.same_root] at footprint
  exact ⟨later.booked, later.same_root.trans first.same_root, footprint_trans first.footprint footprint,
    later.strays.trans first.strays⟩

theorem stray_congr (same : leafOf P mem' root = leafOf P mem root) :
    stray P mem' root regions = stray P mem root regions := by
  funext va size
  rw [stray, same, stray]

theorem at_once_passed (booked : Booked P s) (usable : P.usable region.flags)
    (at_once : FailsAtOnce P.toGenericPTE s region) (failed : ∀ t, s.1.insert P.toGenericPTE s.2 region ≠ .ok t) :
    Passed P s (insertLeft P.toGenericPTE s region) := by
  rw [insertLeft]
  split
  · exact passed_refl booked
  rename_i nonempty
  split
  · exact passed_refl booked
  rename_i free
  split
  · generalize result : mapLoopLeft P.toGenericPTE region (region.size.toNat / 4096) region.start region.size
      s.1.pt s.2 = r
    obtain ⟨same_root, tree', ⟨_, footprint, leaves⟩ | ⟨⟨r', first⟩, _⟩⟩ :=
      map_left_cases usable nonempty booked.tree result
    · refine ⟨?_, same_root, footprint, ?_⟩
      · rw [Booked, same_root]
        exact laid_congr booked tree' (fun x t _ => leaves x t)
      have same : leafOf P r.2 s.1.pt.root = leafOf P s.2 s.1.pt.root := by
        funext x t
        exact leaves x t
      rw [same_root]
      exact stray_congr same
    · rcases at_once with overlap | ⟨fault, first'⟩
      · simp [overlap] at free
      · rw [first] at first'
        cases first'
  · rename_i pt mem mapping
    refine absurd ?_ (failed (⟨s.1.regions.insert region.start.toNat region, pt⟩, mem))
    simp only [MemorySet.insert, if_neg nonempty, if_neg free, mapping]

def LeavesNoPage (P : GenericPTE) (s : State) (a : Action) : Prop :=
  ∀ region, a = .insert region →
    (∃ t, s.1.insert P s.2 region = .ok t) ∨ FailsAtOnce P s region

theorem step_passed (booked : Booked P s) (clean : LeavesNoPage P.toGenericPTE s a)
    (step : (allCalls P).next s a t) : Passed P s t := by
  obtain ⟨usable, _, rfl⟩ := step
  cases a with
  | insert region =>
    by_cases done : ∃ t, s.1.insert P.toGenericPTE s.2 region = .ok t
    · obtain ⟨t, run⟩ := done
      rw [left_of_ok P.toGenericPTE (a := .insert region) run]
      exact insert_passed booked (usable region rfl) run
    · have at_once := (clean region rfl).resolve_left done
      exact at_once_passed booked (usable region rfl) at_once fun t run => done ⟨t, run⟩
  | delete start =>
    rcases delete_cases booked start with ⟨t, run, passed⟩ | missing
    · rw [left_of_ok P.toGenericPTE (a := .delete start) run]
      exact passed
    · rw [left, deleteLeft, missing]
      exact passed_refl booked
  | clear =>
    obtain ⟨mem', run, passed, _⟩ := clear_cases booked
    rw [left_of_ok P.toGenericPTE (a := .clear) run]
    exact passed

theorem run_passed (booked : Booked P s)
    (run : Run ((allCalls P).guarded (LeavesNoPage P.toGenericPTE)) s path t) : Passed P s t := by
  refine run_preserves (Passed P s) ?_ run (passed_refl booked)
  intro u a v before step
  exact passed_trans before (step_passed before.booked step.1 step.2)

/-! What the original sees afterwards. -/

theorem shared_query (same : mem.entry ⟨pt.rootPaddr, p4Index va⟩ = mem.entry ⟨pt'.rootPaddr, p4Index va⟩) :
    PageTable.query P.toGenericPTE mem pt va = PageTable.query P.toGenericPTE mem pt' va := by
  simp only [PageTable.query, PageTable.getEntryMut, same]

theorem missing_query (zero : mem.entry ⟨pt.rootPaddr, p4Index va⟩ = 0) :
    PageTable.query P.toGenericPTE mem pt va = .error (.err .notMapped) := by
  rw [PageTable.query, PageTable.getEntryMut, zero, PageTable.nextTableMut, P.zero_present]
  rfl

theorem root_entry_kept (tree : Tree P mem root) (tree' : Tree P mem' root)
    (footprint : Footprint P mem mem' root) (used : mem.view root i ≠ 0) :
    mem'.view root i = mem.view root i := by
  rcases tree.formed [] root i (by simp) rfl with zero | ⟨g, link⟩ | ⟨deep, _⟩
  · exact absurd zero used
  · have table : walk (child P) mem.view root [i] = some g := by simp [walk, child_link link]
    have table' := footprint.tables [i] g (by simp) table
    have points : child P (mem'.view root i) = some g := by simpa [walk] using table'
    rcases tree'.formed [] root i (by simp) rfl with zero | ⟨g', link'⟩ | ⟨deep, _⟩
    · rw [zero, child_zero] at points
      cases points
    · rw [child_link link'] at points
      cases points
      exact Option.some.inj (link'.2.symm.trans link.2)
    · simp at deep
  · simp at deep

section Afterwards

variable {t : State} (booked : Booked P s) (cloned : Cloned P s c) (passed : Passed P c t)

include booked cloned passed

theorem original_query (va : BitVec 64) :
    PageTable.query P.toGenericPTE t.2 s.1.pt va =
      if s.2.view s.1.pt.root (p4Index va) = 0 then .error (.err .notMapped)
      else PageTable.query P.toGenericPTE t.2 t.1.pt va := by
  have small := root_small booked.tree
  have small' := root_small passed.booked.tree
  have tree' := passed.booked.tree
  rw [passed.same_root] at tree'
  have own := (passed.footprint.outside _ cloned.in_use cloned.aside).2 (p4Index va)
  rw [cloned.kept] at own
  split
  · rename_i zero
    apply missing_query
    rw [PageTable.rootPaddr, entry_at_start t.2 small, own, zero]
  rename_i used
  apply shared_query
  rw [← cloned.copied] at used
  have shared := root_entry_kept cloned.tree tree' passed.footprint used
  rw [cloned.copied, ← passed.same_root] at shared
  rw [PageTable.rootPaddr, PageTable.rootPaddr, entry_at_start t.2 small, entry_at_start t.2 small', own, shared]

omit booked cloned passed in
theorem used_has_table (used : leafOf P s.2 s.1.pt.root va size ≠ 0) : s.2.view s.1.pt.root (p4Index va) ≠ 0 := by
  intro zero
  have childless : child P (s.2.view s.1.pt.root (p4Index va)) = none := by rw [zero, child_zero]
  apply used
  apply leaf_of_none
  cases size <;> simp [upperIndices, walk, childless]

omit booked passed in
theorem cloned_stored : stored c = stored s := by
  funext e
  rw [stored, cloned.regions]

omit booked passed in
theorem cloned_stray : stray P c.2 c.1.pt.root (stored c) = stray P s.2 s.1.pt.root (stored s) := by
  rw [cloned_stored cloned]
  funext va size
  rw [stray, cloned.leaves, stray]

omit passed in
theorem cloned_booked : Booked P c := by
  rw [Booked, cloned_stored cloned]
  refine ⟨cloned.tree, booked.keyed, booked.nonempty, ?_, booked.own, booked.apart⟩
  intro e here page member
  rw [cloned.leaves]
  exact booked.used e here page member

variable (leaves : leafOf P t.2 t.1.pt.root = stray P c.2 c.1.pt.root (stored c))

include leaves

theorem original_kept (no_region : s.1.regions.entries = []) (va : BitVec 64) :
    PageTable.query P.toGenericPTE t.2 s.1.pt va = PageTable.query P.toGenericPTE s.2 s.1.pt va := by
  rw [original_query booked cloned passed]
  split
  · rename_i zero
    rw [missing_query]
    rw [PageTable.rootPaddr, entry_at_start s.2 (root_small booked.tree), zero]
  apply query_congr booked.tree passed.booked.tree
  intro size
  rw [leaves, cloned_stray cloned, stray_free]
  rintro ⟨e, here, _⟩
  rw [stored, no_region] at here
  cases here

theorem original_lost (here : e ∈ s.1.regions.entries) :
    PageTable.query P.toGenericPTE t.2 s.1.pt e.2.start = .error (.err .notMapped) ∧
      ∃ answer, PageTable.query P.toGenericPTE s.2 s.1.pt e.2.start = .ok answer := by
  have first := first_page (booked.nonempty e here)
  have used := booked.used e here _ first
  refine ⟨?_, _, query_used booked.tree used⟩
  rw [original_query booked cloned passed, if_neg (used_has_table used)]
  apply query_unused passed.booked.tree
  intro size
  rw [leaves, cloned_stray cloned]
  by_cases owned : Belongs (stored s) e.2.start size
  · exact stray_owned owned
  rw [stray_free owned]
  by_contra other
  have same : e.2.choosePageSize e.2.start e.2.size = size := used_once booked.tree used other
  rw [same] at first
  exact owned ⟨e, here, _, first, rfl, rfl⟩

end Afterwards

theorem unmap_fails (nonempty : region.size ≠ 0)
    (missing : PageTable.query P.toGenericPTE mem pt region.start = .error (.err .notMapped)) :
    ∃ fault, unmap P.toGenericPTE region pt mem = .error fault := by
  have positive := size_positive nonempty
  have aligned := region.aligned_size
  obtain ⟨n, count⟩ : ∃ n, region.size.toNat / 4096 = n + 1 := ⟨region.size.toNat / 4096 - 1, by omega⟩
  have page : ∃ fault, PageTable.unmapPage P.toGenericPTE mem pt region.start = .error fault := by
    rw [PageTable.query] at missing
    rw [PageTable.unmapPage]
    split at missing
    · rename_i fault found
      exact ⟨fault, rfl⟩
    rename_i slot size found
    split at missing
    · rename_i unused
      exact ⟨.err .notMapped, by simp only [unused, if_true]⟩
    · cases missing
  obtain ⟨fault, failed⟩ := page
  refine ⟨fault.ofPaging, ?_⟩
  rw [unmap, count, unmapLoop, if_neg nonempty, failed]

/-- A clone answers as the original does. After its life the original is as before exactly
    when it has no regions; otherwise the pages of its regions are gone and clearing it panics. -/
theorem clone_independent_iff (reached : Reachable (allCalls P) s) (made : clone s = .ok c) :
    (∀ va, c.1.query P.toGenericPTE c.2 va = s.1.query P.toGenericPTE s.2 va) ∧
    ∀ path t, Run ((allCalls P).guarded (LeavesNoPage P.toGenericPTE)) c path t →
      ∃ mem', dropSet P.toGenericPTE t = .ok mem' ∧
        ((∀ va, s.1.query P.toGenericPTE mem' va = s.1.query P.toGenericPTE s.2 va) ↔
          s.1.regions.entries = []) ∧
        ((∃ r, s.1.clear P.toGenericPTE mem' = .ok r) ↔ s.1.regions.entries = []) := by
  have booked := run_booked reached
  have cloned := clone_cloned booked.tree made
  refine ⟨clone_answers booked.tree cloned, fun path t run => ?_⟩
  have passed := run_passed (cloned_booked booked cloned) run
  obtain ⟨mem1, cleared, last, leaves⟩ := clear_cases passed.booked
  have life := passed_trans passed last
  rw [passed.strays] at leaves
  have same_bytes := dealloc_bytes (t.1.pt.root :: t.1.pt.intrmTables) mem1
  refine ⟨(t.1.pt.root :: t.1.pt.intrmTables).foldl dealloc mem1, by rw [dropSet, cleared], ?_, ?_⟩
  · constructor
    · intro same
      by_contra some_region
      obtain ⟨e, here⟩ := List.exists_mem_of_ne_nil _ some_region
      obtain ⟨lost, answer, before⟩ := original_lost booked cloned life leaves here
      have both := same e.2.start
      rw [MemorySet.query, MemorySet.query, query_bytes same_bytes, lost, before] at both
      cases both
    · intro no_region va
      rw [MemorySet.query, MemorySet.query, query_bytes same_bytes]
      exact original_kept booked cloned life leaves no_region va
  · constructor
    · rintro ⟨r, ok⟩
      by_contra some_region
      rw [MemorySet.clear] at ok
      cases entries : s.1.regions.entries with
      | nil => exact some_region entries
      | cons e rest =>
        have here : e ∈ s.1.regions.entries := by simp [entries]
        obtain ⟨lost, _⟩ := original_lost booked cloned life leaves here
        rw [← query_bytes same_bytes] at lost
        obtain ⟨fault, failed⟩ := unmap_fails (booked.nonempty e here) lost
        rw [entries, MemorySet.unmapAll, failed] at ok
        cases ok
    · intro no_region
      exact ⟨_, by rw [MemorySet.clear, no_region, MemorySet.unmapAll]⟩

def onePage : MemoryRegion := identity 0x200000 0x1000

/-- An empty set, a clone that maps a page, and the clone dropped. -/
theorem empty_original_kept : ∃ s c t mem', Reachable (allCalls hostFormat) s ∧ clone s = .ok c ∧
    c.1.insert ptEntry c.2 onePage = .ok t ∧ dropSet ptEntry t = .ok mem' ∧
    (∀ va, s.1.query ptEntry mem' va = s.1.query ptEntry s.2 va) ∧ ∃ r, s.1.clear ptEntry mem' = .ok r := by
  have facts : (((MemorySet.new smallMemory).toOption.bind fun s => (clone s).toOption.bind fun c =>
      (c.1.insert ptEntry c.2 onePage).toOption.map fun t => (s, c, t)).map fun r =>
        r.1.1.regions.entries.length) = some 0 := by
    decide +kernel
  obtain ⟨⟨s, c, t⟩, run, no_region⟩ := Option.map_eq_some_iff.mp facts
  obtain ⟨s', made, rest⟩ := Option.bind_eq_some_iff.mp run
  obtain ⟨c', copied, rest⟩ := Option.bind_eq_some_iff.mp rest
  obtain ⟨t', inserted, same⟩ := Option.map_eq_some_iff.mp rest
  cases same
  have reach : Reachable (allCalls hostFormat) s := reachable_start ⟨smallMemory, ok_of_to_option made⟩
  have done : act ptEntry c (.insert onePage) = .ok t := ok_of_to_option inserted
  have life : Run ((allCalls hostFormat).guarded (LeavesNoPage ptEntry)) c [.insert onePage] t := by
    refine run_cons ⟨?_, identity_inserted done⟩ Run.nil
    rintro region same
    cases same
    exact Or.inl ⟨t, done⟩
  have empty : s.1.regions.entries = [] := List.length_eq_zero_iff.mp no_region
  obtain ⟨mem', dropped, answers, clears⟩ :=
    (clone_independent_iff reach (ok_of_to_option copied)).2 _ t life
  exact ⟨s, c, t, mem', reach, ok_of_to_option copied, done, dropped, answers.mpr empty, clears.mpr empty⟩

/-- A set with a page, cloned, and the clone dropped at once: the page is gone, and clearing
    the set panics. -/
theorem clone_takes_the_pages : ∃ s c mem', Reachable (allCalls hostFormat) s ∧ clone s = .ok c ∧
    dropSet ptEntry c = .ok mem' ∧
    (∃ answer, s.1.query ptEntry s.2 0x200000 = .ok answer) ∧
    s.1.query ptEntry mem' 0x200000 = .error (.err .notMapped) ∧
    ∃ fault, s.1.clear ptEntry mem' = .error (.panic fault) := by
  have facts : (((MemorySet.new smallMemory).toOption.bind fun first =>
      (act ptEntry first (.insert onePage)).toOption.bind fun s => (clone s).toOption.bind fun c =>
        (dropSet ptEntry c).toOption.map fun mem' => (first, s, c, mem')).map fun r => decide
          ((r.2.1.1.query ptEntry r.2.1.2 0x200000).toOption.isSome = true ∧
            faultOf (r.2.1.1.query ptEntry r.2.2.2 0x200000) = some (.err .notMapped) ∧
            faultOf (r.2.1.1.clear ptEntry r.2.2.2) = some (.panic .clearFailed))) = some true := by
    decide +kernel
  obtain ⟨⟨first, s, c, mem'⟩, run, seen⟩ := Option.map_eq_some_iff.mp facts
  obtain ⟨first', made, rest⟩ := Option.bind_eq_some_iff.mp run
  obtain ⟨s', inserted, rest⟩ := Option.bind_eq_some_iff.mp rest
  obtain ⟨c', copied, rest⟩ := Option.bind_eq_some_iff.mp rest
  obtain ⟨mem'', dropped, same⟩ := Option.map_eq_some_iff.mp rest
  cases same
  rw [decide_eq_true_eq] at seen
  have reach : Reachable (allCalls hostFormat) s :=
    reachable_next (reachable_start ⟨smallMemory, ok_of_to_option made⟩)
      (identity_inserted (ok_of_to_option inserted))
  obtain ⟨answer, before⟩ := Option.isSome_iff_exists.mp seen.1
  exact ⟨s, c, mem', reach, ok_of_to_option copied, ok_of_to_option dropped,
    ⟨answer, ok_of_to_option before⟩, error_of_fault seen.2.1, _, error_of_fault seen.2.2⟩

end RtosRvmCloneSharing
