import CompositeRtos.Rvm.Refinement
import CompositeRtos.Rvm.Tables

/-!
When a free range can be mapped. A memory set never gives a table back: `delete` and
`clear` clear the entries of the pages only. So a huge page cannot be entered where a
smaller page has ever been mapped, although nothing is mapped there any more. The history
of a run has all pages that were mapped in it; when none of them lies under a huge page of
the new region, the frame allocator is the only thing that can make the insertion fail.
-/
namespace RtosRvmReuse
open RtosTransition RtosOrderedMap RtosRadixWalk RtosRvmPte RtosRvmPageTable RtosRvmPageTree
open RtosRvmMemorySet RtosRvmPages RtosRvmLayout RtosRvmRefinement RtosRvmTables

def Under (small page : Page) : Prop :=
  small.size.bits < page.size.bits ∧ (small.va - page.va).toNat < 2 ^ page.size.bits

instance (small page : Page) : Decidable (Under small page) := inferInstanceAs (Decidable (_ ∧ _))

def mappedBy : Action → List Page
  | .insert region => pages region
  | _ => []

structure Tracked where
  state : State
  history : List Page

def tracked (P : Format) (dom : BitVec 64 → Prop) : Machine Tracked Action where
  start s := (∃ mem, MemorySet.new mem = .ok s.state) ∧ s.history = []
  next s a t := PermittedAction dom a ∧ act P.toGenericPTE s.state a = .ok t.state ∧
    t.history = mappedBy a ++ s.history

theorem finer_of_path (path : (upperIndices a s ++ [lastIndex a s]) <+: upperIndices b t) :
    t.bits < s.bits ∧ SameEntry b s a s := by
  obtain ⟨rest, eq⟩ := path
  have long := congrArg List.length eq
  simp only [List.length_append, List.length_cons, List.length_nil, upper_length] at long
  cases s with
  | size4K =>
    cases t <;> simp only [PageSize.bits] at long <;> omega
  | size2M =>
    cases t with
    | size4K =>
      simp only [upperIndices, lastIndex, List.cons_append, List.nil_append, List.cons.injEq] at eq
      exact ⟨by decide, by simp only [upperIndices, eq.1, eq.2.1], eq.2.2.1.symm⟩
    | size2M | size1G =>
      simp only [PageSize.bits] at long
      omega
  | size1G =>
    cases t with
    | size4K | size2M =>
      simp only [upperIndices, lastIndex, List.cons_append, List.nil_append, List.cons.injEq] at eq
      exact ⟨by decide, by simp only [upperIndices, eq.1], eq.2.1.symm⟩
    | size1G =>
      simp only [PageSize.bits] at long
      omega

section Loops

variable {region : MemoryRegion}

theorem map_loop_tables (usable : P.usable region.flags) (tree : Tree P mem pt.root)
    (run : mapLoop P.toGenericPTE region n vaddr size pt mem = .ok (pt', mem')) (short : q.length ≤ 3)
    (table : HasTable P mem' pt.root q) :
    (∃ page ∈ pagesFrom region n vaddr size, q <+: upperIndices page.va page.size) ∨
      HasTable P mem pt.root q := by
  induction n generalizing vaddr size pt mem with
  | zero =>
    cases run
    exact Or.inr table
  | succ n ih =>
    rw [mapLoop] at run
    rw [pagesFrom]
    split at run
    · cases run
      exact Or.inr table
    rename_i more
    rw [if_neg more]
    split at run
    · cases run
    rename_i pt1 mem1 first
    obtain ⟨tree1, root1, _⟩ := map_page_spec tree usable first
    rcases ih tree1 run (by rw [root1]; exact table) with ⟨page, later, path⟩ | before
    · exact Or.inl ⟨page, .tail _ later, path⟩
    rw [root1] at before
    exact (map_page_tables tree usable first short before).imp_left
      fun path => ⟨_, (.head _), path⟩

theorem unmap_loop_tables (tree : Tree P mem pt.root)
    (run : unmapLoop P.toGenericPTE pt n vaddr size mem = .ok mem') :
    Tree P mem' pt.root ∧ ∀ q, q.length ≤ 3 →
      walk (child P) mem'.view pt.root q = walk (child P) mem.view pt.root q := by
  induction n generalizing vaddr size mem with
  | zero =>
    cases run
    exact ⟨tree, fun _ _ => rfl⟩
  | succ n ih =>
    rw [unmapLoop] at run
    split at run
    · cases run
      exact ⟨tree, fun _ _ => rfl⟩
    split at run
    · cases run
    rename_i paddr pageSize mem1 first
    obtain ⟨tree1, walks1⟩ := unmap_page_tables tree first
    split at run
    · cases run
    split at run
    · cases run
    obtain ⟨tree', walks⟩ := ih tree1 run
    exact ⟨tree', fun q short => (walks q short).trans (walks1 q short)⟩

theorem unmap_all_tables (tree : Tree P mem pt.root)
    (run : MemorySet.unmapAll P.toGenericPTE pt entries mem = .ok mem') (short : q.length ≤ 3) :
    walk (child P) mem'.view pt.root q = walk (child P) mem.view pt.root q := by
  induction entries generalizing mem with
  | nil =>
    cases run
    rfl
  | cons e rest ih =>
    rw [MemorySet.unmapAll] at run
    split at run
    · cases run
    rename_i mem1 first
    obtain ⟨tree1, walks⟩ := unmap_loop_tables tree first
    rw [ih tree1 run, walks q short]

theorem vacant_after (new : Page) {page : Page} {pt : PageTable} (separates : Separates dom)
    (tree : Tree P mem pt.root) (usable : P.usable flags)
    (run : PageTable.mapPage P.toGenericPTE mem pt new.va new.size paddr flags = .ok (pt', mem'))
    (new_aligned : 2 ^ new.size.bits ∣ new.va.toNat) (page_aligned : 2 ^ page.size.bits ∣ page.va.toNat)
    (new_known : ∀ x : BitVec 64, (x - new.va).toNat < 2 ^ new.size.bits → dom x)
    (page_known : ∀ x : BitVec 64, (x - page.va).toNat < 2 ^ page.size.bits → dom x)
    (apart : 2 ^ new.size.bits ≤ (page.va - new.va).toNat ∧ 2 ^ page.size.bits ≤ (new.va - page.va).toNat)
    (vacant : Vacant P mem pt.root page.va page.size) : Vacant P mem' pt.root page.va page.size := by
  have base_known : ∀ {p : Page}, (∀ x : BitVec 64, (x - p.va).toNat < 2 ^ p.size.bits → dom x) → dom p.va :=
    fun known => known _ (by rw [BitVec.sub_self]; exact Nat.two_pow_pos _)
  obtain ⟨_, _, _, e, _, leaves⟩ := map_page_spec tree usable run
  constructor
  · intro t coarser
    rw [leaves]
    split
    · rename_i same
      have inside := inside_of_same_entry separates new_aligned new_known (base_known page_known) same
      omega
    · exact vacant.unused t coarser
  · intro huge table
    have short : (upperIndices page.va page.size ++ [lastIndex page.va page.size]).length ≤ 3 := by
      have := (huge_short page.va page.size).mpr huge
      rw [List.length_append, List.length_singleton]
      omega
    rcases map_page_tables tree usable run short table with path | before
    · obtain ⟨_, same⟩ := finer_of_path path
      have inside := inside_of_same_entry separates page_aligned page_known (base_known new_known) same
      omega
    · exact vacant.no_table huge before

variable (region) in
theorem map_loop_total (accepts : Accepts P) (separates : Separates dom) (usable : P.usable region.flags)
    (va_aligned : 2 ^ 12 ∣ vaddr.toNat) (aligned : 2 ^ 12 ∣ size.toNat) (tree : Tree P mem pt.root)
    (known : ∀ page ∈ pagesFrom region n vaddr size, ∀ x : BitVec 64, (x - page.va).toNat < 2 ^ page.size.bits → dom x)
    (targets : ∀ page ∈ pagesFrom region n vaddr size, (region.mapper.mapFn page.va).toNat < 2 ^ 52)
    (vacant : ∀ page ∈ pagesFrom region n vaddr size, Vacant P mem pt.root page.va page.size) :
    Ends (fun fault => fault = .err ⟨.enomem, none⟩ ∧
        mem.free.length < 3 * (pagesFrom region n vaddr size).length)
      (fun _ => True) (mapLoop P.toGenericPTE region n vaddr size pt mem) := by
  induction n generalizing vaddr size pt mem with
  | zero => trivial
  | succ n ih =>
    have apart := pages_apart region (n := n + 1) va_aligned aligned
    rw [mapLoop]
    rw [pagesFrom] at known targets vacant apart ⊢
    by_cases done : size = 0
    · rw [if_pos done, if_pos done]
      trivial
    rw [if_neg done] at known targets vacant apart ⊢
    rw [if_neg done]
    obtain ⟨fits, base⟩ := choose_fits region va_aligned aligned done
    have rest := rest_of_page va_aligned aligned fits
    have first := map_page_total region.flags accepts tree (vacant _ (.head _))
      (targets _ (.head _))
    dsimp only at first
    cases step : PageTable.mapPage P.toGenericPTE mem pt vaddr (region.choosePageSize vaddr size)
        (region.mapper.mapFn vaddr) region.flags with
    | error fault =>
      rw [step] at first
      obtain ⟨rfl, few⟩ := first
      refine ⟨rfl, ?_⟩
      rw [List.length_cons]
      omega
    | ok result =>
      obtain ⟨pt1, mem1⟩ := result
      rw [step] at first
      have spent : mem.free.length ≤ mem1.free.length + 3 := first
      obtain ⟨tree1, root1, _⟩ := map_page_spec tree usable step
      have later := ih rest.va_aligned rest.size_aligned tree1
        (fun page member => known page (.tail _ member))
        (fun page member => targets page (.tail _ member)) (by
          intro page member
          rw [root1]
          exact vacant_after ⟨vaddr, region.choosePageSize vaddr size⟩ separates tree usable step base
            (pages_cut rest.va_aligned rest.size_aligned member).aligned
            (known _ (.head _)) (known page (.tail _ member))
            ((List.pairwise_cons.mp apart).1 page member) (vacant page (.tail _ member)))
      apply ends_mono later
      · rintro fault ⟨kind, few⟩
        refine ⟨kind, ?_⟩
        rw [List.length_cons]
        omega
      · exact fun _ _ => trivial

end Loops

section Runs

variable {P : Format} {dom : BitVec 64 → Prop}

structure Remembered (P : Format) (dom : BitVec 64 → Prop) (s : Tracked) : Prop where
  sound : Sound P dom s.state
  known : ∀ page ∈ s.history, dom page.va
  tables : ∀ q, q ≠ [] → q.length ≤ 3 → HasTable P s.state.2 s.state.1.pt.root q →
    ∃ page ∈ s.history, q <+: upperIndices page.va page.size

theorem new_tables (run : PageTable.new mem = .ok (pt, mem')) (below : q ≠ []) : ¬ HasTable P mem' pt.root q := by
  rw [PageTable.new] at run
  split at run
  · cases run
  rename_i f wiped alloc
  cases run
  intro table
  obtain ⟨g, reached⟩ := Option.ne_none_iff_exists'.mp table
  exact below (RtosTableTree.fresh_walk (S := shape P) (new_zero_spec alloc).emptied reached).1

theorem start_remembered (start : (tracked P dom).start s) : Remembered P dom s := by
  obtain ⟨⟨mem, made⟩, empty⟩ := start
  have sound : Sound P dom s.state := start_sound ⟨mem, made⟩
  refine ⟨sound, by simp [empty], ?_⟩
  intro q below _ table
  rw [MemorySet.new] at made
  split at made
  · cases made
  rename_i pt mem' fresh
  simp only [Except.ok.injEq] at made
  rw [← made] at table
  exact absurd table (new_tables fresh below)

theorem insert_remembered (h : Remembered P dom s) (sound : Sound P dom t.state)
    (permitted : Permitted dom region) (run : s.state.1.insert P.toGenericPTE s.state.2 region = .ok t.state)
    (history : t.history = pages region ++ s.history) : Remembered P dom t := by
  have older : ∀ {page}, page ∈ s.history → page ∈ t.history := by
    intro page member
    rw [history]
    exact List.mem_append_right _ member
  refine ⟨sound, ?_, ?_⟩
  · intro page member
    rw [history] at member
    rcases List.mem_append.mp member with new | old
    · exact permitted.addresses _ (base_covered new)
    · exact h.known page old
  intro q below short table
  have before : HasTable P s.state.2 s.state.1.pt.root q →
      ∃ page ∈ t.history, q <+: upperIndices page.va page.size := by
    intro old
    obtain ⟨page, member, path⟩ := h.tables q below short old
    exact ⟨page, older member, path⟩
  rw [MemorySet.insert] at run
  split at run
  · simp only [Except.ok.injEq] at run
    rw [← run] at table
    exact before table
  split at run
  · cases run
  split at run
  · cases run
  rename_i pt' mem' mapping
  simp only [Except.ok.injEq] at run
  rw [← run] at table
  have usable := P.usable_read _ permitted.readable
  obtain ⟨_, same_root, _⟩ := map_loop_spec usable h.sound.holds.tree mapping
  dsimp only at table
  rw [same_root] at table
  rcases map_loop_tables usable h.sound.holds.tree mapping short table with ⟨page, member, path⟩ | old
  · refine ⟨page, ?_, path⟩
    rw [history]
    exact List.mem_append_left _ member
  · exact before old

theorem kept_remembered (h : Remembered P dom s) (sound : Sound P dom t.state)
    (same_root : t.state.1.pt.root = s.state.1.pt.root)
    (walks : ∀ q : List (Fin 512), q.length ≤ 3 → walk (child P) t.state.2.view s.state.1.pt.root q = walk (child P) s.state.2.view s.state.1.pt.root q)
    (history : t.history = s.history) : Remembered P dom t := by
  refine ⟨sound, by rw [history]; exact h.known, ?_⟩
  intro q below short table
  rw [HasTable, same_root, walks q short] at table
  rw [history]
  exact h.tables q below short table

theorem step_remembered (separates : Separates dom) (h : Remembered P dom s) (step : (tracked P dom).next s a t) :
    Remembered P dom t := by
  obtain ⟨permitted, run, history⟩ := step
  have sound : Sound P dom t.state := (step_kept separates h.sound (a := a) ⟨permitted, Or.inl run⟩).sound
  cases a with
  | insert region => exact insert_remembered h sound permitted run history
  | delete start =>
    have run : s.state.1.delete P.toGenericPTE s.state.2 start = .ok t.state := run
    rw [MemorySet.delete] at run
    split at run
    · split at run
      · cases run
      rename_i mem' unmapping
      simp only [Except.ok.injEq] at run
      have walks := (unmap_loop_tables h.sound.holds.tree unmapping).2
      exact kept_remembered h sound (by rw [← run]) (by rw [← run]; exact walks) history
    · cases run
  | clear =>
    have run : s.state.1.clear P.toGenericPTE s.state.2 = .ok t.state := run
    rw [MemorySet.clear] at run
    split at run
    · cases run
    rename_i mem' unmapping
    simp only [Except.ok.injEq] at run
    exact kept_remembered h sound (by rw [← run])
      (by rw [← run]; exact fun q short => unmap_all_tables h.sound.holds.tree unmapping short) history

theorem run_remembered (separates : Separates dom) (reach : Reachable (tracked P dom) s) : Remembered P dom s :=
  reachable_invariant (Remembered P dom) (fun _ start => start_remembered start)
    (fun _ _ _ before step => step_remembered separates before step) reach

theorem not_overlap_of_free (r_fits : r.start.toNat + r.size.toNat < 2 ^ 64)
    (fits : region.start.toNat + region.size.toNat < 2 ^ 64) (r_nonempty : r.size ≠ 0)
    (nonempty : region.size ≠ 0) (free : ∀ va, Covers r va → ¬ Covers region va) :
    r.isOverlapWith region = false := by
  rw [not_overlap_iff r_fits fits]
  by_contra overlapped
  have at_start := free region.start
  have at_other := free r.start
  simp only [covers_iff r_fits, covers_iff fits] at at_start at_other
  have := size_positive r_nonempty
  have := size_positive nonempty
  omega

theorem test_of_free (sound : Sound P dom s) (permitted : Permitted dom region) (nonempty : region.size ≠ 0)
    (free : ∀ r, Stored s.1 r → ∀ va, Covers r va → ¬ Covers region va) : s.1.testFreeArea region = true := by
  have clear : ∀ e ∈ s.1.regions.entries, e.2.isOverlapWith region = false := by
    intro e member
    have here := stored_of_mem sound member
    exact not_overlap_of_free (sound.holds.permitted _ here).no_overflow permitted.no_overflow
      (sound.nonempty e member) nonempty (free _ here)
  rw [MemorySet.testFreeArea, Bool.and_eq_true]
  constructor
  · cases neighbour : s.1.regions.lastBefore region.start.toNat with
    | none => rfl
    | some e =>
      have apart := clear e (OrderedMap.last_before_some neighbour).1
      simp only [apart, Bool.not_false]
  cases neighbour : s.1.regions.firstFrom region.start.toNat with
  | none => rfl
  | some e =>
    have apart := clear e (OrderedMap.first_from_some neighbour).1
    simp only [apart, Bool.not_false]

theorem pages_vacant (separates : Separates dom) (h : Remembered P dom s) (permitted : Permitted dom region)
    (free : ∀ r, Stored s.state.1 r → ∀ va, Covers r va → ¬ Covers region va)
    (fresh : ∀ page ∈ pages region, ∀ old ∈ s.history, ¬ Under old page) (member : page ∈ pages region) :
    Vacant P s.state.2 s.state.1.pt.root page.va page.size := by
  have covered := base_covered member
  constructor
  · intro t _
    by_contra used
    obtain ⟨r, here, other, in_r, same⟩ := h.sound.holds.accounted page.va t used
    exact free r here page.va (covers_of_same_entry separates (h.sound.holds.permitted r here) in_r
      (permitted.addresses _ covered) same) covered
  intro huge table
  have short : (upperIndices page.va page.size ++ [lastIndex page.va page.size]).length ≤ 3 := by
    have := (huge_short page.va page.size).mpr huge
    simp
    omega
  obtain ⟨old, remembered, path⟩ := h.tables _ (by simp) short table
  obtain ⟨finer, same⟩ := finer_of_path path
  exact fresh page member old remembered ⟨finer, inside_of_same_entry separates (region_cut member).aligned
    (fun x inside => permitted.addresses x (covers_of_page member inside)) (h.known old remembered) same⟩

/-- In every state that a memory set reaches, a region that overlaps no stored one can be
    inserted, unless a huge page of it lies over a smaller page that was mapped before. It
    fails only for want of frames, at most three for each page. -/
theorem free_range_can_be_mapped (accepts : Accepts P) (separates : Separates dom) {s : Tracked}
    (reach : Reachable (tracked P dom) s) {region : MemoryRegion} (permitted : Permitted dom region)
    (free : ∀ r, Stored s.state.1 r → ∀ va, Covers r va → ¬ Covers region va)
    (fresh : ∀ page ∈ pages region, ∀ old ∈ s.history, ¬ Under old page) :
    (∃ t, s.state.1.insert P.toGenericPTE s.state.2 region = .ok t) ∨
    (s.state.1.insert P.toGenericPTE s.state.2 region = .error (.err ⟨.enomem, none⟩) ∧
      s.state.2.free.length < 3 * (pages region).length) := by
  have h := run_remembered separates reach
  rw [MemorySet.insert]
  by_cases empty : region.size = 0
  · rw [if_pos empty]
    exact Or.inl ⟨_, rfl⟩
  rw [if_neg empty, test_of_free h.sound permitted empty free]
  have mapping := map_loop_total region (n := region.size.toNat / 4096) accepts separates
    (P.usable_read _ permitted.readable) region.aligned_start region.aligned_size h.sound.holds.tree
    (fun page member x inside => permitted.addresses x (covers_of_page member inside))
    (fun page member => permitted.targets _ (base_covered member))
    (fun page member => pages_vacant separates h permitted free fresh member)
  rw [← RtosRvmMemorySet.map] at mapping
  cases run : RtosRvmMemorySet.map P.toGenericPTE region s.state.1.pt s.state.2 with
  | error fault =>
    rw [run] at mapping
    obtain ⟨rfl, few⟩ := mapping
    exact Or.inr ⟨rfl, few⟩
  | ok result => exact Or.inl ⟨_, rfl⟩

end Runs

theorem low_identity_permitted (readable : contains region.flags MemFlags.read = true)
    (identity : region.mapper = .offset 0) (low : region.start.toNat + region.size.toNat ≤ 2 ^ 47) :
    Permitted Canonical region := by
  have fits : region.start.toNat + region.size.toNat < 2 ^ 64 := by omega
  refine ⟨readable, ?_, fits, ?_, ?_⟩
  · rw [WholePages, identity]
    exact Nat.dvd_zero _
  · intro va covered
    rw [covers_iff fits] at covered
    exact Or.inl (by omega)
  intro va covered
  rw [covers_iff fits] at covered
  rw [identity, show (Mapper.offset 0).mapFn va = va from BitVec.sub_zero va]
  omega

def lowRegion (start size : BitVec 64) : MemoryRegion :=
  .newWithOffsetMapper start start size (MemFlags.read ||| MemFlags.write)

def smallPage : MemoryRegion := lowRegion 0x200000 0x1000

def hugePage : MemoryRegion := lowRegion 0x200000 0x200000

def nextHugePage : MemoryRegion := lowRegion 0x400000 0x200000

theorem low_region_permitted (start size : BitVec 64)
    (low : (lowRegion start size).start.toNat + (lowRegion start size).size.toNat ≤ 2 ^ 47) :
    Permitted Canonical (lowRegion start size) :=
  low_identity_permitted (by decide : contains (MemFlags.read ||| MemFlags.write) MemFlags.read = true)
    (congrArg Mapper.offset (BitVec.sub_self _)) low

def mapAndDelete : Option State := do
  let s ← (MemorySet.new smallMemory).toOption
  let s ← (act ptEntry s (.insert smallPage)).toOption
  (act ptEntry s (.delete 0x200000)).toOption

theorem map_and_delete_reached (run : mapAndDelete = some s) :
    Reachable (tracked hostFormat Canonical) ⟨s, pages smallPage⟩ := by
  rw [mapAndDelete] at run
  obtain ⟨first, made, rest⟩ := Option.bind_eq_some_iff.mp run
  obtain ⟨second, inserted, deleted⟩ := Option.bind_eq_some_iff.mp rest
  have start : Reachable (tracked hostFormat Canonical) ⟨first, []⟩ :=
    reachable_start ⟨⟨smallMemory, ok_of_to_option made⟩, rfl⟩
  have mapped : Reachable (tracked hostFormat Canonical) ⟨second, pages smallPage⟩ :=
    reachable_next (a := .insert smallPage) start
      ⟨low_region_permitted _ _ (by decide), ok_of_to_option inserted, (List.append_nil _).symm⟩
  exact reachable_next (a := .delete 0x200000) mapped ⟨trivial, ok_of_to_option deleted, rfl⟩

theorem neighbour_reused : ∃ s, Reachable (tracked hostFormat Canonical) s ∧
    s.history.length = 1 ∧ ∃ t, s.state.1.insert ptEntry s.state.2 nextHugePage = .ok t := by
  have facts : mapAndDelete.map (fun s => (s.1.regions.entries.length, s.2.free.length)) = some (0, 5) := by
    decide +kernel
  obtain ⟨s, run, counts⟩ := Option.map_eq_some_iff.mp facts
  simp only [Prod.mk.injEq, List.length_eq_zero_iff] at counts
  have reach := map_and_delete_reached run
  refine ⟨_, reach, (by decide +kernel : (pages smallPage).length = 1), ?_⟩
  have free : ∀ r, Stored s.1 r → ∀ va, Covers r va → ¬ Covers nextHugePage va := by
    intro r here
    rw [Stored, counts.1] at here
    cases here
  have fresh : ∀ page ∈ pages nextHugePage, ∀ old ∈ pages smallPage, ¬ Under old page := by
    decide +kernel
  rcases free_range_can_be_mapped host_accepts canonical_separates reach
    (low_region_permitted 0x400000 0x200000 (by decide)) free fresh with done | ⟨_, few⟩
  · exact done
  have many : (pages nextHugePage).length = 1 := by decide +kernel
  change s.2.free.length < 3 * (pages nextHugePage).length at few
  omega

def failure {α : Type} : HvResult α → Option (Fault HvError)
  | .error fault => some fault
  | .ok _ => none

/-- The range of a deleted small page cannot be mapped as a huge page: the table of the
    small page is still there. Nothing is mapped and there are frames enough. -/
theorem deleted_range_not_reusable : ∃ s, Reachable (tracked hostFormat Canonical) s ∧
    s.state.1.regions.entries = [] ∧ Permitted Canonical hugePage ∧
    3 * (pages hugePage).length ≤ s.state.2.free.length ∧
    failure (s.state.1.insert ptEntry s.state.2 hugePage) =
      some (.err ⟨.efault, some PagingError.alreadyMapped.text⟩) := by
  have facts : mapAndDelete.map (fun s => (s.1.regions.entries.length, s.2.free.length,
      failure (s.1.insert ptEntry s.2 hugePage))) =
        some (0, 5, some (.err ⟨.efault, some PagingError.alreadyMapped.text⟩)) := by
    decide +kernel
  obtain ⟨s, run, seen⟩ := Option.map_eq_some_iff.mp facts
  simp only [Prod.mk.injEq, List.length_eq_zero_iff] at seen
  refine ⟨_, map_and_delete_reached run, seen.1, low_region_permitted _ _ (by decide), ?_, seen.2.2⟩
  have one : (pages hugePage).length = 1 := by decide +kernel
  change 3 * (pages hugePage).length ≤ s.2.free.length
  omega

end RtosRvmReuse
