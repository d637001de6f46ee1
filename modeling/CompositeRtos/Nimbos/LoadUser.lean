import CompositeRtos.Nimbos.LoadStage
import CompositeRtos.Nimbos.Paging

/-!
`load_user` maps whatever pages the program headers name. A fresh memory set shares the
kernel's tables through one root entry, and nothing compares a segment's address with the
kernel's. The theorem below says exactly which programs leave the kernel's half alone.
-/
namespace RtosNimbosLoadUser
open RtosFrameMemory RtosRadixWalk RtosOrderedMap RtosNimbosFrames RtosNimbosPageTable
open RtosNimbosPageTree RtosNimbosMemorySet RtosNimbosLoadStage RtosTransition RtosNimbosPaging

def Between (start stop va : BitVec 64) : Prop :=
  start.toNat ≤ va.toNat ∧ va.toNat < stop.toNat ∧ 2 ^ 12 ∣ va.toNat

def ProgramHeader.areaStart (ph : ProgramHeader) : BitVec 64 := alignDown ph.virtualAddr

def ProgramHeader.areaEnd (ph : ProgramHeader) : BitVec 64 := alignUp (ph.virtualAddr + ph.memSize)

def Pages (ph : ProgramHeader) (va : VirtAddr) : Prop :=
  ph.isLoad ∧ Between (ProgramHeader.areaStart ph) (ProgramHeader.areaEnd ph) va

def StackPages (va : VirtAddr) : Prop := Between userStackBase (userStackBase + userStackSize) va

theorem between_empty (le : stop.toNat ≤ start.toNat) : ¬ Between start stop va := by
  unfold Between
  omega

theorem next_page {start stop : BitVec 64} (below : start.toNat < stop.toNat)
    (aligned : 2 ^ 12 ∣ start.toNat) (stop_aligned : 2 ^ 12 ∣ stop.toNat) :
    (start + 4096).toNat = start.toNat + 4096 := by
  have := stop.isLt
  rw [BitVec.toNat_add, show (4096 : BitVec 64).toNat = 4096 from rfl]
  omega

theorem between_first {start stop : BitVec 64} (below : start.toNat < stop.toNat)
    (aligned : 2 ^ 12 ∣ start.toNat) (stop_aligned : 2 ^ 12 ∣ stop.toNat) :
    Between start stop va ↔ va = start ∨ Between (start + 4096) stop va := by
  unfold Between
  rw [next_page below aligned stop_aligned, ← BitVec.toNat_inj]
  omega

section Loading

variable {before : Ram} {root : Nat} (empty_root : ∀ i, i ≠ sharedIndex → before.view root i = 0)

include empty_root

theorem map_loop_stage {area : MapArea} (stage : Stage before root ram pt mapped)
    (framed : Framed before root ram area) (some_flag : area.flags ≠ MemFlags.empty)
    (aligned : 2 ^ 12 ∣ vaddr.toNat) (stop_aligned : 2 ^ 12 ∣ stop.toNat)
    (enough : (stop.toNat - vaddr.toNat + 4095) / 4096 ≤ fuel)
    (run : mapLoop pt ram area vaddr stop fuel = .ok (pt', area', ram')) :
    Stage before root ram' pt' fun va => mapped va ∨ Between vaddr stop va := by
  induction fuel generalizing pt ram area mapped vaddr with
  | zero =>
    cases run
    apply stage_congr stage
    intro va
    rw [or_iff_left (between_empty (by omega))]
  | succ fuel ih =>
    rw [mapLoop] at run
    split at run
    · rename_i below
      rw [BitVec.lt_def] at below
      split at run
      · cases run
      rename_i va valid
      obtain ⟨same_va, canonical⟩ := virt_addr_new_ok valid
      rw [same_va] at run
      split at run
      · cases run
      rename_i paddr area₁ ram₁ taken
      obtain ⟨stage₁, _, framed₁, same, _⟩ := area_map_stage stage framed taken
      split at run
      · cases run
      rename_i pt₂ ram₂ entered
      obtain ⟨stage₂, holds₂⟩ := stage_map stage₁ empty_root canonical some_flag entered
      have next := next_page below aligned stop_aligned
      have rest := ih stage₂ (framed_holds framed₁ holds₂) (by rw [same.2.2]; exact some_flag)
        (by omega) (by omega) run
      apply stage_congr rest
      intro v
      rw [between_first below aligned stop_aligned, or_assoc]
    · rename_i done
      rw [BitVec.lt_def] at done
      cases run
      apply stage_congr stage
      intro va
      rw [or_iff_left (between_empty (by omega))]

theorem insert_stage {ms : MemorySet} (stage : Stage before root ram ms.pt mapped)
    (framed : Framed before root ram area) (some_flag : area.flags ≠ MemFlags.empty)
    (aligned : isAligned area.start) (size_aligned : isAligned area.size) (some_page : area.size > 0)
    (run : ms.insert ram area = .ok (ms', ram')) :
    Stage before root ram' ms'.pt fun va => mapped va ∨ Between area.start (area.start + area.size) va := by
  rw [aligned_iff] at aligned size_aligned
  have stop_aligned : 2 ^ 12 ∣ (area.start + area.size).toNat := by
    rw [BitVec.toNat_add]
    omega
  rw [MemorySet.insert, if_pos some_page] at run
  split at run
  · cases run
  split at run
  · cases run
  rename_i pt area' ram₁ ran
  cases run
  exact map_loop_stage empty_root stage framed some_flag aligned stop_aligned (Nat.le_refl _) ran

omit empty_root in
theorem new_framed_stage (made : MapArea.newFramed start size flags = .ok area) :
    isAligned start ∧ isAligned size ∧ area.start = start ∧ area.size = size ∧ area.flags = flags ∧
      Framed before root ram area := by
  unfold MapArea.newFramed at made
  split at made
  · cases made
  split at made
  · cases made
  rename_i first second
  cases made
  exact ⟨by simpa using first, by simpa using second, rfl, rfl, rfl, _, rfl, by simp [OrderedMap.empty]⟩

theorem load_segment_stage {ms : MemorySet} (stage : Stage before root ram ms.pt mapped)
    (run : ms.loadSegment ram ph = .ok (ms', ram')) :
    Stage before root ram' ms'.pt fun va => mapped va ∨ Pages ph va := by
  unfold MemorySet.loadSegment at run
  split at run
  · rename_i other
    cases run
    apply stage_congr stage
    intro va
    simp only [Bool.not_eq_true'] at other
    simp [Pages, other]
  rename_i load
  simp only [Bool.not_eq_true, Bool.not_eq_false'] at load
  split at run
  · cases run
  rename_i vaddr valid
  obtain ⟨rfl, _⟩ := virt_addr_new_ok valid
  split at run
  · cases run
  rename_i last valid_last
  obtain ⟨rfl, _⟩ := virt_addr_new_ok valid_last
  split at run
  · cases run
  rename_i data _
  split at run
  · cases run
  rename_i area made
  obtain ⟨aligned, size_aligned, start_eq, size_eq, flags_eq, framed⟩ :=
    new_framed_stage made
  split at run
  · cases run
  rename_i area₁ ram₁ wrote
  obtain ⟨some_page, stage₁, framed₁, same⟩ := write_data_stage stage framed wrote
  have stop : area₁.start + area₁.size = ProgramHeader.areaEnd ph := by
    rw [same.1, same.2.1, start_eq, size_eq, BitVec.add_comm, BitVec.sub_add_cancel]
    rfl
  have inserted := insert_stage empty_root stage₁ framed₁
    (by rw [same.2.2, flags_eq]; simp [ProgramHeader.memFlags, MemFlags.empty])
    (by rw [same.1, start_eq]; exact aligned)
    (by rw [same.2.1, size_eq]; exact size_aligned) (by rw [same.2.1]; exact some_page) run
  apply stage_congr inserted
  intro va
  rw [stop, same.1, start_eq]
  simp [Pages, load, ProgramHeader.areaStart]

theorem load_segments_stage {ms ms' : MemorySet} (stage : Stage before root ram ms.pt mapped)
    (run : ms.loadSegments ram headers = .ok (ms', ram')) :
    Stage before root ram' ms'.pt fun va => mapped va ∨ ∃ ph ∈ headers, Pages ph va := by
  induction headers generalizing ms ram mapped with
  | nil =>
    cases run
    apply stage_congr stage
    intro va
    simp
  | cons ph rest ih =>
    rw [MemorySet.loadSegments] at run
    split at run
    · cases run
    rename_i ms₁ ram₁ loaded
    apply stage_congr (ih (load_segment_stage empty_root stage loaded) run)
    intro va
    simp only [List.exists_mem_cons_iff, or_assoc]

theorem load_user_stage {ms ms' : MemorySet} (stage : Stage before root ram ms.pt mapped)
    (run : ms.loadUser ram (some elf) = .ok (entry, top, ms', ram')) :
    Stage before root ram' ms'.pt fun va =>
      (mapped va ∨ ∃ ph ∈ elf.programIter, Pages ph va) ∨ StackPages va := by
  unfold MemorySet.loadUser at run
  simp only at run
  split at run
  · cases run
  split at run
  · cases run
  split at run
  · cases run
  rename_i ms₁ ram₁ loaded
  have stage₁ := load_segments_stage empty_root stage loaded
  split at run
  · cases run
  rename_i base valid
  obtain ⟨rfl, _⟩ := virt_addr_new_ok valid
  split at run
  · cases run
  rename_i stack made
  obtain ⟨aligned, size_aligned, start_eq, size_eq, flags_eq, framed⟩ :=
    new_framed_stage made
  split at run
  · cases run
  rename_i ms₂ ram₂ inserted
  have stage₂ := insert_stage empty_root stage₁ framed (by rw [flags_eq]; decide)
    (by rw [start_eq]; exact aligned) (by rw [size_eq]; exact size_aligned)
    (by rw [size_eq]; decide) inserted
  rw [start_eq, size_eq] at stage₂
  split at run
  · cases run
  split at run
  · cases run
  · cases run
    exact stage₂

end Loading

/-- The kernel's page table as `init_kernel_aspace` leaves it: a tree of tables in use, with
    something mapped in the kernel half. -/
structure KernelReady (ram : Ram) (kernel : PageTable) (kroot : Nat) : Prop where
  at_root : kernel.rootPaddr = startPaddr kroot
  tree : Tree ram kroot
  mapped : ram.view kroot sharedIndex ≠ 0

/-- A memory set fresh from `MemorySet::new`: its root shares the kernel's entry. -/
structure FreshSet (before : Ram) (root kroot : Nat) : Prop where
  tree : Tree before root
  kernel : Tree before kroot
  outside : ¬ Reached child before.view kroot 3 root
  empty_root : ∀ i, i ≠ sharedIndex → before.view root i = 0
  shared : before.view root sharedIndex = before.view kroot sharedIndex
  mapped : before.view kroot sharedIndex ≠ 0

theorem new_set_eq (kernel : PageTable) (ram : Ram) : MemorySet.new kernel ram = match ram.allocZero with
    | none => .error .outOfFrames
    | some (root, ram') => .ok (⟨⟨startPaddr root, [root]⟩, OrderedMap.empty⟩,
        ram'.storeEntry (startPaddr root) sharedIndex (entryAt ram' kernel.rootPaddr sharedIndex)) := by
  have base : VirtAddr.new kernelAspaceBase = .ok kernelAspaceBase := rfl
  have stop : VirtAddr.new (kernelAspaceBase + kernelAspaceSize) = .ok (kernelAspaceBase + kernelAspaceSize) := rfl
  have last : VirtAddr.new (kernelAspaceBase + kernelAspaceSize - 1) =
      .ok (kernelAspaceBase + kernelAspaceSize - 1) := rfl
  have slots : List.range' (p4Index kernelAspaceBase).val
      ((p4Index (kernelAspaceBase + kernelAspaceSize - 1)).val + 1 - (p4Index kernelAspaceBase).val) = [511] := by
    decide
  simp only [MemorySet.new, base, stop, cloneFrom, last, slots, PageTable.new]
  cases ram.allocZero with
  | none => rfl
  | some made => rfl

theorem walk_shared (shared : view r i = view r' i) :
    walk child view r (i :: rest) = walk child view r' (i :: rest) := by
  rw [walk, walk, shared]

theorem grafted_walk (empty_root : ∀ i, i ≠ sharedIndex → view root i = 0)
    (shared : view root sharedIndex = view kroot sharedIndex) (reached : walk child view root q = some f) :
    q = [] ∧ f = root ∨ walk child view kroot q = some f ∧ ∃ rest, q = sharedIndex :: rest := by
  cases q with
  | nil => exact Or.inl ⟨rfl, (Option.some.inj reached).symm⟩
  | cons i rest =>
    by_cases here : i = sharedIndex
    · subst here
      rw [walk_shared shared] at reached
      exact Or.inr ⟨reached, rest, rfl⟩
    · rw [walk, empty_root i here, child_zero] at reached
      cases reached

theorem grafted_tree (kernel : Tree ram kroot) (outside : ¬ Reached child ram.view kroot 3 root)
    (small : root < 2 ^ 27) (used : ¬ ram.Available root)
    (empty_root : ∀ i, i ≠ sharedIndex → ram.view root i = 0)
    (shared : ram.view root sharedIndex = ram.view kroot sharedIndex) : Tree ram root := by
  refine ⟨?_, ?_, ?_⟩
  · intro p q f len len' first second
    rcases grafted_walk empty_root shared first with ⟨p_nil, at_root⟩ | ⟨first', _⟩
    · rcases grafted_walk empty_root shared second with ⟨q_nil, _⟩ | ⟨second', _⟩
      · rw [p_nil, q_nil]
      · exact absurd ⟨q, len', at_root ▸ second'⟩ outside
    rcases grafted_walk empty_root shared second with ⟨_, at_root⟩ | ⟨second', _⟩
    · exact absurd ⟨p, len, at_root ▸ first'⟩ outside
    · exact kernel.separated p q f len len' first' second'
  · rintro f ⟨q, len, reached⟩
    rcases grafted_walk empty_root shared reached with ⟨_, at_root⟩ | ⟨reached', _⟩
    · rw [at_root]
      exact ⟨used, small⟩
    · exact kernel.live f ⟨q, len, reached'⟩
  · intro p f i len reached
    rcases grafted_walk empty_root shared reached with ⟨_, at_root⟩ | ⟨reached', _⟩
    · rw [at_root]
      by_cases here : i = sharedIndex
      · rw [here, shared]
        exact kernel.formed [] kroot sharedIndex (by simp) rfl
      · exact Or.inl (empty_root i here)
    · exact kernel.formed p f i len reached'

theorem new_set_fresh (ready : KernelReady ram kernel kroot) (made : MemorySet.new kernel ram = .ok (ms, before)) :
    ∃ root, ms.pt.rootPaddr = startPaddr root ∧ FreshSet before root kroot := by
  rw [new_set_eq] at made
  cases found : ram.allocZero with
  | none => simp [found] at made
  | some result =>
    obtain ⟨root, ram₁⟩ := result
    simp only [found] at made
    obtain ⟨rfl, stored⟩ := Prod.mk.inj (Except.ok.inj made)
    refine ⟨root, rfl, ?_⟩
    have taken := taken_beside ready.tree found
    have at_kroot : Reached child ram₁.view kroot 3 kroot := ⟨[], by simp, rfl⟩
    have small_k := (taken.tree.live kroot at_kroot).2
    have other : kroot ≠ root := fun same => taken.fresh (same ▸ at_kroot)
    rw [ready.at_root, entry_at_start ram₁ small_k] at stored
    have view : before.view = poke ram₁.view root sharedIndex (ram₁.view kroot sharedIndex) := by
      rw [← stored]
      exact store_entry_view ram₁ taken.small sharedIndex _
    have same : ∀ f, Reached child ram₁.view kroot 3 f → SameFrame ram₁.bytes before.bytes f := by
      intro f reached
      have apart : f ≠ root := fun same => taken.fresh (same ▸ reached)
      rw [← stored]
      simp only [Ram.storeEntry, frame_of_start (show root < 2 ^ 28 by have := taken.small; omega)]
      exact store_elsewhere ram₁.bytes apart _ _
    have frames : ∀ f, before.Available f ↔ ram₁.Available f := by
      intro f
      rw [← stored]
      rfl
    have kernel' : Tree before kroot :=
      tree_outside same taken.tree fun f reached still => (taken.tree.live f reached).1 ((frames f).mp still)
    have outside : ¬ Reached child before.view kroot 3 root := by
      rintro ⟨q, len, reached⟩
      rw [walks_outside same len] at reached
      exact taken.fresh ⟨q, len, reached⟩
    have empty_root : ∀ i, i ≠ sharedIndex → before.view root i = 0 := by
      intro i ne
      rw [view, poke, if_neg (fun h => ne h.2), taken.empty]
    have kept : before.view kroot sharedIndex = ram₁.view kroot sharedIndex := by
      rw [view, poke_other_table _ other]
    have shared : before.view root sharedIndex = before.view kroot sharedIndex := by
      rw [kept, view, poke_here]
    have mapped : before.view kroot sharedIndex ≠ 0 := by
      have old : ram₁.view kroot sharedIndex = ram.view kroot sharedIndex :=
        view_same (taken.same kroot ⟨[], by simp, rfl⟩)
      rw [kept, old]
      exact ready.mapped
    exact ⟨grafted_tree kernel' outside taken.small (fun still => taken.used ((frames root).mp still))
      empty_root shared, kernel', outside, empty_root, shared, mapped⟩

def Shares (ram : Ram) (kroot r : Nat) : Prop :=
  r < 2 ^ 27 ∧ ¬ ram.Available r ∧ ram.view r sharedIndex = ram.view kroot sharedIndex

/-- Every kernel address translates as before in every address space that shares the
    kernel's tables, and no table of the kernel was written. -/
def Undisturbed (before after : Ram) (kroot : Nat) : Prop :=
  (∀ (r : Nat) (pt : PageTable) (va : VirtAddr), Shares before kroot r → pt.rootPaddr = startPaddr r → kernelAspaceBase ≤ va →
    va < kernelAspaceBase + kernelAspaceSize → pt.query after va = pt.query before va) ∧
  ∀ f, Reached child before.view kroot 3 f → SameFrame before.bytes after.bytes f

def BelowKernel (ph : ProgramHeader) : Prop :=
  ph.isLoad → ProgramHeader.areaStart ph < ProgramHeader.areaEnd ph →
    ProgramHeader.areaEnd ph ≤ kernelAspaceBase

instance (ph : ProgramHeader) : Decidable (BelowKernel ph) :=
  inferInstanceAs (Decidable (_ → _ → _))

theorem kernel_index (high : kernelAspaceBase ≤ va) : p4Index va = sharedIndex := by
  have bound := va.isLt
  rw [BitVec.le_def, show kernelAspaceBase.toNat = 2 ^ 64 - 2 ^ 39 from rfl] at high
  rw [Fin.ext_iff, p4Index, index_value, show sharedIndex.val = 511 from rfl]
  omega

theorem user_index (canonical : Canonical va) (low : va < kernelAspaceBase) : p4Index va ≠ sharedIndex := by
  have range := canonical_range canonical
  rw [BitVec.lt_def, show kernelAspaceBase.toNat = 2 ^ 64 - 2 ^ 39 from rfl] at low
  rw [ne_eq, Fin.ext_iff, p4Index, index_value, show sharedIndex.val = 511 from rfl]
  omega

theorem shared_entry_kept (tree : Tree before root) (stage : Stage before root ram pt mapped)
    (present : before.view root sharedIndex ≠ 0) : ram.view root sharedIndex = before.view root sharedIndex :=
  root_entry_kept tree stage.tree (fun g => stage.walks _ g (by simp)) present

theorem query_shared {pt pt' : PageTable}
    (same : entryAt ram pt.rootPaddr (p4Index va) = entryAt ram pt'.rootPaddr (p4Index va)) :
    pt.query ram va = pt'.query ram va := by
  have descent : descend ram pt.rootPaddr (upperIndices va) = descend ram pt'.rootPaddr (upperIndices va) := by
    rw [upperIndices, descend, descend, same]
  rw [PageTable.query, PageTable.query, PageTable.getEntryMut, PageTable.getEntryMut, descent]

section Verdict

variable {before after : Ram} {root kroot : Nat} {pt : PageTable} {mapped : VirtAddr → Prop}
  (fresh : FreshSet before root kroot) (stage : Stage before root after pt mapped)

include fresh stage

theorem low_pages_undisturbed (low : ∀ va, mapped va → va < kernelAspaceBase) :
    Undisturbed before after kroot := by
  have below : ∀ va, mapped va → p4Index va ≠ sharedIndex :=
    fun va inside => user_index (stage.canonical va inside) (low va inside)
  have kernel : ∀ f, Reached child before.view kroot 3 f → SameFrame before.bytes after.bytes f := by
    intro f reached
    apply stage.kept below f (fresh.kernel.live f reached).1
    intro same
    exact fresh.outside (same ▸ reached)
  have kernel_tree : Tree after kroot :=
    tree_outside kernel fresh.kernel fun f reached still => (fresh.kernel.live f reached).1 (stage.shrinks f still)
  have at_kroot : Reached child before.view kroot 3 kroot := ⟨[], by simp, rfl⟩
  have small := (fresh.kernel.live kroot at_kroot).2
  have entry_k : after.view kroot sharedIndex = before.view kroot sharedIndex :=
    view_same (kernel kroot at_kroot)
  refine ⟨?_, kernel⟩
  intro r pt' va shares at_r high _
  have entry_r : after.view r sharedIndex = before.view r sharedIndex := by
    by_cases own : r = root
    · rw [own]
      exact shared_entry_kept fresh.tree stage (by rw [fresh.shared]; exact fresh.mapped)
    · exact view_same (stage.kept below r shares.2.1 own)
  let kernel_pt : PageTable := ⟨startPaddr kroot, []⟩
  have through : ∀ {ram : Ram}, ram.view r sharedIndex = ram.view kroot sharedIndex →
      pt'.query ram va = kernel_pt.query ram va := by
    intro ram same
    apply query_shared
    rw [kernel_index high, at_r, entry_at_start ram shares.1, entry_at_start ram small, same]
  rw [through (by rw [entry_r, entry_k]; exact shares.2.2), through shares.2.2,
    query_spec kernel_tree kernel_pt rfl, query_spec fresh.kernel kernel_pt rfl,
    leaves_outside kernel _ (upper_length va)]

theorem high_page_disturbs (inside : mapped va) (high : kernelAspaceBase ≤ va) :
    ¬ Undisturbed before after kroot := by
  rintro ⟨_, kernel⟩
  obtain ⟨zero, nonzero⟩ := stage.entered va inside
  have at_kroot : Reached child before.view kroot 3 kroot := ⟨[], by simp, rfl⟩
  have same_k : after.view kroot sharedIndex = before.view kroot sharedIndex :=
    view_same (kernel kroot at_kroot)
  have same_root := shared_entry_kept fresh.tree stage (by rw [fresh.shared]; exact fresh.mapped)
  have through : ∀ {ram : Ram}, ram.view root sharedIndex = ram.view kroot sharedIndex →
      leaf ram root (upperIndices va) (p1Index va) = leaf ram kroot (upperIndices va) (p1Index va) := by
    intro ram shared
    rw [leaf, leaf, upperIndices, kernel_index high, RtosTableTree.cell, RtosTableTree.cell, walk_shared shared]
  apply nonzero
  rw [through (by rw [same_root, same_k, fresh.shared]), leaves_outside kernel _ (upper_length va),
    ← through fresh.shared, zero]

end Verdict

theorem align_up_aligned (addr : BitVec 64) : 2 ^ 12 ∣ (alignUp addr).toNat := by
  rw [alignUp, RtosBitField.and_high_field 12 (by decide)]
  exact Nat.dvd_mul_left _ _

theorem load_user_spares_kernel_iff {ram before after : Ram} {kernel : PageTable} {kroot : Nat}
    {ms ms' : MemorySet} {elf : ElfFile} {entry top : VirtAddr} (ready : KernelReady ram kernel kroot)
    (made : MemorySet.new kernel ram = .ok (ms, before))
    (loaded : ms.loadUser before (some elf) = .ok (entry, top, ms', after)) :
    Undisturbed before after kroot ↔ ∀ ph ∈ elf.programIter, BelowKernel ph := by
  obtain ⟨root, at_root, fresh⟩ := new_set_fresh ready made
  have stage := load_user_stage fresh.empty_root (stage_start fresh.tree at_root) loaded
  constructor
  · intro undisturbed ph member load some_page
    by_contra high
    rw [BitVec.le_def] at high
    rw [BitVec.lt_def] at some_page
    have start_aligned : 2 ^ 12 ∣ (ProgramHeader.areaStart ph).toNat := by
      rw [ProgramHeader.areaStart, align_down_toNat]
      exact Nat.dvd_mul_left _ _
    have end_aligned : 2 ^ 12 ∣ (ProgramHeader.areaEnd ph).toNat := align_up_aligned _
    have last : (ProgramHeader.areaEnd ph - 4096).toNat = (ProgramHeader.areaEnd ph).toNat - 4096 := by
      have := (ProgramHeader.areaEnd ph).isLt
      rw [BitVec.toNat_sub, show (4096 : BitVec 64).toNat = 4096 from rfl]
      omega
    have base : kernelAspaceBase.toNat = 2 ^ 64 - 2 ^ 39 := rfl
    have inside : Pages ph (ProgramHeader.areaEnd ph - 4096) := by
      refine ⟨load, ?_⟩
      unfold Between
      omega
    apply high_page_disturbs fresh stage (Or.inl (Or.inr ⟨ph, member, inside⟩)) _ undisturbed
    rw [BitVec.le_def, last]
    omega
  · intro below
    apply low_pages_undisturbed fresh stage
    intro va inside
    rw [BitVec.lt_def]
    rcases inside with (none_before | ⟨ph, member, load, range⟩) | stack
    · exact none_before.elim
    · unfold Between at range
      have limit := below ph member load (by rw [BitVec.lt_def]; omega)
      rw [BitVec.le_def] at limit
      omega
    have limit : (userStackBase + userStackSize).toNat ≤ kernelAspaceBase.toNat := by decide
    unfold StackPages Between at stack
    omega

theorem kernel_table_ready (reach : Reachable paging s) (va : VirtAddr) (canonical : Canonical va)
    (high : kernelAspaceBase ≤ va) (mapped : s.pages (pageOf va) ≠ none) :
    ∃ kroot, KernelReady s.ram s.pt kroot := by
  obtain ⟨kroot, refines⟩ := run_refines reach
  refine ⟨kroot, refines.at_root, refines.tree, ?_⟩
  intro zero
  have present : leaf s.ram kroot (upperIndices va) (p1Index va) ≠ 0 := by
    rw [refines.leaves va canonical, ne_eq, entry_of_unused refines]
    exact mapped
  apply present
  have unreached : walk child s.ram.view kroot (upperIndices va) = none := by
    rw [upperIndices, kernel_index high, walk, zero, child_zero]
    rfl
  exact RtosTableTree.cell_of_none unreached

def kernelText : MemFlags := ⟨true, false, true, false, false⟩

def bootRam : Ram := ⟨fun _ => 0, FreeListAllocator.init 1 64, by decide⟩

def bootKernel : Option State :=
  (PageTable.new bootRam).toOption.bind fun (pt, ram) =>
    attempt ⟨ram, pt, fun _ => none⟩ (.map 0xffffff8000200000 0x200000 kernelText)

def bootAndLoad (elf : ElfFile) : Option (State × MemorySet × Ram × Ram) :=
  bootKernel.bind fun s => (MemorySet.new s.pt s.ram).toOption.bind fun (ms, before) =>
    (ms.loadUser before (some elf)).toOption.map fun (_, _, _, after) => (s, ms, before, after)

theorem boot_kernel_ready (h : bootKernel = some s) : ∃ kroot, KernelReady s.ram s.pt kroot := by
  have text : (bootKernel.map fun s => s.pages (pageOf 0xffffff8000200000)) =
      some (some (0x200000, kernelText)) := by decide
  rw [h] at text
  obtain ⟨⟨pt, ram⟩, made, mapped⟩ := Option.bind_eq_some_iff.mp h
  have start : Reachable paging ⟨ram, pt, fun _ => none⟩ :=
    reachable_start ⟨bootRam, ok_of_to_option made, rfl⟩
  have reach : Reachable paging s := reachable_next start (attempt_allowed _ _ _ mapped)
  have page : s.pages (pageOf 0xffffff8000200000) = some (0x200000, kernelText) := Option.some.inj text
  apply kernel_table_ready reach 0xffffff8000200000 (by decide) (by decide)
  rw [page]
  simp

theorem boot_and_load_spec (h : bootAndLoad elf = some (s, ms, before, after)) :
    ∃ kroot entry top ms', KernelReady s.ram s.pt kroot ∧ MemorySet.new s.pt s.ram = .ok (ms, before) ∧
      ms.loadUser before (some elf) = .ok (entry, top, ms', after) := by
  obtain ⟨s', booted, rest⟩ := Option.bind_eq_some_iff.mp h
  obtain ⟨⟨ms', before'⟩, made, rest⟩ := Option.bind_eq_some_iff.mp rest
  obtain ⟨⟨entry, top, ms'', after'⟩, loaded, same⟩ := Option.map_eq_some_iff.mp rest
  simp only [Prod.mk.injEq] at same
  obtain ⟨rfl, rfl, rfl, rfl⟩ := same
  obtain ⟨kroot, ready⟩ := boot_kernel_ready booted
  exact ⟨kroot, entry, top, ms'', ready, ok_of_to_option made, ok_of_to_option loaded⟩

def plainProgram : ElfFile :=
  ⟨true, true, 0x400000, [⟨true, 0x400010, 0x1800, true, false, true, some [0x90, 0xc3]⟩]⟩

theorem plain_program_spares_kernel : ∃ ram kernel kroot ms before entry top ms' after,
    KernelReady ram kernel kroot ∧ MemorySet.new kernel ram = .ok (ms, before) ∧
    ms.loadUser before (some plainProgram) = .ok (entry, top, ms', after) ∧
    Undisturbed before after kroot := by
  have loads : (bootAndLoad plainProgram).isSome := by decide +kernel
  obtain ⟨⟨s, ms, before, after⟩, run⟩ := Option.isSome_iff_exists.mp loads
  obtain ⟨kroot, entry, top, ms', ready, made, loaded⟩ := boot_and_load_spec run
  refine ⟨_, _, kroot, ms, before, entry, top, ms', after, ready, made, loaded, ?_⟩
  apply (load_user_spares_kernel_iff ready made loaded).mpr
  intro ph member
  rw [List.mem_singleton.mp member]
  intro _ _
  decide

def intruder : ElfFile :=
  ⟨true, true, 0x400000, [⟨true, 0xffffff8000400000, 0x1000, true, true, true, some [0x90]⟩]⟩

/-- The kernel's own page table maps the intruder's page for user access afterwards. -/
theorem intruder_maps_kernel_page : ∃ ram kernel kroot ms before entry top ms' after,
    KernelReady ram kernel kroot ∧ MemorySet.new kernel ram = .ok (ms, before) ∧
    ms.loadUser before (some intruder) = .ok (entry, top, ms', after) ∧
    kernel.query before 0xffffff8000400000 = .ok none ∧
    kernel.query after 0xffffff8000400000 = .ok (some (0x6000, ⟨true, true, true, true, false⟩)) ∧
    ¬ Undisturbed before after kroot := by
  have seen : ((bootAndLoad intruder).map fun (s, _, before, after) =>
      ((s.pt.query before 0xffffff8000400000).toOption, (s.pt.query after 0xffffff8000400000).toOption)) =
      some (some none, some (some (0x6000, ⟨true, true, true, true, false⟩))) := by
    decide +kernel
  obtain ⟨⟨s, ms, before, after⟩, run, answers⟩ := Option.map_eq_some_iff.mp seen
  obtain ⟨first, second⟩ := Prod.mk.inj answers
  have first := ok_of_to_option first
  have second := ok_of_to_option second
  obtain ⟨kroot, entry, top, ms', ready, made, loaded⟩ := boot_and_load_spec run
  refine ⟨_, s.pt, kroot, ms, before, entry, top, ms', after, ready, made, loaded, first, second, ?_⟩
  rintro ⟨translations, _⟩
  obtain ⟨root, _, fresh⟩ := new_set_fresh ready made
  have live := fresh.kernel.live kroot ⟨[], by simp, rfl⟩
  have same := translations kroot s.pt 0xffffff8000400000 ⟨live.2, live.1, rfl⟩ ready.at_root
    (by decide) (by decide)
  rw [first, second] at same
  cases same

end RtosNimbosLoadUser
