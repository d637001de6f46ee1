import CompositeRtos.Nimbos.UserSets

/-!
The kernel's memory set after boot. `init_kernel_aspace` starts from a fresh frame allocator and
maps ranges at fixed offsets, so the only frames in use are the kernel's page tables, and all of
them belong to its page table.
-/
namespace RtosNimbosKernelBoot
open RtosLedger RtosFrameMemory RtosRadixWalk RtosOrderedMap RtosNimbosFrames
open RtosNimbosPageTable RtosNimbosPageTree RtosNimbosMemorySet RtosNimbosLoadUser
open RtosNimbosFrameLedger RtosNimbosAddressSpace RtosNimbosAreas RtosNimbosUserSets
open RtosNimbosLoadStage (sharedIndex)

structure Booting (ram : Ram) (root : Nat) (pt : PageTable) : Prop where
  at_root : pt.rootPaddr = startPaddr root
  tree : Tree ram root
  covers : ∀ f, Reached child ram.view root 3 f → f ∈ pt.intrmTables
  complete : Complete (pool ram) ↑pt.intrmTables

def Linked (ram : Ram) (root : Nat) : Prop := ram.view root sharedIndex ≠ 0

theorem booting_map (h : Booting ram root pt) (some_flag : flags ≠ MemFlags.empty)
    (run : pt.map ram va pa flags = .ok (pt', ram')) :
    Booting ram' root pt' ∧ (Linked ram root → Linked ram' root) ∧
      (kernelAspaceBase ≤ va → Linked ram' root) := by
  have outcome := map_spec h.tree h.at_root va pa flags
  have complete := h.complete
  rw [← add_zero (pt.intrmTables : Multiset Nat)] at complete
  have owns := holds_part (complete_holds complete)
  have sane := sane_of_holds (f := root) owns (h.covers root ⟨[], by simp, rfl⟩)
  have exchange := (map_exchange owns sane run).1
  rw [run] at outcome
  cases outcome with
  | entered free grown leaves =>
    refine ⟨⟨grown.kept_root.trans h.at_root, grown.tree, ?_, ?_⟩, ?_, ?_⟩
    · rintro f ⟨q, len, reached⟩
      obtain ⟨new, tables, _⟩ := grown.tables
      rcases grown.back q f len reached with before | made
      · rw [tables]
        exact List.mem_append_left _ (h.covers f ⟨q, len, before⟩)
      · exact made.1
    · have after := complete_exchange complete exchange
      rwa [add_zero] at after
    · intro linked
      rw [Linked, root_entry_kept h.tree grown.tree (fun g => grown.walks _ g (by simp)) linked]
      exact linked
    · intro high zero
      have unreached : walk child ram'.view root (upperIndices va) = none := by
        rw [upperIndices, kernel_index high, walk, zero, child_zero]
        rfl
      have entry := leaves _ (p1Index va) (upper_length va)
      rw [if_pos ⟨rfl, rfl⟩, leaf, RtosTableTree.cell_of_none unreached] at entry
      exact new_page_used _ some_flag entry.symm

theorem offset_loop_spec (h : Booting ram root pt) (shape : area.mapper = .offset off)
    (some_flag : area.flags ≠ MemFlags.empty) (some_fuel : 0 < fuel)
    (run : mapLoop pt ram area lo hi fuel = .ok (pt', area', ram')) :
    Booting ram' root pt' ∧ area' = area ∧ (Linked ram root → Linked ram' root) ∧
      (kernelAspaceBase ≤ lo → lo < hi → Linked ram' root) := by
  induction fuel generalizing pt ram lo with
  | zero => omega
  | succ fuel ih =>
    rw [mapLoop] at run
    split at run
    · rename_i below
      split at run
      · cases run
      rename_i va valid
      obtain ⟨rfl, _⟩ := virt_addr_new_ok valid
      split at run
      · cases run
      rename_i paddr area₁ ram₁ taken
      have still : area₁ = area ∧ ram₁ = ram := by
        simp only [MapArea.map, shape] at taken
        split at taken
        · cases taken
        · cases taken
          exact ⟨rfl, rfl⟩
      obtain ⟨rfl, rfl⟩ := still
      split at run
      · cases run
      rename_i pt₂ ram₂ entered
      obtain ⟨booting, linked, high⟩ := booting_map h some_flag entered
      cases fuel with
      | zero =>
        cases run
        exact ⟨booting, rfl, linked, fun above _ => high above⟩
      | succ fuel =>
        obtain ⟨booting', same, linked', _⟩ := ih booting (Nat.succ_pos fuel) run
        exact ⟨booting', same, fun before => linked' (linked before), fun above _ => linked' (high above)⟩
    · rename_i done
      cases run
      exact ⟨h, rfl, id, fun _ below => absurd below done⟩

/-- What the linker script and the configuration give: kernel addresses, and mappings that can
    at least be read. -/
def KernelRange.Usual (range : KernelRange) : Prop := kernelAspaceBase ≤ range.start ∧ range.flags.read

instance (range : KernelRange) : Decidable (KernelRange.Usual range) := inferInstanceAs (Decidable (_ ∧ _))

theorem map_range_spec (h : Booting ram root ms.pt) (plain : ∀ a ∈ areasOf ms, dataOf a = 0)
    (usual : KernelRange.Usual range) (run : mapRange ms ram range = .ok (ms', ram')) :
    Booting ram' root ms'.pt ∧ (∀ a ∈ areasOf ms', dataOf a = 0) ∧ Linked ram' root := by
  have some_flag : range.flags ≠ MemFlags.empty := by
    intro empty
    have readable := usual.2
    rw [empty] at readable
    cases readable
  unfold mapRange at run
  split at run
  · cases run
  rename_i below
  rw [not_not] at below
  split at run
  · cases run
  rename_i start valid
  obtain ⟨rfl, _⟩ := virt_addr_new_ok valid
  split at run
  · cases run
  split at run
  · cases run
  rename_i stop valid_stop
  obtain ⟨rfl, _⟩ := virt_addr_new_ok valid_stop
  split at run
  · cases run
  split at run
  · cases run
  rename_i area made
  unfold MapArea.newOffset at made
  split at made
  · cases made
  split at made
  · cases made
  split at made
  · cases made
  cases made
  have below' := below
  rw [BitVec.lt_def] at below'
  have some_page : range.stop - range.start > 0 := by
    rw [gt_iff_lt, BitVec.lt_def, BitVec.toNat_sub]
    have := range.stop.isLt
    have zero : (0 : BitVec 64).toNat = 0 := rfl
    omega
  rw [MemorySet.insert, if_pos some_page] at run
  split at run
  · cases run
  rename_i absent
  split at run
  · cases run
  rename_i pt' area' ram₁ ran
  cases run
  have stop_eq : range.start + (range.stop - range.start) = range.stop := by
    rw [BitVec.add_comm, BitVec.sub_add_cancel]
  simp only [mapArea, stop_eq] at ran
  obtain ⟨booting, same, _, high⟩ := offset_loop_spec h rfl some_flag (by omega) ran
  refine ⟨booting, ?_, high usual.1 below⟩
  intro a member
  rw [areasOf, (areas_insert area' absent).mem_iff] at member
  rcases List.mem_cons.mp member with rfl | old
  · rw [same]
    rfl
  · exact plain a old

theorem map_ranges_spec (h : Booting ram root ms.pt) (plain : ∀ a ∈ areasOf ms, dataOf a = 0)
    (linked : ranges = [] → Linked ram root) (usual : ∀ range ∈ ranges, KernelRange.Usual range)
    (run : mapRanges ms ram ranges = .ok (ms', ram')) :
    Booting ram' root ms'.pt ∧ (∀ a ∈ areasOf ms', dataOf a = 0) ∧ Linked ram' root := by
  induction ranges generalizing ms ram with
  | nil =>
    cases run
    exact ⟨h, plain, linked rfl⟩
  | cons range rest ih =>
    rw [mapRanges] at run
    split at run
    · cases run
    rename_i ms₁ ram₁ mapped
    obtain ⟨booting, plain₁, linked₁⟩ := map_range_spec h plain (usual range (.head _)) mapped
    exact ih booting plain₁ (fun _ => linked₁) (fun r member => usual r (.tail _ member)) run

theorem init_complete (bytes : Bytes) (start stop : Nat) (window : (FreeListAllocator.init start stop).stop ≤ 2 ^ 27) :
    Complete (pool ⟨bytes, FreeListAllocator.init start stop, window⟩) 0 where
  nodup := Multiset.nodup_zero
  exact := by
    intro f
    simp only [Multiset.notMem_zero, false_iff]
    rintro ⟨low, high, _⟩
    exact Nat.lt_irrefl _ (Nat.lt_of_le_of_lt low high)

theorem new_kernel_spec (complete : Complete (pool ram) 0) (sane : ram.Sane)
    (run : MemorySet.newKernel ram = .ok (ms, ram')) :
    ms.areas = OrderedMap.empty ∧ ∃ root, Booting ram' root ms.pt := by
  unfold MemorySet.newKernel PageTable.new at run
  cases made : ram.allocZero with
  | none => simp [made] at run
  | some result =>
    obtain ⟨root, ram₁⟩ := result
    simp only [made] at run
    cases run
    obtain ⟨tree, only⟩ := new_tree made
    refine ⟨rfl, root, rfl, tree, ?_, ?_⟩
    · rintro f ⟨q, _, reached⟩
      rw [(only q f reached).2]
      exact List.mem_singleton_self root
    rw [← add_zero (0 : Multiset Nat)] at complete
    have after := complete_exchange complete (effect_alloc_zero (holds_zero (pool ram)) sane made).exchange
    rwa [add_zero] at after

theorem kernel_booted (some_range : ranges ≠ []) (usual : ∀ range ∈ ranges, KernelRange.Usual range)
    (run : initKernelAspace ⟨bytes, FreeListAllocator.init start stop, window⟩ ranges = .ok (ms, ram')) :
    (∃ kroot, KernelSpace ram' ms.pt kroot) ∧ Complete (pool ram') ↑ms.pt.intrmTables ∧
      ∀ a ∈ areasOf ms, dataOf a = 0 := by
  unfold initKernelAspace at run
  split at run
  · cases run
  rename_i ms₁ ram₁ made
  obtain ⟨no_areas, root, booting⟩ := new_kernel_spec (init_complete bytes start stop window) (Nat.le_refl start) made
  have plain : ∀ a ∈ areasOf ms₁, dataOf a = 0 := by simp [areasOf, no_areas, OrderedMap.empty]
  obtain ⟨booting', plain', linked⟩ := map_ranges_spec booting plain (fun empty => absurd empty some_range) usual run
  exact ⟨⟨root, ⟨booting'.at_root, booting'.tree, linked⟩, booting'.covers⟩, booting'.complete, plain'⟩

end RtosNimbosKernelBoot
