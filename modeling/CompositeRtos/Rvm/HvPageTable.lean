import CompositeRtos.Rvm.Confinement
import CompositeRtos.Rvm.Layout
import CompositeRtos.Rvm.RootCell

/-!
The hypervisor's own page table (`init_hv_page_table` of `memory/mod.rs`) next to the root
cell's nested one. The first shows guest RAM at `phys_to_virt` of its guest address, the
second at the guest address; both are built by the same region loops, one after the other in
one memory. An address is held by an entry in 52 bits, and all sums wrap as in a release
build.
-/
namespace RtosRvmHvPageTable
open RtosRvmPte RtosRvmPageTable RtosRvmPageTree RtosRvmMemorySet RtosRvmPages RtosRvmLayout
open RtosRvmConfinement RtosRvmRootCell BitVec

def dma : MemFlags := 0x8

def physToVirt (config : HvSystemConfig) (paddr : BitVec 64) : BitVec 64 := paddr + physVirtOffset config

section Model

variable (config : HvSystemConfig)

def coreRegion (coreSize : BitVec 64) : MemoryRegion :=
  .newWithOffsetMapper hvBase config.hypervisorMemory.physStart coreSize
    (MemFlags.read ||| MemFlags.write ||| MemFlags.execute)

def restRegion (coreSize : BitVec 64) : MemoryRegion :=
  .newWithOffsetMapper (hvBase + coreSize) (config.hypervisorMemory.physStart + coreSize)
    (config.hypervisorMemory.size - coreSize) (MemFlags.read ||| MemFlags.write)

def ramRegion (region : HvMemoryRegion) : MemoryRegion :=
  .newWithOffsetMapper (physToVirt config region.virtStart) region.physStart region.size
    (MemFlags.read ||| MemFlags.write)

def mapGuestRam : List HvMemoryRegion → MemorySet → HostMemory → HvResult (MemorySet × HostMemory)
  | [], hvPt, mem => .ok (hvPt, mem)
  | region :: rest, hvPt, mem =>
    if contains region.flags dma then
      if physToVirt config region.virtStart < region.virtStart then
        .error (.err ⟨.einval,
          some ("Guest physical address " ++ MemorySet.hex region.virtStart ++ " is too large")⟩)
      else
        match hvPt.insert ptEntry mem (ramRegion config region) with
        | .error fault => .error fault
        | .ok (hvPt, mem) => mapGuestRam rest hvPt mem
    else mapGuestRam rest hvPt mem

def initHvPageTable (coreSize : BitVec 64) (mem : HostMemory) : HvResult (MemorySet × HostMemory) :=
  match MemorySet.new mem with
  | .error fault => .error fault
  | .ok (hvPt, mem) =>
    match hvPt.insert ptEntry mem (coreRegion config coreSize) with
    | .error fault => .error fault
    | .ok (hvPt, mem) =>
      match hvPt.insert ptEntry mem (restRegion config coreSize) with
      | .error fault => .error fault
      | .ok (hvPt, mem) => mapGuestRam config config.memRegions hvPt mem

end Model

section Built

variable {P : Format} {base mem mem' : HostMemory} {set set' : MemorySet} {regions : List MemoryRegion}

variable (P) in
/-- A page table that has the pages of these regions, in frames that were free in `base`. -/
structure Built (base mem : HostMemory) (root : Nat) (regions : List MemoryRegion) : Prop where
  tree : Tree P mem root
  confined : Confined P base mem root
  usable : ∀ r ∈ regions, P.usable r.flags
  entered : ∀ r ∈ regions, ∀ page ∈ pages r, Entered P mem root r page

theorem new_built (run : MemorySet.new mem = .ok (set, mem')) : Built P mem mem' set.pt.root [] := by
  rw [MemorySet.new] at run
  split at run
  · cases run
  rename_i pt wiped made
  cases run
  exact ⟨(new_tree made).1, new_confined made, by simp, by simp⟩

theorem insert_built (built : Built P base mem set.pt.root regions) (usable : P.usable region.flags)
    (run : set.insert P.toGenericPTE mem region = .ok (set', mem')) :
    Built P base mem' set'.pt.root (region :: regions) := by
  obtain ⟨tree', same_root, mapped⟩ := insert_mapped usable built.tree run
  have confined := insert_confined usable built.tree built.confined run
  rw [same_root] at tree' ⊢
  refine ⟨tree', confined, ?_, ?_⟩
  · intro r member
    rcases List.mem_cons.mp member with rfl | old
    · exact usable
    · exact built.usable r old
  intro r member page in_r
  rcases List.mem_cons.mp member with rfl | old
  · exact mapped.entered page in_r
  -- a page that is in use was not written again
  have kept := mapped.elsewhere page.va page.size (by
    intro fresh fresh_member same
    have zero := mapped.unused fresh fresh_member
    rw [← leaf_same_entry same] at zero
    exact entered_used (built.usable r old) (built.entered r old page in_r) zero)
  rw [Entered, kept]
  exact built.entered r old page in_r

theorem built_kept (built : Built P base mem root regions) (confined : Confined P' mem later other) :
    Tree P later root ∧ ∀ r ∈ regions, ∀ page ∈ pages r, Entered P later root r page := by
  obtain ⟨tree, leaves⟩ := confined_keeps confined built.tree
  refine ⟨tree, ?_⟩
  intro r member page in_r
  rw [Entered, leaves]
  exact built.entered r member page in_r

end Built

section Builders

variable {coreSize emptyPage : BitVec 64} {base mem mem' : HostMemory} {set set' : MemorySet}

theorem read_write_usable : hostFormat.usable (MemFlags.read ||| MemFlags.write) :=
  hostFormat.usable_read _ (by decide)

theorem core_usable : hostFormat.usable (MemFlags.read ||| MemFlags.write ||| MemFlags.execute) :=
  hostFormat.usable_read _ (by decide)

theorem guest_ram_built (built : Built hostFormat base mem set.pt.root regions)
    (run : mapGuestRam config todo set mem = .ok (set', mem')) :
    Built hostFormat base mem' set'.pt.root
      (((todo.filter fun r => contains r.flags dma).map (ramRegion config)).reverse ++ regions) := by
  induction todo generalizing set mem regions with
  | nil =>
    cases run
    exact built
  | cons region rest ih =>
    rw [mapGuestRam] at run
    split at run
    · rename_i flagged
      split at run
      · cases run
      split at run
      · cases run
      rename_i inserted
      have usable : hostFormat.usable (ramRegion config region).flags := read_write_usable
      simpa [flagged] using ih (insert_built built usable inserted) run
    · rename_i unflagged
      simpa [unflagged] using ih built run

theorem hv_page_table_built (run : initHvPageTable config coreSize mem = .ok (set, mem')) :
    ∃ all, Built hostFormat mem mem' set.pt.root all ∧ coreRegion config coreSize ∈ all ∧
      restRegion config coreSize ∈ all ∧
      ∀ region ∈ config.memRegions, contains region.flags dma = true → ramRegion config region ∈ all := by
  rw [initHvPageTable] at run
  split at run
  · cases run
  rename_i fresh mem1 made
  split at run
  · cases run
  rename_i with_core mem2 core
  split at run
  · cases run
  rename_i with_rest mem3 rest
  have start : Built hostFormat mem mem1 fresh.pt.root [] := new_built made
  have first := insert_built start (core_usable : hostFormat.usable (coreRegion config coreSize).flags) core
  have second := insert_built first (read_write_usable : hostFormat.usable (restRegion config coreSize).flags) rest
  refine ⟨_, guest_ram_built second run, by simp, by simp, ?_⟩
  intro region member flagged
  simp only [List.mem_append, List.mem_reverse, List.mem_map, List.mem_filter]
  exact Or.inl ⟨region, ⟨member, flagged⟩, rfl⟩

theorem insert_all_built (usable : ∀ flags, P.usable flags) (built : Built P base mem set.pt.root regions)
    (run : insertAll P.toGenericPTE todo set mem = .ok (set', mem')) :
    Built P base mem' set'.pt.root ((todo.map guestRegion).reverse ++ regions) := by
  induction todo generalizing set mem regions with
  | nil =>
    cases run
    exact built
  | cons region rest ih =>
    rw [insertAll] at run
    split at run
    · cases run
    rename_i inserted
    simpa using ih (insert_built built (usable _) inserted) run

theorem root_cell_built (usable : ∀ flags, P.usable flags)
    (run : newRoot P.toGenericPTE config emptyPage mem = .ok (set, mem')) :
    (∃ all, Built P mem mem' set.pt.root all ∧ ∀ region ∈ config.memRegions, guestRegion region ∈ all) ∧
      ∃ fresh mem1 first mem2, Tree P mem1 fresh.pt.root ∧
        MemorySet.insert P.toGenericPTE fresh mem1 (hypervisorRegion config emptyPage) = .ok (first, mem2) := by
  rw [newRoot] at run
  split at run
  · cases run
  rename_i fresh mem1 made
  split at run
  · cases run
  rename_i first mem2 inserted
  have start : Built P mem mem1 fresh.pt.root [] := new_built made
  have built := insert_all_built usable (insert_built start (usable _) inserted) run
  refine ⟨⟨_, built, fun region member => ?_⟩, fresh, mem1, first, mem2, start.tree, inserted⟩
  exact List.mem_append_left _ (List.mem_reverse.mpr (List.mem_map_of_mem member))

end Builders

theorem align_down_add (aligned : 2 ^ 12 ∣ a.toNat) : alignDown (a + b) = a + alignDown b := by
  have := a.isLt
  have := b.isLt
  apply eq_of_toNat_eq
  rw [align_down_floor, toNat_add, toNat_add, align_down_floor]
  omega

theorem hv_base_aligned : 2 ^ 12 ∣ hvBase.toNat := by decide

theorem core_start : (coreRegion config coreSize).start = hvBase := by
  change alignDown (alignDown hvBase) = hvBase
  rw [align_down_of_dvd (align_down_dvd _), align_down_of_dvd hv_base_aligned]

theorem rest_start : (restRegion config coreSize).start = hvBase + alignDown coreSize := by
  change alignDown (alignDown (hvBase + coreSize)) = _
  rw [align_down_of_dvd (align_down_dvd _), align_down_add hv_base_aligned]

section

variable (aligned : PageAligned config)
include aligned

theorem core_target : target (coreRegion config coreSize) x = config.hypervisorMemory.physStart + (x - hvBase) := by
  change x - (alignDown hvBase - alignDown config.hypervisorMemory.physStart) = _
  rw [align_down_of_dvd hv_base_aligned, align_down_of_dvd aligned.start]
  bv_omega

theorem rest_target : target (restRegion config coreSize) x = config.hypervisorMemory.physStart + (x - hvBase) := by
  change x - (alignDown (hvBase + coreSize) - alignDown (config.hypervisorMemory.physStart + coreSize)) = _
  rw [align_down_add hv_base_aligned, align_down_add aligned.start]
  bv_omega

theorem hv_range_covered (bounded : config.hypervisorMemory.size.toNat ≤ 2 ^ 48)
    (inside : (x - hvBase).toNat < config.hypervisorMemory.size.toNat) :
    Covers (coreRegion config coreSize) x ∨ Covers (restRegion config coreSize) x := by
  have whole := aligned.size
  have core_bound := coreSize.isLt
  have core_size : (coreRegion config coreSize).size.toNat = _ := align_up_floor coreSize
  have rest_size : (restRegion config coreSize).size.toNat = _ :=
    align_up_floor (config.hypervisorMemory.size - coreSize)
  rw [toNat_sub] at rest_size
  have cut := align_down_floor coreSize
  have distance : (x - (hvBase + alignDown coreSize)).toNat =
      (2 ^ 64 - (alignDown coreSize).toNat + (x - hvBase).toNat) % 2 ^ 64 := by
    rw [← toNat_sub]
    congr 1
    bv_omega
  rw [Covers, Covers, core_start, rest_start, core_size, distance, rest_size]
  omega

theorem hypervisor_page (base : 2 ^ 12 ∣ x.toNat)
    (inside : InHypervisor config x) : ⟨x, .size4K⟩ ∈ pages (hypervisorRegion config emptyPage) := by
  obtain ⟨page, member, here⟩ := region_cover ((hypervisor_covers aligned).mpr inside)
  have small := hypervisor_pages_small member
  have whole := (region_cut member).aligned
  obtain ⟨va, size⟩ := page
  cases small
  have same : va = x := by
    have := x.isLt
    have := va.isLt
    apply eq_of_toNat_eq
    simp only [PageSize.bits, toNat_sub] at here whole
    omega
  rw [← same]
  exact member

end

/-- The tables tell 2^36 small pages apart, so no larger hypervisor memory can be entered. -/
theorem hypervisor_bounded (usable : ∀ flags, P.usable flags) (aligned : PageAligned config) {gpm : MemorySet}
    (tree : Tree P mem gpm.pt.root)
    (run : gpm.insert P.toGenericPTE mem (hypervisorRegion config emptyPage) = .ok (gpm', mem')) :
    config.hypervisorMemory.size.toNat ≤ 2 ^ 48 := by
  by_contra large
  have start_aligned := aligned.start
  have bound := config.hypervisorMemory.physStart.isLt
  obtain ⟨span, value⟩ : ∃ span : BitVec 64, span.toNat = 2 ^ 48 := ⟨0x1000000000000, by decide⟩
  have first : ⟨config.hypervisorMemory.physStart, .size4K⟩ ∈ pages (hypervisorRegion config emptyPage) := by
    apply hypervisor_page aligned start_aligned
    rw [InHypervisor, BitVec.sub_self, toNat_ofNat, Nat.zero_mod]
    omega
  have second : ⟨config.hypervisorMemory.physStart + span, .size4K⟩ ∈
      pages (hypervisorRegion config emptyPage) := by
    apply hypervisor_page aligned
    · rw [toNat_add, value]
      omega
    rw [InHypervisor, show config.hypervisorMemory.physStart + span -
      config.hypervisorMemory.physStart = span by bv_omega, value]
    omega
  rw [MemorySet.insert] at run
  split at run
  · rename_i empty
    rw [pages, empty] at first
    simp [pagesFrom] at first
  split at run
  · cases run
  split at run
  · cases run
  rename_i mapping
  have apart := map_loop_apart (usable _) tree mapping
  have symmetric : Std.Symm fun a b : Page => ¬ SameEntry b.va b.size a.va a.size :=
    ⟨fun a b different same => different ⟨same.1.symm, same.2.symm⟩⟩
  refine apart.forall first second ?_ ?_
  · intro same
    have va : config.hypervisorMemory.physStart = config.hypervisorMemory.physStart + span :=
      congrArg Page.va same
    bv_omega
  rw [same_entry_iff]
  refine ⟨rfl, ?_⟩
  simp only [PageSize.bits, toNat_add, value]
  omega

section Agreement

variable {config : HvSystemConfig}

def RegionAligned (region : HvMemoryRegion) : Prop :=
  2 ^ 12 ∣ region.virtStart.toNat ∧ 2 ^ 12 ∣ region.physStart.toNat ∧ 2 ^ 12 ∣ region.size.toNat

instance (region : HvMemoryRegion) : Decidable (RegionAligned region) :=
  inferInstanceAs (Decidable (_ ∧ _ ∧ _))

def InRegion (region : HvMemoryRegion) (g : BitVec 64) : Prop :=
  (g - region.virtStart).toNat < region.size.toNat

theorem guest_covered (aligned : RegionAligned region) (inside : InRegion region g) :
    Covers (guestRegion region) g := by
  have start : (guestRegion region).start = region.virtStart := by
    change alignDown (alignDown region.virtStart) = _
    rw [align_down_of_dvd (align_down_dvd _), align_down_of_dvd aligned.1]
  have size : (guestRegion region).size = region.size := align_up_of_dvd aligned.2.2
  rw [Covers, start, size]
  exact inside

theorem phys_to_virt_aligned (aligned : PageAligned config) (base : 2 ^ 12 ∣ paddr.toNat) :
    2 ^ 12 ∣ (physToVirt config paddr).toNat := by
  have start := aligned.start
  have high := hv_base_aligned
  have := config.hypervisorMemory.physStart.isLt
  rw [physToVirt, physVirtOffset, toNat_add, toNat_sub]
  omega

theorem ram_covered (hv_aligned : PageAligned config) (aligned : RegionAligned region)
    (inside : InRegion region g) : Covers (ramRegion config region) (physToVirt config g) := by
  have start : (ramRegion config region).start = physToVirt config region.virtStart := by
    change alignDown (alignDown (physToVirt config region.virtStart)) = _
    rw [align_down_of_dvd (align_down_dvd _), align_down_of_dvd (phys_to_virt_aligned hv_aligned aligned.1)]
  have size : (ramRegion config region).size = region.size := align_up_of_dvd aligned.2.2
  have distance : physToVirt config g - physToVirt config region.virtStart = g - region.virtStart := by
    rw [physToVirt, physToVirt]
    bv_omega
  rw [Covers, start, size, distance]
  exact inside

theorem ram_target (hv_aligned : PageAligned config) (aligned : RegionAligned region) :
    target (ramRegion config region) (physToVirt config g) = target (guestRegion region) g := by
  change physToVirt config g - (alignDown (physToVirt config region.virtStart) - alignDown region.physStart) =
    g - (alignDown region.virtStart - alignDown region.physStart)
  rw [align_down_of_dvd (phys_to_virt_aligned hv_aligned aligned.1), align_down_of_dvd aligned.1, physToVirt,
    physToVirt]
  bv_omega

section Run

variable {vendor : Vendor} {coreSize emptyPage : BitVec 64} {mem mem1 mem2 : HostMemory} {hvPt gpm : MemorySet}
  (hv_aligned : PageAligned config) (hv_run : initHvPageTable config coreSize mem = .ok (hvPt, mem1))
  (root_run : newRoot (nestedFormat vendor).toGenericPTE config emptyPage mem1 = .ok (gpm, mem2))

include hv_aligned hv_run root_run

theorem ram_agrees (member : region ∈ config.memRegions) (aligned : RegionAligned region)
    (flagged : contains region.flags dma = true) (inside : InRegion region g) :
    ∃ h hv_flags hv_size flags size, hvPt.query ptEntry mem2 (physToVirt config g) = .ok (h, hv_flags, hv_size) ∧
      gpm.query (nestedFormat vendor).toGenericPTE mem2 g = .ok (h, flags, size) := by
  obtain ⟨hv_regions, hv_built, _, _, ram⟩ := hv_page_table_built hv_run
  obtain ⟨⟨regions, built, guest⟩, _⟩ := root_cell_built (nested_usable vendor) root_run
  obtain ⟨hv_tree, hv_kept⟩ := built_kept hv_built built.confined
  have shown := ram region member flagged
  obtain ⟨h, hv_size, hv_found, hv_address⟩ := query_entered (r := ramRegion config region) hv_tree
    (hv_built.usable _ shown) (offset_mapper_whole_pages _ _ _ _) (hv_kept _ shown)
    (ram_covered hv_aligned aligned inside)
  obtain ⟨h', size, found, address⟩ := query_entered (r := guestRegion region) built.tree
    (nested_usable vendor _) (offset_mapper_whole_pages _ _ _ _) (built.entered _ (guest region member))
    (guest_covered aligned inside)
  rw [ram_target hv_aligned aligned, ← address, toNat_inj] at hv_address
  rw [hv_address] at hv_found
  exact ⟨h', _, hv_size, _, size, hv_found, found⟩

theorem image_mapped (inside : (x - hvBase).toNat < config.hypervisorMemory.size.toNat) :
    ∃ h flags size, hvPt.query ptEntry mem2 x = .ok (h, flags, size) ∧
      h.toNat = (config.hypervisorMemory.physStart + (x - hvBase)).toNat % 2 ^ 52 := by
  obtain ⟨hv_regions, hv_built, core, rest, _⟩ := hv_page_table_built hv_run
  obtain ⟨⟨regions, built, _⟩, _, _, _, _, fresh_tree, hv_entered⟩ :=
    root_cell_built (nested_usable vendor) root_run
  obtain ⟨hv_tree, hv_kept⟩ := built_kept hv_built built.confined
  have bounded := hypervisor_bounded (nested_usable vendor) hv_aligned fresh_tree hv_entered
  rcases hv_range_covered hv_aligned bounded inside with covered | covered
  · obtain ⟨h, size, found, address⟩ := query_entered hv_tree (hv_built.usable _ core)
      (offset_mapper_whole_pages _ _ _ _) (hv_kept _ core) covered
    rw [core_target hv_aligned] at address
    exact ⟨h, _, size, found, address⟩
  obtain ⟨h, size, found, address⟩ := query_entered hv_tree (hv_built.usable _ rest)
    (offset_mapper_whole_pages _ _ _ _) (hv_kept _ rest) covered
  rw [rest_target hv_aligned] at address
  exact ⟨h, _, size, found, address⟩

end Run

def sharedConfig : HvSystemConfig where
  hypervisorMemory := ⟨0x180000, 0, 0x2000, 0⟩
  memRegions := [⟨0x300000, 0x182000, 0x1000, MemFlags.read ||| MemFlags.write ||| dma⟩]

def buildBoth (vendor : Vendor) (config : HvSystemConfig) (coreSize emptyPage : BitVec 64) (mem : HostMemory) :
    HvResult (MemorySet × MemorySet × HostMemory) :=
  match initHvPageTable config coreSize mem with
  | .error fault => .error fault
  | .ok (hvPt, mem) =>
    match newRoot (nestedFormat vendor).toGenericPTE config emptyPage mem with
    | .error fault => .error fault
    | .ok (gpm, mem) => .ok (hvPt, gpm, mem)

theorem build_both_parts (run : buildBoth vendor config coreSize emptyPage mem = .ok (hvPt, gpm, mem2)) :
    ∃ mem1, initHvPageTable config coreSize mem = .ok (hvPt, mem1) ∧
      newRoot (nestedFormat vendor).toGenericPTE config emptyPage mem1 = .ok (gpm, mem2) := by
  rw [buildBoth] at run
  split at run
  · cases run
  rename_i first mem1 hv_run
  split at run
  · cases run
  rename_i root_run
  cases run
  exact ⟨mem1, hv_run, root_run⟩

/-- Hypervisor memory at the first address that an entry cannot hold. -/
def topConfig : HvSystemConfig where
  hypervisorMemory := ⟨0x10000000000000, 0, 0x2000, 0⟩
  memRegions := []

end Agreement

end RtosRvmHvPageTable
