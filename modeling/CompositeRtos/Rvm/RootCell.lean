import CompositeRtos.Lib.Transition
import CompositeRtos.Rvm.Pages

/-!
The guest memory of the root cell (`cell.rs`). The hypervisor's memory is entered first, as
small read-only pages that all show one empty page. Every other region maps addresses to
themselves, and no page is entered where one is in use already. Tables see the low 48 bits
of an address, so what isolates the hypervisor is that a page mapped to a byte of its memory
would have to be entered where an empty page stands.
-/
namespace RtosRvmRootCell
open RtosRvmPte RtosRvmPageTable RtosRvmPageTree RtosRvmMemorySet RtosRvmPages BitVec

structure HvMemoryRegion where
  physStart : BitVec 64
  virtStart : BitVec 64
  size : BitVec 64
  flags : MemFlags

structure HvSystemConfig where
  hypervisorMemory : HvMemoryRegion
  memRegions : List HvMemoryRegion

def hvBase : BitVec 64 := 0xffffff0000000000

def physVirtOffset (config : HvSystemConfig) : BitVec 64 := hvBase - config.hypervisorMemory.physStart

def virtToPhys (config : HvSystemConfig) (vaddr : BitVec 64) : PhysAddr := vaddr - physVirtOffset config

/-- The processor vendor selects the nested page table. -/
inductive Vendor where
  | intel
  | amd

def nestedFormat : Vendor → Format
  | .intel => eptFormat
  | .amd => nptFormat

theorem nested_usable (vendor : Vendor) (flags : MemFlags) : (nestedFormat vendor).usable flags := by
  cases vendor <;> trivial

section NewRoot

variable (P : GenericPTE)

def hypervisorRegion (config : HvSystemConfig) (emptyPage : BitVec 64) : MemoryRegion :=
  .newWithEmptyMapper (virtToPhys config emptyPage) config.hypervisorMemory.physStart
    config.hypervisorMemory.size (MemFlags.read ||| MemFlags.noHugepages)

def guestRegion (region : HvMemoryRegion) : MemoryRegion :=
  .newWithOffsetMapper region.virtStart region.physStart region.size region.flags

def insertAll : List HvMemoryRegion → MemorySet → HostMemory → HvResult (MemorySet × HostMemory)
  | [], gpm, mem => .ok (gpm, mem)
  | region :: rest, gpm, mem =>
    match gpm.insert P mem (guestRegion region) with
    | .error fault => .error fault
    | .ok (gpm, mem) => insertAll rest gpm mem

/-- `Cell::new_root`, with the guest memory set of the cell as its result. `emptyPage` is the
    address of the static `EMPTY_PAGE`. -/
def newRoot (config : HvSystemConfig) (emptyPage : BitVec 64) (mem : HostMemory) :
    HvResult (MemorySet × HostMemory) :=
  match MemorySet.new mem with
  | .error fault => .error fault
  | .ok (gpm, mem) =>
    match gpm.insert P mem (hypervisorRegion config emptyPage) with
    | .error fault => .error fault
    | .ok (gpm, mem) => insertAll P config.memRegions gpm mem

end NewRoot

def InHypervisor (config : HvSystemConfig) (addr : PhysAddr) : Prop :=
  (addr - config.hypervisorMemory.physStart).toNat < config.hypervisorMemory.size.toNat

instance (config : HvSystemConfig) (addr : PhysAddr) : Decidable (InHypervisor config addr) :=
  inferInstanceAs (Decidable (_ < _))

def Shadowed (config : HvSystemConfig) (g : BitVec 64) : Prop :=
  ∃ x, InHypervisor config x ∧ x.toNat % 2 ^ 48 = g.toNat % 2 ^ 48

theorem shadowed_iff
    (low : config.hypervisorMemory.physStart.toNat + config.hypervisorMemory.size.toNat ≤ 2 ^ 48)
    (small : g.toNat < 2 ^ 48) : Shadowed config g ↔ InHypervisor config g := by
  constructor
  · rintro ⟨x, inside, same⟩
    have within := inside
    have := x.isLt
    rw [InHypervisor, toNat_sub] at within
    rw [show g = x from eq_of_toNat_eq (by omega)]
    exact inside
  · intro inside
    exact ⟨g, inside, rfl⟩

structure PageAligned (config : HvSystemConfig) : Prop where
  start : 2 ^ 12 ∣ config.hypervisorMemory.physStart.toNat
  size : 2 ^ 12 ∣ config.hypervisorMemory.size.toNat

def IdentityMapped (config : HvSystemConfig) : Prop :=
  ∀ region ∈ config.memRegions, region.virtStart = region.physStart

instance (config : HvSystemConfig) : Decidable (IdentityMapped config) :=
  inferInstanceAs (Decidable (∀ region ∈ config.memRegions, region.virtStart = region.physStart))

/-! The regions. -/

theorem align_down_of_dvd (aligned : 2 ^ 12 ∣ addr.toNat) : alignDown addr = addr := by
  apply eq_of_toNat_eq
  rw [alignDown, RtosBitField.and_high_field 12 (by decide)]
  exact Nat.div_mul_cancel aligned

theorem align_up_of_dvd (aligned : 2 ^ 12 ∣ size.toNat) : alignUp size = size := by
  apply eq_of_toNat_eq
  have bound := size.isLt
  have sum : (size + 0x1000 - 1).toNat = size.toNat + 4095 := by
    rw [show size + 0x1000 - 1 = size + 0xfff by bv_omega, toNat_add_of_lt] <;>
      rw [show (0xfff : BitVec 64).toNat = 4095 from rfl]
    omega
  rw [alignUp, RtosBitField.and_high_field 12 (by decide), sum]
  omega

theorem hypervisor_covers (aligned : PageAligned config) :
    Covers (hypervisorRegion config emptyPage) x ↔ InHypervisor config x := by
  have start : (hypervisorRegion config emptyPage).start = config.hypervisorMemory.physStart :=
    align_down_of_dvd aligned.start
  have size : (hypervisorRegion config emptyPage).size = config.hypervisorMemory.size :=
    align_up_of_dvd aligned.size
  rw [Covers, start, size, InHypervisor]

theorem hypervisor_pages_small (member : page ∈ pages (hypervisorRegion config emptyPage)) : page.size = .size4K := by
  obtain ⟨left, chosen⟩ := (region_cut member).chosen
  rw [chosen]
  exact choose_small (by decide : contains (MemFlags.read ||| MemFlags.noHugepages) MemFlags.noHugepages = true)

theorem guest_region_identity (identity : region.virtStart = region.physStart) :
    (guestRegion region).mapper.mapFn va = va := by
  change va - (alignDown region.virtStart - alignDown region.physStart) = va
  rw [identity, BitVec.sub_self, BitVec.sub_zero]

/-! What `insert` enters. -/

variable {P : Format} {mem mem' : HostMemory} {gpm gpm' : MemorySet}

theorem insert_mapped (usable : P.usable region.flags) (tree : Tree P mem gpm.pt.root)
    (run : gpm.insert P.toGenericPTE mem region = .ok (gpm', mem')) :
    Tree P mem' gpm'.pt.root ∧ gpm'.pt.root = gpm.pt.root ∧
      PagesMapped P region gpm.pt.root mem mem' (pages region) := by
  rw [MemorySet.insert] at run
  split at run
  · rename_i empty
    cases run
    have nothing : pages region = [] := by
      rw [pages, empty]
      rfl
    rw [nothing]
    exact ⟨tree, rfl, by simp, by simp, fun _ _ _ => rfl⟩
  split at run
  · cases run
  split at run
  · cases run
  rename_i mapping
  cases run
  exact map_loop_spec usable tree mapping

variable (P) in
def MapsItself (mem : HostMemory) (root : Nat) (g : BitVec 64) (size : PageSize) (base : BitVec 64) : Prop :=
  SameEntry g size base size ∧ 2 ^ size.bits ∣ base.toNat ∧
    (P.addr (leafOf P mem root g size)).toNat = base.toNat % 2 ^ 52

variable (P) in
/-- The pages of the hypervisor's region are entered, and all other leaves in use map pages
    to themselves. -/
structure Isolated (hv : MemoryRegion) (mem : HostMemory) (root : Nat) : Prop where
  tree : Tree P mem root
  entered : ∀ page ∈ pages hv, Entered P mem root hv page
  others : ∀ g size, leafOf P mem root g size ≠ 0 →
    (∃ page ∈ pages hv, SameEntry g size page.va page.size) ∨ ∃ base, MapsItself P mem root g size base

theorem isolated_insert (hv_usable : P.usable hv.flags) (usable : P.usable region.flags)
    (identity : region.virtStart = region.physStart) (isolated : Isolated P hv mem gpm.pt.root)
    (run : gpm.insert P.toGenericPTE mem (guestRegion region) = .ok (gpm', mem')) :
    Isolated P hv mem' gpm'.pt.root := by
  have guest_usable : P.usable (guestRegion region).flags := usable
  obtain ⟨tree', same_root, mapped⟩ := insert_mapped guest_usable isolated.tree run
  rw [same_root] at tree' ⊢
  refine ⟨tree', ?_, ?_⟩
  · -- a page of the hypervisor's region is in use, so nothing was entered there
    intro page member
    have kept := mapped.elsewhere page.va page.size (by
      intro fresh fresh_member same
      have zero := mapped.unused fresh fresh_member
      rw [← leaf_same_entry same] at zero
      exact entered_used hv_usable (isolated.entered page member) zero)
    rw [Entered, kept]
    exact isolated.entered page member
  · intro g size used
    by_cases fresh : ∃ page ∈ pages (guestRegion region), SameEntry g size page.va page.size
    · obtain ⟨page, member, same⟩ := fresh
      obtain ⟨rfl, _⟩ := same_entry_iff.mp same
      have aligned := (region_cut member).aligned
      have made := mapped.entered page member
      obtain ⟨_, _, address, _⟩ := P.page_entry _ _ _ _ (align_down_aligned _ _) guest_usable made
      rw [guest_region_identity identity, align_down_value, Nat.div_mul_cancel aligned,
        ← leaf_same_entry same] at address
      exact Or.inr ⟨page.va, same, aligned, address⟩
    · have kept := mapped.elsewhere g size (fun page member same => fresh ⟨page, member, same⟩)
      rw [kept] at used
      rcases isolated.others g size used with hypervisor | ⟨base, same, aligned, address⟩
      · exact Or.inl hypervisor
      · exact Or.inr ⟨base, same, aligned, by rw [kept]; exact address⟩

theorem isolated_insert_all (usable : ∀ flags, P.usable flags)
    (identity : ∀ region ∈ regions, region.virtStart = region.physStart)
    (isolated : Isolated P hv mem gpm.pt.root)
    (run : insertAll P.toGenericPTE regions gpm mem = .ok (gpm', mem')) : Isolated P hv mem' gpm'.pt.root := by
  induction regions generalizing gpm mem with
  | nil =>
    cases run
    exact isolated
  | cons region rest ih =>
    rw [insertAll] at run
    split at run
    · cases run
    rename_i inserted
    have next := isolated_insert (usable _) (usable _) (identity region (.head _)) isolated inserted
    exact ih (fun later member => identity later (.tail _ member)) next run

theorem new_root_isolated (usable : ∀ flags, P.usable flags) (identity : IdentityMapped config)
    (run : newRoot P.toGenericPTE config emptyPage mem = .ok (gpm, mem')) :
    Isolated P (hypervisorRegion config emptyPage) mem' gpm.pt.root := by
  rw [newRoot, MemorySet.new] at run
  split at run
  · cases run
  rename_i fresh mem1 made
  split at made
  · cases made
  rename_i pt wiped new_table
  cases made
  obtain ⟨tree, unused⟩ := new_tree (P := P) new_table
  split at run
  · cases run
  rename_i inserted
  obtain ⟨tree', same_root, mapped⟩ := insert_mapped (usable _) tree inserted
  apply isolated_insert_all usable identity _ run
  rw [same_root] at tree' ⊢
  refine ⟨tree', mapped.entered, ?_⟩
  intro g size used
  left
  by_contra nowhere
  apply used
  rw [mapped.elsewhere g size (fun page member same => nowhere ⟨page, member, same⟩)]
  exact unused g size

/-! What the guest can reach. -/

def ReadOnly (reported : MemFlags) : Prop :=
  contains reported MemFlags.read = true ∧ contains reported MemFlags.write = false ∧
    contains reported MemFlags.execute = false

theorem empty_page_aligned (aligned : PageAligned config) (empty_aligned : 2 ^ 12 ∣ emptyPage.toNat) :
    2 ^ 12 ∣ (virtToPhys config emptyPage).toNat := by
  have start := aligned.start
  have := emptyPage.isLt
  have := config.hypervisorMemory.physStart.isLt
  rw [virtToPhys, physVirtOffset, toNat_sub, toNat_sub, show hvBase.toNat = 0xffffff0000000000 from rfl]
  omega

section Guest

variable {config : HvSystemConfig} {emptyPage g : BitVec 64}
  (isolated : Isolated P (hypervisorRegion config emptyPage) mem gpm.pt.root) (aligned : PageAligned config)

include aligned

theorem shadowed_entry_iff : Shadowed config g ↔
    ∃ page ∈ pages (hypervisorRegion config emptyPage), SameEntry g .size4K page.va page.size := by
  constructor
  · rintro ⟨x, inside, same⟩
    obtain ⟨page, member, near⟩ := region_cover ((hypervisor_covers aligned).mpr inside)
    have entry := entry_of_inside (region_cut member).aligned near
    rw [hypervisor_pages_small member, same_entry_iff] at entry
    refine ⟨page, member, ?_⟩
    rw [hypervisor_pages_small member, same_entry_iff]
    simp only [PageSize.bits, true_and] at entry ⊢
    omega
  · rintro ⟨page, member, same⟩
    have base := (region_cut member).aligned
    rw [hypervisor_pages_small member] at same base
    obtain ⟨_, numbers⟩ := same_entry_iff.mp same
    have offset := page_offset_value .size4K g
    have bound := page.va.isLt
    simp only [PageSize.bits] at base numbers offset
    refine ⟨page.va + PageSize.pageOffset .size4K g, ?_, ?_⟩
    · rw [← hypervisor_covers aligned]
      apply covers_of_page member
      rw [show page.va + PageSize.pageOffset .size4K g - page.va = PageSize.pageOffset .size4K g by bv_omega,
        hypervisor_pages_small member, offset]
      exact Nat.mod_lt _ (by decide)
    · rw [toNat_add_of_lt (by omega)]
      omega

include isolated

theorem shadowed_leaf (shadowed : Shadowed config g) :
    P.pageEntry (PageSize.alignDown .size4K (virtToPhys config emptyPage))
      (MemFlags.read ||| MemFlags.noHugepages) false = some (leafOf P mem gpm.pt.root g .size4K) := by
  obtain ⟨page, member, same⟩ := (shadowed_entry_iff aligned).mp shadowed
  have made := isolated.entered page member
  rw [Entered, ← leaf_same_entry same, hypervisor_pages_small member] at made
  exact made

theorem translation_keeps_low_bits (clear : ¬ Shadowed config g) (used : leafOf P mem gpm.pt.root g size ≠ 0) :
    (P.addr (leafOf P mem gpm.pt.root g size) + size.pageOffset g).toNat % 2 ^ 48 = g.toNat % 2 ^ 48 := by
  rcases isolated.others g size used with ⟨page, member, same⟩ | ⟨base, same, base_aligned, address⟩
  · have small : size = .size4K := by
      rw [(same_entry_iff.mp same).1, hypervisor_pages_small member]
    subst small
    exact absurd ((shadowed_entry_iff aligned).mpr ⟨page, member, same⟩) clear
  obtain ⟨_, numbers⟩ := same_entry_iff.mp same
  have offset := page_offset_value size g
  have sum : (P.addr (leafOf P mem gpm.pt.root g size) + size.pageOffset g).toNat =
      base.toNat % 2 ^ 52 + g.toNat % 2 ^ size.bits := by
    rw [← address, ← offset]
    apply toNat_add_of_lt
    cases size <;> simp only [PageSize.bits] at offset <;> omega
  rw [sum]
  cases size <;> simp only [PageSize.bits] at numbers base_aligned ⊢ <;> omega

theorem shadowed_query (usable : P.usable (MemFlags.read ||| MemFlags.noHugepages))
    (empty_aligned : 2 ^ 12 ∣ emptyPage.toNat) (shadowed : Shadowed config g) :
    ∃ h reported, gpm.query P.toGenericPTE mem g = .ok (h, reported, .size4K) ∧
      h.toNat = (virtToPhys config emptyPage).toNat % 2 ^ 52 + g.toNat % 2 ^ 12 ∧ ReadOnly reported := by
  have made := shadowed_leaf isolated aligned shadowed
  obtain ⟨used, _, address, flags⟩ := P.page_entry _ _ _ _ (align_down_aligned _ _) usable made
  have whole : (PageSize.alignDown .size4K (virtToPhys config emptyPage)).toNat =
      (virtToPhys config emptyPage).toNat := by
    rw [align_down_value]
    exact Nat.div_mul_cancel (empty_page_aligned aligned empty_aligned)
  have offset := page_offset_value .size4K g
  simp only [PageSize.bits] at offset
  refine ⟨_, _, query_used isolated.tree used, ?_, ?_⟩
  · rw [← whole, ← address, ← offset]
    apply toNat_add_of_lt
    omega
  · rw [flags, ReadOnly, P.access_read _ (by decide), P.access_write _ usable, P.access_execute _ usable]
    decide

theorem clear_query (clear : ¬ Shadowed config g)
    (answer : gpm.query P.toGenericPTE mem g = .ok (h, reported, size)) : ¬ InHypervisor config h := by
  intro inside
  by_cases used : ∃ s, leafOf P mem gpm.pt.root g s ≠ 0
  · obtain ⟨s, used⟩ := used
    have low := translation_keeps_low_bits isolated aligned clear used
    rw [MemorySet.query, query_used isolated.tree used] at answer
    cases answer
    exact clear ⟨_, inside, low⟩
  have unused : ∀ s, leafOf P mem gpm.pt.root g s = 0 := by
    intro s
    by_contra nonzero
    exact used ⟨s, nonzero⟩
  rw [MemorySet.query, query_unused isolated.tree unused] at answer
  cases answer

end Guest

theorem root_cell_isolated (vendor : Vendor) {config : HvSystemConfig} {emptyPage : BitVec 64}
    (aligned : PageAligned config) (identity : IdentityMapped config)
    (empty_aligned : 2 ^ 12 ∣ emptyPage.toNat)
    (accepted : newRoot (nestedFormat vendor).toGenericPTE config emptyPage mem = .ok (gpm, mem'))
    (g : BitVec 64) :
    (Shadowed config g → ∃ h reported,
      gpm.query (nestedFormat vendor).toGenericPTE mem' g = .ok (h, reported, .size4K) ∧
      h.toNat = (virtToPhys config emptyPage).toNat % 2 ^ 52 + g.toNat % 2 ^ 12 ∧ ReadOnly reported) ∧
    (¬ Shadowed config g → ∀ h reported size,
      gpm.query (nestedFormat vendor).toGenericPTE mem' g = .ok (h, reported, size) →
      ¬ InHypervisor config h) ∧
    (∀ h reported size, gpm.query (nestedFormat vendor).toGenericPTE mem' g = .ok (h, reported, size) →
      InHypervisor config h →
      contains reported MemFlags.write = false ∧ contains reported MemFlags.execute = false) ∧
    (config.hypervisorMemory.physStart.toNat + config.hypervisorMemory.size.toNat ≤ 2 ^ 48 →
      g.toNat < 2 ^ 48 → (Shadowed config g ↔ InHypervisor config g)) := by
  have isolated := new_root_isolated (nested_usable vendor) identity accepted
  have shadow := shadowed_query (g := g) isolated aligned (nested_usable vendor _) empty_aligned
  refine ⟨shadow, fun clear h reported size => clear_query isolated aligned clear, ?_, shadowed_iff⟩
  intro h reported size answer inside
  by_cases shadowed : Shadowed config g
  · obtain ⟨_, _, read_only_answer, _, read_only⟩ := shadow shadowed
    rw [answer] at read_only_answer
    cases read_only_answer
    exact read_only.2
  · exact absurd inside (clear_query isolated aligned shadowed answer)

def framePool : HostMemory where
  bytes := fun _ => 0
  free := [0x180, 0x181, 0x182, 0x183, 0x184, 0x185, 0x186, 0x187]
  ascending := by decide
  window := by decide

/-- The empty page is the second page of the hypervisor's image. -/
def imageEmptyPage : BitVec 64 := hvBase + 0x1000

def plainConfig : HvSystemConfig where
  hypervisorMemory := ⟨0x180000, 0, 0x2000, 0⟩
  memRegions := [⟨0x17f000, 0x17f000, 0x1000, MemFlags.read ||| MemFlags.write⟩,
    ⟨0x182000, 0x182000, 0x1000, MemFlags.read⟩, ⟨0x200000, 0x200000, 0x200000, 0x7⟩]

theorem plain_root_cell_isolated : ∃ gpm mem',
    newRoot (nestedFormat .amd).toGenericPTE plainConfig imageEmptyPage framePool = .ok (gpm, mem') ∧
    ∃ h reported, gpm.query (nestedFormat .amd).toGenericPTE mem' 0x180123 = .ok (h, reported, .size4K) ∧
      h.toNat = 0x181123 ∧ ReadOnly reported := by
  have result : ((newRoot (nestedFormat .amd).toGenericPTE plainConfig imageEmptyPage
      framePool).toOption.isSome) = true := by
    decide
  obtain ⟨⟨gpm, mem'⟩, run⟩ := Option.isSome_iff_exists.mp result
  have accepted := RtosTransition.ok_of_to_option run
  refine ⟨gpm, mem', accepted, ?_⟩
  exact (root_cell_isolated .amd ⟨by decide, by decide⟩ (by decide) (by decide) accepted 0x180123).1
    ⟨0x180123, by decide, rfl⟩

/-- The hypervisor's memory starts where the tables see address zero again. -/
def highConfig : HvSystemConfig where
  hypervisorMemory := ⟨0x1000000000000, 0, 0x2000, 0⟩
  memRegions := []

theorem empty_page_outside_range :
    PageAligned highConfig ∧ IdentityMapped highConfig ∧ ¬ InHypervisor highConfig 0x123 ∧
    InHypervisor highConfig (virtToPhys highConfig imageEmptyPage + 0x123) ∧ ∃ gpm mem',
      newRoot (nestedFormat .intel).toGenericPTE highConfig imageEmptyPage framePool = .ok (gpm, mem') ∧
      gpm.query (nestedFormat .intel).toGenericPTE mem' 0x123 =
        .ok (virtToPhys highConfig imageEmptyPage + 0x123, MemFlags.read, .size4K) := by
  refine ⟨⟨by decide, by decide⟩, by decide, by decide, by decide, ?_⟩
  have result : ((newRoot (nestedFormat .intel).toGenericPTE highConfig imageEmptyPage
      framePool).toOption.map fun (gpm, mem') =>
        (gpm.query (nestedFormat .intel).toGenericPTE mem' 0x123).toOption) =
      some (some (virtToPhys highConfig imageEmptyPage + 0x123, MemFlags.read, .size4K)) := by
    decide
  obtain ⟨⟨gpm, mem'⟩, run, seen⟩ := Option.map_eq_some_iff.mp result
  exact ⟨gpm, mem', RtosTransition.ok_of_to_option run, RtosTransition.ok_of_to_option seen⟩

end RtosRvmRootCell
