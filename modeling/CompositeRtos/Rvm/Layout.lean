import CompositeRtos.Rvm.Pages

/-!
A page table that holds exactly the pages of a set of disjoint regions. Tables see the low
48 bits of an address only, so the addresses in use are taken from a domain on which these
bits tell addresses apart. Mapping a region adds it to the set and unmapping removes it
again, and the set alone determines what every address translates to.
-/
namespace RtosRvmLayout
open RtosRvmPte RtosRvmPageTable RtosRvmPageTree RtosRvmMemorySet RtosRvmPages BitVec

def Separates (dom : BitVec 64 → Prop) : Prop :=
  ∀ a b, dom a → dom b → a.toNat % 2 ^ 48 = b.toNat % 2 ^ 48 → a = b

/-- Canonical addresses of a four-level page table: sign-extended from 48 bits. -/
def Canonical (va : BitVec 64) : Prop := va.toNat < 2 ^ 47 ∨ 2 ^ 64 - 2 ^ 47 ≤ va.toNat

instance (va : BitVec 64) : Decidable (Canonical va) := inferInstanceAs (Decidable (_ ∨ _))

/-- Guest physical addresses that a nested page table can tell apart. -/
def Below48 (va : BitVec 64) : Prop := va.toNat < 2 ^ 48

theorem canonical_separates : Separates Canonical := by
  intro a b a_range b_range same
  have := a.isLt
  have := b.isLt
  apply eq_of_toNat_eq
  unfold Canonical at a_range b_range
  omega

theorem below48_separates : Separates Below48 := by
  intro a b a_range b_range same
  apply eq_of_toNat_eq
  unfold Below48 at a_range b_range
  omega

/-- Mappers that map whole pages: an offset of pages, or one page that is used for each
    small page of the region. -/
def WholePages (region : MemoryRegion) : Prop :=
  match region.mapper with
  | .offset off => 2 ^ 12 ∣ off.toNat
  | .fixed paddr => 2 ^ 12 ∣ paddr.toNat ∧ contains region.flags MemFlags.noHugepages = true

structure Permitted (dom : BitVec 64 → Prop) (region : MemoryRegion) : Prop where
  readable : contains region.flags MemFlags.read = true
  whole_pages : WholePages region
  no_overflow : region.start.toNat + region.size.toNat < 2 ^ 64
  addresses : ∀ va, Covers region va → dom va
  targets : ∀ va, Covers region va → (region.mapper.mapFn va).toNat < 2 ^ 52

theorem offset_mapper_whole_pages (startVaddr : BitVec 64) (startPaddr : PhysAddr) (size : BitVec 64)
    (flags : MemFlags) :
    WholePages (MemoryRegion.newWithOffsetMapper startVaddr startPaddr size flags) := by
  have va := align_down_dvd startVaddr
  have pa := align_down_dvd startPaddr
  have := (alignDown startVaddr).isLt
  have := (alignDown startPaddr).isLt
  change 2 ^ 12 ∣ (alignDown startVaddr - alignDown startPaddr).toNat
  rw [toNat_sub]
  omega

def target (region : MemoryRegion) (va : BitVec 64) : PhysAddr :=
  match region.mapper with
  | .offset off => va - off
  | .fixed paddr => paddr + PageSize.pageOffset .size4K va

theorem base_covered (member : page ∈ pages region) : Covers region page.va :=
  covers_of_page member (by rw [BitVec.sub_self]; exact Nat.two_pow_pos _)

theorem page_target_aligned (whole : WholePages region) (member : page ∈ pages region) :
    2 ^ page.size.bits ∣ (region.mapper.mapFn page.va).toNat := by
  have cut := region_cut member
  obtain ⟨left, chosen⟩ := cut.chosen
  rw [chosen]
  apply choose_target_aligned
  unfold WholePages at whole
  cases mapper_eq : region.mapper with
  | offset off =>
    rw [mapper_eq] at whole
    have va : 2 ^ 12 ∣ page.va.toNat :=
      Nat.dvd_trans (Nat.pow_dvd_pow 2 (bits_ge page.size).1) cut.aligned
    have := off.isLt
    have := page.va.isLt
    simp only [Mapper.mapFn, toNat_sub]
    omega
  | fixed paddr =>
    rw [mapper_eq] at whole
    exact whole.1

theorem target_in_page (whole : WholePages region) (member : page ∈ pages region)
    (inside : (va - page.va).toNat < 2 ^ page.size.bits) :
    target region va = region.mapper.mapFn page.va + page.size.pageOffset va := by
  have cut := region_cut member
  have offset := (distance_in_page cut.aligned inside).2
  unfold WholePages at whole
  unfold target
  cases mapper_eq : region.mapper with
  | offset off =>
    rw [← offset]
    simp only [Mapper.mapFn]
    bv_omega
  | fixed paddr =>
    rw [mapper_eq] at whole
    obtain ⟨left, chosen⟩ := cut.chosen
    rw [choose_small whole.2] at chosen
    simp only [Mapper.mapFn, chosen]

section Layout

variable {P : Format} {dom : BitVec 64 → Prop} (separates : Separates dom)

include separates

theorem inside_of_same_entry (aligned : 2 ^ size.bits ∣ base.toNat)
    (addresses : ∀ x : BitVec 64, (x - base).toNat < 2 ^ size.bits → dom x) (known : dom va)
    (same : SameEntry va s base size) : (va - base).toNat < 2 ^ size.bits := by
  obtain ⟨rfl, numbers⟩ := same_entry_iff.mp same
  -- the address of the page at the same offset as `va`
  have twin_bound := base.isLt
  have offset := page_offset_value s va
  have twin : (base + s.pageOffset va).toNat = base.toNat + va.toNat % 2 ^ s.bits := by
    rw [← offset]
    apply toNat_add_of_lt
    cases s <;> simp only [PageSize.bits] at aligned offset <;> omega
  have inside : (base + s.pageOffset va - base).toNat < 2 ^ s.bits := by
    rw [show base + s.pageOffset va - base = s.pageOffset va by bv_omega, offset]
    exact Nat.mod_lt _ (Nat.two_pow_pos _)
  have low : va.toNat % 2 ^ 48 = (base + s.pageOffset va).toNat % 2 ^ 48 := by
    rw [twin]
    cases s <;> simp only [PageSize.bits] at aligned numbers ⊢ <;> omega
  rw [separates va _ known (addresses _ inside) low]
  exact inside

theorem covers_of_same_entry (permitted : Permitted dom region) (member : page ∈ pages region) (known : dom va)
    (same : SameEntry va s page.va page.size) : Covers region va :=
  covers_of_page member (inside_of_same_entry separates (region_cut member).aligned
    (fun x inside => permitted.addresses x (covers_of_page member inside)) known same)

theorem same_base (permitted : Permitted dom r) (permitted' : Permitted dom r') (member : a ∈ pages r)
    (member' : b ∈ pages r') (same : SameEntry a.va a.size b.va b.size) : a.va = b.va := by
  obtain ⟨sizes, numbers⟩ := same_entry_iff.mp same
  have a_aligned := (region_cut member).aligned
  have b_aligned := (region_cut member').aligned
  rw [← sizes] at b_aligned
  apply separates _ _ (permitted.addresses _ (base_covered member)) (permitted'.addresses _ (base_covered member'))
  cases size_eq : a.size <;> rw [size_eq] at a_aligned b_aligned numbers <;>
    simp only [PageSize.bits] at a_aligned b_aligned numbers <;> omega

omit separates

variable (P dom) in
structure Holds (mem : HostMemory) (root : Nat) (stored : MemoryRegion → Prop) : Prop where
  tree : Tree P mem root
  permitted : ∀ r, stored r → Permitted dom r
  disjoint : ∀ r r' va, stored r → stored r' → Covers r va → Covers r' va → r = r'
  entered : ∀ r, stored r → ∀ page ∈ pages r, Entered P mem root r page
  accounted : ∀ va s, leafOf P mem root va s ≠ 0 →
    ∃ r, stored r ∧ ∃ page ∈ pages r, SameEntry va s page.va page.size

theorem stored_used (holds : Holds P dom mem root stored) (here : stored r) (member : page ∈ pages r) :
    leafOf P mem root page.va page.size ≠ 0 :=
  entered_used (P.usable_read _ (holds.permitted r here).readable) (holds.entered r here page member)

theorem map_region (holds : Holds P dom mem pt.root stored) (permitted : Permitted dom region)
    (free : ∀ r va, stored r → Covers r va → ¬ Covers region va)
    (run : map P.toGenericPTE region pt mem = .ok (pt', mem')) :
    pt'.root = pt.root ∧ Holds P dom mem' pt.root (fun r => r = region ∨ stored r) ∧
      PagesMapped P region pt.root mem mem' (pages region) := by
  obtain ⟨tree', same_root, mapped⟩ :=
    map_loop_spec (P.usable_read _ permitted.readable) holds.tree run
  rw [same_root] at tree'
  refine ⟨same_root, ⟨tree', ?_, ?_, ?_, ?_⟩, mapped⟩
  · rintro r (rfl | old)
    · exact permitted
    · exact holds.permitted r old
  · rintro r r' va (rfl | old) (rfl | old') covered covered'
    · rfl
    · exact absurd covered (free r' va old' covered')
    · exact absurd covered' (free r va old covered)
    · exact holds.disjoint r r' va old old' covered covered'
  · rintro r (rfl | old) page member
    · exact mapped.entered page member
    -- the new pages went to leaves that were not in use
    have kept := mapped.elsewhere page.va page.size (by
      intro fresh fresh_member same
      have zero := mapped.unused fresh fresh_member
      rw [← leaf_same_entry same] at zero
      exact stored_used holds old member zero)
    rw [Entered, kept]
    exact holds.entered r old page member
  · intro va s used
    by_cases fresh : ∃ page ∈ pages region, SameEntry va s page.va page.size
    · exact ⟨region, Or.inl rfl, fresh⟩
    rw [mapped.elsewhere va s (fun page member same => fresh ⟨page, member, same⟩)] at used
    obtain ⟨r, old, found⟩ := holds.accounted va s used
    exact ⟨r, Or.inr old, found⟩

include separates

theorem unmap_region (holds : Holds P dom mem pt.root stored) (here : stored region) :
    ∃ mem', unmap P.toGenericPTE region pt mem = .ok mem' ∧
      Holds P dom mem' pt.root (fun r => stored r ∧ r ≠ region) ∧
      PagesUnmapped P pt.root mem mem' (pages region) := by
  have permitted := holds.permitted region here
  have apart : (pages region).Pairwise fun a b => ¬ SameEntry b.va b.size a.va a.size := by
    have distinct : (pages region).Pairwise fun a b => b.va ≠ a.va :=
      pages_distinct region.aligned_start region.aligned_size
    apply List.Pairwise.imp_of_mem _ distinct
    intro a b a_member b_member ne same
    exact ne (same_base separates permitted permitted b_member a_member same)
  obtain ⟨mem', run, tree', unmapped⟩ := unmap_loop_spec region region.aligned_start
    region.aligned_size holds.tree (fun page member => stored_used holds here member) apart
  refine ⟨mem', run, ⟨tree', ?_, ?_, ?_, ?_⟩, unmapped⟩
  · rintro r ⟨old, _⟩
    exact holds.permitted r old
  · rintro r r' va ⟨old, _⟩ ⟨old', _⟩ covered covered'
    exact holds.disjoint r r' va old old' covered covered'
  · rintro r ⟨old, other⟩ page member
    have kept := unmapped.elsewhere page.va page.size (by
      intro gone gone_member same
      apply other
      have covered := base_covered gone_member
      rw [← same_base separates (holds.permitted r old) permitted member gone_member same] at covered
      exact holds.disjoint r region page.va old here (base_covered member) covered)
    rw [Entered, kept]
    exact holds.entered r old page member
  · intro va s used
    have away : ∀ page ∈ pages region, ¬ SameEntry va s page.va page.size :=
      fun page member same => used (unmapped.unused va s ⟨page, member, same⟩)
    rw [unmapped.elsewhere va s away] at used
    obtain ⟨r, old, page, member, same⟩ := holds.accounted va s used
    refine ⟨r, ⟨old, ?_⟩, page, member, same⟩
    rintro rfl
    exact away page member same

theorem query_outside (holds : Holds P dom mem pt.root stored) (known : dom va)
    (outside : ∀ r, stored r → ¬ Covers r va) :
    PageTable.query P.toGenericPTE mem pt va = .error (.err .notMapped) := by
  apply query_unused holds.tree
  intro size
  by_contra used
  obtain ⟨r, here, page, member, same⟩ := holds.accounted va size used
  exact outside r here (covers_of_same_entry separates (holds.permitted r here) member known same)

omit separates

def SameAccess (reported flags : MemFlags) : Prop :=
  contains reported MemFlags.read = contains flags MemFlags.read ∧
  contains reported MemFlags.write = contains flags MemFlags.write ∧
  contains reported MemFlags.execute = contains flags MemFlags.execute

theorem page_address {size : PageSize} {address : PhysAddr} (aligned : 2 ^ size.bits ∣ base.toNat)
    (held : address.toNat = base.toNat % 2 ^ 52) :
    (address + size.pageOffset va).toNat = (base + size.pageOffset va).toNat % 2 ^ 52 := by
  have offset := page_offset_value size va
  have bound := base.isLt
  have small : (size.pageOffset va).toNat < 2 ^ size.bits := by
    rw [offset]
    exact Nat.mod_lt _ (Nat.two_pow_pos _)
  have sum : (base + size.pageOffset va).toNat = base.toNat + (size.pageOffset va).toNat := by
    apply toNat_add_of_lt
    cases size <;> simp only [PageSize.bits] at aligned small <;> omega
  rw [sum, toNat_add_of_lt (by cases size <;> simp only [PageSize.bits] at small <;> omega), held]
  cases size <;> simp only [PageSize.bits] at aligned small <;> omega

theorem query_entered (tree : Tree P mem pt.root) (usable : P.usable r.flags) (whole : WholePages r)
    (entered : ∀ page ∈ pages r, Entered P mem pt.root r page) (covered : Covers r va) :
    ∃ h size, PageTable.query P.toGenericPTE mem pt va = .ok (h, P.access r.flags, size) ∧
      h.toNat = (target r va).toNat % 2 ^ 52 := by
  obtain ⟨page, member, inside⟩ := region_cover covered
  have same := entry_of_inside (region_cut member).aligned inside
  have made := entered page member
  have used : leafOf P mem pt.root va page.size ≠ 0 := by
    rw [leaf_same_entry same]
    exact entered_used usable made
  rw [Entered, ← leaf_same_entry same] at made
  obtain ⟨_, _, address, flags⟩ := P.page_entry _ _ _ _ (align_down_aligned _ _) usable made
  have aligned := page_target_aligned whole member
  rw [align_down_value, Nat.div_mul_cancel aligned] at address
  have found := query_used tree used
  rw [flags] at found
  refine ⟨_, _, found, ?_⟩
  rw [target_in_page whole member inside]
  exact page_address aligned address

theorem target_small (permitted : Permitted dom r) (covered : Covers r va) : (target r va).toNat < 2 ^ 52 := by
  have whole := permitted.whole_pages
  have small := permitted.targets va covered
  unfold WholePages at whole
  unfold target
  cases mapper_eq : r.mapper with
  | offset off =>
    rw [mapper_eq] at small
    exact small
  | fixed paddr =>
    rw [mapper_eq] at small whole
    have offset := page_offset_value .size4K va
    have aligned := whole.1
    simp only [Mapper.mapFn, PageSize.bits] at small offset
    rw [toNat_add_of_lt (by omega)]
    omega

theorem query_inside (holds : Holds P dom mem pt.root stored) (here : stored r) (covered : Covers r va) :
    ∃ reported size, PageTable.query P.toGenericPTE mem pt va = .ok (target r va, reported, size) ∧
      SameAccess reported r.flags := by
  have permitted := holds.permitted r here
  have usable := P.usable_read _ permitted.readable
  obtain ⟨h, size, found, address⟩ :=
    query_entered holds.tree usable permitted.whole_pages (holds.entered r here) covered
  rw [Nat.mod_eq_of_lt (target_small permitted covered), toNat_inj] at address
  rw [address] at found
  refine ⟨_, _, found, ?_, P.access_write _ usable, P.access_execute _ usable⟩
  rw [P.access_read _ permitted.readable, permitted.readable]

theorem query_congr (tree : Tree P mem pt.root) (tree' : Tree P mem' pt'.root)
    (same : ∀ size, leafOf P mem' pt'.root va size = leafOf P mem pt.root va size) :
    PageTable.query P.toGenericPTE mem' pt' va = PageTable.query P.toGenericPTE mem pt va := by
  by_cases used : ∃ size, leafOf P mem pt.root va size ≠ 0
  · obtain ⟨size, used⟩ := used
    have used' : leafOf P mem' pt'.root va size ≠ 0 := by
      rw [same]
      exact used
    rw [query_used tree used, query_used tree' used', same]
  have unused : ∀ size, leafOf P mem pt.root va size = 0 := by
    intro size
    by_contra nonzero
    exact used ⟨size, nonzero⟩
  rw [query_unused tree unused, query_unused tree' (fun size => (same size).trans (unused size))]

end Layout

end RtosRvmLayout
