import CompositeRtos.Rvm.MemorySet
import CompositeRtos.Rvm.PageTree

/-!
The pages of a region. `map` cuts a region into pages greedily; the list of these pages
depends on the region only, and `unmap` finds it again from the page table. The pages are
aligned, lie in the region and cover it, also when the region wraps around the address
space. What the two loops do to the leaves is said in terms of this list.
-/
namespace RtosRvmPages
open RtosRvmPte RtosRvmPageTable RtosRvmPageTree RtosRvmMemorySet BitVec List

structure Page where
  va : BitVec 64
  size : PageSize

def pagesFrom (region : MemoryRegion) : Nat → BitVec 64 → BitVec 64 → List Page
  | 0, _, _ => []
  | n + 1, vaddr, size =>
    if size = 0 then []
    else
      ⟨vaddr, region.choosePageSize vaddr size⟩ ::
        pagesFrom region n (vaddr + (region.choosePageSize vaddr size).bytes)
          (size - (region.choosePageSize vaddr size).bytes)

def pages (region : MemoryRegion) : List Page :=
  pagesFrom region (region.size.toNat / 4096) region.start region.size

def Covers (region : MemoryRegion) (va : BitVec 64) : Prop :=
  (va - region.start).toNat < region.size.toNat

instance (region : MemoryRegion) (va : BitVec 64) : Decidable (Covers region va) :=
  inferInstanceAs (Decidable (_ < _))

/-! Geometry of the cut. -/

theorem choose_fits (region : MemoryRegion) (va_aligned : 2 ^ 12 ∣ vaddr.toNat) (aligned : 2 ^ 12 ∣ size.toNat)
    (nonzero : size ≠ 0) :
    2 ^ (region.choosePageSize vaddr size).bits ≤ size.toNat ∧
      2 ^ (region.choosePageSize vaddr size).bits ∣ vaddr.toNat := by
  have positive : 0 < size.toNat := by
    by_contra none_left
    apply nonzero
    apply eq_of_toNat_eq
    simp only [ofNat_eq_ofNat, toNat_ofNat]
    omega
  unfold MemoryRegion.choosePageSize
  split
  · rename_i chosen
    simp only [Bool.and_eq_true, decide_eq_true_eq, aligned_iff, le_def, bytes_value] at chosen
    exact ⟨chosen.1.2, chosen.1.1.1⟩
  split
  · rename_i chosen
    simp only [Bool.and_eq_true, decide_eq_true_eq, aligned_iff, le_def, bytes_value] at chosen
    exact ⟨chosen.1.2, chosen.1.1.1⟩
  · exact ⟨Nat.le_of_dvd positive aligned, va_aligned⟩

theorem choose_target_aligned {region : MemoryRegion} (aligned : 2 ^ 12 ∣ (region.mapper.mapFn vaddr).toNat) :
    2 ^ (region.choosePageSize vaddr size).bits ∣ (region.mapper.mapFn vaddr).toNat := by
  unfold MemoryRegion.choosePageSize
  split
  · rename_i chosen
    simp only [Bool.and_eq_true, aligned_iff] at chosen
    exact chosen.1.1.2
  split
  · rename_i chosen
    simp only [Bool.and_eq_true, aligned_iff] at chosen
    exact chosen.1.1.2
  · exact aligned

theorem choose_small {region : MemoryRegion} (plain : contains region.flags MemFlags.noHugepages = true) :
    region.choosePageSize vaddr size = .size4K := by
  simp [MemoryRegion.choosePageSize, plain]

theorem bits_ge (size : PageSize) : 12 ≤ size.bits ∧ size.bits ≤ 30 := by
  cases size <;> decide

structure Rest (vaddr size : BitVec 64) (k : Nat) (vaddr' size' : BitVec 64) : Prop where
  va : vaddr'.toNat = (vaddr.toNat + 2 ^ k) % 2 ^ 64
  size : size'.toNat = size.toNat - 2 ^ k
  va_aligned : 2 ^ 12 ∣ vaddr'.toNat
  size_aligned : 2 ^ 12 ∣ size'.toNat

theorem rest_of_page {page : PageSize} (va_aligned : 2 ^ 12 ∣ vaddr.toNat) (aligned : 2 ^ 12 ∣ size.toNat)
    (fits : 2 ^ page.bits ≤ size.toNat) :
    Rest vaddr size page.bits (vaddr + page.bytes) (size - page.bytes) := by
  have unit : 2 ^ 12 ∣ 2 ^ page.bits := Nat.pow_dvd_pow 2 (bits_ge page).1
  have va : (vaddr + page.bytes).toNat = (vaddr.toNat + 2 ^ page.bits) % 2 ^ 64 := by
    rw [toNat_add, bytes_value]
  have left : (size - page.bytes).toNat = size.toNat - 2 ^ page.bits := by
    have le : page.bytes ≤ size := by rw [le_def, bytes_value]; exact fits
    rw [toNat_sub_of_le le, bytes_value]
  refine ⟨va, left, ?_, ?_⟩
  · rw [va]
    exact (Nat.dvd_mod_iff (by decide)).mpr (Nat.dvd_add va_aligned unit)
  · rw [left]
    exact Nat.dvd_sub aligned unit

theorem past_page (x vaddr : BitVec 64) (beyond : b.toNat ≤ (x - vaddr).toNat) :
    (x - (vaddr + b)).toNat = (x - vaddr).toNat - b.toNat := by
  rw [show x - (vaddr + b) = x - vaddr - b by bv_omega, toNat_sub_of_le (le_def.mpr beyond)]

theorem before_page (x vaddr b : BitVec 64) (room : (x - (vaddr + b)).toNat + b.toNat < 2 ^ 64) :
    (x - vaddr).toNat = (x - (vaddr + b)).toNat + b.toNat := by
  rw [show x - vaddr = x - (vaddr + b) + b by bv_omega, toNat_add_of_lt room]

theorem pages_cover (va_aligned : 2 ^ 12 ∣ vaddr.toNat) (aligned : 2 ^ 12 ∣ size.toNat)
    (enough : size.toNat ≤ 4096 * n) (inside : (x - vaddr).toNat < size.toNat) :
    ∃ page ∈ pagesFrom region n vaddr size, (x - page.va).toNat < 2 ^ page.size.bits := by
  induction n generalizing vaddr size with
  | zero => omega
  | succ n ih =>
    have nonzero : size ≠ 0 := by
      rintro rfl
      exact absurd inside (Nat.not_lt_zero _)
    rw [pagesFrom, if_neg nonzero]
    obtain ⟨fits, _⟩ := choose_fits region va_aligned aligned nonzero
    have rest := rest_of_page va_aligned aligned fits
    have unit : 2 ^ 12 ≤ 2 ^ (region.choosePageSize vaddr size).bits :=
      Nat.pow_le_pow_right (by omega) (bits_ge _).1
    by_cases here : (x - vaddr).toNat < 2 ^ (region.choosePageSize vaddr size).bits
    · exact ⟨_, (.head _), here⟩
    have further := past_page x vaddr (b := (region.choosePageSize vaddr size).bytes) (by rw [bytes_value]; omega)
    rw [bytes_value] at further
    have left := rest.size
    obtain ⟨page, member, found⟩ := ih rest.va_aligned rest.size_aligned (by omega) (by omega)
    exact ⟨page, .tail _ member, found⟩

structure Cut (region : MemoryRegion) (vaddr size : BitVec 64) (page : Page) : Prop where
  inside : (page.va - vaddr).toNat + 2 ^ page.size.bits ≤ size.toNat
  aligned : 2 ^ page.size.bits ∣ page.va.toNat
  chosen : ∃ left, page.size = region.choosePageSize page.va left

theorem pages_cut (va_aligned : 2 ^ 12 ∣ vaddr.toNat) (aligned : 2 ^ 12 ∣ size.toNat)
    (member : page ∈ pagesFrom region n vaddr size) : Cut region vaddr size page := by
  induction n generalizing vaddr size with
  | zero => simp [pagesFrom] at member
  | succ n ih =>
    rw [pagesFrom] at member
    split at member
    · simp at member
    rename_i nonzero
    obtain ⟨fits, base⟩ := choose_fits region va_aligned aligned nonzero
    have rest := rest_of_page va_aligned aligned fits
    rcases mem_cons.mp member with here | later
    · subst here
      exact ⟨by rw [BitVec.sub_self]; simpa using fits, base, size, rfl⟩
    have cut := ih rest.va_aligned rest.size_aligned later
    have inside := cut.inside
    have left := rest.size
    have bound := size.isLt
    have positive := Nat.two_pow_pos page.size.bits
    have value := bytes_value (region.choosePageSize vaddr size)
    have distance := before_page page.va vaddr (region.choosePageSize vaddr size).bytes (by omega)
    exact ⟨by omega, cut.aligned, cut.chosen⟩

theorem region_cover (covered : Covers region x) :
    ∃ page ∈ pages region, (x - page.va).toNat < 2 ^ page.size.bits := by
  have aligned := region.aligned_size
  exact pages_cover region.aligned_start aligned (by omega) covered

theorem region_cut (member : page ∈ pages region) : Cut region region.start region.size page :=
  pages_cut region.aligned_start region.aligned_size member

theorem covers_of_page (member : page ∈ pages region) (inside : (x - page.va).toNat < 2 ^ page.size.bits) :
    Covers region x := by
  have room := (region_cut member).inside
  have bound := region.size.isLt
  rw [Covers, show x - region.start = (page.va - region.start) + (x - page.va) by bv_omega,
    toNat_add_of_lt (by omega)]
  omega

theorem pages_apart (region : MemoryRegion) (va_aligned : 2 ^ 12 ∣ vaddr.toNat) (aligned : 2 ^ 12 ∣ size.toNat) :
    (pagesFrom region n vaddr size).Pairwise fun a b =>
      2 ^ a.size.bits ≤ (b.va - a.va).toNat ∧ 2 ^ b.size.bits ≤ (a.va - b.va).toNat := by
  induction n generalizing vaddr size with
  | zero => exact List.Pairwise.nil
  | succ n ih =>
    rw [pagesFrom]
    split
    · exact List.Pairwise.nil
    rename_i nonzero
    obtain ⟨fits, _⟩ := choose_fits region va_aligned aligned nonzero
    have rest := rest_of_page va_aligned aligned fits
    refine pairwise_cons.mpr ⟨?_, ih rest.va_aligned rest.size_aligned⟩
    intro page later
    have inside := (pages_cut rest.va_aligned rest.size_aligned later).inside
    have left := rest.size
    have bound := size.isLt
    have positive := Nat.two_pow_pos page.size.bits
    have page_positive := Nat.two_pow_pos (region.choosePageSize vaddr size).bits
    have value := bytes_value (region.choosePageSize vaddr size)
    have distance := before_page page.va vaddr (region.choosePageSize vaddr size).bytes (by omega)
    have back : (vaddr - page.va).toNat = 2 ^ 64 - (page.va - vaddr).toNat := by
      rw [toNat_sub] at distance ⊢
      rw [toNat_sub]
      omega
    dsimp only
    constructor
    · omega
    · omega

theorem pages_distinct (va_aligned : 2 ^ 12 ∣ vaddr.toNat) (aligned : 2 ^ 12 ∣ size.toNat) :
    (pagesFrom region n vaddr size).Pairwise fun a b => b.va ≠ a.va :=
  (pages_apart region va_aligned aligned).imp fun far same => by
    rw [same, BitVec.sub_self] at far
    exact absurd far.1 (Nat.not_le.mpr (Nat.two_pow_pos _))

theorem distance_in_page {size : PageSize} (aligned : 2 ^ size.bits ∣ base.toNat)
    (inside : (x - base).toNat < 2 ^ size.bits) :
    x.toNat / 2 ^ size.bits = base.toNat / 2 ^ size.bits ∧ x - base = size.pageOffset x := by
  have x_bound := x.isLt
  have base_bound := base.isLt
  have whole : x.toNat = base.toNat + (x - base).toNat := by
    rw [toNat_sub] at inside ⊢
    cases size <;> simp only [PageSize.bits] at aligned inside <;> omega
  have offset := page_offset_value size x
  constructor
  · cases size <;> simp only [PageSize.bits] at aligned inside ⊢ <;> omega
  · apply eq_of_toNat_eq
    cases size <;> simp only [PageSize.bits] at aligned inside offset ⊢ <;> omega

theorem entry_of_inside {x base : BitVec 64} {size : PageSize} (aligned : 2 ^ size.bits ∣ base.toNat)
    (inside : (x - base).toNat < 2 ^ size.bits) : SameEntry x size base size := by
  rw [same_entry_iff, (distance_in_page aligned inside).1]
  exact ⟨rfl, rfl⟩

/-! What the loops do to the leaves. -/

variable {P : Format} {mem : HostMemory}

theorem leaf_same_entry (same : SameEntry a s b t) : leafOf P mem root a s = leafOf P mem root b t := by
  rw [leafOf, same.1, same.2, leafOf]

variable (P) in
def Entered (mem : HostMemory) (root : Nat) (region : MemoryRegion) (page : Page) : Prop :=
  P.pageEntry (page.size.alignDown (region.mapper.mapFn page.va)) region.flags page.size.isHuge =
    some (leafOf P mem root page.va page.size)

theorem entered_used (usable : P.usable region.flags) (entered : Entered P mem root region page) :
    leafOf P mem root page.va page.size ≠ 0 :=
  (P.page_entry _ _ _ _ (align_down_aligned _ _) usable entered).1

variable (P) in
structure PagesMapped (region : MemoryRegion) (root : Nat) (mem mem' : HostMemory) (cut : List Page) :
    Prop where
  unused : ∀ page ∈ cut, leafOf P mem root page.va page.size = 0
  entered : ∀ page ∈ cut, Entered P mem' root region page
  elsewhere : ∀ va s, (∀ page ∈ cut, ¬ SameEntry va s page.va page.size) →
    leafOf P mem' root va s = leafOf P mem root va s

theorem used_apart (mapped : PagesMapped P region root mem mem' cut) (used : leafOf P mem root va s ≠ 0)
    (member : page ∈ cut) : ¬ SameEntry page.va page.size va s := by
  intro same
  have zero := mapped.unused page member
  rw [leaf_same_entry same] at zero
  exact used zero

theorem map_loop_spec (usable : P.usable region.flags) (tree : Tree P mem pt.root)
    (run : mapLoop P.toGenericPTE region n vaddr size pt mem = .ok (pt', mem')) :
    Tree P mem' pt'.root ∧ pt'.root = pt.root ∧
      PagesMapped P region pt.root mem mem' (pagesFrom region n vaddr size) := by
  induction n generalizing vaddr size pt mem with
  | zero =>
    cases run
    exact ⟨tree, rfl, by simp [pagesFrom], by simp [pagesFrom], fun _ _ _ => rfl⟩
  | succ n ih =>
    rw [mapLoop] at run
    rw [pagesFrom]
    split at run
    · rename_i done
      cases run
      rw [if_pos done]
      exact ⟨tree, rfl, by simp, by simp, fun _ _ _ => rfl⟩
    rename_i more
    rw [if_neg more]
    split at run
    · cases run
    rename_i pt1 mem1 first
    obtain ⟨tree1, root1, unused, e, made, leaves⟩ := map_page_spec tree usable first
    obtain ⟨tree', root', mapped⟩ := ih tree1 run
    rw [root1] at mapped
    have here := leaves vaddr (region.choosePageSize vaddr size)
    rw [if_pos ⟨rfl, rfl⟩] at here
    have used : leafOf P mem1 pt.root vaddr (region.choosePageSize vaddr size) ≠ 0 := by
      rw [here]
      exact (P.page_entry _ _ _ _ (align_down_aligned _ _) usable made).1
    -- a later page finds its leaf unused, so it is not the leaf just written
    have later_apart := fun page (member : page ∈ _) => used_apart mapped used member
    refine ⟨tree', root'.trans root1, ?_, ?_, ?_⟩
    · intro page member
      rcases mem_cons.mp member with rfl | later
      · exact unused
      · have zero := mapped.unused page later
        rwa [leaves, if_neg (later_apart page later)] at zero
    · intro page member
      rcases mem_cons.mp member with rfl | later
      · have kept := mapped.elsewhere vaddr (region.choosePageSize vaddr size)
          (fun page later same => later_apart page later ⟨same.1.symm, same.2.symm⟩)
        rw [Entered, kept, here]
        exact made
      · exact mapped.entered page later
    · intro va s away
      rw [mapped.elsewhere va s (fun page later => away page (.tail _ later)), leaves,
        if_neg (away _ (.head _))]

theorem map_loop_apart (usable : P.usable region.flags) (tree : Tree P mem pt.root)
    (run : mapLoop P.toGenericPTE region n vaddr size pt mem = .ok (pt', mem')) :
    (pagesFrom region n vaddr size).Pairwise fun a b => ¬ SameEntry b.va b.size a.va a.size := by
  induction n generalizing vaddr size pt mem with
  | zero => exact List.Pairwise.nil
  | succ n ih =>
    rw [mapLoop] at run
    rw [pagesFrom]
    split at run
    · rename_i done
      rw [if_pos done]
      exact List.Pairwise.nil
    rename_i more
    rw [if_neg more]
    split at run
    · cases run
    rename_i pt1 mem1 first
    obtain ⟨tree1, root1, _, e, made, leaves⟩ := map_page_spec tree usable first
    have mapped := (map_loop_spec usable tree1 run).2.2
    refine pairwise_cons.mpr ⟨?_, ih tree1 run⟩
    intro page later
    apply used_apart mapped _ later
    rw [root1, leaves, if_pos ⟨rfl, rfl⟩]
    exact (P.page_entry _ _ _ _ (align_down_aligned _ _) usable made).1

variable (P) in
structure PagesUnmapped (root : Nat) (mem mem' : HostMemory) (cut : List Page) : Prop where
  unused : ∀ va s, (∃ page ∈ cut, SameEntry va s page.va page.size) → leafOf P mem' root va s = 0
  elsewhere : ∀ va s, (∀ page ∈ cut, ¬ SameEntry va s page.va page.size) →
    leafOf P mem' root va s = leafOf P mem root va s

theorem unmap_loop_spec (region : MemoryRegion) {n : Nat} {vaddr size : BitVec 64} {pt : PageTable}
    (va_aligned : 2 ^ 12 ∣ vaddr.toNat) (aligned : 2 ^ 12 ∣ size.toNat) (tree : Tree P mem pt.root)
    (used : ∀ page ∈ pagesFrom region n vaddr size, leafOf P mem pt.root page.va page.size ≠ 0)
    (apart : (pagesFrom region n vaddr size).Pairwise fun a b => ¬ SameEntry b.va b.size a.va a.size) :
    ∃ mem', unmapLoop P.toGenericPTE pt n vaddr size mem = .ok mem' ∧ Tree P mem' pt.root ∧
      PagesUnmapped P pt.root mem mem' (pagesFrom region n vaddr size) := by
  induction n generalizing vaddr size mem with
  | zero => exact ⟨mem, rfl, tree, by simp [pagesFrom], fun _ _ _ => rfl⟩
  | succ n ih =>
    rw [pagesFrom] at used apart ⊢
    rw [unmapLoop]
    by_cases done : size = 0
    · rw [if_pos done, if_pos done]
      exact ⟨mem, rfl, tree, by simp, fun _ _ _ => rfl⟩
    rw [if_neg done] at used apart ⊢
    rw [if_neg done]
    rw [pairwise_cons] at apart
    obtain ⟨fits, base⟩ := choose_fits region va_aligned aligned done
    have rest := rest_of_page va_aligned aligned fits
    obtain ⟨mem1, first, tree1, leaves⟩ := unmap_page_spec tree (used _ (.head _))
    have still_used : ∀ page ∈ pagesFrom region n (vaddr + (region.choosePageSize vaddr size).bytes)
        (size - (region.choosePageSize vaddr size).bytes),
        leafOf P mem1 pt.root page.va page.size ≠ 0 := by
      intro page later
      rw [leaves, if_neg (apart.1 page later)]
      exact used page (.tail _ later)
    obtain ⟨mem', run, tree', unmapped⟩ := ih rest.va_aligned rest.size_aligned tree1 still_used apart.2
    refine ⟨mem', ?_, tree', ?_, ?_⟩
    · rw [first]
      simp only [(aligned_iff _ _).mpr base, le_def, bytes_value, fits, run, Bool.not_true,
        Bool.false_eq_true, not_true_eq_false, if_false]
    · rintro va s ⟨page, member, same⟩
      by_cases later : ∃ page ∈ pagesFrom region n (vaddr + (region.choosePageSize vaddr size).bytes)
          (size - (region.choosePageSize vaddr size).bytes), SameEntry va s page.va page.size
      · exact unmapped.unused va s later
      have away : ∀ page ∈ pagesFrom region n (vaddr + (region.choosePageSize vaddr size).bytes)
          (size - (region.choosePageSize vaddr size).bytes), ¬ SameEntry va s page.va page.size :=
        fun page there same => later ⟨page, there, same⟩
      rcases mem_cons.mp member with rfl | there
      · rw [unmapped.elsewhere va s away, leaves, if_pos same]
      · exact absurd same (away page there)
    · intro va s away
      rw [unmapped.elsewhere va s (fun page later => away page (.tail _ later)), leaves,
        if_neg (away _ (.head _))]

end RtosRvmPages
