import CompositeRtos.Rvm.Refinement

/-!
What a region with an offset mapper covers. `new_with_offset_mapper` rounds the start down
and the size up, each on its own, so that the bytes which the rounded start puts in front
of the region are missing at its end unless the rounded size has room for them. An entry
holds 52 bits of the target, so an address beyond them comes back shortened. Nothing else
can go wrong: regions whose pages collide in the 48 bits that the tables see are refused.
-/
namespace RtosRvmOffsetRegion
open RtosTransition RtosOrderedMap RtosFrameMemory RtosRvmPte RtosRvmPageTable RtosRvmPageTree RtosRvmMemorySet
open RtosRvmPages RtosRvmLayout RtosRvmRefinement BitVec

structure EmptySet (P : Format) (s : State) : Prop where
  no_region : s.1.regions.entries = []
  tree : Tree P s.2 s.1.pt.root
  unused : ∀ va size, leafOf P s.2 s.1.pt.root va size = 0

variable {P : Format} {s t : State}

theorem reached_empty (separates : Separates dom) (reached : Reachable (machine P dom) s)
    (no_region : s.1.regions.entries = []) : EmptySet P s := by
  have holds := (run_sound separates reached).holds
  refine ⟨no_region, holds.tree, fun va size => ?_⟩
  by_contra used
  obtain ⟨r, here, _⟩ := holds.accounted va size used
  rw [Stored, no_region] at here
  cases here

theorem new_empty (run : MemorySet.new mem = .ok s) : EmptySet P s := by
  have start : (machine P Canonical).start s := ⟨mem, run⟩
  refine reached_empty canonical_separates (reachable_start start) ?_
  rw [MemorySet.new] at run
  split at run
  · cases run
  · cases run
    rfl

def fold : BitVec 64 := 0x1000000000000

theorem add_fold (x : BitVec 64) : (x + fold).toNat = (x.toNat + 2 ^ 48) % 2 ^ 64 :=
  toNat_add x fold

theorem query_low_bits (same : a.toNat % 2 ^ 48 = b.toNat % 2 ^ 48) :
    PageTable.query P.toGenericPTE mem pt a = PageTable.query P.toGenericPTE mem pt b := by
  have p4 : p4Index a = p4Index b := by
    simp only [Fin.ext_iff, p4Index, index_value]
    omega
  have p3 : p3Index a = p3Index b := by
    simp only [Fin.ext_iff, p3Index, index_value]
    omega
  have p2 : p2Index a = p2Index b := by
    simp only [Fin.ext_iff, p2Index, index_value]
    omega
  have p1 : p1Index a = p1Index b := by
    simp only [Fin.ext_iff, p1Index, index_value]
    omega
  have offsets : ∀ size : PageSize, size.pageOffset a = size.pageOffset b := by
    intro size
    apply eq_of_toNat_eq
    rw [page_offset_value, page_offset_value]
    cases size <;> simp only [PageSize.bits] <;> omega
  simp only [PageTable.query, PageTable.getEntryMut, p4, p3, p2, p1, offsets]

theorem entry_behind {x base : BitVec 64} {size s : PageSize} (aligned : 2 ^ size.bits ∣ base.toNat)
    (behind : base.toNat + 2 ^ size.bits ≤ x.toNat) (near : x.toNat < base.toNat + 2 ^ 48) :
    ¬ SameEntry x s base size := by
  intro same
  obtain ⟨rfl, numbers⟩ := same_entry_iff.mp same
  cases s <;> simp only [PageSize.bits] at aligned behind numbers <;> omega

theorem inserted_pages (empty : EmptySet P s) (usable : P.usable region.flags)
    (run : s.1.insert P.toGenericPTE s.2 region = .ok t) :
    Tree P t.2 t.1.pt.root ∧ (∀ page ∈ pages region, Entered P t.2 t.1.pt.root region page) ∧
      ∀ va size, leafOf P t.2 t.1.pt.root va size ≠ 0 →
        ∃ page ∈ pages region, SameEntry va size page.va page.size := by
  rw [MemorySet.insert] at run
  split at run
  · rename_i none_asked
    cases run
    refine ⟨empty.tree, ?_, fun va size used => absurd (empty.unused va size) used⟩
    intro page member
    have no_pages : pages region = [] := by rw [pages, none_asked]; rfl
    rw [no_pages] at member
    cases member
  split at run
  · cases run
  split at run
  · cases run
  rename_i pt mem mapping
  cases run
  obtain ⟨tree, same_root, mapped⟩ := map_loop_spec usable empty.tree mapping
  simp only [same_root] at tree ⊢
  refine ⟨tree, mapped.entered, fun va size used => ?_⟩
  by_contra away
  rw [mapped.elsewhere va size (fun page member same => away ⟨page, member, same⟩)] at used
  exact used (empty.unused va size)

section Offset

variable {v size : BitVec 64} {p : PhysAddr} {flags : MemFlags}

theorem offset_region_start : (MemoryRegion.newWithOffsetMapper v p size flags).start = alignDown v := by
  apply eq_of_toNat_eq
  change (alignDown (alignDown v)).toNat = _
  rw [align_down_floor, align_down_floor]
  omega

theorem offset_region_covers (no_overflow : v.toNat + size.toNat < 2 ^ 64) (inside : i < size) :
    Covers (MemoryRegion.newWithOffsetMapper v p size flags) (v + i) ↔
      v.toNat % 4096 + i.toNat < (alignUp size).toNat := by
  have down := align_down_floor v
  have distance : (v + i - alignDown v).toNat = v.toNat % 4096 + i.toNat := by
    have : i.toNat < size.toNat := inside
    rw [toNat_sub, toNat_add_of_lt (by omega)]
    omega
  rw [Covers, offset_region_start, distance]
  rfl

theorem offset_region_target (same_offset : v.toNat % 4096 = p.toNat % 4096) :
    target (MemoryRegion.newWithOffsetMapper v p size flags) x = x - v + p := by
  have down := align_down_floor v
  have down' := align_down_floor p
  have shift : alignDown v - alignDown p = v - p := by
    apply eq_of_toNat_eq
    have := v.isLt
    have := p.isLt
    rw [toNat_sub, toNat_sub]
    omega
  change x - (alignDown v - alignDown p) = _
  rw [shift]
  grind

variable (same_offset : v.toNat % 4096 = p.toNat % 4096)
  (usable : P.usable (MemoryRegion.newWithOffsetMapper v p size flags).flags)
  (empty : EmptySet P s)
  (run : s.1.insert P.toGenericPTE s.2 (.newWithOffsetMapper v p size flags) = .ok t)

include same_offset usable empty run

theorem offset_answer (covered : Covers (.newWithOffsetMapper v p size flags) x) :
    ∃ h reported page, t.1.query P.toGenericPTE t.2 x = .ok (h, reported, page) ∧
      h.toNat = (x - v + p).toNat % 2 ^ 52 := by
  obtain ⟨tree, entered, _⟩ := inserted_pages empty usable run
  obtain ⟨h, page, found, address⟩ :=
    query_entered tree usable (offset_mapper_whole_pages v p size flags) entered covered
  rw [offset_region_target same_offset] at address
  exact ⟨h, _, page, found, address⟩

theorem offset_answer_folded (covered : Covers (.newWithOffsetMapper v p size flags) x)
    (found : t.1.query P.toGenericPTE t.2 (x + fold) = .ok (h, reported, page)) :
    h.toNat % 2 ^ 52 ≠ (x + fold - v + p).toNat % 2 ^ 52 := by
  obtain ⟨h', _, _, answer, address⟩ := offset_answer same_offset usable empty run covered
  have low := add_fold x
  have same : t.1.query P.toGenericPTE t.2 (x + fold) = t.1.query P.toGenericPTE t.2 x :=
    query_low_bits (by omega)
  rw [found, answer] at same
  simp only [Except.ok.injEq, Prod.mk.injEq] at same
  have moved := add_fold (x - v + p)
  rw [same.1, show x + fold - v + p = x - v + p + fold by grind]
  omega

theorem inserted_short : (alignUp size).toNat ≤ 2 ^ 48 := by
  by_contra long
  have covers : ∀ x : BitVec 64, (x - alignDown v).toNat ≤ 2 ^ 48 →
      Covers (.newWithOffsetMapper v p size flags) x := by
    intro x near
    rw [Covers, offset_region_start]
    exact Nat.lt_of_le_of_lt near (Nat.lt_of_not_le long)
  have first := covers (alignDown v) (by rw [BitVec.sub_self]; exact Nat.zero_le _)
  have further := covers (alignDown v + fold) (by
    rw [show alignDown v + fold - alignDown v = fold by grind]
    exact Nat.le_refl _)
  obtain ⟨h, _, _, found, address⟩ := offset_answer same_offset usable empty run further
  apply offset_answer_folded same_offset usable empty run first found
  omega

theorem offset_missed (no_overflow : v.toNat + size.toNat < 2 ^ 64) {i : BitVec 64} (inside : i < size)
    (left_out : (alignUp size).toNat ≤ v.toNat % 4096 + i.toNat) {reported : MemFlags} :
    t.1.query P.toGenericPTE t.2 (v + i) ≠ .ok (p + i, reported, page) := by
  intro found
  have index : i.toNat < size.toNat := inside
  have short := inserted_short same_offset usable empty run
  have rounded := align_up_floor size
  have down := align_down_floor v
  have at_i : (v + i).toNat = v.toNat + i.toNat := toNat_add_of_lt (by omega)
  by_cases full : (alignUp size).toNat = 2 ^ 48
  · -- the tables lead to the byte a fold before
    have before : v + i = v + i - fold + fold := by grind
    have covered : Covers (.newWithOffsetMapper v p size flags) (v + i - fold) := by
      have value := add_fold (v + i - fold)
      rw [← before] at value
      have := (v + i - fold).isLt
      rw [Covers, offset_region_start, toNat_sub]
      apply Nat.lt_of_lt_of_le _ (Nat.le_of_eq full.symm)
      omega
    rw [before] at found
    apply offset_answer_folded same_offset usable empty run covered found
    rw [show v + i - fold + fold - v + p = p + i by grind]
  · obtain ⟨tree, _, accounted⟩ := inserted_pages empty usable run
    have unused : ∀ size', leafOf P t.2 t.1.pt.root (v + i) size' = 0 := by
      intro size'
      by_contra used
      obtain ⟨cut, member, same⟩ := accounted _ _ used
      have room := (region_cut member).inside
      have positive := Nat.two_pow_pos cut.size.bits
      rw [offset_region_start] at room
      have in_region : (cut.va - alignDown v).toNat + 2 ^ cut.size.bits ≤ (alignUp size).toNat := room
      have base : cut.va.toNat = (alignDown v).toNat + (cut.va - alignDown v).toNat := by
        rw [← toNat_add_of_lt (by omega)]
        exact congrArg BitVec.toNat (by grind)
      exact entry_behind (region_cut member).aligned (by omega) (by omega) same
    have missing := query_unused tree unused
    rw [MemorySet.query, missing] at found
    cases found

theorem offset_byte_iff (no_overflow : v.toNat + size.toNat < 2 ^ 64)
    (no_overflow' : p.toNat + size.toNat < 2 ^ 64) (inside : i < size) :
    (∃ reported page, t.1.query P.toGenericPTE t.2 (v + i) = .ok (p + i, reported, page)) ↔
      v.toNat % 4096 + i.toNat < (alignUp size).toNat ∧ p.toNat + i.toNat < 2 ^ 52 := by
  have index : i.toNat < size.toNat := inside
  have at_target : (p + i).toNat = p.toNat + i.toNat := toNat_add_of_lt (by omega)
  by_cases reached : v.toNat % 4096 + i.toNat < (alignUp size).toNat
  · obtain ⟨h, reported, page, found, address⟩ := offset_answer same_offset usable empty run
      ((offset_region_covers no_overflow inside).mpr reached)
    rw [show v + i - v + p = p + i by grind, at_target] at address
    rw [found]
    constructor
    · rintro ⟨_, _, same⟩
      simp only [Except.ok.injEq, Prod.mk.injEq] at same
      rw [same.1, at_target] at address
      omega
    rintro ⟨_, small⟩
    have same : h = p + i := eq_of_toNat_eq (by omega)
    rw [same]
    exact ⟨reported, page, rfl⟩
  · constructor
    · rintro ⟨_, _, found⟩
      exact absurd found (offset_missed same_offset usable empty run no_overflow inside (by omega))
    · rintro ⟨covered, _⟩
      exact absurd covered reached

end Offset

/-- A region with an offset mapper translates all of its bytes exactly when the rounded size
    holds the page offset too and the targets are physical addresses. -/
theorem offset_region_covered_iff (empty : EmptySet P s) {v size : BitVec 64} {p : PhysAddr}
    {flags : MemFlags} (same_offset : v.toNat % 4096 = p.toNat % 4096) (some_asked : 0 < size.toNat)
    (no_overflow : v.toNat + size.toNat < 2 ^ 64) (no_overflow' : p.toNat + size.toNat < 2 ^ 64)
    (readable : contains flags MemFlags.read = true)
    (run : s.1.insert P.toGenericPTE s.2 (.newWithOffsetMapper v p size flags) = .ok t) :
    (∀ i, i < size → ∃ reported page,
        t.1.query P.toGenericPTE t.2 (v + i) = .ok (p + i, reported, page)) ↔
      v.toNat % 4096 + size.toNat ≤ (alignUp size).toNat ∧ p.toNat + size.toNat ≤ 2 ^ 52 := by
  have usable : P.usable (MemoryRegion.newWithOffsetMapper v p size flags).flags :=
    P.usable_read flags readable
  have byte : ∀ i, i < size → _ :=
    fun i inside => offset_byte_iff same_offset usable empty run no_overflow no_overflow' (i := i) inside
  constructor
  · intro all
    -- the last byte decides
    have last : size - 1 < size := by bv_omega
    have value : (size - 1).toNat = size.toNat - 1 := by bv_omega
    obtain ⟨covered, small⟩ := (byte _ last).mp (all _ last)
    omega
  rintro ⟨covered, small⟩ i inside
  have index : i.toNat < size.toNat := inside
  exact (byte i inside).mpr ⟨by omega, by omega⟩

def insertFresh (region : MemoryRegion) : Option (State × State) :=
  (MemorySet.new smallMemory).toOption.bind fun s =>
    (s.1.insert ptEntry s.2 region).toOption.map fun t => (s, t)

theorem insert_fresh_some (run : insertFresh region = some r) :
    EmptySet hostFormat r.1 ∧ r.1.1.insert ptEntry r.1.2 region = .ok r.2 := by
  obtain ⟨s, made, rest⟩ := Option.bind_eq_some_iff.mp run
  obtain ⟨t, inserted, rfl⟩ := Option.map_eq_some_iff.mp rest
  exact ⟨new_empty (ok_of_to_option made), ok_of_to_option inserted⟩

def readWrite : MemFlags := MemFlags.read ||| MemFlags.write

/-- The last 256 bytes of a page. -/
theorem end_of_page_covered : ∃ s t, EmptySet hostFormat s ∧
    s.1.insert ptEntry s.2 (.newWithOffsetMapper 0x200f00 0x300f00 0x100 readWrite) = .ok t ∧
    ∀ i, i < 0x100 → ∃ reported page,
      t.1.query ptEntry t.2 (0x200f00 + i) = .ok (0x300f00 + i, reported, page) := by
  have done : (insertFresh (.newWithOffsetMapper 0x200f00 0x300f00 0x100 readWrite)).isSome := by decide
  obtain ⟨⟨s, t⟩, run⟩ := Option.isSome_iff_exists.mp done
  obtain ⟨empty, inserted⟩ := insert_fresh_some run
  refine ⟨s, t, empty, inserted, ?_⟩
  exact (offset_region_covered_iff empty (by decide) (by decide) (by decide) (by decide) (by decide)
    inserted).mpr (by decide)

/-- With 512 bytes instead of 256 the second page is missing, and a page at `2 ^ 52` is
    mapped to address 0. -/
theorem across_pages_not_covered :
    (∃ s t, EmptySet hostFormat s ∧
      s.1.insert ptEntry s.2 (.newWithOffsetMapper 0x200f00 0x300f00 0x200 readWrite) = .ok t ∧
      ¬ ∃ reported page, t.1.query ptEntry t.2 (0x200f00 + 0x100) = .ok (0x300f00 + 0x100, reported, page)) ∧
    ∃ s t, EmptySet hostFormat s ∧
      s.1.insert ptEntry s.2 (.newWithOffsetMapper 0x200000 0x10000000000000 0x1000 readWrite) = .ok t ∧
      ∃ reported page, t.1.query ptEntry t.2 0x200000 = .ok (0, reported, page) := by
  constructor
  · have missing : (insertFresh (.newWithOffsetMapper 0x200f00 0x300f00 0x200 readWrite)).map
        (fun r => (r.2.1.query ptEntry r.2.2 (0x200f00 + 0x100)).toOption) = some none := by decide
    obtain ⟨⟨s, t⟩, run, answer⟩ := Option.map_eq_some_iff.mp missing
    obtain ⟨empty, inserted⟩ := insert_fresh_some run
    refine ⟨s, t, empty, inserted, ?_⟩
    rintro ⟨reported, page, found⟩
    rw [found] at answer
    cases answer
  · have shortened : (insertFresh (.newWithOffsetMapper 0x200000 0x10000000000000 0x1000 readWrite)).map
        (fun r => (r.2.1.query ptEntry r.2.2 0x200000).toOption) = some (some (0, readWrite, .size4K)) := by
      decide
    obtain ⟨⟨s, t⟩, run, answer⟩ := Option.map_eq_some_iff.mp shortened
    obtain ⟨empty, inserted⟩ := insert_fresh_some run
    exact ⟨s, t, empty, inserted, _, _, ok_of_to_option answer⟩

end RtosRvmOffsetRegion
