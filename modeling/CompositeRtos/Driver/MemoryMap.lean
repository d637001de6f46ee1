import CompositeRtos.Driver.MemRegions
import CompositeRtos.Lib.BitField
import CompositeRtos.Lib.PageCover
import Mathlib.Data.List.Forall2
import Mathlib.Data.List.Induction

/-!
What the memory map of the driver says. For sorted, disjoint resources the entries are the
page cover of the resources without the hypervisor region: each entry stands for a block of
the cover, and its flags are those of the resources that share a byte with it.
-/
namespace RtosDriverMemoryMap
open BitVec

open RtosDriverMemRegions
open RtosPageCover (Range Block Touches Cover grow down up)

/-! Rounding, as numbers. -/

theorem round_down_value (x : BitVec 64) : (roundDown x).toNat = down 4096 x.toNat :=
  RtosBitField.and_high_field 12 (by decide)

theorem round_up_eq : roundUp x = roundDown (x - 1) + 0x1000 := by
  have joined : roundDown (x - 1) + 0xfff = (x - 1) ||| 0xfff := by
    rw [add_eq_or_of_and_eq_zero]
    · apply eq_of_getLsbD_eq
      intro i bound
      rw [roundDown, getLsbD_or, getLsbD_or, getLsbD_and, getLsbD_not]
      cases getLsbD 0xfff#64 i <;> simp [bound]
    · rw [roundDown, BitVec.and_assoc, show ~~~(0xfff : BitVec 64) &&& 0xfff = 0#64 by decide, and_zero]
  rw [roundUp, ← joined, BitVec.add_assoc]
  rfl

theorem round_up_value (positive : 0 < x.toNat) (low : x.toNat ≤ 2 ^ 52) : (roundUp x).toNat = up 4096 x.toNat := by
  have before : (x - 1).toNat = x.toNat - 1 := toNat_sub_of_le (by rw [le_def]; exact positive)
  rw [round_up_eq, toNat_add, round_down_value, before, down, up,
    show (0x1000 : BitVec 64).toNat = 4096 from rfl]
  omega

theorem up_low (low : x ≤ 2 ^ 52) : up 4096 x ≤ 2 ^ 52 := by
  unfold up
  omega

/-! The entries and the blocks of the cover. -/

def orFlags (flags : List (BitVec 64)) : BitVec 64 := flags.foldl (· ||| ·) 0

theorem or_flags_append : orFlags (flags ++ [flag]) = orFlags flags ||| flag := by
  rw [orFlags, List.foldl_append]
  rfl

theorem or_flags_bit : (orFlags flags).getLsbD i = true ↔ ∃ flag ∈ flags, flag.getLsbD i = true := by
  induction flags using List.reverseRecOn with
  | nil => simp [orFlags]
  | append_singleton flags flag ih =>
    rw [or_flags_append, getLsbD_or, Bool.or_eq_true, ih]
    simp only [List.mem_append, List.mem_singleton, or_and_right, exists_or, exists_eq_left]

theorem or_flags_congr (same : ∀ flag, flag ∈ flags ↔ flag ∈ flags') : orFlags flags = orFlags flags' := by
  apply eq_of_getLsbD_eq
  intro i _
  rw [Bool.eq_iff_iff, or_flags_bit, or_flags_bit]
  simp only [same]

structure Stands (m : JailhouseMemory) (b : Block (BitVec 64)) : Prop where
  start : m.physStart.toNat = b.start
  identity : m.virtStart = m.physStart
  size : m.size.toNat = b.stop - b.start
  flags : m.flags = orFlags (b.members.map Range.tag)

structure Part where
  start : BitVec 64
  stop : BitVec 64
  flag : BitVec 64

def Part.range (p : Part) : Range (BitVec 64) := ⟨p.start.toNat, p.stop.toNat, p.flag⟩

def addPart (regions : Regions) (p : Part) : Regions := regions.add p.start p.stop p.flag

theorem length_value {first : BitVec 64} (order : first.toNat ≤ last.toNat) (low : last.toNat < 2 ^ 52) :
    (last - first + 1).toNat = last.toNat + 1 - first.toNat := by
  rw [toNat_add, toNat_sub_of_le (by rw [le_def]; exact order),
    show (1 : BitVec 64).toNat = 1 from rfl]
  omega

theorem stands_last (stands : Stands m b) (some_page : b.start < b.stop) (stop_low : b.stop ≤ 2 ^ 52) :
    (m.physStart + m.size - 1).toNat = b.stop - 1 := by
  have sum : (m.physStart + m.size).toNat = b.stop := by
    rw [toNat_add, stands.start, stands.size]
    omega
  rw [toNat_sub_of_le, sum]
  · rfl
  · rw [le_def, sum]
    exact Nat.one_le_of_lt some_page

section Step

variable {p : Part} (some_bytes : p.start.toNat < p.stop.toNat) (low : p.stop.toNat ≤ 2 ^ 52)

include some_bytes low

theorem last_byte : (roundUp p.stop - 1).toNat = up 4096 p.stop.toNat - 1 := by
  have stop := round_up_value (x := p.stop) (by omega) low
  have := RtosPageCover.le_up (show 0 < 4096 by decide) p.stop.toNat
  rw [toNat_sub_of_le (by rw [le_def, stop]; exact (show 1 ≤ _ by omega)), stop]
  rfl

theorem fresh_stands :
    Stands ⟨roundDown p.start, roundDown p.start, roundUp p.stop - 1 - roundDown p.start + 1, p.flag⟩
      ⟨down 4096 p.start.toNat, up 4096 p.stop.toNat, [p.range]⟩ := by
  have last := last_byte some_bytes low
  have start := round_down_value p.start
  have start_le := RtosPageCover.down_le 4096 p.start.toNat
  have stop_ge := RtosPageCover.le_up (show 0 < 4096 by decide) p.stop.toNat
  have bound := up_low low
  refine ⟨start, rfl, ?_, ?_⟩
  · change (roundUp p.stop - 1 - roundDown p.start + 1).toNat = _
    rw [length_value (by omega) (by omega), last, start]
    change up 4096 p.stop.toNat - 1 + 1 - down 4096 p.start.toNat = up 4096 p.stop.toNat - down 4096 p.start.toNat
    omega
  change p.flag = orFlags ([] ++ [p.flag])
  rw [or_flags_append]
  exact (zero_or).symm

omit some_bytes in
theorem grown_stands {m : JailhouseMemory} (stands : Stands m b)
    (last_value : last.toNat = up 4096 p.stop.toNat - 1) (starts : b.start < up 4096 p.stop.toNat) :
    Stands ⟨m.physStart, m.physStart, last - m.physStart + 1, m.flags ||| p.flag⟩
      ⟨b.start, up 4096 p.stop.toNat, b.members ++ [p.range]⟩ := by
  have start := stands.start
  have bound := up_low low
  refine ⟨start, rfl, ?_, ?_⟩
  · change (last - m.physStart + 1).toNat = up 4096 p.stop.toNat - b.start
    rw [length_value (by omega) (by omega), last_value, start]
    omega
  change m.flags ||| p.flag = orFlags ((b.members ++ [p.range]).map Range.tag)
  rw [List.map_append, List.map_singleton, or_flags_append, stands.flags]
  rfl

theorem add_stands (all : List.Forall₂ Stands regions.entries blocks) (cover : Cover 4096 limit ranges blocks)
    (after : limit ≤ p.start.toNat) :
    List.Forall₂ Stands (addPart regions p).entries (grow 4096 blocks p.range) := by
  have fresh := fresh_stands some_bytes low
  rw [addPart, Regions.add]
  cases stored : regions.entries with
  | nil =>
    rw [stored, List.forall₂_nil_left_iff] at all
    rw [all]
    exact List.Forall₂.cons fresh List.Forall₂.nil
  | cons newest before =>
    rw [stored, List.forall₂_cons_left_iff] at all
    obtain ⟨b, older, stands, all, shape⟩ := all
    obtain ⟨starts, ends⟩ := RtosPageCover.behind_newest (r := p.range) (by omega) cover after some_bytes shape
    obtain ⟨_, stop_dvd, some_page⟩ := cover.whole b (by simp [shape])
    have stop_low : b.stop ≤ 2 ^ 52 := by
      rw [(cover.newest b older shape).1]
      exact up_low (by omega)
    have start := round_down_value p.start
    have start_dvd := RtosPageCover.down_dvd 4096 p.start.toNat
    have last := last_byte some_bytes low
    have newest_last := stands_last stands some_page stop_low
    have overlap_iff : roundDown p.start < newest.physStart + newest.size - 1 ↔ down 4096 p.range.start < b.stop := by
      rw [lt_def, newest_last, start]
      change down 4096 p.start.toNat < b.stop - 1 ↔ down 4096 p.start.toNat < b.stop
      omega
    rw [shape, grow]
    by_cases overlap : roundDown p.start < newest.physStart + newest.size - 1
    · have not_before : ¬ roundDown p.start < newest.physStart := by
        rw [lt_def, start, stands.start]
        exact Nat.not_lt.mpr starts
      simp only [if_pos overlap, if_pos (overlap_iff.mp overlap), if_neg not_before]
      have ends : b.stop ≤ up 4096 p.stop.toNat := ends
      refine List.Forall₂.cons (grown_stands low stands ?_ (by omega)) all
      split
      · exact last
      rename_i not_behind
      rw [gt_iff_lt, lt_def, newest_last, last] at not_behind
      omega
    · simp only [if_neg overlap, if_neg (mt overlap_iff.mpr overlap)]
      exact List.Forall₂.cons fresh (List.Forall₂.cons stands all)

end Step

theorem sweep_stands {parts : List Part} (ordered : parts.Pairwise fun a b => a.stop.toNat ≤ b.start.toNat)
    (bounds : ∀ p ∈ parts, p.start.toNat < p.stop.toNat ∧ p.stop.toNat ≤ 2 ^ 52)
    (cover : Cover 4096 limit ranges blocks) (after : ∀ p ∈ parts, limit ≤ p.start.toNat)
    (all : List.Forall₂ Stands regions.entries blocks) :
    ∃ limit' blocks', Cover 4096 limit' (ranges ++ parts.map Part.range) blocks' ∧
      List.Forall₂ Stands (parts.foldl addPart regions).entries blocks' := by
  induction parts generalizing limit ranges blocks regions with
  | nil => exact ⟨limit, blocks, by simpa using cover, all⟩
  | cons p rest ih =>
    rw [List.pairwise_cons] at ordered
    obtain ⟨some_bytes, low⟩ := bounds p (.head _)
    have here := after p (.head _)
    have grown := RtosPageCover.grow_cover (r := p.range) (by omega) cover here some_bytes
    obtain ⟨limit', blocks', cover', all'⟩ := ih ordered.2 (fun q member => bounds q (.tail _ member))
      grown ordered.1 (add_stands some_bytes low all cover here)
    refine ⟨limit', blocks', ?_, all'⟩
    rw [List.map_cons, List.append_cons]
    exact cover'

/-! From the resources to the parts. -/

def InResource (child : Resource) (x : Nat) : Prop := child.start.toNat ≤ x ∧ x ≤ child.last.toNat

def InRegion (region : MemRegion) (x : Nat) : Prop :=
  region.start.toNat ≤ x ∧ x < region.start.toNat + region.size.toNat

def InEntry (m : JailhouseMemory) (x : Nat) : Prop :=
  m.physStart.toNat ≤ x ∧ x < m.physStart.toNat + m.size.toNat

/-- Sorted, disjoint resources with at least one byte, and whole pages for the hypervisor. -/
structure Usable (resources : List Resource) (reserved : MemRegion) : Prop where
  sorted : resources.Pairwise fun a b => a.last.toNat < b.start.toNat
  bytes : ∀ child ∈ resources, child.start.toNat ≤ child.last.toNat
  low : ∀ child ∈ resources, child.last.toNat < 2 ^ 52
  start_aligned : 4096 ∣ reserved.start.toNat
  size_aligned : 4096 ∣ reserved.size.toNat
  reserved_bytes : 0 < reserved.size.toNat
  reserved_low : reserved.start.toNat + reserved.size.toNat ≤ 2 ^ 52

def parts (reserved : MemRegion) (child : Resource) : List Part :=
  ((pieces child.name reserved child.region).getD []).map fun p => ⟨p.start, p.stop, memRegionFlag child.name⟩

theorem resources_added (resources : List Resource) (regions : Regions) :
    resources.foldl (addResource reserved) regions = (resources.flatMap (parts reserved)).foldl addPart regions := by
  rw [List.foldl_flatMap]
  congr 1
  funext regions child
  rw [addResource, Regions.addAll, parts, List.foldl_map]
  rfl

section Parts

variable {resources : List Resource} {reserved : MemRegion} (usable : Usable resources reserved)
  {child : Resource} (member : child ∈ resources)

include usable

theorem reserved_stop_value : reserved.stop.toNat = reserved.start.toNat + reserved.size.toNat := by
  have := usable.reserved_low
  rw [MemRegion.stop, toNat_add]
  omega

include member

theorem resource_stop_value : child.region.stop.toNat = child.last.toNat + 1 := by
  have := usable.low child member
  have stop : child.region.stop = child.last + 1 := by
    simp only [Resource.region, MemRegion.stop]
    grind
  rw [stop, toNat_add]
  change (child.last.toNat + 1) % 2 ^ 64 = child.last.toNat + 1
  omega

theorem parts_cases (taken : accepted reserved child = true) :
    (∀ x, InResource child x → ¬ InRegion reserved x) ∧
        parts reserved child = [⟨child.start, child.region.stop, memRegionFlag child.name⟩] ∨
      (child.start.toNat ≤ reserved.start.toNat ∧ reserved.stop.toNat ≤ child.region.stop.toNat) ∧
        parts reserved child =
          (around reserved child.region).map fun p => ⟨p.start, p.stop, memRegionFlag child.name⟩ := by
  obtain ⟨ps, shape⟩ := Option.isSome_iff_exists.mp taken
  have parts_eq : parts reserved child = ps.map fun p => ⟨p.start, p.stop, memRegionFlag child.name⟩ := by
    rw [parts, shape]
    rfl
  have stop := resource_stop_value usable member
  have reserved_stop := reserved_stop_value usable
  have bytes := usable.bytes child member
  rw [parts_eq]
  rw [pieces] at shape
  split at shape
  · rename_i no_bytes
    have same : child.start.toNat = child.region.stop.toNat := congrArg BitVec.toNat no_bytes
    omega
  split at shape
  · rename_i contained
    split at shape
    · cases shape
      exact Or.inr ⟨contained, rfl⟩
    · cases shape
  split at shape
  · rename_i outside
    cases shape
    refine Or.inl ⟨?_, rfl⟩
    intro x inside
    unfold InResource at inside
    unfold InRegion
    rw [le_def, le_def, stop, reserved_stop] at outside
    change _ ∨ _ ≤ child.start.toNat at outside
    omega
  · cases shape

/-- The parts of a resource: in order, within it, with its flags, and together all its bytes
    that are not the hypervisor's. -/
structure Remains (reserved : MemRegion) (child : Resource) (ps : List Part) : Prop where
  ordered : ps.Pairwise fun a b => a.stop.toNat ≤ b.start.toNat
  within : ∀ p ∈ ps, child.start.toNat ≤ p.start.toNat ∧ p.start.toNat < p.stop.toNat ∧
    p.stop.toNat ≤ child.last.toNat + 1 ∧ p.flag = memRegionFlag child.name
  bytes : ∀ x, (∃ p ∈ ps, p.start.toNat ≤ x ∧ x < p.stop.toNat) ↔ InResource child x ∧ ¬ InRegion reserved x

theorem parts_remain (taken : accepted reserved child = true) : Remains reserved child (parts reserved child) := by
  have stop := resource_stop_value usable member
  have reserved_stop := reserved_stop_value usable
  have reserved_bytes := usable.reserved_bytes
  have bytes := usable.bytes child member
  rcases parts_cases usable member taken with ⟨outside, whole⟩ | ⟨⟨before, behind⟩, sides⟩
  · rw [whole]
    refine ⟨List.pairwise_singleton _ _, ?_, ?_⟩
    · intro p here
      rw [List.mem_singleton.mp here]
      exact ⟨Nat.le_refl _, show child.start.toNat < child.region.stop.toNat by omega, Nat.le_of_eq stop, rfl⟩
    intro x
    simp only [List.mem_singleton, exists_eq_left, stop]
    constructor
    · intro inside
      have here : InResource child x := ⟨inside.1, by omega⟩
      exact ⟨here, outside x here⟩
    · rintro ⟨here, _⟩
      exact ⟨here.1, Nat.lt_succ_of_le here.2⟩
  · rw [sides, around]
    have left_iff : child.region.start < reserved.start ↔ child.start.toNat < reserved.start.toNat := lt_def
    have right_iff : reserved.stop < child.region.stop ↔ reserved.stop.toNat < child.region.stop.toNat := lt_def
    have start : child.region.start.toNat = child.start.toNat := rfl
    refine ⟨?_, ?_, ?_⟩
    · split <;> split <;> simp
      omega
    · intro p here
      simp only [List.map_append, List.mem_append, List.mem_map] at here
      rcases here with ⟨q, here, rfl⟩ | ⟨q, here, rfl⟩ <;> split at here
      · rename_i left
        rw [List.mem_singleton.mp here]
        exact ⟨Nat.le_refl _, left_iff.mp left, show reserved.start.toNat ≤ child.last.toNat + 1 by omega, rfl⟩
      · cases here
      · rename_i right
        rw [List.mem_singleton.mp here]
        exact ⟨show child.start.toNat ≤ reserved.stop.toNat by omega, right_iff.mp right, Nat.le_of_eq stop, rfl⟩
      · cases here
    · intro x
      unfold InResource InRegion
      by_cases left : child.region.start < reserved.start <;> by_cases right : reserved.stop < child.region.stop <;>
        simp only [left, right, if_true, if_false, List.cons_append, List.nil_append, List.map_cons, List.map_nil,
          List.mem_cons, List.not_mem_nil, or_false, or_and_right, exists_or, exists_eq_left, false_and,
          exists_false, false_iff] <;>
        rw [left_iff] at left <;> rw [right_iff] at right <;> omega

end Parts

/-! The map as a whole. -/

def Shares (m : JailhouseMemory) (child : Resource) : Prop :=
  child.start.toNat < m.physStart.toNat + m.size.toNat ∧ m.physStart.toNat ≤ child.last.toNat

instance (m : JailhouseMemory) (child : Resource) : Decidable (Shares m child) := inferInstanceAs (Decidable (_ ∧ _))

structure Exact (resources : List Resource) (reserved : MemRegion) (map : List JailhouseMemory) : Prop where
  pages : ∀ m ∈ map, 4096 ∣ m.physStart.toNat ∧ 4096 ∣ m.size.toNat ∧ 0 < m.size.toNat
  sorted : map.Pairwise fun a b => a.physStart.toNat + a.size.toNat ≤ b.physStart.toNat
  identity : ∀ m ∈ map, m.virtStart = m.physStart
  outside : ∀ m ∈ map, ∀ x, InEntry m x → ¬ InRegion reserved x
  union : ∀ x, (∃ m ∈ map, InEntry m x) ↔
    (∃ child ∈ resources, ∃ y, y / 4096 = x / 4096 ∧ InResource child y) ∧ ¬ InRegion reserved x
  flags : ∀ m ∈ map, m.flags = orFlags ((resources.filter (Shares m)).map fun child => memRegionFlag child.name)

theorem region_whole (usable : Usable resources reserved) (same : y / 4096 = x / 4096) :
    InRegion reserved y ↔ InRegion reserved x := by
  have start := usable.start_aligned
  have size := usable.size_aligned
  unfold InRegion
  omega

section Related

variable {α β : Type} {R : α → β → Prop} {as : List α} {bs : List β} (all : List.Forall₂ R as bs)

include all

theorem related_left (here : a ∈ as) : ∃ b ∈ bs, R a b := by
  induction all with
  | nil => cases here
  | cons first _ ih =>
    rcases List.mem_cons.mp here with rfl | here
    · exact ⟨_, (.head _), first⟩
    · obtain ⟨b, member, related⟩ := ih here
      exact ⟨b, .tail _ member, related⟩

theorem related_pairwise (ordered : bs.Pairwise S)
    (carries : ∀ a a' b b', b ∈ bs → b' ∈ bs → R a b → R a' b' → S b b' → T a a') : as.Pairwise T := by
  induction all with
  | nil => exact List.Pairwise.nil
  | cons first rest ih =>
    rw [List.pairwise_cons] at ordered ⊢
    constructor
    · intro a' here
      obtain ⟨b', member, related⟩ := related_left rest here
      exact carries _ _ _ _ (.head _) (.tail _ member) first related (ordered.1 b' member)
    · exact ih ordered.2 fun a a' b b' here here' =>
        carries a a' b b' (.tail _ here) (.tail _ here')

end Related

section Whole

variable {resources : List Resource} {reserved : MemRegion} (usable : Usable resources reserved)
  (taken : ∀ child ∈ resources, accepted reserved child = true)

include usable taken

theorem all_parts_ordered :
    (resources.flatMap (parts reserved)).Pairwise fun a b => a.stop.toNat ≤ b.start.toNat := by
  rw [List.pairwise_flatMap]
  refine ⟨fun child member => (parts_remain usable member (taken child member)).ordered, ?_⟩
  apply usable.sorted.imp_of_mem
  intro a b a_member b_member apart p p_member q q_member
  have p_within := (parts_remain usable a_member (taken a a_member)).within p p_member
  have q_within := (parts_remain usable b_member (taken b b_member)).within q q_member
  omega

theorem all_parts_bounded :
    ∀ p ∈ resources.flatMap (parts reserved), p.start.toNat < p.stop.toNat ∧ p.stop.toNat ≤ 2 ^ 52 := by
  intro p here
  obtain ⟨child, member, here⟩ := List.mem_flatMap.mp here
  have within := (parts_remain usable member (taken child member)).within p here
  have low := usable.low child member
  exact ⟨within.2.1, by omega⟩

theorem pages_of_parts (x : Nat) :
    (∃ r ∈ (resources.flatMap (parts reserved)).map Part.range, down 4096 r.start ≤ x ∧ x < up 4096 r.stop) ↔
      (∃ child ∈ resources, ∃ y, y / 4096 = x / 4096 ∧ InResource child y) ∧ ¬ InRegion reserved x := by
  constructor
  · rintro ⟨r, here, page⟩
    obtain ⟨p, from_parts, rfl⟩ := List.mem_map.mp here
    have some_bytes := (all_parts_bounded usable taken p from_parts).1
    obtain ⟨y, same, inside⟩ := (RtosPageCover.page_touched (by omega) some_bytes x).mp page
    obtain ⟨child, member, here⟩ := List.mem_flatMap.mp from_parts
    obtain ⟨held, free⟩ := ((parts_remain usable member (taken child member)).bytes y).mp ⟨p, here, inside⟩
    exact ⟨⟨child, member, y, same, held⟩, mt (region_whole usable same).mpr free⟩
  · rintro ⟨⟨child, member, y, same, held⟩, free⟩
    obtain ⟨p, here, inside⟩ := ((parts_remain usable member (taken child member)).bytes y).mpr
      ⟨held, mt (region_whole usable same).mp free⟩
    have here : p ∈ resources.flatMap (parts reserved) := List.mem_flatMap.mpr ⟨child, member, here⟩
    have some_bytes := (all_parts_bounded usable taken p here).1
    exact ⟨p.range, List.mem_map_of_mem here,
      (RtosPageCover.page_touched (by omega) some_bytes x).mpr ⟨y, same, inside⟩⟩

/-- A part in a block comes from a resource in it. The other way round, the byte of a resource
    in a block is not the hypervisor's, so it is in a part. -/
theorem flags_of_parts (stands : Stands m b) (bytes : b.start < b.stop)
    (free : ∀ x, b.start ≤ x → x < b.stop → ¬ InRegion reserved x) :
    orFlags ((((resources.flatMap (parts reserved)).map Part.range).filter (Touches b)).map Range.tag) =
      orFlags ((resources.filter (Shares m)).map fun child => memRegionFlag child.name) := by
  have start := stands.start
  have size := stands.size
  apply or_flags_congr
  intro flag
  simp only [List.mem_map, List.mem_filter, decide_eq_true_eq]
  constructor
  · rintro ⟨r, ⟨⟨p, here, rfl⟩, below, above⟩, rfl⟩
    obtain ⟨child, member, here⟩ := List.mem_flatMap.mp here
    have within := (parts_remain usable member (taken child member)).within p here
    have below : p.start.toNat < b.stop := below
    have above : b.start < p.stop.toNat := above
    exact ⟨child, ⟨member, by omega, by omega⟩, within.2.2.2.symm⟩
  rintro ⟨child, ⟨member, below, above⟩, rfl⟩
  have some_bytes := usable.bytes child member
  have shared : InResource child (max child.start.toNat b.start) := ⟨by omega, by omega⟩
  obtain ⟨p, here, inside⟩ := ((parts_remain usable member (taken child member)).bytes _).mpr
    ⟨shared, free _ (by omega) (by omega)⟩
  have within := (parts_remain usable member (taken child member)).within p here
  refine ⟨p.range, ⟨⟨p, List.mem_flatMap.mpr ⟨child, member, here⟩, rfl⟩, ?_⟩, within.2.2.2⟩
  exact ⟨show p.start.toNat < b.stop by omega, show b.start < p.stop.toNat by omega⟩

theorem stored_cover : ∃ limit blocks, Cover 4096 limit ((resources.flatMap (parts reserved)).map Part.range) blocks ∧
      List.Forall₂ Stands (resources.foldl (addResource reserved) .empty).entries blocks := by
  rw [resources_added]
  exact sweep_stands (all_parts_ordered usable taken) (all_parts_bounded usable taken)
    (RtosPageCover.empty_cover) (fun _ _ => Nat.zero_le _) List.Forall₂.nil

theorem stored_exact :
    Exact resources reserved (resources.foldl (addResource reserved) .empty).entries.reverse := by
  obtain ⟨limit, blocks, cover, all⟩ := stored_cover usable taken
  generalize (resources.foldl (addResource reserved) .empty).entries = entries at all
  have pages_iff := pages_of_parts usable taken
  have inside_iff : ∀ m b, b ∈ blocks → Stands m b → ∀ x, InEntry m x ↔ b.start ≤ x ∧ x < b.stop := by
    intro m b here stands x
    have bytes := (cover.whole b here).2.2
    rw [InEntry, stands.start, stands.size]
    omega
  have union : ∀ x, (∃ m ∈ entries.reverse, InEntry m x) ↔
      (∃ child ∈ resources, ∃ y, y / 4096 = x / 4096 ∧ InResource child y) ∧ ¬ InRegion reserved x := by
    intro x
    rw [← pages_iff x, ← cover.covered x]
    constructor
    · rintro ⟨m, here, inside⟩
      obtain ⟨b, block, stands⟩ := related_left all (List.mem_reverse.mp here)
      exact ⟨b, block, (inside_iff m b block stands x).mp inside⟩
    rintro ⟨b, block, inside⟩
    obtain ⟨m, here, stands⟩ := related_left all.flip block
    exact ⟨m, List.mem_reverse.mpr here, (inside_iff m b block stands x).mpr inside⟩
  refine ⟨?_, ?_, ?_, fun m here x inside => ((union x).mp ⟨m, here, inside⟩).2, union, ?_⟩
  · intro m here
    obtain ⟨b, block, stands⟩ := related_left all (List.mem_reverse.mp here)
    obtain ⟨start, stop, bytes⟩ := cover.whole b block
    rw [stands.start, stands.size]
    exact ⟨start, Nat.dvd_sub stop start, by omega⟩
  · rw [List.pairwise_reverse]
    refine related_pairwise all cover.ordered fun m m' b b' block block' stands stands' before => ?_
    have bytes := (cover.whole b' block').2.2
    rw [stands.start, stands'.start, stands'.size]
    omega
  · intro m here
    obtain ⟨b, _, stands⟩ := related_left all (List.mem_reverse.mp here)
    exact stands.identity
  · intro m here
    obtain ⟨b, block, stands⟩ := related_left all (List.mem_reverse.mp here)
    have bytes := (cover.whole b block).2.2
    rw [stands.flags, cover.members b block]
    apply flags_of_parts usable taken stands bytes
    intro x first last
    exact ((pages_iff x).mp ((cover.covered x).mp ⟨b, block, first, last⟩)).2

end Whole

theorem all_accepted (ordered : reserved.start < reserved.stop) (depth : Nat)
    (returned : (getMemRegions reserved (depth + 2) resources regions).1 ≠ some (-1)) :
    (∀ child ∈ resources, accepted reserved child = true) ∧
      (getMemRegions reserved (depth + 2) resources regions).1 =
        some ((getMemRegions reserved (depth + 2) resources regions).2.entries.length : Int) := by
  induction resources generalizing regions with
  | nil => exact ⟨by simp, rfl⟩
  | cons child rest ih =>
    rw [getMemRegions] at returned ⊢
    cases shape : pieces child.name reserved child.region with
    | none =>
      have not_around : ¬ (child.name = "Reserved" ∧ Contains child.region reserved) := by
        rintro ⟨named, contained⟩
        rw [pieces] at shape
        split at shape
        · cases shape
        · rw [if_pos ⟨named, Or.inl ordered⟩] at shape
          cases shape
      rw [refused_at_once shape not_around] at returned
      exact absurd rfl returned
    | some ps =>
      rw [one_stored shape] at returned ⊢
      obtain ⟨others, count⟩ := ih returned
      refine ⟨?_, count⟩
      intro c member
      rcases List.mem_cons.mp member with rfl | member
      · rw [accepted, shape]
        rfl
      · exact others c member

/-- The memory map is exact, and the number of its entries is returned. -/
theorem memory_map_exact {resources : List Resource} {reserved : MemRegion} (usable : Usable resources reserved)
    (depth : Nat) (returned : (getMemRegions reserved (depth + 2) resources .empty).1 ≠ some (-1)) :
    Exact resources reserved (getMemRegions reserved (depth + 2) resources .empty).2.entries.reverse ∧
      (getMemRegions reserved (depth + 2) resources .empty).1 =
        some ((getMemRegions reserved (depth + 2) resources .empty).2.entries.length : Int) := by
  have ordered : reserved.start < reserved.stop := by
    have bytes := usable.reserved_bytes
    rw [BitVec.lt_def, reserved_stop_value usable]
    omega
  obtain ⟨taken, count⟩ := all_accepted ordered depth returned
  refine ⟨?_, count⟩
  rw [regions_stored, done, List.takeWhile_eq_self_iff.mpr taken]
  exact stored_exact usable taken

/-- Two resources on one page, and one around the hypervisor region. -/
theorem three_resources_mapped :
    Exact [⟨0, 0x9fbff, "System RAM"⟩, ⟨0x9fc00, 0x9ffff, "Reserved"⟩, ⟨0x100000, 0x3fffff, "Reserved"⟩]
        ⟨0x200000, 0x100000⟩
        (getMemRegions ⟨0x200000, 0x100000⟩ 2 [⟨0, 0x9fbff, "System RAM"⟩, ⟨0x9fc00, 0x9ffff, "Reserved"⟩,
          ⟨0x100000, 0x3fffff, "Reserved"⟩] .empty).2.entries.reverse ∧
      (getMemRegions ⟨0x200000, 0x100000⟩ 2 [⟨0, 0x9fbff, "System RAM"⟩, ⟨0x9fc00, 0x9ffff, "Reserved"⟩,
        ⟨0x100000, 0x3fffff, "Reserved"⟩] .empty).1 = some 3 :=
  memory_map_exact
    ⟨by decide, by decide, by decide, by decide, by decide, by decide, by decide⟩ 0 (by decide)

end RtosDriverMemoryMap
