import Mathlib.Data.List.TakeWhile

/-!
The memory map that the driver makes for the hypervisor (`get_mem_region_one` and
`get_mem_regions` of `driver/main.c`). Each resource of `iomem_resource` is rounded to pages
and merged with the entry before it when the two overlap; a reserved resource around the
hypervisor region is split in two by recursive calls. The array has one entry for each
resource.
-/
namespace RtosDriverMemRegions
open BitVec List

structure MemRegion where
  start : BitVec 64
  size : BitVec 64
deriving DecidableEq

def MemRegion.stop (region : MemRegion) : BitVec 64 := region.start + region.size

/-- A child of `iomem_resource`; `last` is its inclusive `end`. -/
structure Resource where
  start : BitVec 64
  last : BitVec 64
  name : String

def Resource.region (child : Resource) : MemRegion := ⟨child.start, child.last - child.start + 1⟩

structure JailhouseMemory where
  physStart : BitVec 64
  virtStart : BitVec 64
  size : BitVec 64
  flags : BitVec 64

namespace Flags

def read : BitVec 64 := 0x1
def write : BitVec 64 := 0x2
def execute : BitVec 64 := 0x4
def dma : BitVec 64 := 0x8

end Flags

def memRegionFlag (name : String) : BitVec 64 :=
  if name = "System RAM" ∨ name = "RAM buffer" then Flags.read ||| Flags.write ||| Flags.execute ||| Flags.dma
  else if name = "Reserved" then Flags.read ||| Flags.write ||| Flags.execute
  else Flags.read ||| Flags.write

def roundDown (x : BitVec 64) : BitVec 64 := x &&& ~~~0xfff

def roundUp (x : BitVec 64) : BitVec 64 := ((x - 1) ||| 0xfff) + 1

/-- The array `regions` up to `*num`, the newest entry first. The counters are not in the
    source: the most entries stored at any time, and how often an entry was merged. -/
structure Regions where
  entries : List JailhouseMemory
  high : Nat
  merged : Nat

def Regions.empty : Regions := ⟨[], 0, 0⟩

/-- The part of `get_mem_region_one` that stores an entry for the bytes from `s` to `e`. -/
def Regions.add (regions : Regions) (s e flag : BitVec 64) : Regions :=
  match regions.entries with
  | [] => ⟨[⟨roundDown s, roundDown s, roundUp e - 1 - roundDown s + 1, flag⟩], max regions.high 1, regions.merged⟩
  | last :: before =>
    if roundDown s < last.physStart + last.size - 1 then
      let start := if roundDown s < last.physStart then roundDown s else last.physStart
      let stop := if roundUp e - 1 > last.physStart + last.size - 1 then roundUp e - 1
        else last.physStart + last.size - 1
      ⟨⟨start, start, stop - start + 1, last.flags ||| flag⟩ :: before,
        max regions.high (before.length + 1), regions.merged + 1⟩
    else
      ⟨⟨roundDown s, roundDown s, roundUp e - 1 - roundDown s + 1, flag⟩ :: last :: before,
        max regions.high (before.length + 2), regions.merged⟩

def Contains (outer inner : MemRegion) : Prop := outer.start ≤ inner.start ∧ inner.stop ≤ outer.stop

instance (outer inner : MemRegion) : Decidable (Contains outer inner) := inferInstanceAs (Decidable (_ ∧ _))

/-- The call and what it leaves in the array. The counter is the depth of the recursion that
    is looked at; `none` means that the call has not returned within it. -/
def getMemRegionOne (name : String) (reserved : MemRegion) :
    Nat → MemRegion → Regions → Option Bool × Regions
  | 0, _, regions => (none, regions)
  | depth + 1, region, regions =>
    if region.start = region.stop then (some true, regions)
    else if Contains region reserved then
      if name ≠ "Reserved" then (some false, regions)
      else
        match (if region.start < reserved.start then
            getMemRegionOne name reserved depth ⟨region.start, reserved.start - region.start⟩ regions
          else (some true, regions)) with
        | (some true, regions) =>
          if reserved.stop < region.stop then
            getMemRegionOne name reserved depth ⟨reserved.stop, region.stop - reserved.stop⟩ regions
          else (some true, regions)
        | other => other
    else if ¬ (region.stop ≤ reserved.start ∨ reserved.stop ≤ region.start) then (some false, regions)
    else (some true, regions.add region.start region.stop (memRegionFlag name))

def getMemRegions (reserved : MemRegion) (depth : Nat) : List Resource → Regions → Option Int × Regions
  | [], regions => (some regions.entries.length, regions)
  | child :: rest, regions =>
    match getMemRegionOne child.name reserved depth child.region regions with
    | (some true, regions) => getMemRegions reserved depth rest regions
    | (some false, regions) => (some (-1), regions)
    | (none, regions) => (none, regions)

def getIomemNum (resources : List Resource) : Nat := resources.length

/-! Without the recursion: the pieces of a resource that are stored, or `none` for one that
    is refused or on which the recursion does not end. -/

structure Piece where
  start : BitVec 64
  stop : BitVec 64

def around (reserved region : MemRegion) : List Piece :=
  (if region.start < reserved.start then [⟨region.start, reserved.start⟩] else []) ++
    if reserved.stop < region.stop then [⟨reserved.stop, region.stop⟩] else []

def pieces (name : String) (reserved region : MemRegion) : Option (List Piece) :=
  if region.start = region.stop then some []
  else if Contains region reserved then
    if name = "Reserved" ∧
        (reserved.start < reserved.stop ∨ region.start = reserved.start ∧ region.stop = reserved.stop) then
      some (around reserved region)
    else none
  else if region.stop ≤ reserved.start ∨ reserved.stop ≤ region.start then some [⟨region.start, region.stop⟩]
  else none

def Regions.addAll (regions : Regions) (name : String) (ps : List Piece) : Regions :=
  ps.foldl (fun regions p => regions.add p.start p.stop (memRegionFlag name)) regions

theorem stop_of_difference (a b : BitVec 64) : (MemRegion.mk a (b - a)).stop = b := by
  simp only [MemRegion.stop]
  grind

theorem one_beside (some_bytes : a < b) (ordered : reserved.start < reserved.stop)
    (outside : b ≤ reserved.start ∨ reserved.stop ≤ a) :
    getMemRegionOne name reserved (depth + 1) ⟨a, b - a⟩ regions =
      (some true, regions.add a b (memRegionFlag name)) := by
  have stop := stop_of_difference a b
  have not_around : ¬ Contains ⟨a, b - a⟩ reserved := by
    rintro ⟨before, behind⟩
    rw [stop] at behind
    have before : a ≤ reserved.start := before
    rw [le_def] at before behind
    rw [lt_def] at ordered
    simp only [le_def] at outside
    omega
  have differ : a ≠ b := fun same => BitVec.lt_irrefl b (same ▸ some_bytes)
  rw [getMemRegionOne, stop, if_neg differ, if_neg not_around, if_neg (not_not_intro outside)]

theorem around_stored (ordered : reserved.start < reserved.stop) (some_bytes : region.start ≠ region.stop)
    (contained : Contains region reserved) (named : name = "Reserved") :
    getMemRegionOne name reserved (depth + 2) region regions =
      (some true, regions.addAll name (around reserved region)) := by
  rw [getMemRegionOne, if_neg some_bytes, if_pos contained, if_neg (not_not_intro named)]
  by_cases left : region.start < reserved.start <;> by_cases right : reserved.stop < region.stop
  · simp only [left, right, if_true, one_beside left ordered (Or.inl (BitVec.le_refl _)),
      one_beside right ordered (Or.inr (BitVec.le_refl _))]
    simp [Regions.addAll, around, left, right]
  · simp only [left, right, if_true, if_false, one_beside left ordered (Or.inl (BitVec.le_refl _))]
    simp [Regions.addAll, around, left, right]
  · simp only [left, right, if_true, if_false, one_beside right ordered (Or.inr (BitVec.le_refl _))]
    simp [Regions.addAll, around, left, right]
  · simp [Regions.addAll, around, left, right]

/-- Around a hypervisor region whose end is not behind its start, a call gives one of the
    two calls in it such a range again. -/
theorem never_ends (wrapped : reserved.stop ≤ reserved.start) (named : name = "Reserved") (depth : Nat)
    (some_bytes : region.start ≠ region.stop) (contained : Contains region reserved)
    (differs : ¬ (region.start = reserved.start ∧ region.stop = reserved.stop)) :
    getMemRegionOne name reserved depth region regions = (none, regions) := by
  induction depth generalizing region with
  | zero => rfl
  | succ depth ih =>
    rw [getMemRegionOne, if_neg some_bytes, if_pos contained, if_neg (not_not_intro named)]
    by_cases left : region.start < reserved.start
    · have stop := stop_of_difference region.start reserved.start
      have distinct : region.start ≠ reserved.start := fun same => BitVec.lt_irrefl _ (same ▸ left)
      rw [if_pos left, ih]
      · rw [stop]
        exact distinct
      · exact ⟨contained.1, by rw [stop]; exact wrapped⟩
      · exact fun same => distinct same.1
    · have at_start : region.start = reserved.start := BitVec.le_antisymm contained.1 (BitVec.not_lt.mp left)
      have distinct : reserved.stop ≠ region.stop := fun same => differs ⟨at_start, same.symm⟩
      have right : reserved.stop < region.stop := by
        have behind := contained.2
        rw [lt_def]
        rw [le_def] at behind
        exact Nat.lt_of_le_of_ne behind fun same => distinct (eq_of_toNat_eq same)
      have stop := stop_of_difference reserved.stop region.stop
      rw [if_neg left]
      simp only [if_pos right]
      apply ih
      · rw [stop]
        exact distinct
      · exact ⟨wrapped, by rw [stop]; exact contained.2⟩
      · rw [stop]
        exact fun same => distinct same.2.symm

theorem one_stored (shape : pieces name reserved region = some ps) :
    getMemRegionOne name reserved (depth + 2) region regions = (some true, regions.addAll name ps) := by
  rw [pieces] at shape
  split at shape
  · rename_i no_bytes
    cases shape
    rw [getMemRegionOne, if_pos no_bytes]
    rfl
  rename_i some_bytes
  split at shape
  · rename_i contained
    split at shape
    · rename_i accepted
      cases shape
      obtain ⟨named, ordered | ⟨same_start, same_stop⟩⟩ := accepted
      · exact around_stored ordered some_bytes contained named
      have left : ¬ region.start < reserved.start := by rw [same_start]; exact BitVec.lt_irrefl _
      have right : ¬ reserved.stop < region.stop := by rw [same_stop]; exact BitVec.lt_irrefl _
      rw [getMemRegionOne, if_neg some_bytes, if_pos contained, if_neg (not_not_intro named), if_neg left]
      simp [Regions.addAll, around, left, right]
    · cases shape
  · rename_i apart
    split at shape
    · rename_i outside
      cases shape
      rw [getMemRegionOne, if_neg some_bytes, if_neg apart, if_neg (not_not_intro outside)]
      rfl
    · cases shape

theorem refused_at_once (shape : pieces name reserved region = none)
    (not_around : ¬ (name = "Reserved" ∧ Contains region reserved)) :
    getMemRegionOne name reserved (depth + 1) region regions = (some false, regions) := by
  rw [pieces] at shape
  split at shape
  · cases shape
  rename_i some_bytes
  split at shape
  · rename_i contained
    have not_named : name ≠ "Reserved" := fun named => not_around ⟨named, contained⟩
    rw [getMemRegionOne, if_neg some_bytes, if_pos contained, if_pos not_named]
  rename_i apart
  split at shape
  · cases shape
  rename_i overlap
  rw [getMemRegionOne, if_neg some_bytes, if_neg apart, if_pos overlap]

theorem one_refused (shape : pieces name reserved region = none) :
    (getMemRegionOne name reserved depth region regions).2 = regions ∧
      (getMemRegionOne name reserved depth region regions).1 ≠ some true := by
  cases depth with
  | zero => exact ⟨rfl, by simp [getMemRegionOne]⟩
  | succ depth =>
    by_cases endless : name = "Reserved" ∧ Contains region reserved
    · obtain ⟨named, contained⟩ := endless
      rw [pieces] at shape
      split at shape
      · cases shape
      rename_i some_bytes
      split at shape
      · cases shape
      rename_i refused
      have wrapped : reserved.stop ≤ reserved.start :=
        BitVec.not_lt.mp fun ordered => refused ⟨named, Or.inl ordered⟩
      rw [never_ends wrapped named _ some_bytes contained fun same => refused ⟨named, Or.inr same⟩]
      simp
    · rw [refused_at_once shape endless]
      simp

/-! How many entries there are. -/

def accepted (reserved : MemRegion) (child : Resource) : Bool :=
  (pieces child.name reserved child.region).isSome

def done (reserved : MemRegion) (resources : List Resource) : List Resource :=
  resources.takeWhile (accepted reserved)

def addResource (reserved : MemRegion) (regions : Regions) (child : Resource) : Regions :=
  regions.addAll child.name ((pieces child.name reserved child.region).getD [])

theorem regions_stored (reserved : MemRegion) (depth : Nat) (resources : List Resource) (regions : Regions) :
    (getMemRegions reserved (depth + 2) resources regions).2 =
      (done reserved resources).foldl (addResource reserved) regions := by
  induction resources generalizing regions with
  | nil => rfl
  | cons child rest ih =>
    rw [getMemRegions, done, takeWhile_cons]
    cases shape : pieces child.name reserved child.region with
    | none =>
      have stops : accepted reserved child = false := by rw [accepted, shape]; rfl
      rw [stops]
      generalize result_eq : getMemRegionOne child.name reserved (depth + 2) child.region regions = result
      obtain ⟨same, fails⟩ := result_eq ▸ one_refused shape
      obtain ⟨answer, left⟩ := result
      cases same
      match answer with
      | none => rfl
      | some false => rfl
      | some true => exact absurd rfl fails
    | some ps =>
      have goes_on : accepted reserved child = true := by rw [accepted, shape]; rfl
      rw [one_stored shape, goes_on]
      simp only [if_true, foldl_cons]
      rw [ih, addResource, shape]
      rfl

def Split (reserved : MemRegion) (child : Resource) : Prop :=
  child.region.start < reserved.start ∧ reserved.stop < child.region.stop ∧ child.region.start ≠ child.region.stop

def Skipped (reserved : MemRegion) (child : Resource) : Prop :=
  child.region.start = child.region.stop ∨
    child.region.start = reserved.start ∧ child.region.stop = reserved.stop

instance (reserved : MemRegion) (child : Resource) : Decidable (Split reserved child) :=
  inferInstanceAs (Decidable (_ ∧ _))

instance (reserved : MemRegion) (child : Resource) : Decidable (Skipped reserved child) :=
  inferInstanceAs (Decidable (_ ∨ _))

/-- After `total` pieces: the array never shrinks, and a piece has its own entry or is merged. -/
structure Counted (regions : Regions) (total : Nat) : Prop where
  high : regions.high = regions.entries.length
  entries : regions.entries.length + regions.merged = total

theorem add_counted (counted : Counted regions total) (s e flag : BitVec 64) :
    Counted (regions.add s e flag) (total + 1) := by
  obtain ⟨high, entries⟩ := counted
  unfold Regions.add
  split
  · rename_i none_stored
    simp only [none_stored, length_nil] at high entries
    constructor <;> simp <;> omega
  rename_i last before stored
  simp only [stored, length_cons] at high entries
  split <;> constructor <;> simp <;> omega

theorem add_all_counted (counted : Counted regions total) (name : String) (ps : List Piece) :
    Counted (regions.addAll name ps) (total + ps.length) := by
  induction ps generalizing regions total with
  | nil => exact counted
  | cons p rest ih =>
    have next := ih (add_counted counted p.start p.stop (memRegionFlag name))
    rw [length_cons, show total + (rest.length + 1) = total + 1 + rest.length by omega]
    exact next

theorem piece_count (shape : pieces child.name reserved child.region = some ps) :
    ps.length + (if Skipped reserved child then 1 else 0) = 1 + if Split reserved child then 1 else 0 := by
  rw [pieces] at shape
  split at shape
  · rename_i no_bytes
    cases shape
    have skipped : Skipped reserved child := Or.inl no_bytes
    have whole : ¬ Split reserved child := fun split => split.2.2 no_bytes
    rw [if_pos skipped, if_neg whole]
    rfl
  rename_i some_bytes
  split at shape
  · rename_i contained
    split at shape
    · cases shape
      have start_eq : child.region.start = reserved.start ↔ ¬ child.region.start < reserved.start := by
        constructor
        · intro same
          rw [same]
          exact BitVec.lt_irrefl _
        · intro not_below
          exact BitVec.le_antisymm contained.1 (BitVec.not_lt.mp not_below)
      have stop_eq : child.region.stop = reserved.stop ↔ ¬ reserved.stop < child.region.stop := by
        constructor
        · intro same
          rw [same]
          exact BitVec.lt_irrefl _
        · intro not_behind
          exact BitVec.le_antisymm (BitVec.not_lt.mp not_behind) contained.2
      simp only [Skipped, Split, some_bytes, start_eq, stop_eq, around, false_or, ne_eq, not_false_eq_true, and_true]
      by_cases left : child.region.start < reserved.start <;>
        by_cases right : reserved.stop < child.region.stop <;> simp [left, right]
    · cases shape
  · rename_i apart
    split at shape
    · cases shape
      have kept : ¬ Skipped reserved child := by
        rintro (no_bytes | ⟨same_start, same_stop⟩)
        · exact some_bytes no_bytes
        · exact apart ⟨by rw [same_start]; exact BitVec.le_refl _, by rw [same_stop]; exact BitVec.le_refl _⟩
      have whole : ¬ Split reserved child :=
        fun split => apart ⟨BitVec.le_of_lt split.1, BitVec.le_of_lt split.2.1⟩
      rw [if_neg kept, if_neg whole]
      rfl
    · cases shape

theorem done_counted (reserved : MemRegion) {resources : List Resource}
    (all : ∀ child ∈ resources, accepted reserved child = true) (counted : Counted regions total) :
    ∃ later, Counted (resources.foldl (addResource reserved) regions) later ∧
      later + resources.countP (Skipped reserved ·) =
        total + resources.length + resources.countP (Split reserved ·) := by
  induction resources generalizing regions total with
  | nil => exact ⟨total, counted, rfl⟩
  | cons child rest ih =>
    obtain ⟨ps, shape⟩ := Option.isSome_iff_exists.mp (all child (.head _))
    have first : Counted (addResource reserved regions child) (total + ps.length) := by
      rw [addResource, shape]
      exact add_all_counted counted child.name ps
    obtain ⟨later, counted', balance⟩ := ih (fun c member => all c (.tail _ member)) first
    have here := piece_count shape
    refine ⟨later, counted', ?_⟩
    simp only [countP_cons, decide_eq_true_eq, length_cons]
    omega

theorem done_accepted (member : child ∈ done reserved resources) : accepted reserved child = true :=
  mem_takeWhile_imp member

end RtosDriverMemRegions
