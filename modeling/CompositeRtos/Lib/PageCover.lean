import Mathlib.Data.List.Basic

/-!
The cover by whole pages of ranges that come in ascending order. A range is rounded outwards
to pages. When its first page belongs to the newest block already, the block grows to its
last page; otherwise it begins a block. The blocks are then disjoint and in order, they hold
exactly the pages that some range touches, and each block has been made from the ranges that
share an address with it.
-/
namespace RtosPageCover

variable {α : Type}

structure Range (α : Type) where
  start : Nat
  stop : Nat
  tag : α

structure Block (α : Type) where
  start : Nat
  stop : Nat
  members : List (Range α)

def down (unit x : Nat) : Nat := x / unit * unit

def up (unit x : Nat) : Nat := (x + unit - 1) / unit * unit

def grow (unit : Nat) : List (Block α) → Range α → List (Block α)
  | [], r => [⟨down unit r.start, up unit r.stop, [r]⟩]
  | newest :: older, r =>
    if down unit r.start < newest.stop then ⟨newest.start, up unit r.stop, newest.members ++ [r]⟩ :: older
    else ⟨down unit r.start, up unit r.stop, [r]⟩ :: newest :: older

def Touches (b : Block α) (r : Range α) : Prop := r.start < b.stop ∧ b.start < r.stop

instance (b : Block α) (r : Range α) : Decidable (Touches b r) := inferInstanceAs (Decidable (_ ∧ _))

/-- The state of the sweep: all ranges so far end at `limit` or before it. -/
structure Cover (unit limit : Nat) (ranges : List (Range α)) (blocks : List (Block α)) : Prop where
  bounded : ∀ r ∈ ranges, r.start < r.stop ∧ r.stop ≤ limit
  whole : ∀ b ∈ blocks, unit ∣ b.start ∧ unit ∣ b.stop ∧ b.start < b.stop
  ordered : blocks.Pairwise fun newer older => older.stop ≤ newer.start
  newest : ∀ b older, blocks = b :: older → b.stop = up unit limit ∧ b.start < limit
  covered : ∀ x, (∃ b ∈ blocks, b.start ≤ x ∧ x < b.stop) ↔
    ∃ r ∈ ranges, down unit r.start ≤ x ∧ x < up unit r.stop
  members : ∀ b ∈ blocks, b.members = ranges.filter (Touches b)

variable {unit : Nat} (positive : 0 < unit)

section Rounding

theorem down_dvd (unit x : Nat) : unit ∣ down unit x := Nat.dvd_mul_left unit _

theorem up_dvd (x : Nat) : unit ∣ up unit x := Nat.dvd_mul_left unit _

theorem down_le (unit x : Nat) : down unit x ≤ x := Nat.div_mul_le_self x unit

variable (x : Nat)

include positive

theorem lt_down : x < down unit x + unit := by
  have := Nat.lt_div_mul_add (a := x) positive
  unfold down
  omega

theorem le_up : x ≤ up unit x := by
  have := Nat.lt_div_mul_add (a := x + unit - 1) positive
  unfold up
  omega

omit positive in
theorem up_lt (unit : Nat) {x : Nat} (some_bytes : 0 < x) : up unit x ≤ x - 1 + unit := by
  have := Nat.div_mul_le_self (x + unit - 1) unit
  unfold up
  omega

omit positive in
theorem up_mono {x y : Nat} (order : x ≤ y) : up unit x ≤ up unit y :=
  Nat.mul_le_mul_right unit (Nat.div_le_div_right (by omega))

theorem down_of_aligned {a x : Nat} (aligned : unit ∣ a) (below : a ≤ x) : a ≤ down unit x := by
  obtain ⟨k, rfl⟩ := aligned
  rw [down, Nat.mul_comm]
  exact Nat.mul_le_mul_right unit ((Nat.le_div_iff_mul_le positive).mpr (by rw [Nat.mul_comm]; exact below))

theorem page_touched {r : Range α} (some_bytes : r.start < r.stop) (x : Nat) :
    down unit r.start ≤ x ∧ x < up unit r.stop ↔ ∃ y, y / unit = x / unit ∧ r.start ≤ y ∧ y < r.stop := by
  have start_lt := lt_down positive r.start
  have stop_lt := up_lt unit (show 0 < r.stop by omega)
  constructor
  · rintro ⟨first, last⟩
    have page_start := down_of_aligned positive (down_dvd unit r.start) first
    rcases Nat.lt_or_ge x r.start with before | from_start
    · refine ⟨r.start, Nat.le_antisymm ?_ (Nat.div_le_div_right (by omega)), Nat.le_refl _, some_bytes⟩
      exact Nat.le_of_mul_le_mul_right page_start positive
    rcases Nat.lt_or_ge x r.stop with inside | behind
    · exact ⟨x, rfl, from_start, inside⟩
    refine ⟨r.stop - 1, Nat.le_antisymm (Nat.div_le_div_right (by omega)) ?_, by omega, by omega⟩
    -- otherwise a page boundary lies between the end of the range and the address
    by_contra earlier
    have boundary : down unit (r.stop - 1) + unit ≤ x := by
      have pages : (r.stop - 1) / unit + 1 ≤ x / unit := by omega
      have scaled := Nat.mul_le_mul_right unit pages
      have := Nat.div_mul_le_self x unit
      rw [Nat.add_mul, Nat.one_mul] at scaled
      unfold down
      omega
    have last_page : up unit r.stop = down unit (r.stop - 1) + unit := by
      rw [up, down, show r.stop + unit - 1 = r.stop - 1 + unit by omega, Nat.add_div_right _ positive,
        Nat.add_mul, Nat.one_mul]
    omega
  · rintro ⟨y, same, from_start, before_stop⟩
    have page : down unit y = down unit x := by rw [down, down, same]
    have x_low := down_le unit x
    have x_high := lt_down positive x
    have y_low := down_le unit y
    have first : down unit r.start ≤ down unit y := Nat.mul_le_mul_right unit (Nat.div_le_div_right from_start)
    refine ⟨by omega, ?_⟩
    obtain ⟨k, shape⟩ := up_dvd r.stop
    have stop_ge := le_up positive r.stop
    have next_page : down unit y + unit ≤ up unit r.stop := by
      have : y / unit < k := (Nat.div_lt_iff_lt_mul positive).mpr (by rw [Nat.mul_comm, ← shape]; omega)
      have scaled := Nat.mul_le_mul_right unit (show y / unit + 1 ≤ k by omega)
      rw [Nat.add_mul, Nat.one_mul, Nat.mul_comm k, ← shape] at scaled
      exact scaled
    omega

end Rounding

theorem empty_cover : Cover unit limit ([] : List (Range α)) [] :=
  ⟨by simp, by simp, List.Pairwise.nil, by simp, by simp, by simp⟩

section Step

variable {limit : Nat} {ranges : List (Range α)} {blocks : List (Block α)} {r : Range α}
  (cover : Cover unit limit ranges blocks) (after : limit ≤ r.start) (some_bytes : r.start < r.stop)

include cover after some_bytes

omit positive in
theorem later_bounded : ∀ q ∈ ranges ++ [r], q.start < q.stop ∧ q.stop ≤ r.stop := by
  intro q member
  rcases List.mem_append.mp member with old | new
  · obtain ⟨bytes, bound⟩ := cover.bounded q old
    exact ⟨bytes, by omega⟩
  · rw [List.mem_singleton.mp new]
    exact ⟨some_bytes, Nat.le_refl _⟩

include positive

theorem behind_newest {b : Block α} {older : List (Block α)} (shape : blocks = b :: older) :
    b.start ≤ down unit r.start ∧ b.stop ≤ up unit r.stop := by
  obtain ⟨stop, start⟩ := cover.newest b older shape
  have whole := (cover.whole b (by simp [shape])).1
  refine ⟨down_of_aligned positive whole (by omega), ?_⟩
  rw [stop]
  exact up_mono (by omega)

omit positive after some_bytes in
theorem members_before (here : b ∈ blocks) (before : b.stop ≤ r.start) :
    b.members = (ranges ++ [r]).filter (Touches b) := by
  have away : ¬ Touches b r := fun touch => by
    have := touch.1
    omega
  rw [List.filter_append, ← cover.members b here]
  simp [away]

theorem push_cover (apart : ∀ b ∈ blocks, b.stop ≤ down unit r.start) :
    Cover unit r.stop (ranges ++ [r]) (⟨down unit r.start, up unit r.stop, [r]⟩ :: blocks) := by
  have start_le := down_le unit r.start
  have stop_ge := le_up positive r.stop
  refine ⟨later_bounded cover after some_bytes, ?_, ?_, ?_, ?_, ?_⟩
  · intro b member
    rcases List.mem_cons.mp member with rfl | old
    · exact ⟨down_dvd unit _, up_dvd _, show down unit r.start < up unit r.stop by omega⟩
    · exact cover.whole b old
  · exact List.pairwise_cons.mpr ⟨apart, cover.ordered⟩
  · rintro b older shape
    cases shape
    exact ⟨rfl, show down unit r.start < r.stop by omega⟩
  · intro x
    simp only [List.mem_cons, List.mem_append, List.not_mem_nil, or_false, or_and_right, exists_or, exists_eq_left]
    rw [cover.covered x]
    exact Or.comm
  · intro b member
    rcases List.mem_cons.mp member with rfl | old
    · have none_touch : ranges.filter (Touches ⟨down unit r.start, up unit r.stop, [r]⟩) = [] := by
        rw [List.filter_eq_nil_iff]
        intro q old
        have bounds := cover.bounded q old
        -- the pages of an earlier range lie in the blocks
        obtain ⟨b, here, _, inside⟩ := (cover.covered (q.stop - 1)).mpr ⟨q, old, by
          have := down_le unit q.start
          omega, by
          have := le_up positive q.stop
          omega⟩
        have := apart b here
        rw [decide_eq_true_eq]
        rintro ⟨_, late⟩
        change down unit r.start < q.stop at late
        omega
      have touches : Touches ⟨down unit r.start, up unit r.stop, [r]⟩ r :=
        ⟨show r.start < up unit r.stop by omega, show down unit r.start < r.stop by omega⟩
      rw [List.filter_append, none_touch]
      simp [touches]
    · have := apart b old
      exact members_before cover old (by omega)

omit positive cover after some_bytes in
theorem joined_iff (order : start ≤ middle) (meet : middle < stop) (ends : stop ≤ last) (x : Nat) :
    start ≤ x ∧ x < last ↔ (start ≤ x ∧ x < stop) ∨ middle ≤ x ∧ x < last := by
  constructor
  · rintro ⟨from_start, before_last⟩
    by_cases first : x < stop
    · exact Or.inl ⟨from_start, first⟩
    · exact Or.inr ⟨by omega, before_last⟩
  rintro (⟨from_start, _⟩ | ⟨from_middle, before_last⟩)
  · exact ⟨from_start, by omega⟩
  · exact ⟨by omega, before_last⟩

omit positive after some_bytes in
theorem grown_members (here : b ∈ blocks) (starts : b.start < r.stop) (covers : r.start < last)
    (ends : limit ≤ b.stop) (grows : b.stop ≤ last) :
    b.members ++ [r] = (ranges ++ [r]).filter (Touches ⟨b.start, last, b.members ++ [r]⟩) := by
  have touches : Touches ⟨b.start, last, b.members ++ [r]⟩ r := ⟨covers, starts⟩
  have same : ranges.filter (Touches ⟨b.start, last, b.members ++ [r]⟩) = ranges.filter (Touches b) := by
    apply List.filter_congr
    intro q member
    have bounds := cover.bounded q member
    rw [decide_eq_decide]
    change q.start < last ∧ b.start < q.stop ↔ q.start < b.stop ∧ b.start < q.stop
    omega
  rw [List.filter_append, same, ← cover.members b here]
  simp [touches]

theorem merge_cover (shape : blocks = b :: older) (overlap : down unit r.start < b.stop) :
    Cover unit r.stop (ranges ++ [r]) (⟨b.start, up unit r.stop, b.members ++ [r]⟩ :: older) := by
  obtain ⟨start, stop⟩ := behind_newest positive cover after some_bytes shape
  have here : b ∈ blocks := by simp [shape]
  have whole := cover.whole b here
  obtain ⟨old_stop, old_start⟩ := cover.newest b older shape
  have start_le := down_le unit r.start
  have stop_ge := le_up positive r.stop
  have limit_le := le_up positive limit
  have ordered := cover.ordered
  rw [shape, List.pairwise_cons] at ordered
  refine ⟨later_bounded cover after some_bytes, ?_, ?_, ?_, ?_, ?_⟩
  · intro b' member
    rcases List.mem_cons.mp member with rfl | old
    · exact ⟨whole.1, up_dvd _, show b.start < up unit r.stop by omega⟩
    · exact cover.whole b' (by simp [shape, old])
  · exact List.pairwise_cons.mpr ⟨ordered.1, ordered.2⟩
  · rintro b' older' same
    cases same
    exact ⟨rfl, show b.start < r.stop by omega⟩
  · intro x
    have before := cover.covered x
    simp only [shape, List.mem_cons, or_and_right, exists_or, exists_eq_left] at before
    simp only [List.mem_cons, List.mem_append, List.not_mem_nil, or_false, or_and_right, exists_or, exists_eq_left,
      ← before]
    rw [joined_iff start overlap stop]
    constructor
    · rintro ((old | new) | behind)
      · exact Or.inl (Or.inl old)
      · exact Or.inr new
      · exact Or.inl (Or.inr behind)
    rintro ((old | behind) | new)
    · exact Or.inl (Or.inl old)
    · exact Or.inr behind
    · exact Or.inl (Or.inr new)
  · intro b' member
    rcases List.mem_cons.mp member with rfl | old
    · exact grown_members cover here (by omega) (by omega) (by omega) stop
    · have before := ordered.1 b' old
      exact members_before cover (by simp [shape, old]) (by omega)

theorem grow_cover : Cover unit r.stop (ranges ++ [r]) (grow unit blocks r) := by
  cases shape : blocks with
  | nil =>
    rw [grow, ← shape]
    apply push_cover positive cover after some_bytes
    simp [shape]
  | cons newest older =>
    rw [grow]
    split
    · rename_i overlap
      exact merge_cover positive cover after some_bytes shape overlap
    rename_i apart
    rw [← shape]
    apply push_cover positive cover after some_bytes
    have ordered := cover.ordered
    rw [shape, List.pairwise_cons] at ordered
    intro b member
    rw [shape] at member
    rcases List.mem_cons.mp member with rfl | old
    · omega
    have before := ordered.1 b old
    have start := (behind_newest positive cover after some_bytes shape).1
    omega

end Step

end RtosPageCover
