import CompositeRtos.Nimbos.AddressSpace

/-!
Map areas inside an address space. An area holds one frame for each page address in its map;
`frameAt` reads the map and `dataOf` collects the frames. Mapping an area enters its pages one
by one and takes the frames that are missing, unmapping gives them back, and copying an area
takes a frame for each frame of the original.
-/
namespace RtosNimbosAreas
open RtosTransition RtosLedger RtosFrameMemory RtosOrderedMap RtosNimbosFrames Function
open RtosNimbosPageTable RtosNimbosPageTree RtosNimbosPaging RtosNimbosMemorySet RtosNimbosLoadUser
open RtosNimbosFrameLedger RtosNimbosAddressSpace
open RtosNimbosLoadStage (SameArea same_area_trans)
open List

def frameAt (area : MapArea) (va : Nat) : Option Nat :=
  match area.mapper with
  | .offset _ => none
  | .framed frames => frames.lookup va

def dataOf (area : MapArea) : Multiset Nat :=
  match area.mapper with
  | .offset _ => 0
  | .framed frames => ↑(frames.entries.map Prod.snd)

def IsFramed (area : MapArea) : Prop := ∃ frames, area.mapper = .framed frames

theorem frame_held (found : frameAt area va = some f) : f ∈ dataOf area := by
  unfold frameAt at found
  unfold dataOf
  split at found
  · cases found
  · exact List.mem_map.mpr ⟨_, OrderedMap.lookup_some found, rfl⟩

theorem data_of_insert {frames : OrderedMap Nat Nat} (f : Nat) (absent : frames.lookup va = none) :
    (↑((frames.insert va f).entries.map Prod.snd) : Multiset Nat) = f ::ₘ ↑(frames.entries.map Prod.snd) :=
  Multiset.coe_eq_coe.mpr ((OrderedMap.insert_perm absent).map Prod.snd)

theorem data_of_erase {frames : OrderedMap Nat Nat} (found : frames.lookup va = some f) :
    (↑(frames.entries.map Prod.snd) : Multiset Nat) = f ::ₘ ↑((frames.erase va).entries.map Prod.snd) :=
  Multiset.coe_eq_coe.mpr ((OrderedMap.erase_perm found).map Prod.snd)

variable {kernel : PageTable} {kroot root : Nat} {ram : Ram} {pt : PageTable} {pages : UserPages}
  {area : MapArea} {rest : Multiset Nat}

section

variable (space : Space kernel kroot ram root pt pages (dataOf area + rest))
include space

theorem space_area_tables : Holds (pool ram) (dataOf area + ↑pt.intrmTables) := by
  have owns := space_data_first space
  rw [add_assoc, ← add_assoc] at owns
  exact holds_part owns

theorem data_small (member : f ∈ dataOf area) : f < 2 ^ 27 :=
  Ram.issued_small ((holds_part (space_area_tables space)).issued f member)

structure FrameReady (kernel : PageTable) (kroot root : Nat) (ram : Ram) (pt : PageTable)
    (pages : UserPages) (area : MapArea) (rest : Multiset Nat) (va f : Nat) (area' : MapArea) (ram' : Ram) :
    Prop where
  same : SameArea area area'
  framed : IsFramed area'
  here : frameAt area' va = some f
  grows : ∀ x g, frameAt area x = some g → frameAt area' x = some g
  space : Space kernel kroot ram' root pt pages (dataOf area' + rest)
  effect : Effect ram (dataOf area) ram' (dataOf area')
  growth : Growth ram pt.intrmTables ram' pt.intrmTables
  room : ram.availableSpace ≤ ram'.availableSpace + 1

theorem area_map_spec
    (framed : IsFramed area) (aligned : isAligned va) :
    Ends (fun e => e = .outOfFrames ∧ ram.availableSpace = 0)
      (fun result => ∃ f, result.1 = startPaddr f ∧
        FrameReady kernel kroot root ram pt pages area rest va.toNat f result.2.1 result.2.2)
      (area.map ram va) := by
  obtain ⟨frames, shape⟩ := framed
  have data : dataOf area = ↑(frames.entries.map Prod.snd) := by simp only [dataOf, shape]
  have frame_at : ∀ x, frameAt area x = frames.lookup x := fun x => by simp only [frameAt, shape]
  simp only [MapArea.map, aligned, shape]
  cases found : frames.lookup va.toNat with
  | some f =>
    refine ⟨f, rfl, ⟨rfl, rfl, rfl⟩, ⟨frames, shape⟩, ?_, fun _ _ h => h, space, ?_, growth_refl, Nat.le_succ _⟩
    · rw [frame_at, found]
    · exact effect_refl (holds_part (space_area_tables space))
  | none =>
    cases made : ram.allocZero with
    | none => exact ⟨rfl, Ram.alloc_zero_none made⟩
    | some result =>
      obtain ⟨f, ram'⟩ := result
      have sane := space_sane space
      have taken := effect_alloc_zero (holds_zero (pool ram)) sane made
      have data' := data_of_insert f found
      have step : Effect ram (dataOf area) ram' (f ::ₘ dataOf area) :=
        effect_alloc_zero (holds_part (space_area_tables space)) sane made
      have looks : ∀ x, (frames.insert va.toNat f).lookup x = if x = va.toNat then some f else frames.lookup x :=
        OrderedMap.lookup_insert frames va.toNat f
      refine ⟨f, rfl, ⟨rfl, rfl, rfl⟩, ⟨_, rfl⟩, ?_, ?_, ?_, ?_, growth_of_take taken _, ?_⟩
      · simp only [frameAt, looks, if_true]
      · intro x g old
        rw [frame_at] at old
        have other : x ≠ va.toNat := by
          rintro rfl
          rw [found] at old
          cases old
        simp only [frameAt, looks, if_neg other, old]
      · simp only [dataOf]
        rw [data', ← data]
        exact space_data space step
      · simp only [dataOf]
        rw [data', ← data]
        exact step
      · exact (Ram.alloc_zero_some made).2.2.2

end

def overlay (pages : UserPages) (area : MapArea) (lo hi : Nat) : UserPages := fun n =>
  if lo ≤ 4096 * n ∧ 4096 * n < hi then (frameAt area (4096 * n)).map fun f => (f, area.flags) else pages n

theorem overlay_empty (empty : hi ≤ lo) : overlay pages area lo hi = pages := by
  funext n
  rw [overlay, if_neg (by omega)]

theorem overlay_first (aligned : 4096 ∣ lo) (below : lo < hi) (here : frameAt area lo = some f) :
    overlay (update pages (lo / 4096) (some (f, area.flags))) area (lo + 4096) hi =
      overlay pages area lo hi := by
  funext n
  simp only [overlay]
  by_cases first : n = lo / 4096
  · have start : 4096 * n = lo := by omega
    rw [if_neg (by omega), if_pos (by omega), start, here, first]
    simp only [update_self, Option.map_some]
  by_cases inside : lo ≤ 4096 * n ∧ 4096 * n < hi
  · rw [if_pos (by omega), if_pos inside]
  · rw [if_neg (by omega), if_neg inside]
    simp only [update_of_ne first]

def pageCount (lo hi : BitVec 64) : Nat := (hi.toNat - lo.toNat + 4095) / 4096

inductive MapFailure (ram : Ram) (pages : UserPages) (lo hi : BitVec 64) : Panic → Prop where
  | full (short_of : ram.availableSpace < 4 * pageCount lo hi) : MapFailure ram pages lo hi .outOfFrames
  | invalid (va : VirtAddr) (inside : Between lo hi va) (bad : ¬ Canonical va) :
      MapFailure ram pages lo hi .invalidVa
  | taken (va : VirtAddr) (inside : Between lo hi va) (used : pages (pageOf va) ≠ none) :
      MapFailure ram pages lo hi .mappedBefore

structure AreaMapped (kernel : PageTable) (kroot root : Nat) (ram : Ram) (pt : PageTable)
    (pages : UserPages) (area : MapArea) (rest : Multiset Nat) (lo hi : BitVec 64) (pt' : PageTable)
    (area' : MapArea) (ram' : Ram) : Prop where
  same : SameArea area area'
  framed : IsFramed area'
  grows : ∀ x f, frameAt area x = some f → frameAt area' x = some f
  filled : ∀ va, Between lo hi va → UserAddr va ∧ pages (pageOf va) = none ∧ frameAt area' va.toNat ≠ none
  space : Space kernel kroot ram' root pt' (overlay pages area' lo.toNat hi.toNat) (dataOf area' + rest)
  effect : Effect ram (dataOf area + ↑pt.intrmTables) ram' (dataOf area' + ↑pt'.intrmTables)
  growth : Growth ram pt.intrmTables ram' pt'.intrmTables
  room : ram.availableSpace ≤ ram'.availableSpace + 4 * pageCount lo hi

theorem virt_addr_new_error (h : VirtAddr.new va = .error e) : e = .invalidVa ∧ ¬ Canonical va := by
  unfold VirtAddr.new at h
  split at h
  · rename_i top
    cases h
    refine ⟨rfl, ?_⟩
    unfold Canonical
    tauto
  · cases h

theorem page_count_next (below : lo.toNat < hi.toNat) (next : (lo + 4096).toNat = lo.toNat + 4096)
    (aligned : 2 ^ 12 ∣ lo.toNat) (hi_aligned : 2 ^ 12 ∣ hi.toNat) :
    pageCount lo hi = pageCount (lo + 4096) hi + 1 := by
  unfold pageCount
  omega

theorem later_page (next : (lo + 4096).toNat = lo.toNat + 4096) (inside : Between (lo + 4096) hi va) :
    pageOf va ≠ pageOf lo := by
  unfold Between at inside
  unfold pageOf
  omega

theorem map_failure_next (below : lo.toNat < hi.toNat) (aligned : 2 ^ 12 ∣ lo.toNat)
    (hi_aligned : 2 ^ 12 ∣ hi.toNat) (room : ram.availableSpace ≤ ram'.availableSpace + 4)
    (failure : MapFailure ram' (update pages (pageOf lo) value) (lo + 4096) hi e) :
    MapFailure ram pages lo hi e := by
  have next := next_page below aligned hi_aligned
  have count := page_count_next below next aligned hi_aligned
  have widen : ∀ va, Between (lo + 4096) hi va → Between lo hi va :=
    fun va inside => (between_first below aligned hi_aligned).mpr (Or.inr inside)
  cases failure with
  | full short_of => exact MapFailure.full (by omega)
  | invalid va inside bad => exact MapFailure.invalid va (widen va inside) bad
  | taken va inside used =>
    simp only [update_of_ne (later_page next inside)] at used
    exact MapFailure.taken va (widen va inside) used

theorem area_mapped_first (below : lo.toNat < hi.toNat) (aligned : 2 ^ 12 ∣ lo.toNat)
    (hi_aligned : 2 ^ 12 ∣ hi.toNat)
    (taken : FrameReady kernel kroot root ram pt pages area rest lo.toNat f area₁ ram₁)
    (free : pages (pageOf lo) = none) (user : UserAddr lo)
    (owns : Holds (pool ram) (dataOf area + ↑pt.intrmTables))
    (step : Effect ram₁ ↑pt.intrmTables ram₂ ↑pt₂.intrmTables)
    (grows : ∀ g ∈ pt.intrmTables, g ∈ pt₂.intrmTables) (room : ram.availableSpace ≤ ram₂.availableSpace + 4)
    (onward : AreaMapped kernel kroot root ram₂ pt₂ (update pages (pageOf lo) (some (f, area.flags))) area₁ rest (lo + 4096) hi pt' area' ram') :
    AreaMapped kernel kroot root ram pt pages area rest lo hi pt' area' ram' := by
  have next := next_page below aligned hi_aligned
  have count := page_count_next below next aligned hi_aligned
  have here := onward.grows _ _ taken.here
  have same := same_area_trans taken.same onward.same
  refine ⟨same, onward.framed, fun x g h => onward.grows x g (taken.grows x g h), ?_, ?_, ?_, ?_, ?_⟩
  · intro va inside
    rcases (between_first below aligned hi_aligned).mp inside with rfl | later
    · exact ⟨user, free, by rw [here]; simp⟩
    obtain ⟨user_va, unused, frame⟩ := onward.filled va later
    simp only [update_of_ne (later_page next later)] at unused
    exact ⟨user_va, unused, frame⟩
  · have space := onward.space
    rw [next, ← same.2.2] at space
    rwa [pageOf, overlay_first aligned below here] at space
  · have data_step := effect_frame taken.effect owns
    have table_step := effect_frame_left step data_step.exchange.holds
    exact effect_trans data_step (effect_trans table_step onward.effect)
  · exact growth_trans taken.growth (growth_trans (growth_of_tables step grows) onward.growth)
  · have := onward.room
    omega

section

variable (space : Space kernel kroot ram root pt pages (dataOf area + rest))
include space

theorem area_mapped_none
    (framed : IsFramed area) (empty : hi.toNat ≤ lo.toNat) :
    AreaMapped kernel kroot root ram pt pages area rest lo hi pt area ram := by
  refine ⟨⟨rfl, rfl, rfl⟩, framed, fun _ _ h => h, ?_, ?_, effect_refl (space_area_tables space),
    growth_refl, Nat.le_add_right _ _⟩
  · exact fun va inside => absurd inside (between_empty empty)
  · rw [overlay_empty empty]
    exact space

theorem map_loop_spec
    (framed : IsFramed area) (some_flag : area.flags ≠ MemFlags.empty) (aligned : 2 ^ 12 ∣ lo.toNat)
    (hi_aligned : 2 ^ 12 ∣ hi.toNat) (enough : pageCount lo hi ≤ fuel)
    (below_kernel : ∀ va, Between lo hi va → va < kernelAspaceBase) :
    Ends (MapFailure ram pages lo hi)
      (fun result => AreaMapped kernel kroot root ram pt pages area rest lo hi result.1 result.2.1 result.2.2)
      (mapLoop pt ram area lo hi fuel) := by
  induction fuel generalizing pt ram area pages lo with
  | zero =>
    apply area_mapped_none space framed
    unfold pageCount at enough
    omega
  | succ fuel ih =>
    rw [mapLoop]
    split
    · rename_i below
      have next := next_page below aligned hi_aligned
      have count := page_count_next below next aligned hi_aligned
      have first : Between lo hi lo := ⟨Nat.le_refl _, below, aligned⟩
      cases valid : VirtAddr.new lo with
      | error e =>
        obtain ⟨rfl, bad⟩ := virt_addr_new_error valid
        exact MapFailure.invalid lo first bad
      | ok va =>
        obtain ⟨rfl, canonical⟩ := virt_addr_new_ok valid
        have user : UserAddr va := ⟨canonical, below_kernel va first⟩
        have ready := area_map_spec space framed ((aligned_iff va).mpr aligned)
        simp only
        generalize area.map ram va = outcome at ready
        cases outcome with
        | error e =>
          obtain ⟨rfl, none_left⟩ := ready
          exact MapFailure.full (by omega)
        | ok result =>
          obtain ⟨paddr, area₁, ram₁⟩ := result
          obtain ⟨f, place, taken⟩ := ready
          simp only at place taken
          subst place
          have small := data_small taken.space (frame_held taken.here)
          have entry := space_map taken.space user small some_flag
          simp only
          generalize run : pt.map ram₁ va (startPaddr f) area.flags = outcome at entry
          cases entry with
          | full short_of =>
            have := taken.room
            exact MapFailure.full (by omega)
          | taken used => exact MapFailure.taken va first used
          | @entered pt₂ ram₂ free space₂ step grows few =>
            have flags : area₁.flags = area.flags := taken.same.2.2
            have balance := step.exchange.balance
            simp only [pool, Multiset.coe_card] at balance
            have room : ram.availableSpace ≤ ram₂.availableSpace + 4 := by
              have := taken.room
              omega
            have onward := ih space₂ taken.framed (by rw [flags]; exact some_flag) (by omega) (by omega)
              fun vb inside => below_kernel vb ((between_first below aligned hi_aligned).mpr (Or.inr inside))
            simp only
            generalize mapLoop pt₂ ram₂ area₁ (va + 4096) hi fuel = outcome at onward
            cases outcome with
            | error e => exact map_failure_next below aligned hi_aligned room onward
            | ok result =>
              obtain ⟨pt', area', ram'⟩ := result
              exact area_mapped_first below aligned hi_aligned taken free user (space_area_tables space) step
                grows room onward
    · rename_i done
      rw [BitVec.lt_def] at done
      exact area_mapped_none space framed (by omega)

structure AreaWritten (kernel : PageTable) (kroot root : Nat) (ram : Ram) (pt : PageTable)
    (pages : UserPages) (area : MapArea) (rest : Multiset Nat) (area' : MapArea) (ram' : Ram) : Prop where
  same : SameArea area area'
  framed : IsFramed area'
  space : Space kernel kroot ram' root pt pages (dataOf area' + rest)
  effect : Effect ram (dataOf area) ram' (dataOf area')

theorem effect_copy (held : f ∈ dataOf area) (inside : pgoff + data.length ≤ 4096) :
    Effect ram (dataOf area) (ram.copy ((startPaddr f).toNat + pgoff) data) (dataOf area) :=
  effect_write (holds_part (space_area_tables space)) rfl
    fun _ _ outside => copy_elsewhere ram (data_small space held) inside fun same => outside (same ▸ held)

end

/-- What a round of the loop of `write_data` comes to: it fails, it has nothing to write, or
    it gets a frame for the page of `start`, copies what fits there and goes on behind it. -/
inductive WriteRound (kernel : PageTable) (kroot root : Nat) (ram : Ram) (pt : PageTable) (pages : UserPages)
    (area : MapArea) (rest : Multiset Nat) (start : BitVec 64) (data : List (BitVec 8)) (fuel : Nat) :
    Except Panic (MapArea × Ram) → Prop where
  | failed {e : Panic} (kind : ¬ e.ofDealloc) :
      WriteRound kernel kroot root ram pt pages area rest start data fuel (.error e)
  | finished (empty : data = []) :
      WriteRound kernel kroot root ram pt pages area rest start data fuel (.ok (area, ram))
  | wrote {f n pgoff : Nat} {area₁ : MapArea} {ram₁ : Ram} (nonempty : 0 < data.length)
      (offset : start.toNat = (alignDown start).toNat + pgoff) (short : pgoff < 4096)
      (amount : min (4096 - pgoff) data.length = n) (aligned : isAligned (area.start + alignDown start))
      (mapped : area.map ram (area.start + alignDown start) = .ok (startPaddr f, area₁, ram₁))
      (ready : FrameReady kernel kroot root ram pt pages area rest (area.start + alignDown start).toNat f area₁ ram₁)
      (fits : pgoff + (data.take n).length ≤ 4096) :
      WriteRound kernel kroot root ram pt pages area rest start data fuel
        (area₁.writeLoop (ram₁.copy ((startPaddr f).toNat + pgoff) (data.take n)) (start + BitVec.ofNat 64 n)
          (data.drop n) fuel)

theorem write_round (fuel : Nat) (start : BitVec 64) (data : List (BitVec 8))
    (space : Space kernel kroot ram root pt pages (dataOf area + rest)) (framed : IsFramed area)
    (aligned : isAligned area.start) :
    WriteRound kernel kroot root ram pt pages area rest start data fuel
      (area.writeLoop ram start data (fuel + 1)) := by
  rw [MapArea.writeLoop]
  split
  · rename_i nonempty
    simp only
    cases valid : VirtAddr.new (area.start + alignDown start) with
    | error e =>
      obtain ⟨rfl, _⟩ := virt_addr_new_error valid
      exact WriteRound.failed id
    | ok va =>
      obtain ⟨rfl, _⟩ := virt_addr_new_ok valid
      have rounded := align_down_toNat start
      have va_aligned : isAligned (area.start + alignDown start) := by
        rw [aligned_iff] at aligned ⊢
        rw [BitVec.toNat_add]
        omega
      have offset : start.toNat = (alignDown start).toNat + (start - alignDown start).toNat := by
        rw [BitVec.toNat_sub]
        omega
      have short : (start - alignDown start).toNat < 4096 := by omega
      have ready := area_map_spec space framed va_aligned
      simp only
      cases mapped : area.map ram (area.start + alignDown start) with
      | error e =>
        rw [mapped] at ready
        obtain ⟨rfl, _⟩ := ready
        exact WriteRound.failed id
      | ok result =>
        rw [mapped] at ready
        obtain ⟨paddr, area₁, ram₁⟩ := result
        obtain ⟨f, rfl, taken⟩ := ready
        exact WriteRound.wrote nonempty offset short rfl va_aligned mapped taken
          (by rw [length_take]; omega)
  · rename_i done
    exact WriteRound.finished (length_eq_zero_iff.mp (Nat.eq_zero_of_not_pos done))

theorem write_loop_spec (space : Space kernel kroot ram root pt pages (dataOf area + rest))
    (framed : IsFramed area) (aligned : isAligned area.start) :
    Ends (fun e => ¬ e.ofDealloc)
      (fun result => AreaWritten kernel kroot root ram pt pages area rest result.1 result.2)
      (area.writeLoop ram start data fuel) := by
  have owns := holds_part (space_area_tables space)
  induction fuel generalizing area ram start data with
  | zero => exact ⟨⟨rfl, rfl, rfl⟩, framed, space, effect_refl owns⟩
  | succ fuel ih =>
    have round := write_round fuel start data space framed aligned
    generalize area.writeLoop ram start data (fuel + 1) = result at round
    cases round with
    | failed kind => exact kind
    | finished empty => exact ⟨⟨rfl, rfl, rfl⟩, framed, space, effect_refl owns⟩
    | wrote nonempty offset short amount va_aligned mapped taken fits =>
      have written := effect_copy taken.space (frame_held taken.here) fits
      have space₂ := space_data taken.space written
      refine ends_mono (ih space₂ taken.framed (by rw [taken.same.1]; exact aligned)
        (holds_part (space_area_tables space₂))) (fun _ h => h) ?_
      rintro ⟨area', ram'⟩ last
      exact ⟨same_area_trans taken.same last.same, last.framed, last.space,
        effect_trans taken.effect (effect_trans written last.effect)⟩

theorem write_data_spec (offset : BitVec 64) (data : List (BitVec 8))
    (space : Space kernel kroot ram root pt pages (dataOf area + rest)) (framed : IsFramed area)
    (aligned : isAligned area.start) :
    Ends (fun e => ¬ e.ofDealloc)
      (fun result => area.size > 0 ∧ AreaWritten kernel kroot root ram pt pages area rest result.1 result.2)
      (area.writeData ram offset data) := by
  unfold MapArea.writeData
  split
  · exact id
  rename_i inside
  split
  · exact id
  apply ends_mono (write_loop_spec space framed aligned) fun _ h => h
  intro result written
  refine ⟨?_, written⟩
  rw [not_not, BitVec.lt_def] at inside
  rw [gt_iff_lt, BitVec.lt_def]
  exact Nat.lt_of_le_of_lt (Nat.zero_le offset.toNat) inside

def cleared (pages : UserPages) (lo hi : Nat) : UserPages := fun n =>
  if lo ≤ 4096 * n ∧ 4096 * n < hi then none else pages n

theorem cleared_empty (empty : hi ≤ lo) : cleared pages lo hi = pages := by
  funext n
  rw [cleared, if_neg (by omega)]

theorem cleared_first (aligned : 4096 ∣ lo) (below : lo < hi) :
    cleared (update pages (lo / 4096) none) (lo + 4096) hi = cleared pages lo hi := by
  funext n
  simp only [cleared]
  by_cases first : n = lo / 4096
  · rw [if_neg (by omega), if_pos (by omega), first]
    simp only [update_self]
  by_cases inside : lo ≤ 4096 * n ∧ 4096 * n < hi
  · rw [if_pos (by omega), if_pos inside]
  · rw [if_neg (by omega), if_neg inside]
    simp only [update_of_ne first]

theorem area_unmap_spec (owns : Holds (pool ram) (dataOf area)) (framed : IsFramed area) (va : VirtAddr) :
    ∃ area' ram', area.unmap ram va = .ok (area', ram') ∧ IsFramed area' ∧
      Effect ram (dataOf area) ram' (dataOf area') := by
  obtain ⟨frames, shape⟩ := framed
  have data : dataOf area = ↑(frames.entries.map Prod.snd) := by simp only [dataOf, shape]
  simp only [MapArea.unmap, shape]
  cases found : frames.lookup va.toNat with
  | none => exact ⟨area, ram, rfl, ⟨frames, shape⟩, effect_refl owns⟩
  | some f =>
    rw [data, data_of_erase found] at owns ⊢
    obtain ⟨ram', freed, _, step⟩ := effect_free owns
    simp only [freed]
    exact ⟨_, ram', rfl, ⟨_, rfl⟩, step⟩

theorem unmap_loop_spec (space : Space kernel kroot ram root pt pages (dataOf area + rest))
    (framed : IsFramed area) (aligned : 2 ^ 12 ∣ lo.toNat) (hi_aligned : 2 ^ 12 ∣ hi.toNat)
    (enough : pageCount lo hi ≤ fuel) (mapped : ∀ va, Between lo hi va → UserAddr va ∧ pages (pageOf va) ≠ none) :
    ∃ area' ram', unmapLoop pt ram area lo hi fuel = .ok (area', ram') ∧
      Space kernel kroot ram' root pt (cleared pages lo.toNat hi.toNat) (dataOf area' + rest) ∧
      Effect ram (dataOf area + ↑pt.intrmTables) ram' (dataOf area' + ↑pt.intrmTables) := by
  have owns := space_area_tables space
  induction fuel generalizing ram area pages lo with
  | zero =>
    have empty : hi.toNat ≤ lo.toNat := by
      unfold pageCount at enough
      omega
    refine ⟨area, ram, rfl, ?_, effect_refl owns⟩
    rw [cleared_empty empty]
    exact space
  | succ fuel ih =>
    rw [unmapLoop]
    by_cases below : lo.toNat < hi.toNat
    · have next := next_page below aligned hi_aligned
      have count := page_count_next below next aligned hi_aligned
      obtain ⟨user, used⟩ := mapped lo ⟨Nat.le_refl _, below, aligned⟩
      have valid : VirtAddr.new lo = .ok lo := by
        cases result : VirtAddr.new lo with
        | error e => exact absurd user.1 (virt_addr_new_error result).2
        | ok va => rw [(virt_addr_new_ok result).1]
      -- the frame goes back while the entry still points to it
      obtain ⟨area₁, ram₁, unmapped, framed₁, step₁⟩ := area_unmap_spec (holds_part owns) framed lo
      obtain ⟨ram₂, erased, space₂, step₂⟩ := space_unmap (space_data space step₁) user used
      have both : Effect ram (dataOf area + ↑pt.intrmTables) ram₂ (dataOf area₁ + ↑pt.intrmTables) := by
        have first := effect_frame step₁ owns
        exact effect_trans first (effect_frame_left step₂ first.exchange.holds)
      have others : ∀ va, Between (lo + 4096) hi va →
          UserAddr va ∧ update pages (pageOf lo) none (pageOf va) ≠ none := by
        intro va inside
        rw [update_of_ne (later_page next inside)]
        exact mapped va ((between_first below aligned hi_aligned).mpr (Or.inr inside))
      obtain ⟨area', ram', run, space', steps⟩ := ih space₂ framed₁ (by omega) (by omega) others
        (space_area_tables space₂)
      refine ⟨area', ram', ?_, ?_, effect_trans both steps⟩
      · rw [if_pos (BitVec.lt_def.mpr below), valid]
        simp only [unmapped, erased, run]
      · rw [next] at space'
        rwa [pageOf, cleared_first aligned below] at space'
    · refine ⟨area, ram, ?_, ?_, effect_refl owns⟩
      · rw [if_neg (fun h => below (BitVec.lt_def.mp h))]
      · rw [cleared_empty (by omega)]
        exact space

theorem area_drop_spec (owns : Holds (pool ram) (dataOf area)) :
    ∃ ram', area.drop ram = .ok ram' ∧ Effect ram (dataOf area) ram' 0 := by
  cases shape : area.mapper with
  | offset off =>
    simp only [MapArea.drop, dataOf, shape] at owns ⊢
    exact ⟨ram, rfl, effect_refl owns⟩
  | framed frames =>
    simp only [MapArea.drop, dataOf, shape] at owns ⊢
    rw [← add_zero (↑(frames.entries.map Prod.snd) : Multiset Nat)] at owns ⊢
    obtain ⟨ram', run, step⟩ := effect_free_all owns
    rw [foldlM_map] at run
    exact ⟨ram', run, step⟩

def FrameCopy (then_bytes : Bytes) (f : Nat) (bytes : Bytes) (g : Nat) : Prop :=
  ∀ k, k < 4096 → bytes (4096 * g + k) = then_bytes (4096 * f + k)

theorem frame_copy_later (copy : FrameCopy then_bytes f bytes g) (same : SameFrame bytes bytes' g) :
    FrameCopy then_bytes f bytes' g := by
  intro k inside
  rw [same _ (by omega), copy k inside]

theorem frame_copy_earlier (copy : FrameCopy bytes f bytes' g) (same : SameFrame then_bytes bytes f) :
    FrameCopy then_bytes f bytes' g := by
  intro k inside
  rw [copy k inside, same _ (by omega)]

theorem copy_frame_copies (ram : Ram) (small : f < 2 ^ 27) (small_g : g < 2 ^ 27) :
    FrameCopy ram.bytes f (ram.copyFrame g f).bytes g := by
  intro k inside
  simp only [Ram.copyFrame, frame_of_start (show f < 2 ^ 28 by omega), frame_of_start (show g < 2 ^ 28 by omega)]
  rw [if_pos (by omega), show (4096 * g + k) % 4096 = k by omega]

theorem copy_frame_elsewhere (small : g < 2 ^ 27) (other : h ≠ g) :
    SameFrame ram.bytes (ram.copyFrame g f).bytes h := by
  intro a inside
  simp only [Ram.copyFrame, frame_of_start (show g < 2 ^ 28 by omega)]
  rw [if_neg (by omega)]

structure FramesCopied (ram : Ram) (frames : OrderedMap Nat Nat) (entries : List (Nat × Nat))
    (frames' : OrderedMap Nat Nat) (ram' : Ram) : Prop where
  effect : Effect ram ↑(frames.entries.map Prod.snd) ram' ↑(frames'.entries.map Prod.snd)
  growth : Growth ram [] ram' []
  room : ram.availableSpace ≤ ram'.availableSpace + entries.length
  earlier : ∀ va f, frames.lookup va = some f → frames'.lookup va = some f
  copied : ∀ va f, (va, f) ∈ entries → ∃ g, frames'.lookup va = some g ∧ FrameCopy ram.bytes f ram'.bytes g

theorem copy_effect (holds : Holds (pool ram) items) (sane : ram.Sane) (made : ram.alloc = some (g, ram₁))
    (f : Nat) : Effect ram items (ram₁.copyFrame g f) (g ::ₘ items) := by
  have small := Ram.available_small (Ram.alloc_some made).1
  have taken := effect_alloc holds sane made
  refine effect_trans taken (effect_write taken.exchange.holds rfl ?_)
  intro h _ outside
  apply copy_frame_elsewhere small
  rintro rfl
  exact outside (Multiset.mem_cons_self h items)

section Round

variable {frames : OrderedMap Nat Nat} {va f g : Nat} {rest : List (Nat × Nat)} {ram₁ : Ram} (sane : ram.Sane)
  (owns : Holds (pool ram) ↑(frames.entries.map Prod.snd)) (missing : frames.lookup va = none)
  (issued : ∀ e ∈ (va, f) :: rest, ram.Issued e.2) (made : ram.alloc = some (g, ram₁))

include sane issued made

omit issued in
theorem copy_growth (f : Nat) : Growth ram [] (ram₁.copyFrame g f) [] :=
  growth_of_take (copy_effect (holds_zero (pool ram)) sane made f) []

include owns missing

theorem frames_copied_cons {frames' : OrderedMap Nat Nat}
    (last : FramesCopied (ram₁.copyFrame g f) (frames.insert va g) rest frames' ram') :
    FramesCopied ram frames ((va, f) :: rest) frames' ram' := by
  obtain ⟨available, unwritten, _, space⟩ := Ram.alloc_some made
  have step := copy_effect owns sane made f
  have growth := copy_growth sane made f
  have looks : ∀ x, (frames.insert va g).lookup x = if x = va then some g else frames.lookup x :=
    OrderedMap.lookup_insert frames va g
  refine ⟨?_, growth_trans growth last.growth, ?_, ?_, ?_⟩
  · apply effect_trans step
    rw [← data_of_insert g missing]
    exact last.effect
  · have first_room : ram.availableSpace ≤ (ram₁.copyFrame g f).availableSpace + 1 := space
    have := last.room
    simp only [length_cons]
    omega
  · intro x h found
    apply last.earlier
    rw [looks, if_neg _, found]
    rintro rfl
    rw [missing] at found
    cases found
  · intro x h member
    rcases mem_cons.mp member with first | later
    · obtain ⟨rfl, rfl⟩ := Prod.mk.inj first
      have g_issued := step.exchange.holds.issued g (Multiset.mem_cons_self g _)
      have copy := copy_frame_copies ram₁ (Ram.issued_small (issued (x, h) (.head _)))
        (Ram.available_small available)
      rw [unwritten] at copy
      exact ⟨g, last.earlier x g (by rw [looks, if_pos rfl]),
        frame_copy_later copy (last.growth.kept g g_issued (by simp))⟩
    · obtain ⟨g', found, copy⟩ := last.copied x h later
      have h_issued := issued (x, h) (.tail _ later)
      exact ⟨g', found, frame_copy_earlier copy (growth.kept h h_issued (by simp))⟩

end Round

theorem dup_loop_spec (frames : OrderedMap Nat Nat) (sane : ram.Sane)
    (sorted : entries.Pairwise fun a b => a.1 < b.1) (absent : ∀ e ∈ entries, frames.lookup e.1 = none)
    (issued : ∀ e ∈ entries, ram.Issued e.2) (owns : Holds (pool ram) ↑(frames.entries.map Prod.snd)) :
    Ends (fun e => e = .outOfFrames ∧ ram.availableSpace < entries.length)
      (fun result => FramesCopied ram frames entries result.1 result.2)
      (MapArea.dupLoop ram frames entries) := by
  induction entries generalizing ram frames with
  | nil =>
    exact ⟨effect_refl owns, growth_refl, Nat.le_add_right _ _, fun _ _ h => h, fun _ _ member => by cases member⟩
  | cons e rest ih =>
    obtain ⟨va, f⟩ := e
    obtain ⟨ahead, sorted_rest⟩ := pairwise_cons.mp sorted
    rw [MapArea.dupLoop]
    cases made : ram.alloc with
    | none =>
      have none_left := Ram.alloc_none made
      exact ⟨rfl, by simp only [length_cons]; omega⟩
    | some result =>
      obtain ⟨g, ram₁⟩ := result
      have missing := absent (va, f) (.head _)
      have growth := copy_growth sane made f
      have owns_more := (copy_effect owns sane made f).exchange.holds
      have absent_rest : ∀ e ∈ rest, (frames.insert va g).lookup e.1 = none := by
        intro e member
        rw [OrderedMap.lookup_insert, if_neg (Nat.ne_of_gt (ahead e member))]
        exact absent e (.tail _ member)
      have onward := ih (frames.insert va g) (Ram.sane_of_issued (owns_more.issued g (Multiset.mem_cons_self g _)))
        sorted_rest absent_rest (fun e member => growth.issued _ (issued e (.tail _ member)))
        (by rw [data_of_insert g missing]; exact owns_more)
      have room : ram.availableSpace ≤ (ram₁.copyFrame g f).availableSpace + 1 := (Ram.alloc_some made).2.2.2
      simp only
      generalize MapArea.dupLoop (ram₁.copyFrame g f) (frames.insert va g) rest = outcome at onward
      cases outcome with
      | error e =>
        obtain ⟨rfl, short_of⟩ := onward
        exact ⟨rfl, by simp only [length_cons]; omega⟩
      | ok result => exact frames_copied_cons sane owns missing issued made onward

def AreaCopy (then_bytes : Bytes) (area : MapArea) (bytes : Bytes) (copy : MapArea) : Prop :=
  SameArea area copy ∧
    ∀ va f, frameAt area va = some f → ∃ g, frameAt copy va = some g ∧ FrameCopy then_bytes f bytes g

theorem area_dup_spec (sane : ram.Sane) (framed : IsFramed area) (issued : ∀ f ∈ dataOf area, ram.Issued f) :
    Ends (fun e => e = .outOfFrames ∧ ram.availableSpace < Multiset.card (dataOf area))
      (fun result => IsFramed result.1 ∧ AreaCopy ram.bytes area result.2.bytes result.1 ∧
        Effect ram 0 result.2 (dataOf result.1) ∧ Growth ram [] result.2 [] ∧
        ram.availableSpace ≤ result.2.availableSpace + Multiset.card (dataOf area))
      (area.dup ram) := by
  obtain ⟨frames, shape⟩ := framed
  have data : dataOf area = ↑(frames.entries.map Prod.snd) := by simp only [dataOf, shape]
  have size : Multiset.card (dataOf area) = frames.entries.length := by
    rw [data, Multiset.coe_card, length_map]
  have loop := dup_loop_spec OrderedMap.empty sane frames.sorted (fun _ _ => rfl)
    (fun e member => issued e.2 (by rw [data]; exact List.mem_map.mpr ⟨e, member, rfl⟩)) (holds_zero (pool ram))
  simp only [MapArea.dup, shape]
  generalize MapArea.dupLoop ram OrderedMap.empty frames.entries = outcome at loop
  cases outcome with
  | error e =>
    rw [size]
    exact loop
  | ok result =>
    obtain ⟨frames', ram'⟩ := result
    have copied : FramesCopied ram OrderedMap.empty frames.entries frames' ram' := loop
    refine ⟨⟨frames', rfl⟩, ⟨⟨rfl, rfl, rfl⟩, ?_⟩, copied.effect, copied.growth, ?_⟩
    · intro va f found
      simp only [frameAt, shape] at found
      exact copied.copied va f (OrderedMap.lookup_some found)
    · rw [size]
      exact copied.room

end RtosNimbosAreas
