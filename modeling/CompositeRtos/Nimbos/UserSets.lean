import CompositeRtos.Nimbos.Areas

/-!
User memory sets. The areas of a set cover disjoint ranges of user pages, each page of a range
has a frame, and the page table maps exactly these pages to these frames. Creating, loading,
copying, clearing and dropping a set are described by what they do to the frames the set holds.
-/
namespace RtosNimbosUserSets
open RtosTransition RtosLedger RtosFrameMemory RtosRadixWalk RtosOrderedMap RtosNimbosFrames
open RtosNimbosPageTable RtosNimbosPageTree RtosNimbosPaging RtosNimbosMemorySet RtosNimbosLoadUser
open RtosNimbosFrameLedger RtosNimbosAddressSpace RtosNimbosAreas
open RtosNimbosLoadStage (sharedIndex SameArea same_area_trans)
open BitVec List

def stopOf (area : MapArea) : BitVec 64 := area.start + area.size

def areasOf (ms : MemorySet) : List MapArea := ms.areas.entries.map Prod.snd

def dataOfAll (areas : List MapArea) : Multiset Nat := (areas.map dataOf).sum

def held (ms : MemorySet) : Multiset Nat := dataOfAll (areasOf ms) + ↑ms.pt.intrmTables

def Covers (area : MapArea) (n : Nat) : Prop :=
  area.start.toNat ≤ 4096 * n ∧ 4096 * n < (stopOf area).toNat

structure AreaFine (area : MapArea) : Prop where
  framed : IsFramed area
  some_flag : area.flags ≠ MemFlags.empty
  aligned : isAligned area.start
  size_aligned : isAligned area.size
  some_page : area.size > 0
  filled : ∀ va, Between area.start (stopOf area) va → UserAddr va ∧ frameAt area va.toNat ≠ none

structure Laid (pages : UserPages) (areas : List MapArea) : Prop where
  fine : ∀ a ∈ areas, AreaFine a
  mapped : ∀ n x, pages n = some x ↔
    ∃ a ∈ areas, Covers a n ∧ (frameAt a (4096 * n)).map (fun f => (f, a.flags)) = some x
  apart : areas.Pairwise fun a b => ∀ n, Covers a n → ¬ Covers b n

theorem covers_same (same : SameArea a b) (n : Nat) : Covers b n ↔ Covers a n := by
  rw [Covers, Covers, stopOf, stopOf, same.1, same.2.1]

theorem stop_aligned (aligned : isAligned area.start) (size_aligned : isAligned area.size) :
    2 ^ 12 ∣ (stopOf area).toNat := by
  rw [aligned_iff] at aligned size_aligned
  rw [stopOf, toNat_add]
  omega

theorem covered_address (covers : Covers area n) :
    ∃ va : VirtAddr, va.toNat = 4096 * n ∧ pageOf va = n ∧ Between area.start (stopOf area) va := by
  have bound := (stopOf area).isLt
  obtain ⟨low, high⟩ := covers
  have value : (BitVec.ofNat 64 (4096 * n)).toNat = 4096 * n := by
    rw [toNat_ofNat]
    omega
  refine ⟨BitVec.ofNat 64 (4096 * n), value, ?_, ?_⟩
  · rw [pageOf, value]
    omega
  · unfold Between
    omega

theorem covers_of_between (inside : Between area.start (stopOf area) va) :
    Covers area (pageOf va) ∧ 4096 * pageOf va = va.toNat := by
  unfold Between at inside
  unfold Covers pageOf
  omega

theorem overlay_covered (here : Covers area n) : overlay pages area area.start.toNat (stopOf area).toNat n =
      (frameAt area (4096 * n)).map fun f => (f, area.flags) :=
  if_pos here

theorem overlay_elsewhere (outside : ¬ Covers area n) :
    overlay pages area' area.start.toNat (stopOf area).toNat n = pages n :=
  if_neg outside

theorem cleared_covered (here : Covers area n) : cleared pages area.start.toNat (stopOf area).toNat n = none :=
  if_pos here

theorem cleared_elsewhere (outside : ¬ Covers area n) :
    cleared pages area.start.toNat (stopOf area).toNat n = pages n :=
  if_neg outside

theorem laid_nil : Laid (fun _ => none) [] where
  fine := by simp
  mapped := by simp
  apart := List.Pairwise.nil

theorem laid_nil_pages (laid : Laid pages []) : pages = fun _ => none := by
  funext n
  cases mapped : pages n with
  | none => rfl
  | some x =>
    obtain ⟨a, member, _⟩ := (laid.mapped n x).mp mapped
    cases member

theorem laid_perm (laid : Laid pages areas) (perm : areas.Perm areas') : Laid pages areas' where
  fine := fun a member => laid.fine a (perm.mem_iff.mpr member)
  mapped := by
    intro n x
    rw [laid.mapped n x]
    simp only [perm.mem_iff]
  apart := by
    apply (perm.pairwise_iff _).mp laid.apart
    intro a b apart n covers covers'
    exact apart n covers' covers

theorem laid_cons (laid : Laid pages areas) (fine : AreaFine area)
    (free : ∀ n, Covers area n → pages n = none) :
    Laid (overlay pages area area.start.toNat (stopOf area).toNat) (area :: areas) where
  fine := forall_mem_cons.mpr ⟨fine, laid.fine⟩
  mapped := by
    intro n x
    rw [exists_mem_cons_iff]
    by_cases here : Covers area n
    · have unused := free n here
      rw [overlay_covered here]
      constructor
      · exact fun found => Or.inl ⟨here, found⟩
      rintro (found | elsewhere)
      · exact found.2
      · rw [← laid.mapped n x, unused] at elsewhere
        cases elsewhere
    · rw [overlay_elsewhere here, laid.mapped n x]
      exact ⟨Or.inr, fun found => found.resolve_left fun first => here first.1⟩
  apart := by
    refine pairwise_cons.mpr ⟨?_, laid.apart⟩
    intro b member n here there
    obtain ⟨va, at_page, page, inside⟩ := covered_address there
    obtain ⟨_, frame⟩ := (laid.fine b member).filled va inside
    rw [at_page] at frame
    obtain ⟨f, found⟩ := Option.ne_none_iff_exists'.mp frame
    have mapped := (laid.mapped n (f, b.flags)).mpr ⟨b, member, there, by rw [found]; rfl⟩
    rw [free n here] at mapped
    cases mapped

theorem laid_uncons (laid : Laid pages (area :: areas)) :
    Laid (cleared pages area.start.toNat (stopOf area).toNat) areas where
  fine := fun a member => laid.fine a (.tail _ member)
  mapped := by
    intro n x
    have others := (pairwise_cons.mp laid.apart).1
    by_cases here : Covers area n
    · rw [cleared_covered here]
      constructor
      · intro found
        cases found
      · rintro ⟨b, member, there, _⟩
        exact absurd there (others b member n here)
    · rw [cleared_elsewhere here, laid.mapped n x, exists_mem_cons_iff]
      exact ⟨fun found => found.resolve_left fun first => here first.1, Or.inr⟩
  apart := (pairwise_cons.mp laid.apart).2

theorem laid_page (laid : Laid pages areas) (member : area ∈ areas) (inside : Between area.start (stopOf area) va) :
    ∃ f, frameAt area va.toNat = some f ∧ pages (pageOf va) = some (f, area.flags) := by
  obtain ⟨covers, address⟩ := covers_of_between inside
  obtain ⟨f, found⟩ := Option.ne_none_iff_exists'.mp ((laid.fine area member).filled va inside).2
  refine ⟨f, found, (laid.mapped _ _).mpr ⟨area, member, covers, ?_⟩⟩
  rw [address, found]
  rfl

structure Sound (kernel : PageTable) (kroot : Nat) (ram : Ram) (root : Nat) (pages : UserPages)
    (ms : MemorySet) : Prop where
  space : Space kernel kroot ram root ms.pt pages (dataOfAll (areasOf ms))
  laid : Laid pages (areasOf ms)
  keys : ∀ e ∈ ms.areas.entries, e.1 = e.2.start.toNat

theorem areas_insert {areas : OrderedMap Nat MapArea} (area : MapArea) (absent : areas.lookup k = none) :
    (areas.insert k area).entries.map Prod.snd |>.Perm (area :: areas.entries.map Prod.snd) :=
  (OrderedMap.insert_perm absent).map Prod.snd

theorem data_of_all_perm (perm : areas.Perm areas') : dataOfAll areas = dataOfAll areas' :=
  (perm.map dataOf).sum_eq

theorem data_of_all_cons : dataOfAll (area :: areas) = dataOf area + dataOfAll areas := by
  simp [dataOfAll]

variable {kernel : PageTable} {kroot root : Nat} {ram : Ram} {pages : UserPages} {ms : MemorySet}
  {area : MapArea}

theorem sound_holds (sound : Sound kernel kroot ram root pages ms) : Holds (pool ram) (held ms) := by
  rw [held, add_comm]
  exact holds_part sound.space.owns

theorem sound_holds_all (sound : Sound kernel kroot ram root pages ms) :
    Holds (pool ram) (held ms + ↑kernel.intrmTables) := by
  rw [held, add_comm (dataOfAll _)]
  exact sound.space.owns

structure Inserted (kernel : PageTable) (kroot root : Nat) (ram : Ram) (pages : UserPages)
    (ms : MemorySet) (area : MapArea) (area' : MapArea) (ms' : MemorySet) (ram' : Ram) : Prop where
  same : SameArea area area'
  grows : ∀ x f, frameAt area x = some f → frameAt area' x = some f
  areas : ms'.areas = ms.areas.insert area.start.toNat area'
  absent : ms.areas.lookup area.start.toNat = none
  sound : Sound kernel kroot ram' root (overlay pages area' area.start.toNat (stopOf area).toNat) ms'
  effect : Effect ram (dataOf area + held ms) ram' (held ms')
  growth : Growth ram ms.pt.intrmTables ram' ms'.pt.intrmTables
  room : ram.availableSpace ≤ ram'.availableSpace + 4 * pageCount area.start (stopOf area)

theorem insert_spec (space : Space kernel kroot ram root ms.pt pages (dataOf area + dataOfAll (areasOf ms)))
    (laid : Laid pages (areasOf ms)) (keys : ∀ e ∈ ms.areas.entries, e.1 = e.2.start.toNat)
    (framed : IsFramed area) (some_flag : area.flags ≠ MemFlags.empty) (aligned : isAligned area.start)
    (size_aligned : isAligned area.size) (some_page : area.size > 0)
    (below_kernel : ∀ va, Between area.start (stopOf area) va → va < kernelAspaceBase) :
    Ends (fun e => e = .areaExists ∧ ms.areas.lookup area.start.toNat ≠ none ∨
        MapFailure ram pages area.start (stopOf area) e)
      (fun result => ∃ area', Inserted kernel kroot root ram pages ms area area' result.1 result.2)
      (ms.insert ram area) := by
  have loop := map_loop_spec space framed some_flag ((aligned_iff _).mp aligned)
    (stop_aligned aligned size_aligned) (Nat.le_refl _) below_kernel
  rw [MemorySet.insert, if_pos some_page]
  cases present : ms.areas.lookup area.start.toNat with
  | some other => exact Or.inl ⟨rfl, by simp⟩
  | none =>
    simp only [mapArea]
    rw [pageCount, stopOf] at loop
    generalize mapLoop ms.pt ram area area.start (area.start + area.size)
      (((area.start + area.size).toNat - area.start.toNat + 4095) / 4096) = outcome at loop
    cases outcome with
    | error e => exact Or.inr loop
    | ok result =>
      obtain ⟨pt', area', ram'⟩ := result
      have done : AreaMapped kernel kroot root ram ms.pt pages area (dataOfAll (areasOf ms)) area.start
        (stopOf area) pt' area' ram' := loop
      have perm := areas_insert area' present
      have data : dataOfAll (areasOf ⟨pt', ms.areas.insert area.start.toNat area'⟩) =
          dataOf area' + dataOfAll (areasOf ms) := by
        rw [areasOf, data_of_all_perm perm, data_of_all_cons]
        rfl
      have stops : stopOf area' = stopOf area := by rw [stopOf, stopOf, done.same.1, done.same.2.1]
      have fine : AreaFine area' := by
        refine ⟨done.framed, by rw [done.same.2.2]; exact some_flag, by rw [done.same.1]; exact aligned,
          by rw [done.same.2.1]; exact size_aligned, by rw [done.same.2.1]; exact some_page, ?_⟩
        intro va inside
        rw [done.same.1, stops] at inside
        obtain ⟨user, _, frame⟩ := done.filled va inside
        exact ⟨user, frame⟩
      have free : ∀ n, Covers area' n → pages n = none := by
        intro n covers
        obtain ⟨va, _, page, inside⟩ := covered_address ((covers_same done.same n).mp covers)
        rw [← page]
        exact (done.filled va inside).2.1
      have laid' := laid_perm (laid_cons laid fine free) perm.symm
      rw [done.same.1, stops] at laid'
      refine ⟨area', done.same, done.grows, rfl, present, ⟨?_, laid', ?_⟩, ?_, done.growth, done.room⟩
      · rw [data]
        exact done.space
      · intro e member
        rcases (OrderedMap.mem_insert _ _ _ _).mp member with rfl | old
        · exact congrArg BitVec.toNat done.same.1.symm
        · exact keys e old.1
      have owns : Holds (pool ram) (dataOf area + ↑ms.pt.intrmTables + dataOfAll (areasOf ms)) := by
        have whole := holds_part space.owns
        rwa [show (ms.pt.intrmTables : Multiset Nat) + (dataOf area + dataOfAll (areasOf ms)) =
          dataOf area + ↑ms.pt.intrmTables + dataOfAll (areasOf ms) by abel] at whole
      have step := effect_frame done.effect owns
      rw [held, held, data]
      rwa [show dataOf area + ↑ms.pt.intrmTables + dataOfAll (areasOf ms) =
          dataOf area + (dataOfAll (areasOf ms) + ↑ms.pt.intrmTables) by abel,
        show dataOf area' + ↑pt'.intrmTables + dataOfAll (areasOf ms) =
          dataOf area' + dataOfAll (areasOf ms) + ↑pt'.intrmTables by abel] at step

/-- A step on one memory set: it stays sound, and only its own frames are concerned. -/
def SetStep (kernel : PageTable) (kroot : Nat) (ram : Ram) (root : Nat) (ms : MemorySet) (ms' : MemorySet)
    (ram' : Ram) : Prop :=
  (∃ pages', Sound kernel kroot ram' root pages' ms') ∧ Effect ram (held ms) ram' (held ms')

theorem map_failure_error (h : MapFailure ram pages lo hi e) : ¬ e.ofDealloc := by
  cases h <;> exact id

theorem insert_step (sound : Sound kernel kroot ram root pages ms) (taken : Effect ram 0 ram₁ (dataOf area))
    (framed : IsFramed area) (some_flag : area.flags ≠ MemFlags.empty) (aligned : isAligned area.start)
    (size_aligned : isAligned area.size) (some_page : area.size > 0)
    (below_kernel : ∀ va, Between area.start (stopOf area) va → va < kernelAspaceBase) :
    Ends (fun e => ¬ e.ofDealloc) (fun result => SetStep kernel kroot ram root ms result.1 result.2)
      (ms.insert ram₁ area) := by
  have before := sound.space
  rw [← zero_add (dataOfAll (areasOf ms))] at before
  have space := space_data before taken
  refine ends_mono (insert_spec space sound.laid sound.keys framed some_flag aligned size_aligned some_page
    below_kernel) ?_ ?_
  · rintro e (⟨rfl, _⟩ | failure)
    · exact id
    · exact map_failure_error failure
  rintro ⟨ms', ram'⟩ ⟨area', inserted⟩
  refine ⟨⟨_, inserted.sound⟩, effect_trans ?_ inserted.effect⟩
  have owns := sound_holds sound
  rw [← zero_add (held ms)] at owns
  have step := effect_frame taken owns
  rwa [zero_add] at step

theorem new_framed_spec (start : VirtAddr) (size : BitVec 64) (flags : MemFlags) :
    Ends (fun e => ¬ e.ofDealloc)
      (fun area => isAligned start ∧ isAligned size ∧ area.start = start ∧ area.size = size ∧
        area.flags = flags ∧ IsFramed area ∧ dataOf area = 0)
      (MapArea.newFramed start size flags) := by
  unfold MapArea.newFramed
  split
  · exact id
  split
  · exact id
  · rename_i first second
    exact ⟨by simpa using first, by simpa using second, rfl, rfl, rfl, ⟨_, rfl⟩, rfl⟩

section

variable (sound : Sound kernel kroot ram root pages ms)
include sound

theorem load_segment_step (below : BelowKernel ph) :
    Ends (fun e => ¬ e.ofDealloc) (fun result => SetStep kernel kroot ram root ms result.1 result.2)
      (ms.loadSegment ram ph) := by
  unfold MemorySet.loadSegment
  split
  · exact ⟨⟨pages, sound⟩, effect_refl (sound_holds sound)⟩
  rename_i load
  simp only [Bool.not_eq_true, Bool.not_eq_false'] at load
  cases valid : VirtAddr.new ph.virtualAddr with
  | error e =>
    obtain ⟨rfl, _⟩ := virt_addr_new_error valid
    exact id
  | ok vaddr =>
    obtain ⟨rfl, _⟩ := virt_addr_new_ok valid
    simp only
    cases valid_last : VirtAddr.new (ph.virtualAddr + ph.memSize) with
    | error e =>
      obtain ⟨rfl, _⟩ := virt_addr_new_error valid_last
      exact id
    | ok last =>
      obtain ⟨rfl, _⟩ := virt_addr_new_ok valid_last
      simp only
      cases ph.data with
      | none => exact id
      | some data =>
        have made := new_framed_spec (alignDown ph.virtualAddr)
          (alignUp (ph.virtualAddr + ph.memSize) - alignDown ph.virtualAddr) ph.memFlags
        simp only
        generalize MapArea.newFramed (alignDown ph.virtualAddr) _ ph.memFlags = outcome at made
        cases outcome with
        | error e => exact made
        | ok area =>
          obtain ⟨aligned, size_aligned, start_eq, size_eq, flags_eq, framed, no_data⟩ := made
          have space := sound.space
          rw [← zero_add (dataOfAll (areasOf ms)), ← no_data] at space
          have written := write_data_spec (pageOffset ph.virtualAddr) data space framed (by rw [start_eq]; exact aligned)
          simp only
          generalize area.writeData ram (pageOffset ph.virtualAddr) data = outcome at written
          cases outcome with
          | error e => exact written
          | ok result =>
            obtain ⟨area₁, ram₁⟩ := result
            obtain ⟨some_page, done⟩ := written
            simp only at done ⊢
            have step := done.effect
            rw [no_data] at step
            have stop : stopOf area₁ = ProgramHeader.areaEnd ph := by
              rw [stopOf, done.same.1, done.same.2.1, start_eq, size_eq, BitVec.add_comm, BitVec.sub_add_cancel]
              rfl
            refine insert_step sound step done.framed
              (by rw [done.same.2.2, flags_eq]; simp [ProgramHeader.memFlags, MemFlags.empty])
              (by rw [done.same.1, start_eq]; exact aligned) (by rw [done.same.2.1, size_eq]; exact size_aligned)
              (by rw [done.same.2.1]; exact some_page) ?_
            intro va inside
            rw [stop, done.same.1, start_eq] at inside
            have limit := below load (by
              rw [lt_def]
              exact Nat.lt_of_le_of_lt inside.1 inside.2.1)
            rw [le_def] at limit
            rw [lt_def]
            exact Nat.lt_of_lt_of_le inside.2.1 limit

theorem load_segments_step (below : ∀ ph ∈ headers, BelowKernel ph) :
    Ends (fun e => ¬ e.ofDealloc) (fun result => SetStep kernel kroot ram root ms result.1 result.2)
      (ms.loadSegments ram headers) := by
  induction headers generalizing ms ram pages with
  | nil => exact ⟨⟨pages, sound⟩, effect_refl (sound_holds sound)⟩
  | cons ph rest ih =>
    have first := load_segment_step sound (below ph (.head _))
    rw [MemorySet.loadSegments]
    generalize ms.loadSegment ram ph = outcome at first
    cases outcome with
    | error e => exact first
    | ok result =>
      obtain ⟨ms₁, ram₁⟩ := result
      obtain ⟨⟨pages₁, sound₁⟩, step⟩ := first
      refine ends_mono (ih sound₁ fun ph member => below ph (.tail _ member)) (fun _ h => h) ?_
      rintro ⟨ms', ram'⟩ ⟨sound', steps⟩
      exact ⟨sound', effect_trans step steps⟩

theorem load_user_step (file : Option ElfFile)
    (below : ∀ elf, file = some elf → ∀ ph ∈ elf.programIter, BelowKernel ph) :
    Ends (fun e => ¬ e.ofDealloc)
      (fun result => SetStep kernel kroot ram root ms result.2.2.1 result.2.2.2) (ms.loadUser ram file) := by
  unfold MemorySet.loadUser
  cases file with
  | none => exact id
  | some elf =>
    simp only
    split
    · exact id
    split
    · exact id
    have segments := load_segments_step sound (below elf rfl)
    generalize ms.loadSegments ram elf.programIter = outcome at segments
    cases outcome with
    | error e => exact segments
    | ok result =>
      obtain ⟨ms₁, ram₁⟩ := result
      obtain ⟨⟨pages₁, sound₁⟩, step₁⟩ := segments
      simp only at sound₁ step₁ ⊢
      have base : VirtAddr.new userStackBase = .ok userStackBase := by decide
      have top : VirtAddr.new (userStackBase + userStackSize) = .ok (userStackBase + userStackSize) := by decide
      simp only [base, top]
      have made := new_framed_spec userStackBase userStackSize ⟨true, true, false, true, false⟩
      generalize MapArea.newFramed userStackBase userStackSize _ = outcome at made
      cases outcome with
      | error e => exact made
      | ok stack =>
        obtain ⟨aligned, size_aligned, start_eq, size_eq, flags_eq, framed, no_data⟩ := made
        have nothing : Effect ram₁ 0 ram₁ (dataOf stack) := by
          rw [no_data]
          exact effect_refl (holds_zero (pool ram₁))
        have inserted := insert_step sound₁ nothing framed (by rw [flags_eq]; decide)
          (by rw [start_eq]; exact aligned) (by rw [size_eq]; exact size_aligned) (by rw [size_eq]; decide)
          (by
            intro va inside
            rw [stopOf, start_eq, size_eq] at inside
            have limit : (userStackBase + userStackSize).toNat ≤ kernelAspaceBase.toNat := by decide
            rw [lt_def]
            exact Nat.lt_of_lt_of_le inside.2.1 limit)
        simp only
        generalize ms₁.insert ram₁ stack = outcome at inserted
        cases outcome with
        | error e => exact inserted
        | ok result =>
          obtain ⟨ms', ram'⟩ := result
          obtain ⟨sound', step₂⟩ := inserted
          simp only at sound' step₂ ⊢
          cases entry : VirtAddr.new elf.entryPoint with
          | error e =>
            obtain ⟨rfl, _⟩ := virt_addr_new_error entry
            exact id
          | ok address => exact ⟨sound', effect_trans step₁ step₂⟩

end

theorem new_spec (space : KernelSpace ram kernel kroot) (owns : Holds (pool ram) ↑kernel.intrmTables) :
    Ends (fun e => e = .outOfFrames ∧ ram.availableSpace = 0)
      (fun result => result.1.areas = OrderedMap.empty ∧
        (∃ root, Sound kernel kroot result.2 root (fun _ => none) result.1 ∧ result.1.pt.intrmTables = [root]) ∧
        Effect ram 0 result.2 (held result.1) ∧ ram.availableSpace ≤ result.2.availableSpace + 1)
      (MemorySet.new kernel ram) := by
  have shape := new_set_eq kernel ram
  cases made : ram.allocZero with
  | none =>
    simp only [made] at shape
    rw [shape]
    exact ⟨rfl, Ram.alloc_zero_none made⟩
  | some result =>
    obtain ⟨root, ram₁⟩ := result
    simp only [made] at shape
    obtain ⟨root', at_root, fresh⟩ := new_set_fresh space.ready shape
    rw [shape]
    have sane := sane_of_holds (f := kroot) owns (space.tables kroot ⟨[], by simp, rfl⟩)
    have taken := effect_alloc_zero (holds_zero (pool ram)) sane made
    have small := Ram.available_small (Ram.alloc_zero_some made).1
    have same_root : root' = root := by
      have small' := (fresh.tree.live root' ⟨[], by simp, rfl⟩).2
      rw [← frame_of_start (show root' < 2 ^ 28 by omega), ← at_root, frame_of_start (by omega)]
    subst same_root
    generalize final : ram₁.storeEntry (startPaddr root') sharedIndex (entryAt ram₁ kernel.rootPaddr sharedIndex) =
      ram₂ at fresh
    have step : Effect ram 0 ram₂ (root' ::ₘ 0) := by
      refine effect_trans taken (effect_write taken.exchange.holds (by rw [← final]; rfl) ?_)
      intro g _ outside
      rw [← final]
      simp only [Ram.storeEntry, frame_of_start (show root' < 2 ^ 28 by omega)]
      apply store_elsewhere ram₁.bytes
      rintro rfl
      exact outside (Multiset.mem_cons_self g 0)
    have beside := effect_beside step (by rw [zero_add]; exact owns)
    have table : Table kroot ram₂ root' ⟨startPaddr root', [root']⟩ fun _ => none := by
      refine ⟨rfl, fresh.tree, ?_, fresh.shared, ?_, by simp⟩
      · intro q f _ ours reached
        rcases grafted_walk fresh.empty_root fresh.shared reached with ⟨_, at_f⟩ | ⟨_, rest, rfl⟩
        · rw [at_f]
          exact mem_singleton_self root'
        · exact absurd rfl ours
      intro va user
      have unreached : walk child ram₂.view root' (upperIndices va) = none := by
        rw [upperIndices, walk, fresh.empty_root _ (user_index user.1 user.2), child_zero]
        rfl
      exact RtosTableTree.cell_of_none unreached
    refine ⟨rfl, ⟨root', ⟨⟨kernel_beside space beside, table, ?_⟩, laid_nil, by simp [OrderedMap.empty]⟩, rfl⟩, step, ?_⟩
    · have holds := (effect_frame step (by rw [zero_add]; exact owns)).exchange.holds
      rw [Multiset.cons_zero] at holds
      simpa [dataOfAll, areasOf, OrderedMap.empty] using holds
    · rw [← final]
      exact (Ram.alloc_zero_some made).2.2.2

theorem unmap_areas_spec
    (space : Space kernel kroot ram root pt pages (dataOfAll (entries.map Prod.snd) + rest))
    (laid : Laid pages (entries.map Prod.snd)) :
    ∃ entries' ram', MemorySet.unmapAreas pt ram entries = .ok (entries', ram') ∧
      Space kernel kroot ram' root pt (fun _ => none) (dataOfAll (entries'.map Prod.snd) + rest) ∧
      Effect ram (dataOfAll (entries.map Prod.snd) + ↑pt.intrmTables) ram'
        (dataOfAll (entries'.map Prod.snd) + ↑pt.intrmTables) := by
  induction entries generalizing ram pages rest with
  | nil =>
    rw [map_nil] at space laid
    have owns := space_data_first space
    rw [laid_nil_pages laid] at space
    refine ⟨[], ram, rfl, space, effect_refl ?_⟩
    rw [add_assoc, ← add_assoc] at owns
    exact holds_part owns
  | cons e others ih =>
    obtain ⟨start, area⟩ := e
    simp only [map_cons, data_of_all_cons] at space laid ⊢
    rw [add_assoc] at space
    have fine := laid.fine area (.head _)
    have mapped : ∀ va, Between area.start (stopOf area) va → UserAddr va ∧ pages (pageOf va) ≠ none := by
      intro va inside
      obtain ⟨f, _, page⟩ := laid_page laid (.head _) inside
      exact ⟨(fine.filled va inside).1, by rw [page]; simp⟩
    obtain ⟨area', ram₁, run, space₁, step⟩ := unmap_loop_spec space fine.framed ((aligned_iff _).mp fine.aligned)
      (stop_aligned fine.aligned fine.size_aligned) (Nat.le_refl _) mapped
    rw [add_left_comm] at space₁
    obtain ⟨entries', ram', runs, space', steps⟩ := ih space₁ (laid_uncons laid)
    refine ⟨(start, area') :: entries', ram', ?_, ?_, ?_⟩
    · rw [MemorySet.unmapAreas, unmapArea]
      rw [pageCount, stopOf] at run
      simp only [run, runs]
    · rw [map_cons, data_of_all_cons, add_assoc, add_left_comm]
      exact space'
    have first : Effect ram (dataOf area + ↑pt.intrmTables + dataOfAll (others.map Prod.snd)) ram₁
        (dataOf area' + ↑pt.intrmTables + dataOfAll (others.map Prod.snd)) := by
      apply effect_frame step
      have owns := space_data_first space
      rw [show dataOf area + (↑pt.intrmTables + (dataOfAll (others.map Prod.snd) + rest) + ↑kernel.intrmTables) =
        dataOf area + ↑pt.intrmTables + dataOfAll (others.map Prod.snd) + (rest + ↑kernel.intrmTables) by abel] at owns
      exact holds_part owns
    have second : Effect ram₁ (dataOf area' + (dataOfAll (others.map Prod.snd) + ↑pt.intrmTables)) ram'
        (dataOf area' + (dataOfAll (entries'.map Prod.snd) + ↑pt.intrmTables)) := by
      apply effect_frame_left steps
      have owns := first.exchange.holds
      rwa [show dataOf area' + ↑pt.intrmTables + dataOfAll (others.map Prod.snd) =
        dataOf area' + (dataOfAll (others.map Prod.snd) + ↑pt.intrmTables) by abel] at owns
    rw [show dataOf area + ↑pt.intrmTables + dataOfAll (others.map Prod.snd) =
        dataOf area + dataOfAll (others.map Prod.snd) + ↑pt.intrmTables by abel,
      show dataOf area' + ↑pt.intrmTables + dataOfAll (others.map Prod.snd) =
        dataOf area' + (dataOfAll (others.map Prod.snd) + ↑pt.intrmTables) by abel] at first
    rw [map_cons, data_of_all_cons, add_assoc (dataOf area')]
    exact effect_trans first second

theorem drop_areas_spec (owns : Holds (pool ram) (dataOfAll (entries.map Prod.snd))) :
    ∃ ram', MemorySet.dropAreas ram entries = .ok ram' ∧ Effect ram (dataOfAll (entries.map Prod.snd)) ram' 0 := by
  induction entries generalizing ram with
  | nil => exact ⟨ram, rfl, effect_refl owns⟩
  | cons e others ih =>
    rw [map_cons, data_of_all_cons] at owns ⊢
    obtain ⟨ram₁, dropped, step⟩ := area_drop_spec (holds_part owns)
    have first := effect_frame step owns
    rw [zero_add] at first
    obtain ⟨ram', run, steps⟩ := ih first.exchange.holds
    refine ⟨ram', ?_, effect_trans first steps⟩
    rw [MemorySet.dropAreas, foldlM_cons, dropped]
    exact run

theorem clear_spec (sound : Sound kernel kroot ram root pages ms) :
    ∃ ram', ms.clear ram = .ok (⟨ms.pt, OrderedMap.empty⟩, ram') ∧
      Sound kernel kroot ram' root (fun _ => none) ⟨ms.pt, OrderedMap.empty⟩ ∧
      Effect ram (held ms) ram' (held ⟨ms.pt, OrderedMap.empty⟩) := by
  have start := sound.space
  rw [← add_zero (dataOfAll (areasOf ms))] at start
  obtain ⟨entries, ram₁, run, space, step⟩ := unmap_areas_spec start sound.laid
  obtain ⟨ram', dropped, last⟩ := drop_areas_spec (holds_part step.exchange.holds)
  refine ⟨ram', ?_, ⟨?_, laid_nil, by simp [OrderedMap.empty]⟩, ?_⟩
  · rw [MemorySet.clear]
    simp only [run, dropped]
  · have final := space_data space last
    rw [add_zero] at final
    exact final
  · exact effect_trans step (effect_frame last step.exchange.holds)

theorem drop_spec (sound : Sound kernel kroot ram root pages ms) :
    ∃ ram', ms.drop ram = .ok ram' ∧ Effect ram (held ms) ram' 0 := by
  obtain ⟨ram₁, cleared, sound₁, step⟩ := clear_spec sound
  have empty : held ⟨ms.pt, OrderedMap.empty⟩ = ↑ms.pt.intrmTables + 0 := by
    simp [held, areasOf, dataOfAll, OrderedMap.empty]
  rw [empty] at step
  obtain ⟨ram', freed, last⟩ := effect_free_all step.exchange.holds
  refine ⟨ram', ?_, effect_trans step last⟩
  rw [MemorySet.drop, cleared]
  exact freed

end RtosNimbosUserSets
