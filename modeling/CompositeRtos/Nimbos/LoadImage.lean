import CompositeRtos.Nimbos.Lifecycle

/-!
What a program finds in memory when `load_user` has returned. An area has contents before its
pages are mapped: the bytes of its frames, and zero where no frame has been taken yet. Writing
the bytes of the file patches the contents, mapping the area keeps them, and from then on the
page table shows them at the addresses of the area.
-/
namespace RtosNimbosLoadImage
open RtosByteMemory RtosTransition RtosLedger RtosFrameMemory RtosOrderedMap RtosNimbosFrames
open RtosNimbosPageTable RtosNimbosPageTree RtosNimbosPaging RtosNimbosMemorySet RtosNimbosLoadUser
open RtosNimbosFrameLedger RtosNimbosAddressSpace RtosNimbosAreas RtosNimbosUserSets RtosNimbosLifecycle
open BitVec List Option

def pageStart (a : Nat) : Nat := 4096 * (a / 4096)

/-- The byte that an area has for an address. A frame is zeroed when it is taken, so a page
    without a frame counts as zero. -/
def contents (ram : Ram) (area : MapArea) (a : Nat) : BitVec 8 :=
  match frameAt area (pageStart a) with
  | none => 0
  | some f => ram.bytes (4096 * f + a % 4096)

theorem contents_kept (same : ∀ f ∈ dataOf area, SameFrame ram.bytes ram'.bytes f) :
    contents ram' area = contents ram area := by
  funext a
  unfold contents
  cases found : frameAt area (pageStart a) with
  | none => rfl
  | some f => exact same f (frame_held found) _ (by omega)

theorem space_nodup (space : Space kernel kroot ram root pt pages (dataOf area + rest)) :
    (dataOf area + ↑pt.intrmTables).Nodup :=
  (space_area_tables space).nodup

theorem frame_at_injective (nodup : (dataOf area).Nodup) (first : frameAt area x = some f)
    (second : frameAt area y = some f) : x = y := by
  unfold frameAt at first second
  unfold dataOf at nodup
  cases shape : area.mapper with
  | offset off =>
    rw [shape] at first
    cases first
  | framed frames =>
    rw [shape] at first second nodup
    have same := inj_on_of_nodup_map (Multiset.coe_nodup.mp nodup) (OrderedMap.lookup_some first)
      (OrderedMap.lookup_some second) rfl
    exact congrArg Prod.fst same

section

variable (space : Space kernel kroot ram root pt pages (dataOf area + rest))
include space

theorem contents_map
    (framed : IsFramed area) (run : area.map ram va = .ok (pa, area', ram')) :
    contents ram' area' = contents ram area := by
  obtain ⟨frames, shape⟩ := framed
  have owns := holds_part (space_area_tables space)
  simp only [MapArea.map, shape] at run
  split at run
  · cases run
  split at run
  · cases run
    rfl
  rename_i absent
  split at run
  · cases run
  rename_i f ram₁ made
  cases run
  obtain ⟨available, wiped, _, _⟩ := Ram.alloc_zero_some made
  have looks := OrderedMap.lookup_insert frames va.toNat f
  funext a
  simp only [contents, frameAt, shape, looks, wiped]
  by_cases here : pageStart a = va.toNat
  · rw [if_pos here, here, absent]
    exact if_pos (by omega)
  rw [if_neg here]
  cases found : frames.lookup (pageStart a) with
  | none => rfl
  | some g =>
    have held : g ∈ dataOf area := frame_held (by simp only [frameAt, shape]; exact found)
    have other : g ≠ f := by
      rintro rfl
      exact Ram.issued_unavailable (owns.issued g held) available
    exact wipe_elsewhere other _ (by omega)

theorem contents_copy (aligned : 4096 ∣ va)
    (found : frameAt area va = some f) (inside : pgoff + data.length ≤ 4096) :
    contents (ram.copy ((startPaddr f).toNat + pgoff) data) area = patch (contents ram area) (va + pgoff) data := by
  have small := data_small space (frame_held found)
  have place := start_paddr_toNat (show f < 2 ^ 28 by omega)
  have nodup := (Multiset.nodup_add.mp (space_nodup space)).1
  funext a
  by_cases here : pageStart a = va
  · simp only [contents, patch, here, found, Ram.copy, place]
    have split : a = va + a % 4096 := by
      unfold pageStart at here
      omega
    by_cases behind : pgoff ≤ a % 4096
    · rw [if_pos (by omega), if_pos (by omega), List.getD_eq_getElem?_getD,
        show 4096 * f + a % 4096 - (4096 * f + pgoff) = a - (va + pgoff) by omega]
    · rw [if_neg (by omega), if_neg (by omega)]
  · have outside : a < va + pgoff ∨ va + pgoff + data.length ≤ a := by
      unfold pageStart at here
      omega
    rw [patch_outside _ outside]
    unfold contents
    cases other : frameAt area (pageStart a) with
    | none => rfl
    | some g =>
      have apart : g ≠ f := by
        rintro rfl
        exact here (frame_at_injective nodup other found)
      exact copy_elsewhere ram small inside apart _ (by omega)

theorem write_loop_contents (framed : IsFramed area) (aligned : isAligned area.start) (enough : data.length ≤ fuel)
    (fits : area.start.toNat + start.toNat + data.length < 2 ^ 64)
    (run : area.writeLoop ram start data fuel = .ok (area', ram')) :
    contents ram' area' = patch (contents ram area) (area.start.toNat + start.toNat) data := by
  induction fuel generalizing area ram start data with
  | zero =>
    cases run
    rw [length_eq_zero_iff.mp (Nat.le_zero.mp enough), patch_nil]
  | succ fuel ih =>
    have round := write_round fuel start data space framed aligned
    rw [run] at round
    generalize ends : Except.ok (area', ram') = result at round
    cases round with
    | failed kind => cases ends
    | finished empty =>
      cases ends
      rw [empty, patch_nil]
    | @wrote f n pgoff area₁ ram₁ nonempty offset short amount va_aligned mapped taken fits =>
      have space₂ := space_data taken.space (effect_copy taken.space (frame_held taken.here) fits)
      have page : (area.start + alignDown start).toNat = area.start.toNat + (alignDown start).toNat := by
        rw [toNat_add]
        omega
      have next : (start + BitVec.ofNat 64 n).toNat = start.toNat + n := by
        rw [toNat_add, toNat_ofNat]
        omega
      have same := taken.same.1
      have onward := ih space₂ taken.framed (by rw [same]; exact aligned)
        (by rw [length_drop]; omega) (by rw [same, next, length_drop]; omega) ends.symm
      have first := contents_copy taken.space ((aligned_iff _).mp va_aligned) taken.here fits
      have length : (data.take n).length = n := by
        rw [length_take]
        omega
      rw [onward, first, contents_map space framed mapped, same, next, page,
        show area.start.toNat + (alignDown start).toNat + pgoff = area.start.toNat + start.toNat by omega,
        show area.start.toNat + (start.toNat + n) = area.start.toNat + start.toNat + (data.take n).length by omega,
        patch_append, take_append_drop]

theorem write_data_contents (framed : IsFramed area) (aligned : isAligned area.start)
    (fits : area.start.toNat + offset.toNat + data.length < 2 ^ 64)
    (run : area.writeData ram offset data = .ok (area', ram')) :
    contents ram' area' = patch (contents ram area) (area.start.toNat + offset.toNat) data := by
  unfold MapArea.writeData at run
  split at run
  · cases run
  split at run
  · cases run
  · exact write_loop_contents space framed aligned (Nat.le_refl _) fits run

theorem map_loop_contents
    (framed : IsFramed area) (some_flag : area.flags ≠ MemFlags.empty) (aligned : 2 ^ 12 ∣ lo.toNat)
    (hi_aligned : 2 ^ 12 ∣ hi.toNat) (below_kernel : ∀ va, Between lo hi va → va < kernelAspaceBase)
    (run : mapLoop pt ram area lo hi fuel = .ok (pt', area', ram')) :
    contents ram' area' = contents ram area := by
  induction fuel generalizing pt ram area pages lo with
  | zero =>
    cases run
    rfl
  | succ fuel ih =>
    rw [mapLoop] at run
    split at run
    · rename_i below
      rw [lt_def] at below
      split at run
      · cases run
      rename_i va valid
      obtain ⟨rfl, canonical⟩ := virt_addr_new_ok valid
      have user : UserAddr va := ⟨canonical, below_kernel va ⟨Nat.le_refl _, below, aligned⟩⟩
      split at run
      · cases run
      rename_i paddr area₁ ram₁ mapped
      have ready := area_map_spec space framed ((aligned_iff va).mpr aligned)
      rw [mapped] at ready
      obtain ⟨f, rfl, taken⟩ := ready
      have entry := space_map taken.space user (data_small taken.space (frame_held taken.here)) some_flag
      split at run
      · cases run
      rename_i pt₂ ram₂ entered
      rw [entered] at entry
      cases entry with
      | entered free space₂ step grows few =>
        have next := next_page below aligned hi_aligned
        have flags : area₁.flags = area.flags := taken.same.2.2
        have owns := space_area_tables taken.space
        -- the page table writes to its own frames only
        have tables : contents ram₂ area₁ = contents ram₁ area₁ := by
          rw [add_comm] at owns
          exact contents_kept fun g member => (effect_beside step owns g member).1
        have onward := ih space₂ taken.framed (by rw [flags]; exact some_flag) (by omega)
          (fun vb inside => below_kernel vb ((between_first below aligned hi_aligned).mpr (Or.inr inside))) run
        rw [onward, tables, contents_map space framed mapped]
    · cases run
      rfl

end

def shown (ram : Ram) (pages : UserPages) (a : Nat) : Option (BitVec 8 × MemFlags) :=
  (pages (a / 4096)).map fun (f, flags) => (ram.bytes (4096 * f + a % 4096), flags)

def userByte (pt : PageTable) (ram : Ram) (va : VirtAddr) : Option (BitVec 8 × MemFlags) :=
  match pt.query ram va with
  | .ok (some (pa, flags)) => some (ram.bytes pa.toNat, flags)
  | _ => none

section Shown

variable {kernel : PageTable} {kroot root : Nat} {ram ram' : Ram} {pt : PageTable} {pages pages' : UserPages}
  {ms ms' : MemorySet} {area : MapArea} {va : VirtAddr}

theorem user_byte_shown (table : Table kroot ram root pt pages) (user : UserAddr va) :
    userByte pt ram va = (shown ram pages va.toNat).map fun (byte, flags) => (byte, reported flags) := by
  rw [userByte, query_user table user, shown]
  cases mapped : pages (pageOf va) with
  | none =>
    rw [pageOf] at mapped
    rw [mapped]
    rfl
  | some x =>
    obtain ⟨f, flags⟩ := x
    have small := (table.sound _ f flags mapped).1
    rw [pageOf] at mapped
    simp only [mapped, map_some, address_toNat small]

theorem query_hidden (table : Table kroot ram root pt pages) (user : UserAddr va)
    (hidden : shown ram pages va.toNat = none) : pt.query ram va = .ok none := by
  rw [query_user table user, pageOf, map_eq_none_iff.mp hidden]
  rfl

theorem canonical_of_page (canonical : Canonical vb) (page : pageOf vb = pageOf va) : Canonical va := by
  have range := canonical_range canonical
  have bound := va.isLt
  have top : (va >>> 47).toNat = va.toNat / 2 ^ 47 := by
    rw [toNat_ushiftRight, Nat.shiftRight_eq_div_pow]
  unfold pageOf at page
  rcases range with low | high
  · left
    rw [← toNat_inj, top, show (0 : BitVec 64).toNat = 0 from rfl]
    omega
  right
  rw [← toNat_inj, top, show (0x1ffff : BitVec 64).toNat = 0x1ffff from rfl]
  omega

theorem shown_user (laid : Laid pages (areasOf ms)) (visible : shown ram pages va.toNat ≠ none) : UserAddr va := by
  rw [shown, ne_eq, map_eq_none_iff] at visible
  obtain ⟨x, mapped⟩ := ne_none_iff_exists'.mp visible
  obtain ⟨b, member, covers, _⟩ := (laid.mapped _ x).mp mapped
  obtain ⟨vb, address, page, inside⟩ := covered_address covers
  obtain ⟨⟨canonical, below⟩, _⟩ := (laid.fine b member).filled vb inside
  refine ⟨canonical_of_page canonical page, ?_⟩
  have base : kernelAspaceBase.toNat = 2 ^ 64 - 2 ^ 39 := rfl
  rw [lt_def] at below ⊢
  omega

theorem insert_loop (some_page : area.size > 0) (run : ms.insert ram area = .ok (ms', ram')) :
    ∃ area', mapLoop ms.pt ram area area.start (stopOf area) (pageCount area.start (stopOf area)) =
        .ok (ms'.pt, area', ram') ∧
      ms'.areas = ms.areas.insert area.start.toNat area' := by
  rw [MemorySet.insert, if_pos some_page] at run
  split at run
  · cases run
  split at run
  · cases run
  rename_i pt area' ram₁ ran
  cases run
  exact ⟨area', ran, rfl⟩

theorem shown_kept (same : ∀ n f flags, pages n = some (f, flags) → SameFrame ram.bytes ram'.bytes f) :
    shown ram' pages = shown ram pages := by
  funext a
  unfold shown
  cases mapped : pages (a / 4096) with
  | none => rfl
  | some x =>
    obtain ⟨f, flags⟩ := x
    simp only [map_some, same _ f flags mapped (4096 * f + a % 4096) (by omega)]

theorem shown_growth (space : Space kernel kroot ram root ms.pt pages (dataOf area + dataOfAll (areasOf ms)))
    (laid : Laid pages (areasOf ms)) (growth : Growth ram ms.pt.intrmTables ram' ms'.pt.intrmTables) :
    shown ram' pages = shown ram pages := by
  have owns := holds_part space.owns
  have apart := (Multiset.nodup_add.mp owns.nodup).2.2
  apply shown_kept
  intro n f flags mapped
  have member : f ∈ dataOf area + dataOfAll (areasOf ms) :=
    Multiset.mem_add.mpr (Or.inr (page_frame_held laid mapped))
  apply growth.kept f (owns.issued f (Multiset.mem_add.mpr (Or.inr member)))
  exact fun table => Multiset.disjoint_left.mp apart (Multiset.mem_coe.mpr table) member

/-- Inserting an area shows its contents at its addresses, where nothing was before, and
    nothing else changes. -/
structure Appears (lo hi : Nat) (byte : Nat → BitVec 8) (flags : MemFlags)
    (old new : Nat → Option (BitVec 8 × MemFlags)) : Prop where
  unused : ∀ a, lo ≤ a → a < hi → old a = none
  inside : ∀ a, lo ≤ a → a < hi → new a = some (byte a, flags)
  outside : ∀ a, a < lo ∨ hi ≤ a → new a = old a

theorem insert_shown (space : Space kernel kroot ram root ms.pt pages (dataOf area + dataOfAll (areasOf ms)))
    (laid : Laid pages (areasOf ms)) (keys : ∀ e ∈ ms.areas.entries, e.1 = e.2.start.toNat)
    (framed : IsFramed area) (some_flag : area.flags ≠ MemFlags.empty) (aligned : isAligned area.start)
    (size_aligned : isAligned area.size) (some_page : area.size > 0)
    (below_kernel : ∀ va, Between area.start (stopOf area) va → va < kernelAspaceBase)
    (run : ms.insert ram area = .ok (ms', ram')) :
    ∃ pages', Sound kernel kroot ram' root pages' ms' ∧
      Appears area.start.toNat (stopOf area).toNat (contents ram area) area.flags (shown ram pages)
        (shown ram' pages') := by
  have done := insert_spec space laid keys framed some_flag aligned size_aligned some_page below_kernel
  rw [run] at done
  obtain ⟨area', inserted⟩ : ∃ area', Inserted kernel kroot root ram pages ms area area' ms' ram' := done
  obtain ⟨area'', loop, areas⟩ := insert_loop some_page run
  have same_area : area'' = area' := by
    have looks := congrArg (fun m => m.lookup area.start.toNat) (areas.symm.trans inserted.areas)
    simp only [OrderedMap.lookup_insert, if_true, some.injEq] at looks
    exact looks
  subst same_area
  have lo_aligned := (aligned_iff _).mp aligned
  have hi_aligned := stop_aligned aligned size_aligned
  have content := map_loop_contents space framed some_flag lo_aligned hi_aligned below_kernel loop
  have mapped := map_loop_spec space framed some_flag lo_aligned hi_aligned (Nat.le_refl _) below_kernel
  rw [loop] at mapped
  have covers : ∀ a, area.start.toNat ≤ a → a < (stopOf area).toNat → Covers area (a / 4096) := by
    intro a low high
    unfold Covers
    omega
  have member : area'' ∈ areasOf ms' := by
    rw [areasOf, areas, (areas_insert area'' inserted.absent).mem_iff]
    exact .head _
  have stops : stopOf area'' = stopOf area := by rw [stopOf, stopOf, inserted.same.1, inserted.same.2.1]
  refine ⟨_, inserted.sound, ?_, ?_, ?_⟩
  · intro a low high
    obtain ⟨vb, _, page, between⟩ := covered_address (covers a low high)
    have free := (mapped.filled vb between).2.1
    rw [shown, ← page, free]
    rfl
  · intro a low high
    obtain ⟨vb, address, page, between⟩ := covered_address (covers a low high)
    rw [← inserted.same.1, ← stops] at between
    obtain ⟨f, found, entered⟩ := laid_page inserted.sound.laid member between
    rw [page] at entered
    rw [address] at found
    rw [shown, entered, ← content, contents, pageStart, found, inserted.same.2.2]
    rfl
  · intro a other
    have outside : ¬ Covers area (a / 4096) := by
      unfold Covers
      omega
    rw [shown, overlay_elsewhere outside, ← shown_growth space laid inserted.growth, shown]

end Shown

/-- A segment of which the file holds at most its size in memory, and which ends below the
    kernel half. -/
structure Placed (ph : ProgramHeader) : Prop where
  fits : ∀ data, ph.data = some data → data.length ≤ ph.memSize.toNat
  below : ph.virtualAddr.toNat + ph.memSize.toNat ≤ kernelAspaceBase.toNat

section Segments

variable {kernel : PageTable} {kroot root : Nat} {ram ram' : Ram} {pages : UserPages} {ms ms' : MemorySet}
  {area : MapArea} {ph : ProgramHeader}

theorem load_segment_parts (load : ph.isLoad) (run : ms.loadSegment ram ph = .ok (ms', ram')) :
    ∃ data area area₁ ram₁, ph.data = some data ∧
      MapArea.newFramed (ProgramHeader.areaStart ph)
        (ProgramHeader.areaEnd ph - ProgramHeader.areaStart ph) ph.memFlags = .ok area ∧
      area.writeData ram (pageOffset ph.virtualAddr) data = .ok (area₁, ram₁) ∧
      ms.insert ram₁ area₁ = .ok (ms', ram') := by
  unfold MemorySet.loadSegment at run
  rw [if_neg (by simp [load])] at run
  split at run
  · cases run
  rename_i vaddr valid
  obtain ⟨rfl, _⟩ := virt_addr_new_ok valid
  split at run
  · cases run
  rename_i last valid_last
  obtain ⟨rfl, _⟩ := virt_addr_new_ok valid_last
  split at run
  · cases run
  rename_i data present
  split at run
  · cases run
  rename_i area made
  split at run
  · cases run
  · rename_i area₁ ram₁ wrote
    exact ⟨data, area, area₁, ram₁, present, made, wrote, run⟩

theorem contents_new (ram : Ram) (no_data : dataOf area = 0) : contents ram area = fun _ => 0 := by
  funext a
  unfold contents
  cases found : frameAt area (pageStart a) with
  | none => rfl
  | some f =>
    have held := frame_held found
    rw [no_data] at held
    exact absurd held (Multiset.notMem_zero f)

theorem align_up_toNat (room : addr.toNat + 4095 < 2 ^ 64) :
    (alignUp addr).toNat = (addr.toNat + 4095) / 4096 * 4096 := by
  rw [alignUp, RtosBitField.and_high_field 12 (by decide)]
  have sum : (addr + 0x1000 - 1).toNat = addr.toNat + 4095 := by
    rw [toNat_sub, toNat_add, show (0x1000 : BitVec 64).toNat = 4096 from rfl,
      show (1 : BitVec 64).toNat = 1 from rfl]
    omega
  exact congrArg (· / 4096 * 4096) sum

theorem segment_range (placed : Placed ph) : (ProgramHeader.areaStart ph).toNat = ph.virtualAddr.toNat / 4096 * 4096 ∧
      (ProgramHeader.areaEnd ph).toNat = (ph.virtualAddr.toNat + ph.memSize.toNat + 4095) / 4096 * 4096 := by
  have below := placed.below
  rw [show kernelAspaceBase.toNat = 2 ^ 64 - 2 ^ 39 from rfl] at below
  have sum : (ph.virtualAddr + ph.memSize).toNat = ph.virtualAddr.toNat + ph.memSize.toNat := by
    rw [toNat_add]
    omega
  refine ⟨align_down_toNat _, ?_⟩
  rw [ProgramHeader.areaEnd, align_up_toNat (by omega), sum]

theorem load_segment_shown (sound : Sound kernel kroot ram root pages ms) (load : ph.isLoad) (placed : Placed ph)
    (run : ms.loadSegment ram ph = .ok (ms', ram')) :
    ∃ data pages', ph.data = some data ∧ Sound kernel kroot ram' root pages' ms' ∧
      Appears (ProgramHeader.areaStart ph).toNat (ProgramHeader.areaEnd ph).toNat
        (patch (fun _ => 0) ph.virtualAddr.toNat data) ph.memFlags (shown ram pages) (shown ram' pages') := by
  obtain ⟨data, area, area₁, ram₁, present, made, wrote, inserted⟩ := load_segment_parts load run
  have fresh := new_framed_spec (ProgramHeader.areaStart ph)
    (ProgramHeader.areaEnd ph - ProgramHeader.areaStart ph) ph.memFlags
  rw [made] at fresh
  obtain ⟨aligned, size_aligned, start_eq, size_eq, flags_eq, framed, no_data⟩ := fresh
  have base : kernelAspaceBase.toNat = 2 ^ 64 - 2 ^ 39 := rfl
  have below := placed.below
  obtain ⟨low, high⟩ := segment_range placed
  have space := sound.space
  rw [← zero_add (dataOfAll (areasOf ms)), ← no_data] at space
  have written := write_data_spec (pageOffset ph.virtualAddr) data space framed (by rw [start_eq]; exact aligned)
  rw [wrote] at written
  obtain ⟨some_page, done⟩ := written
  have content : contents ram₁ area₁ = patch (fun _ => 0) ph.virtualAddr.toNat data := by
    have offset := page_offset_toNat ph.virtualAddr
    have length := placed.fits data present
    have address : area.start.toNat + (pageOffset ph.virtualAddr).toNat = ph.virtualAddr.toNat := by
      rw [start_eq]
      omega
    have patched := write_data_contents space framed (by rw [start_eq]; exact aligned) (by omega) wrote
    rw [patched, address, contents_new ram no_data]
  -- the frames of the other segments are not written to
  have others : shown ram₁ pages = shown ram pages := by
    apply shown_kept
    intro n f flags mapped
    have held := page_frame_held sound.laid mapped
    have owns := (sound_holds sound).issued f (Multiset.mem_add.mpr (Or.inl held))
    have step := done.effect
    rw [no_data] at step
    exact step.kept f owns (Multiset.notMem_zero f)
  have stop : stopOf area₁ = ProgramHeader.areaEnd ph := by
    rw [stopOf, done.same.1, done.same.2.1, start_eq, size_eq, BitVec.add_comm, BitVec.sub_add_cancel]
  have start : area₁.start = ProgramHeader.areaStart ph := done.same.1.trans start_eq
  have flags : area₁.flags = ph.memFlags := done.same.2.2.trans flags_eq
  obtain ⟨pages', sound', appears⟩ := insert_shown done.space sound.laid sound.keys done.framed
    (by rw [flags]; simp [ProgramHeader.memFlags, MemFlags.empty]) (by rw [start]; exact aligned)
    (by rw [done.same.2.1, size_eq]; exact size_aligned) (by rw [done.same.2.1]; exact some_page)
    (by
      intro va inside
      rw [stop, start] at inside
      unfold Between at inside
      rw [lt_def]
      omega) inserted
  rw [start, stop, content, flags, others] at appears
  exact ⟨data, pages', present, sound', appears⟩

theorem load_user_parts (run : ms.loadUser ram (some elf) = .ok (entry, top, ms', ram')) :
    ∃ ms₁ ram₁ stack, ms.loadSegments ram elf.programIter = .ok (ms₁, ram₁) ∧
      MapArea.newFramed userStackBase userStackSize ⟨true, true, false, true, false⟩ = .ok stack ∧
      ms₁.insert ram₁ stack = .ok (ms', ram') := by
  unfold MemorySet.loadUser at run
  simp only at run
  split at run
  · cases run
  split at run
  · cases run
  split at run
  · cases run
  rename_i ms₁ ram₁ segments
  split at run
  · cases run
  rename_i base valid
  obtain ⟨rfl, _⟩ := virt_addr_new_ok valid
  split at run
  · cases run
  rename_i stack made
  split at run
  · cases run
  rename_i ms₂ ram₂ inserted
  split at run
  · cases run
  split at run
  · cases run
  · cases run
    exact ⟨ms₁, ram₁, stack, segments, made, inserted⟩

end Segments

def OnPages (ph : ProgramHeader) (a : Nat) : Prop :=
  (ProgramHeader.areaStart ph).toNat ≤ a ∧ a < (ProgramHeader.areaEnd ph).toNat

def OnStack (a : Nat) : Prop := userStackBase.toNat ≤ a ∧ a < (userStackBase + userStackSize).toNat

/-- What loading segments adds to user memory. Segments that share a page are not accepted,
    so the order does not matter. -/
structure Extended (headers : List ProgramHeader) (old new : Nat → Option (BitVec 8 × MemFlags)) : Prop where
  kept : ∀ a x, old a = some x → new a = some x
  image : ∀ ph ∈ headers, ph.isLoad → ∃ data, ph.data = some data ∧
    ∀ a, OnPages ph a → new a = some (patch (fun _ => 0) ph.virtualAddr.toNat data a, ph.memFlags)
  nothing : ∀ a, (∀ ph ∈ headers, ph.isLoad → ¬ OnPages ph a) → new a = old a

theorem appears_kept (appears : Appears lo hi byte flags old new) (before : old a = some x) : new a = some x := by
  by_cases inside : lo ≤ a ∧ a < hi
  · rw [appears.unused a inside.1 inside.2] at before
    cases before
  · rw [appears.outside a (by omega), before]

theorem extended_cons (load : ph.isLoad) (present : ph.data = some data)
    (first : Appears (ProgramHeader.areaStart ph).toNat (ProgramHeader.areaEnd ph).toNat (patch (fun _ => 0) ph.virtualAddr.toNat data) ph.memFlags old mid)
    (others : Extended rest mid new) :
    Extended (ph :: rest) old new where
  kept := fun a x before => others.kept a x (appears_kept first before)
  image := by
    intro other member is_load
    rcases mem_cons.mp member with rfl | later
    · exact ⟨data, present, fun a on => others.kept a _ (first.inside a on.1 on.2)⟩
    · exact others.image other later is_load
  nothing := by
    intro a none_covers
    have outside := none_covers ph (.head _) load
    unfold OnPages at outside
    rw [others.nothing a fun other member => none_covers other (.tail _ member), first.outside a (by omega)]

theorem extended_skip (other : ph.isLoad = false) (others : Extended rest old new) :
    Extended (ph :: rest) old new where
  kept := others.kept
  image := by
    intro ph' member is_load
    rcases mem_cons.mp member with rfl | later
    · rw [other] at is_load
      cases is_load
    · exact others.image ph' later is_load
  nothing := fun a none_covers => others.nothing a fun ph' member => none_covers ph' (.tail _ member)

section Loading

variable {kernel : PageTable} {kroot root : Nat} {ram ram' : Ram} {pages : UserPages} {ms ms' : MemorySet}

theorem load_segments_shown (sound : Sound kernel kroot ram root pages ms)
    (placed : ∀ ph ∈ headers, ph.isLoad → Placed ph) (run : ms.loadSegments ram headers = .ok (ms', ram')) :
    ∃ pages', Sound kernel kroot ram' root pages' ms' ∧ Extended headers (shown ram pages) (shown ram' pages') := by
  induction headers generalizing ms ram pages with
  | nil =>
    cases run
    exact ⟨pages, sound, fun _ _ h => h, by simp, fun _ _ => rfl⟩
  | cons ph rest ih =>
    have placed_rest := fun ph' member => placed ph' (mem_cons_of_mem ph member)
    rw [MemorySet.loadSegments] at run
    split at run
    · cases run
    rename_i ms₁ ram₁ first
    cases load : ph.isLoad with
    | true =>
      obtain ⟨data, pages₁, present, sound₁, appears⟩ :=
        load_segment_shown sound load (placed ph (.head _) load) first
      obtain ⟨pages', sound', extended⟩ := ih sound₁ placed_rest run
      exact ⟨pages', sound', extended_cons load present appears extended⟩
    | false =>
      rw [MemorySet.loadSegment, if_pos (by simp [load])] at first
      cases first
      obtain ⟨pages', sound', extended⟩ := ih sound placed_rest run
      exact ⟨pages', sound', extended_skip load extended⟩

theorem load_user_shown (sound : Sound kernel kroot ram root pages ms)
    (placed : ∀ ph ∈ elf.programIter, ph.isLoad → Placed ph)
    (run : ms.loadUser ram (some elf) = .ok (entry, top, ms', ram')) :
    ∃ mid pages', Sound kernel kroot ram' root pages' ms' ∧ Extended elf.programIter (shown ram pages) mid ∧
      Appears userStackBase.toNat (userStackBase + userStackSize).toNat (fun _ => 0)
        ⟨true, true, false, true, false⟩ mid (shown ram' pages') := by
  obtain ⟨ms₁, ram₁, stack, segments, made, inserted⟩ := load_user_parts run
  obtain ⟨pages₁, sound₁, extended⟩ := load_segments_shown sound placed segments
  have fresh := new_framed_spec userStackBase userStackSize ⟨true, true, false, true, false⟩
  rw [made] at fresh
  obtain ⟨aligned, size_aligned, start_eq, size_eq, flags_eq, framed, no_data⟩ := fresh
  have space := sound₁.space
  rw [← zero_add (dataOfAll (areasOf ms₁)), ← no_data] at space
  have stop : stopOf stack = userStackBase + userStackSize := by rw [stopOf, start_eq, size_eq]
  obtain ⟨pages', sound', appears⟩ := insert_shown space sound₁.laid sound₁.keys framed
    (by rw [flags_eq]; decide) (by rw [start_eq]; exact aligned) (by rw [size_eq]; exact size_aligned)
    (by rw [size_eq]; decide)
    (by
      intro va inside
      rw [stop, start_eq] at inside
      have limit : (userStackBase + userStackSize).toNat ≤ kernelAspaceBase.toNat := by decide
      rw [lt_def]
      exact Nat.lt_of_lt_of_le inside.2.1 limit) inserted
  rw [start_eq, stop, flags_eq, contents_new ram₁ no_data] at appears
  exact ⟨_, pages', sound', extended, appears⟩

theorem reported_user (ph : ProgramHeader) : reported ph.memFlags = { ph.memFlags with read := true } := by
  have all : ∀ r w x, reported ⟨r, w, x, true, false⟩ = ⟨true, w, x, true, false⟩ := by decide
  exact all _ _ _

theorem user_byte_of_shown (sound : Sound kernel kroot ram root pages ms)
    (visible : shown ram pages va.toNat = some (byte, flags)) :
    userByte ms.pt ram va = some (byte, reported flags) := by
  have mapped : shown ram pages va.toNat ≠ none := by
    rw [visible]
    simp
  have user := shown_user sound.laid mapped
  rw [user_byte_shown sound.space.table user, visible]
  rfl

/-- A program loaded into a memory set without areas, as `new` and `clear` leave it, finds its
    segments, its stack and nothing else. Segments that share a page with each other or with
    the stack are not accepted. -/
theorem program_image_exact {elf : ElfFile} {entry top : VirtAddr} (sound : Sound kernel kroot ram root pages ms)
    (empty : ms.areas = OrderedMap.empty) (placed : ∀ ph ∈ elf.programIter, ph.isLoad → Placed ph)
    (loaded : ms.loadUser ram (some elf) = .ok (entry, top, ms', ram')) :
    (∀ ph ∈ elf.programIter, ph.isLoad → ∃ data, ph.data = some data ∧
      (∀ k (inside : k < data.length), userByte ms'.pt ram' (ph.virtualAddr + BitVec.ofNat 64 k) =
        some (data[k], { ph.memFlags with read := true })) ∧
      ∀ va : VirtAddr, OnPages ph va.toNat →
        va.toNat < ph.virtualAddr.toNat ∨ ph.virtualAddr.toNat + data.length ≤ va.toNat →
        userByte ms'.pt ram' va = some (0, { ph.memFlags with read := true })) ∧
    (∀ va : VirtAddr, OnStack va.toNat →
      userByte ms'.pt ram' va = some (0, ⟨true, true, false, true, false⟩)) ∧
    ∀ va, UserAddr va → ¬ OnStack va.toNat →
      (∀ ph ∈ elf.programIter, ph.isLoad → ¬ OnPages ph va.toNat) → ms'.pt.query ram' va = .ok none := by
  obtain ⟨mid, pages', sound', extended, stack⟩ := load_user_shown sound placed loaded
  refine ⟨?_, ?_, ?_⟩
  · intro ph member load
    obtain ⟨data, present, image⟩ := extended.image ph member load
    have place := placed ph member load
    have below := place.below
    have fits := place.fits data present
    obtain ⟨low, high⟩ := segment_range place
    have base : kernelAspaceBase.toNat = 2 ^ 64 - 2 ^ 39 := rfl
    refine ⟨data, present, ?_, ?_⟩
    · intro k inside
      have address : (ph.virtualAddr + BitVec.ofNat 64 k).toNat = ph.virtualAddr.toNat + k := by
        rw [BitVec.toNat_add, BitVec.toNat_ofNat]
        omega
      have on : OnPages ph (ph.virtualAddr.toNat + k) := by
        unfold OnPages
        omega
      have visible := appears_kept stack (image _ on)
      rw [patch_inside _ _ inside, ← address] at visible
      rw [user_byte_of_shown sound' visible, reported_user]
    · intro va on outside
      have visible := appears_kept stack (image _ on)
      rw [patch_outside _ outside] at visible
      rw [user_byte_of_shown sound' visible, reported_user]
  · intro va on
    exact user_byte_of_shown sound' (stack.inside va.toNat on.1 on.2)
  · intro va user off_stack uncovered
    apply query_hidden sound'.space.table user
    have none_before : shown ram pages va.toNat = none := by
      have laid := sound.laid
      rw [areasOf, empty] at laid
      rw [laid_nil_pages laid]
      rfl
    unfold OnStack at off_stack
    rw [stack.outside va.toNat (by omega), extended.nothing va.toNat uncovered, none_before]

end Loading

/-- The two bytes of a small program, the rest of its pages, its stack, and an address
    between them. -/
theorem plain_program_image : ∃ kernel kroot root before ms entry top ms' after,
    Sound kernel kroot before root (fun _ => none) ms ∧
    ms.loadUser before (some plainProgram) = .ok (entry, top, ms', after) ∧
    userByte ms'.pt after 0x400011 = some (0xc3, ⟨true, false, true, true, false⟩) ∧
    userByte ms'.pt after 0x401fff = some (0, ⟨true, false, true, true, false⟩) ∧
    userByte ms'.pt after 0x7ffefffffff8 = some (0, ⟨true, true, false, true, false⟩) ∧
    ms'.pt.query after 0x402000 = .ok none := by
  have loads : (bootSystem.bind fun boot => (MemorySet.new boot.kernel.pt boot.ram).toOption.bind fun made =>
      (made.1.loadUser made.2 (some plainProgram)).toOption).isSome := by
    decide +kernel
  obtain ⟨⟨entry, top, ms', after⟩, run⟩ := Option.isSome_iff_exists.mp loads
  obtain ⟨boot, booted, run⟩ := Option.bind_eq_some_iff.mp run
  obtain ⟨⟨ms, before⟩, made, run⟩ := Option.bind_eq_some_iff.mp run
  obtain ⟨kroot, good⟩ := booted_good (boot_system_booted booted)
  have fresh := new_spec good.kernel (good_kernel_tables good)
  rw [ok_of_to_option made] at fresh
  obtain ⟨empty, ⟨root, sound, _⟩, _, _⟩ := fresh
  have loaded := ok_of_to_option run
  have placed : ∀ ph ∈ plainProgram.programIter, ph.isLoad → Placed ph := by
    intro ph member _
    cases List.mem_singleton.mp member
    refine ⟨?_, by decide⟩
    intro data present
    cases present
    decide
  obtain ⟨segments, stack, nothing⟩ := program_image_exact sound empty placed loaded
  obtain ⟨data, present, file, zeros⟩ := segments _ List.mem_cons_self rfl
  cases present
  refine ⟨_, kroot, root, before, ms, entry, top, ms', after, sound, loaded, file 1 (by decide), ?_, ?_, ?_⟩
  · exact zeros 0x401fff (by unfold OnPages; decide) (by decide)
  · exact stack 0x7ffefffffff8 (by unfold OnStack; decide)
  apply nothing 0x402000 (by decide) (by unfold OnStack; decide)
  intro ph member _
  cases List.mem_singleton.mp member
  unfold OnPages
  decide

end RtosNimbosLoadImage
