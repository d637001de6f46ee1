import CompositeRtos.Nimbos.UserSets

/-!
Copying a memory set. `dup` builds a fresh set and inserts a copy of each area. It needs frames
for the root, for the copied data and for at most three tables per page; with these it succeeds
as long as the areas of the original are laid out soundly, because the ranges that were disjoint
in the original are disjoint in the copy. The frames of the original are only read.
-/
namespace RtosNimbosSetCopy
open RtosTransition RtosLedger RtosFrameMemory RtosOrderedMap RtosNimbosFrames RtosNimbosPageTable
open RtosNimbosMemorySet RtosNimbosFrameLedger
open RtosNimbosAddressSpace RtosNimbosAreas RtosNimbosUserSets
open RtosNimbosLoadStage (SameArea same_area_trans)

def areaNeed (area : MapArea) : Nat :=
  Multiset.card (dataOf area) + 4 * pageCount area.start (stopOf area)

def forkNeed (ms : MemorySet) : Nat := 1 + ((areasOf ms).map areaNeed).sum

def dupInto (copy : MemorySet) (ram : Ram) (area : MapArea) : Except Panic (MemorySet × Ram) :=
  match area.dup ram with
  | .error e => .error e
  | .ok (area', ram') => copy.insert ram' area'

theorem dup_areas_cons : copy.dupAreas ram ((start, area) :: rest) = match dupInto copy ram area with
      | .error e => .error e
      | .ok (copy', ram') => copy'.dupAreas ram' rest := by
  rw [MemorySet.dupAreas, dupInto]
  cases area.dup ram with
  | error e => rfl
  | ok result => rfl

variable {kernel : PageTable} {kroot root : Nat} {ram : Ram} {pages : UserPages} {copy : MemorySet}
  {area : MapArea}

theorem area_copy_later (h : AreaCopy then_bytes area bytes a) (same : SameArea a b)
    (grows : ∀ va g, frameAt a va = some g → frameAt b va = some g)
    (kept : ∀ g ∈ dataOf a, SameFrame bytes bytes' g) : AreaCopy then_bytes area bytes' b := by
  refine ⟨same_area_trans h.1 same, ?_⟩
  intro va f found
  obtain ⟨g, there, content⟩ := h.2 va f found
  exact ⟨g, grows va g there, frame_copy_later content (kept g (frame_held there))⟩

theorem area_copy_earlier (h : AreaCopy bytes area bytes' a)
    (kept : ∀ f ∈ dataOf area, SameFrame then_bytes bytes f) : AreaCopy then_bytes area bytes' a := by
  refine ⟨h.1, ?_⟩
  intro va f found
  obtain ⟨g, there, content⟩ := h.2 va f found
  exact ⟨g, there, frame_copy_earlier content (kept f (frame_held found))⟩

theorem data_not_table (space : Space kernel kroot ram root pt pages data) (member : f ∈ data) :
    ram.Issued f ∧ f ∉ pt.intrmTables := by
  have owns := holds_part space.owns
  obtain ⟨_, _, apart⟩ := Multiset.nodup_add.mp owns.nodup
  exact ⟨owns.issued f (Multiset.mem_add.mpr (Or.inr member)),
    fun table => Multiset.disjoint_left.mp apart table member⟩

structure AreaAdded (kernel : PageTable) (kroot root : Nat) (ram : Ram) (pages : UserPages) (copy : MemorySet)
    (area : MapArea) (copy' : MemorySet) (ram' : Ram) (area' : MapArea) : Prop where
  copied : AreaCopy ram.bytes area ram'.bytes area'
  areas : copy'.areas = copy.areas.insert area.start.toNat area'
  sound : Sound kernel kroot ram' root (overlay pages area' area.start.toNat (stopOf area).toNat) copy'
  effect : Effect ram (held copy) ram' (held copy')
  growth : Growth ram copy.pt.intrmTables ram' copy'.pt.intrmTables
  room : ram.availableSpace ≤ ram'.availableSpace + areaNeed area

theorem dup_area_spec (sound : Sound kernel kroot ram root pages copy) (fine : AreaFine area)
    (absent : copy.areas.lookup area.start.toNat = none) (free : ∀ n, Covers area n → pages n = none)
    (issued : ∀ f ∈ dataOf area, ram.Issued f) :
    Ends (fun e => e = .outOfFrames ∧ ram.availableSpace < areaNeed area)
      (fun result => ∃ area', AreaAdded kernel kroot root ram pages copy area result.1 result.2 area')
      (dupInto copy ram area) := by
  unfold dupInto
  have first := area_dup_spec (space_sane sound.space) fine.framed issued
  generalize area.dup ram = outcome at first
  cases outcome with
  | error e =>
    obtain ⟨rfl, short_of⟩ := first
    exact ⟨rfl, Nat.lt_of_lt_of_le short_of (Nat.le_add_right _ _)⟩
  | ok result =>
    obtain ⟨area₁, ram₁⟩ := result
    obtain ⟨framed, copied, taken, growth, room⟩ := first
    simp only at framed copied taken growth room ⊢
    obtain ⟨start_eq, size_eq, flags_eq⟩ := copied.1
    have stop_eq : stopOf area₁ = stopOf area := by rw [stopOf, stopOf, start_eq, size_eq]
    have before := sound.space
    rw [← zero_add (dataOfAll (areasOf copy))] at before
    have space := space_data before taken
    have inserted := insert_spec space sound.laid sound.keys framed (by rw [flags_eq]; exact fine.some_flag)
      (by rw [start_eq]; exact fine.aligned) (by rw [size_eq]; exact fine.size_aligned)
      (by rw [size_eq]; exact fine.some_page)
      (by
        rw [start_eq, stop_eq]
        exact fun va inside => (fine.filled va inside).1.2)
    rw [start_eq, stop_eq] at inserted
    generalize copy.insert ram₁ area₁ = outcome at inserted
    cases outcome with
    | error e =>
      rcases inserted with ⟨_, present⟩ | failure
      · exact absurd absent present
      cases failure with
      | full short_of => exact ⟨rfl, by unfold areaNeed; omega⟩
      | invalid va inside bad => exact absurd (fine.filled va inside).1.1 bad
      | taken va inside used => exact absurd (free _ (covers_of_between inside).1) used
    | ok result =>
      obtain ⟨copy', ram'⟩ := result
      obtain ⟨area', done⟩ := inserted
      have sound' := done.sound
      rw [start_eq, stop_eq] at sound'
      have areas := done.areas
      rw [start_eq] at areas
      refine ⟨area', ?_, areas, sound', ?_, ?_, ?_⟩
      · apply area_copy_later copied done.same done.grows
        intro g member
        obtain ⟨busy, outside⟩ := data_not_table space (Multiset.mem_add.mpr (Or.inl member))
        exact done.growth.kept g busy outside
      · have owns := sound_holds sound
        rw [← zero_add (held copy)] at owns
        have step := effect_frame taken owns
        rw [zero_add] at step
        exact effect_trans step done.effect
      · exact growth_trans (growth_of_take taken _) done.growth
      · have := done.room
        rw [start_eq, stop_eq] at this
        unfold areaNeed
        omega

structure AreasCopied (kernel : PageTable) (kroot root : Nat) (ram : Ram) (copy : MemorySet)
    (entries : List (Nat × MapArea)) (copy' : MemorySet) (ram' : Ram) : Prop where
  sound : ∃ pages', Sound kernel kroot ram' root pages' copy'
  effect : Effect ram (held copy) ram' (held copy')
  growth : Growth ram copy.pt.intrmTables ram' copy'.pt.intrmTables
  keeps : ∀ a ∈ areasOf copy, a ∈ areasOf copy'
  copies : ∀ e ∈ entries, ∃ a ∈ areasOf copy', AreaCopy ram.bytes e.2 ram'.bytes a
  only : ∀ a ∈ areasOf copy', a ∈ areasOf copy ∨ ∃ e ∈ entries, AreaCopy ram.bytes e.2 ram'.bytes a

theorem growth_outside (growth : Growth ram tables ram' tables') (before : ram.Issued f ∧ f ∉ tables) :
    ram'.Issued f ∧ f ∉ tables' := by
  refine ⟨growth.issued f before.1, fun table => ?_⟩
  rcases growth.fresh f table with old | new
  · exact before.2 old
  · exact new before.1

structure Pending (ram : Ram) (pages : UserPages) (copy : MemorySet) (entries : List (Nat × MapArea)) : Prop where
  sorted : entries.Pairwise fun a b => a.1 < b.1
  keys : ∀ e ∈ entries, e.1 = e.2.start.toNat
  fine : ∀ e ∈ entries, AreaFine e.2
  apart : (entries.map Prod.snd).Pairwise fun a b => ∀ n, Covers a n → ¬ Covers b n
  absent : ∀ e ∈ entries, copy.areas.lookup e.1 = none
  free : ∀ e ∈ entries, ∀ n, Covers e.2 n → pages n = none
  issued : ∀ e ∈ entries, ∀ f ∈ dataOf e.2, ram.Issued f ∧ f ∉ copy.pt.intrmTables

section Round

variable {start : Nat} {rest : List (Nat × MapArea)} {copy₁ : MemorySet} {ram₁ : Ram} {area' : MapArea}
  (pending : Pending ram pages copy ((start, area) :: rest))
  (added : AreaAdded kernel kroot root ram pages copy area copy₁ ram₁ area')

include pending added

theorem pending_tail :
    Pending ram₁ (overlay pages area' area.start.toNat (stopOf area).toNat) copy₁ rest := by
  obtain ⟨ahead, sorted⟩ := List.pairwise_cons.mp pending.sorted
  have apart := pending.apart
  rw [List.map_cons, List.pairwise_cons] at apart
  have later : ∀ e ∈ rest, e ∈ (start, area) :: rest := fun e member => .tail _ member
  refine ⟨sorted, fun e member => pending.keys e (later e member), fun e member => pending.fine e (later e member),
    apart.2, ?_, ?_, ?_⟩
  · intro e member
    have key : start = area.start.toNat := pending.keys _ (.head _)
    rw [added.areas, OrderedMap.lookup_insert, ← key, if_neg (Nat.ne_of_gt (ahead e member))]
    exact pending.absent e (later e member)
  · intro e member n covers
    rw [overlay_elsewhere fun here => apart.1 e.2 (List.mem_map.mpr ⟨e, member, rfl⟩) n here covers]
    exact pending.free e (later e member) n covers
  · intro e member f inside
    exact growth_outside added.growth (pending.issued e (later e member) f inside)

/-- One area and then the rest. The frames of the originals are read later than they were for
    the first area, and the copy of the first area stays while the rest is copied. -/
theorem areas_copied_cons (last : AreasCopied kernel kroot root ram₁ copy₁ rest copy' ram') :
    AreasCopied kernel kroot root ram copy ((start, area) :: rest) copy' ram' := by
  have earlier : ∀ e ∈ rest, ∀ a, AreaCopy ram₁.bytes e.2 ram'.bytes a → AreaCopy ram.bytes e.2 ram'.bytes a := by
    intro e member a content
    apply area_copy_earlier content
    intro f inside
    obtain ⟨busy, outside⟩ := pending.issued e (.tail _ member) f inside
    exact added.growth.kept f busy outside
  have members : ∀ a, a ∈ areasOf copy₁ ↔ a = area' ∨ a ∈ areasOf copy := by
    intro a
    have missing := pending.absent _ (.head _)
    rw [pending.keys _ List.mem_cons_self] at missing
    rw [areasOf, added.areas, (areas_insert area' missing).mem_iff, List.mem_cons]
    rfl
  have here : area' ∈ areasOf copy₁ := (members area').mpr (Or.inl rfl)
  have first : AreaCopy ram.bytes area ram'.bytes area' := by
    apply area_copy_later added.copied ⟨rfl, rfl, rfl⟩ fun _ _ h => h
    intro g inside
    obtain ⟨busy, outside⟩ := data_not_table added.sound.space (mem_total here inside)
    exact last.growth.kept g busy outside
  refine ⟨last.sound, effect_trans added.effect last.effect, growth_trans added.growth last.growth, ?_, ?_, ?_⟩
  · intro a member
    exact last.keeps a ((members a).mpr (Or.inr member))
  · intro e member
    rcases List.mem_cons.mp member with rfl | later
    · exact ⟨area', last.keeps area' here, first⟩
    · obtain ⟨a, inside, content⟩ := last.copies e later
      exact ⟨a, inside, earlier e later a content⟩
  intro a member
  rcases last.only a member with before | ⟨e, later, content⟩
  · rcases (members a).mp before with rfl | old
    · exact Or.inr ⟨_, (.head _), first⟩
    · exact Or.inl old
  · exact Or.inr ⟨e, .tail _ later, earlier e later a content⟩

end Round

theorem dup_areas_spec (sound : Sound kernel kroot ram root pages copy) (pending : Pending ram pages copy entries) :
    Ends (fun e => e = .outOfFrames ∧ ram.availableSpace < ((entries.map Prod.snd).map areaNeed).sum)
      (fun result => AreasCopied kernel kroot root ram copy entries result.1 result.2)
      (copy.dupAreas ram entries) := by
  induction entries generalizing copy ram pages with
  | nil =>
    exact ⟨⟨pages, sound⟩, effect_refl (sound_holds sound), growth_refl, fun _ h => h, by simp,
      fun a member => Or.inl member⟩
  | cons e rest ih =>
    obtain ⟨start, area⟩ := e
    have key : start = area.start.toNat := pending.keys _ (.head _)
    have step := dup_area_spec sound (pending.fine _ (.head _))
      (by rw [← key]; exact pending.absent _ (.head _)) (pending.free _ (.head _))
      fun f member => (pending.issued _ (.head _) f member).1
    have sums : (((start, area) :: rest).map Prod.snd |>.map areaNeed).sum =
        areaNeed area + ((rest.map Prod.snd).map areaNeed).sum := by simp
    rw [dup_areas_cons, sums]
    generalize dupInto copy ram area = outcome at step
    cases outcome with
    | error e =>
      obtain ⟨rfl, short_of⟩ := step
      exact ⟨rfl, Nat.lt_of_lt_of_le short_of (Nat.le_add_right _ _)⟩
    | ok result =>
      obtain ⟨copy₁, ram₁⟩ := result
      obtain ⟨area', added⟩ := step
      have onward := ih added.sound (pending_tail pending added)
      have room := added.room
      simp only at onward room ⊢
      generalize copy₁.dupAreas ram₁ rest = outcome at onward
      cases outcome with
      | error e =>
        obtain ⟨rfl, short_of⟩ := onward
        exact ⟨rfl, by omega⟩
      | ok result => exact areas_copied_cons pending added onward

structure Copied (kernel : PageTable) (kroot : Nat) (ram : Ram) (ms copy : MemorySet) (ram' : Ram) : Prop where
  sound : ∃ root pages, Sound kernel kroot ram' root pages copy
  effect : Effect ram 0 ram' (held copy)
  growth : Growth ram [] ram' copy.pt.intrmTables
  copies : ∀ a ∈ areasOf ms, ∃ b ∈ areasOf copy, AreaCopy ram.bytes a ram'.bytes b
  only : ∀ b ∈ areasOf copy, ∃ a ∈ areasOf ms, AreaCopy ram.bytes a ram'.bytes b

theorem dup_spec (sound : Sound kernel kroot ram root pages ms) :
    Ends (fun e => e = .outOfFrames ∧ ram.availableSpace < forkNeed ms)
      (fun result => Copied kernel kroot ram ms result.1 result.2) (ms.dup kernel ram) := by
  have tables : Holds (pool ram) ↑kernel.intrmTables := by
    have owns := sound.space.owns
    rw [add_comm] at owns
    exact holds_part owns
  have made := new_spec sound.space.beside tables
  unfold MemorySet.dup
  generalize MemorySet.new kernel ram = outcome at made
  cases outcome with
  | error e =>
    obtain ⟨rfl, none_left⟩ := made
    exact ⟨rfl, by unfold forkNeed; omega⟩
  | ok result =>
    obtain ⟨copy, ram₁⟩ := result
    obtain ⟨no_areas, ⟨root', sound₁, table⟩, step, room⟩ := made
    simp only at no_areas sound₁ table step room ⊢
    have growth : Growth ram [] ram₁ copy.pt.intrmTables := by
      have beside := growth_of_take step []
      refine ⟨beside.issued, ?_, beside.kept⟩
      intro f member
      have inside : f ∈ held copy := Multiset.mem_add.mpr (Or.inr member)
      rcases step.exchange.fresh f inside with before | free
      · exact absurd before (Multiset.notMem_zero f)
      · exact Or.inr fun busy => Ram.issued_unavailable busy free
    have issued : ∀ e ∈ ms.areas.entries, ∀ f ∈ dataOf e.2, ram.Issued f := by
      intro e member f inside
      exact (data_not_table sound.space (mem_total (List.mem_map.mpr ⟨e, member, rfl⟩) inside)).1
    have pending : Pending ram₁ (fun _ => none) copy ms.areas.entries := by
      refine ⟨ms.areas.sorted, sound.keys, ?_, sound.laid.apart, ?_, fun _ _ _ _ => rfl, ?_⟩
      · exact fun e member => sound.laid.fine e.2 (List.mem_map.mpr ⟨e, member, rfl⟩)
      · intro e _
        rw [no_areas]
        rfl
      · exact fun e member f inside => growth_outside growth ⟨issued e member f inside, by simp⟩
    have loop := dup_areas_spec sound₁ pending
    generalize copy.dupAreas ram₁ ms.areas.entries = outcome at loop
    cases outcome with
    | error e =>
      obtain ⟨rfl, short_of⟩ := loop
      refine ⟨rfl, ?_⟩
      unfold forkNeed areasOf
      omega
    | ok result =>
      obtain ⟨copy', ram'⟩ := result
      have done : AreasCopied kernel kroot root' ram₁ copy ms.areas.entries copy' ram' := loop
      obtain ⟨pages', sound'⟩ := done.sound
      have earlier : ∀ e ∈ ms.areas.entries, ∀ b, AreaCopy ram₁.bytes e.2 ram'.bytes b →
          AreaCopy ram.bytes e.2 ram'.bytes b := by
        intro e member b content
        apply area_copy_earlier content
        intro f inside
        exact growth.kept f (issued e member f inside) (by simp)
      refine ⟨⟨root', pages', sound'⟩, effect_trans step done.effect, growth_trans growth done.growth, ?_, ?_⟩
      · intro a member
        obtain ⟨e, inside, rfl⟩ := List.mem_map.mp member
        obtain ⟨b, there, content⟩ := done.copies e inside
        exact ⟨b, there, earlier e inside b content⟩
      intro b member
      rcases done.only b member with before | ⟨e, inside, content⟩
      · rw [areasOf, no_areas] at before
        cases before
      · exact ⟨e.2, List.mem_map.mpr ⟨e, inside, rfl⟩, earlier e inside b content⟩

end RtosNimbosSetCopy
