import CompositeRtos.Lib.Transition
import CompositeRtos.Nimbos.PageTree

/-!
The page table refines a partial function from page numbers to frames and flags. The
machine runs `map` and `unmap` on one page table, next to the other users of the frame
allocator: these allocate, free what the page table does not own, and write to any frame
the page table does not own.
-/
namespace RtosNimbosPaging
open RtosTransition RtosFrameMemory RtosRadixWalk RtosNimbosFrames RtosNimbosPageTable Function
open RtosNimbosPageTree

def pageOf (va : VirtAddr) : Nat := va.toNat / 4096

abbrev Mapping := Nat → Option (PhysAddr × MemFlags)

def translate (pages : Mapping) (va : VirtAddr) : Option (PhysAddr × MemFlags) :=
  (pages (pageOf va)).map fun (pa, flags) => (pa + pageOffset va, flags)

structure State where
  ram : Ram
  pt : PageTable
  pages : Mapping

inductive Action where
  | map (va : VirtAddr) (pa : PhysAddr) (flags : MemFlags)
  | unmap (va : VirtAddr)
  | otherAlloc
  | otherFree (frame : Nat)
  | otherWrite (address : Nat) (byte : BitVec 8)

def act (s : State) : Action → Except Panic State
  | .map va pa flags =>
    match s.pt.map s.ram va pa flags with
    | .error e => .error e
    | .ok (pt, ram) => .ok ⟨ram, pt, Function.update s.pages (pageOf va) (some (pa, flags))⟩
  | .unmap va =>
    match s.pt.unmap s.ram va with
    | .error e => .error e
    | .ok ram => .ok ⟨ram, s.pt, Function.update s.pages (pageOf va) none⟩
  | .otherAlloc =>
    match s.ram.alloc with
    | none => .error .outOfFrames
    | some (_, ram) => .ok { s with ram := ram }
  | .otherFree frame =>
    match s.ram.free frame with
    | .error e => .error e
    | .ok ram => .ok { s with ram := ram }
  | .otherWrite address byte =>
    .ok { s with ram := s.ram.write address byte }

/-- What callers owe: canonical aligned pages, a frame below 2^40, a readable mapping, no
    page mapped twice or unmapped twice, and one owner for each frame. -/
def Permitted (s : State) : Action → Prop
  | .map va pa flags => Canonical va ∧ isAligned va ∧ isAligned pa ∧ pa.toNat < 2 ^ 40 ∧
      flags.read ∧ s.pages (pageOf va) = none
  | .unmap va => Canonical va ∧ isAligned va ∧ s.pages (pageOf va) ≠ none
  | .otherAlloc => True
  | .otherFree frame => frame ∉ s.pt.intrmTables
  | .otherWrite address _ => address / 4096 ∉ s.pt.intrmTables

instance (s : State) (a : Action) : Decidable (Permitted s a) := by
  cases a <;> unfold Permitted <;> infer_instance

def paging : Machine State Action where
  start s := ∃ before, PageTable.new before = .ok (s.pt, s.ram) ∧ s.pages = fun _ => none
  next s a t := Permitted s a ∧ act s a = .ok t

def Action.page : Action → Option Nat
  | .map va _ _ => some (pageOf va)
  | .unmap va => some (pageOf va)
  | _ => none

theorem act_keeps_pages (run : act s a = .ok t) (other : a.page ≠ some n) : t.pages n = s.pages n := by
  cases a with
  | map va pa flags =>
    have ne : n ≠ pageOf va := fun same => other (by rw [same]; rfl)
    simp only [act] at run
    split at run
    · cases run
    · cases run
      exact update_of_ne ne _ _
  | unmap va =>
    have ne : n ≠ pageOf va := fun same => other (by rw [same]; rfl)
    simp only [act] at run
    split at run
    · cases run
    · cases run
      exact update_of_ne ne _ _
  | otherAlloc =>
    simp only [act] at run
    split at run <;> cases run
    rfl
  | otherFree frame =>
    simp only [act] at run
    split at run <;> cases run
    rfl
  | otherWrite address byte =>
    cases run
    rfl

theorem same_slot_iff (ha : Canonical va) (hb : Canonical vb) :
    upperIndices vb = upperIndices va ∧ p1Index vb = p1Index va ↔ pageOf vb = pageOf va := by
  have range_a := canonical_range ha
  have range_b := canonical_range hb
  have bound_a := va.isLt
  have bound_b := vb.isLt
  simp only [upperIndices, List.cons.injEq, and_true, p4Index, p3Index, p2Index, p1Index, Fin.ext_iff,
    index_value, pageOf]
  omega

def entryOf : Option (PhysAddr × MemFlags) → BitVec 64
  | none => 0
  | some (pa, flags) => Pte.newPage pa flags false

structure Refines (s : State) (root : Nat) : Prop where
  at_root : s.pt.rootPaddr = startPaddr root
  tree : Tree s.ram root
  covers : ∀ f, Reached child s.ram.view root 3 f → f ∈ s.pt.intrmTables
  owned : ∀ f ∈ s.pt.intrmTables, ¬ s.ram.Available f
  leaves : ∀ va, Canonical va →
    leaf s.ram root (upperIndices va) (p1Index va) = entryOf (s.pages (pageOf va))
  sound : ∀ n pa flags, s.pages n = some (pa, flags) →
    2 ^ 12 ∣ pa.toNat ∧ pa.toNat < 2 ^ 40 ∧ flags.read

theorem entry_of_unused (h : Refines s root) : entryOf (s.pages n) = 0 ↔ s.pages n = none := by
  cases mapped : s.pages n with
  | none => simp [entryOf]
  | some entry =>
    obtain ⟨pa, flags⟩ := entry
    obtain ⟨_, _, readable⟩ := h.sound n pa flags mapped
    have some_flag : flags ≠ MemFlags.empty := by
      intro same
      rw [same] at readable
      cases readable
    constructor
    · intro zero
      exact absurd zero (new_page_used pa some_flag)
    · intro missing
      cases missing

theorem query_translates (h : Refines s root) (canonical : Canonical va) :
    s.pt.query s.ram va = .ok (translate s.pages va) := by
  rw [query_spec h.tree s.pt h.at_root va, h.leaves va canonical, translate]
  cases mapped : s.pages (pageOf va) with
  | none => rfl
  | some entry =>
    obtain ⟨pa, flags⟩ := entry
    obtain ⟨aligned, small, readable⟩ := h.sound _ pa flags mapped
    have used : ¬ Pte.isUnused (entryOf (some (pa, flags))) = true := by
      rw [unused_iff, ← mapped, entry_of_unused h, mapped]
      simp
    have offset := page_offset_toNat va
    have sum : (pa + pageOffset va).toNat = pa.toNat + va.toNat % 2 ^ 12 := by
      rw [BitVec.toNat_add, offset]
      omega
    have whole : PhysAddr.new (pa + pageOffset va) = pa + pageOffset va := by
      apply RtosBitField.and_field 0 40 (by decide) (by simp)
      rw [sum]
      omega
    simp only [if_neg used]
    simp only [entryOf, paddr_new_page aligned small, flags_new_page readable, whole, Option.map_some]

theorem refines_after (h : Refines s root) (canonical : Canonical va) (value : Option (PhysAddr × MemFlags))
    (grown : Grown s.pt s.ram pt ram root (upperIndices va))
    (leaves : ∀ q j, q.length = 3 → leaf ram root q j = if q = upperIndices va ∧ j = p1Index va then entryOf value else leaf s.ram root q j)
    (sound : ∀ pa flags, value = some (pa, flags) → 2 ^ 12 ∣ pa.toNat ∧ pa.toNat < 2 ^ 40 ∧ flags.read) :
    Refines ⟨ram, pt, update s.pages (pageOf va) value⟩ root := by
  obtain ⟨new, tables, fresh⟩ := grown.tables
  refine ⟨grown.kept_root.trans h.at_root, grown.tree, ?_, ?_, ?_, ?_⟩
  · rintro f ⟨q, len, reached⟩
    rcases grown.back q f len reached with before | made
    · rw [tables]
      exact List.mem_append_left _ (h.covers f ⟨q, len, before⟩)
    · exact made.1
  · intro f member
    rw [tables] at member
    rcases List.mem_append.mp member with old | young
    · exact fun still => h.owned f old (grown.shrinks f still)
    · exact (fresh f young).2
  · intro vb canonical_b
    have slot := same_slot_iff canonical canonical_b
    rw [leaves _ _ (upper_length vb)]
    by_cases same : pageOf vb = pageOf va
    · rw [if_pos (slot.mpr same)]
      simp only [same, update_self]
    · rw [if_neg (fun h => same (slot.mp h)), h.leaves vb canonical_b]
      simp only [update_of_ne same]
  · intro n pa flags mapped
    by_cases same : n = pageOf va
    · simp only [same, update_self] at mapped
      exact sound pa flags mapped
    · simp only [update_of_ne same] at mapped
      exact h.sound n pa flags mapped

theorem refines_beside (h : Refines s root) (ram : Ram)
    (same : ∀ f ∈ s.pt.intrmTables, SameFrame s.ram.bytes ram.bytes f)
    (owned : ∀ f ∈ s.pt.intrmTables, ¬ ram.Available f) : Refines { s with ram := ram } root := by
  have kept : ∀ f, Reached child s.ram.view root 3 f → SameFrame s.ram.bytes ram.bytes f :=
    fun f reached => same f (h.covers f reached)
  refine ⟨h.at_root, tree_outside kept h.tree (fun f reached => owned f (h.covers f reached)), ?_, owned,
    ?_, h.sound⟩
  · rintro f ⟨q, len, reached⟩
    rw [walks_outside kept len] at reached
    exact h.covers f ⟨q, len, reached⟩
  · intro va canonical
    rw [leaves_outside kept _ (upper_length va), h.leaves va canonical]

theorem new_refines (h : paging.start s) : ∃ root, Refines s root := by
  obtain ⟨before, made, empty⟩ := h
  unfold PageTable.new at made
  split at made
  · cases made
  rename_i root ram found
  obtain ⟨table, memory⟩ := Prod.mk.inj (Except.ok.inj made)
  subst memory
  obtain ⟨tree, only⟩ := new_tree found
  refine ⟨root, ?_, tree, ?_, ?_, ?_, ?_⟩
  · rw [← table]
  · rintro f ⟨q, _, reached⟩
    rw [← table, (only q f reached).2]
    exact List.mem_singleton_self root
  · intro f member
    rw [← table] at member
    rw [List.mem_singleton.mp member]
    exact (tree.live root ⟨[], by simp, rfl⟩).1
  · intro va _
    have unreached : walk child s.ram.view root (upperIndices va) = none := by
      cases ends : walk child s.ram.view root (upperIndices va) with
      | none => rfl
      | some f => exact absurd (only _ f ends).1 (by simp [upperIndices])
    rw [empty]
    exact RtosTableTree.cell_of_none unreached
  · intro n pa flags mapped
    rw [empty] at mapped
    cases mapped

theorem map_succeeds (h : Refines s root) (permitted : Permitted s (.map va pa flags))
    (room : 3 ≤ s.ram.availableSpace) : ∃ t, act s (.map va pa flags) = .ok t := by
  obtain ⟨canonical, _, _, _, _, absent⟩ := permitted
  have outcome := map_spec h.tree h.at_root va pa flags
  simp only [act]
  generalize s.pt.map s.ram va pa flags = result at outcome
  cases outcome with
  | full short_of => omega
  | taken used => exact absurd (by rw [h.leaves va canonical, absent]; rfl) used
  | entered free grown leaves => exact ⟨_, rfl⟩

theorem unmap_succeeds (h : Refines s root) (permitted : Permitted s (.unmap va)) :
    ∃ t, act s (.unmap va) = .ok t := by
  obtain ⟨canonical, _, present⟩ := permitted
  have outcome := unmap_spec h.tree h.at_root va
  simp only [act]
  generalize s.pt.unmap s.ram va = result at outcome
  cases outcome with
  | missing free why =>
    rw [h.leaves va canonical, entry_of_unused h] at free
    exact absurd free present
  | cleared used grown leaves => exact ⟨_, rfl⟩

theorem step_refines (h : Refines s root) (step : paging.next s a t) : Refines t root := by
  obtain ⟨permitted, run⟩ := step
  cases a with
  | map va pa flags =>
    obtain ⟨canonical, _, aligned, small, readable, _⟩ := permitted
    have outcome := map_spec h.tree h.at_root va pa flags
    rw [align_down_aligned aligned] at outcome
    simp only [act] at run
    generalize s.pt.map s.ram va pa flags = result at outcome run
    cases outcome with
    | full => cases run
    | taken => cases run
    | entered free grown leaves =>
      cases run
      apply refines_after h canonical (some (pa, flags)) grown leaves
      rintro _ _ ⟨⟩
      exact ⟨(aligned_iff pa).mp aligned, small, readable⟩
  | unmap va =>
    obtain ⟨canonical, _, _⟩ := permitted
    have outcome := unmap_spec h.tree h.at_root va
    simp only [act] at run
    generalize s.pt.unmap s.ram va = result at outcome run
    cases outcome with
    | missing => cases run
    | cleared used grown leaves =>
      cases run
      apply refines_after h canonical none grown leaves
      rintro _ _ ⟨⟩
  | otherAlloc =>
    simp only [act] at run
    split at run
    · cases run
    rename_i f ram made
    cases run
    obtain ⟨_, same, others, _⟩ := Ram.alloc_some made
    apply refines_beside h ram
    · intro f _
      rw [same]
      exact same_frame_refl
    · intro f member still
      exact h.owned f member ((others f).mp still).1
  | otherFree frame =>
    simp only [act] at run
    split at run
    · cases run
    rename_i ram freed
    cases run
    obtain ⟨same, others⟩ := Ram.free_ok freed
    apply refines_beside h ram
    · intro f _
      rw [same]
      exact same_frame_refl
    intro f member still
    rcases (others f).mp still with before | here
    · exact h.owned f member before
    · subst here
      exact permitted member
  | otherWrite address byte =>
    cases run
    apply refines_beside h (s.ram.write address byte) _ h.owned
    intro f member a inside
    apply update_of_ne
    intro same
    subst same inside
    exact permitted member

theorem run_refines (h : Reachable paging s) : ∃ root, Refines s root := by
  apply reachable_invariant (fun s => ∃ root, Refines s root) _ _ h
  · intro s start
    exact new_refines start
  · rintro s a t ⟨root, before⟩ step
    exact ⟨root, step_refines before step⟩

theorem page_table_refines {s : State} (h : Reachable paging s) :
    (∀ va, Canonical va → s.pt.query s.ram va = .ok (translate s.pages va)) ∧
    (∀ va pa flags, Permitted s (.map va pa flags) → 3 ≤ s.ram.availableSpace →
      ∃ t, act s (.map va pa flags) = .ok t) ∧
    (∀ va, Permitted s (.unmap va) → ∃ t, act s (.unmap va) = .ok t) ∧
    (∀ a t, paging.next s a t → ∀ va, Canonical va → a.page ≠ some (pageOf va) →
      t.pt.query t.ram va = s.pt.query s.ram va) := by
  obtain ⟨root, refines⟩ := run_refines h
  refine ⟨fun va canonical => query_translates refines canonical, ?_, ?_, ?_⟩
  · intro va pa flags permitted room
    exact map_succeeds refines permitted room
  · intro va permitted
    exact unmap_succeeds refines permitted
  intro a t step va canonical other
  rw [query_translates refines canonical, query_translates (step_refines refines step) canonical]
  rw [translate, translate, act_keeps_pages step.2 other]

def attempt (s : State) (a : Action) : Option State :=
  if Permitted s a then (act s a).toOption else none

theorem attempt_allowed (s : State) (a : Action) (t : State) (h : attempt s a = some t) :
    paging.next s a t := by
  unfold attempt at h
  split at h
  · rename_i permitted
    exact ⟨permitted, ok_of_to_option h⟩
  · cases h

def smallRam : Ram := ⟨fun _ => 0xa5, FreeListAllocator.init 1 8, by decide⟩

def userData : MemFlags := ⟨true, true, false, true, false⟩

def mapTwice : List Action :=
  [.map 0x1000 0x9000 userData, .map 0x2000 0xb000 userData, .unmap 0x1000, .otherAlloc]

theorem remapped_page_translates : ∃ s, Reachable paging s ∧
    s.pt.query s.ram 0x2345 = .ok (some (0xb345, userData)) ∧ s.pt.query s.ram 0x1234 = .ok none := by
  have result : (((PageTable.new smallRam).toOption.bind fun (pt, ram) =>
      mapTwice.foldlM attempt ⟨ram, pt, fun _ => none⟩).map fun s =>
        (translate s.pages 0x2345, translate s.pages 0x1234)) =
      some (some (0xb345, userData), none) := by
    decide
  obtain ⟨s, run, seen⟩ := Option.map_eq_some_iff.mp result
  obtain ⟨⟨pt, ram⟩, made, path⟩ := Option.bind_eq_some_iff.mp run
  obtain ⟨mapped, unmapped⟩ := Prod.mk.inj seen
  have start : Reachable paging ⟨ram, pt, fun _ => none⟩ :=
    reachable_start ⟨smallRam, ok_of_to_option made, rfl⟩
  have reach := reachable_follow attempt_allowed start path
  refine ⟨s, reach, ?_, ?_⟩
  · rw [(page_table_refines reach).1 0x2345 (by decide), mapped]
  · rw [(page_table_refines reach).1 0x1234 (by decide), unmapped]

end RtosNimbosPaging
