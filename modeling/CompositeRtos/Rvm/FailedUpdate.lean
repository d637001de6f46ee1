import CompositeRtos.Rvm.Confinement
import CompositeRtos.Rvm.Refinement

/-!
What a call that fails leaves behind. `map` enters the pages of a region one after another
and returns at the first page that fails; the pages before it stay entered although the
region is not stored. Here every operation comes with the state it leaves, whatever it
returns, and the runs go on after a failed call. In all of them the pages of the stored
regions stay where they are, so that `delete` and `clear` always find them.
-/
namespace RtosRvmFailedUpdate
open RtosTransition RtosOrderedMap RtosRadixWalk RtosRvmPte RtosRvmPageTable RtosRvmPageTree
open RtosRvmMemorySet RtosRvmPages RtosRvmLayout RtosRvmRefinement RtosRvmConfinement

section Left

variable (P : GenericPTE)

/-- `get_entry_mut_or_create` up to its return: the tables made so far stay linked. A level
    that fails has changed nothing itself. -/
def descendLeft (mem : HostMemory) (pt : PageTable) (table : PhysAddr) :
    List (Fin 512) → PageTable × HostMemory
  | [] => (pt, mem)
  | i :: rest =>
    match PageTable.nextTableMutOrCreate P mem pt ⟨table, i⟩ with
    | .error _ => (pt, mem)
    | .ok (next, pt, mem) => descendLeft mem pt next rest

def mapLoopLeft (region : MemoryRegion) :
    Nat → BitVec 64 → BitVec 64 → PageTable → HostMemory → PageTable × HostMemory
  | 0, _, _, pt, mem => (pt, mem)
  | n + 1, vaddr, size, pt, mem =>
    if size = 0 then (pt, mem)
    else
      match PageTable.mapPage P mem pt vaddr (region.choosePageSize vaddr size)
          (region.mapper.mapFn vaddr) region.flags with
      | .error _ => descendLeft P mem pt pt.rootPaddr (upperIndices vaddr (region.choosePageSize vaddr size))
      | .ok (pt, mem) =>
        mapLoopLeft region n (vaddr + (region.choosePageSize vaddr size).bytes)
          (size - (region.choosePageSize vaddr size).bytes) pt mem

def unmapLoopLeft (pt : PageTable) : Nat → BitVec 64 → BitVec 64 → HostMemory → HostMemory
  | 0, _, _, mem => mem
  | n + 1, vaddr, size, mem =>
    if size = 0 then mem
    else
      match PageTable.unmapPage P mem pt vaddr with
      | .error _ => mem
      | .ok (_, pageSize, mem) =>
        unmapLoopLeft pt n (vaddr + pageSize.bytes) (size - pageSize.bytes) mem

def insertLeft (s : State) (region : MemoryRegion) : State :=
  if region.size = 0 then s
  else if !s.1.testFreeArea region then s
  else
    match map P region s.1.pt s.2 with
    | .error _ =>
      let left := mapLoopLeft P region (region.size.toNat / 4096) region.start region.size s.1.pt s.2
      (⟨s.1.regions, left.1⟩, left.2)
    | .ok (pt, mem) => (⟨s.1.regions.insert region.start.toNat region, pt⟩, mem)

def deleteLeft (s : State) (start : BitVec 64) : State :=
  match s.1.regions.lookup start.toNat with
  | some region =>
    match unmap P region s.1.pt s.2 with
    | .error _ => (s.1, unmapLoopLeft P s.1.pt (region.size.toNat / 4096) region.start region.size s.2)
    | .ok mem => (⟨s.1.regions.erase start.toNat, s.1.pt⟩, mem)
  | none => s

def left (s : State) : Action → State
  | .insert region => insertLeft P s region
  | .delete start => deleteLeft P s start
  | .clear => (s.1.clear P s.2).toOption.getD s

theorem left_of_ok (run : act P s a = .ok t) : left P s a = t := by
  cases a with
  | insert region =>
    simp only [act, MemorySet.insert] at run
    simp only [left, insertLeft]
    split at run
    · rename_i none_asked
      cases run
      rw [if_pos none_asked]
    rename_i some_asked
    rw [if_neg some_asked]
    split at run
    · cases run
    rename_i free
    rw [if_neg free]
    generalize map P region s.1.pt s.2 = outcome at run ⊢
    cases outcome with
    | error e => cases run
    | ok result =>
      cases run
      rfl
  | delete start =>
    simp only [act, MemorySet.delete] at run
    simp only [left, deleteLeft]
    generalize s.1.regions.lookup start.toNat = found at run ⊢
    cases found with
    | none => cases run
    | some region =>
      simp only at run ⊢
      generalize unmap P region s.1.pt s.2 = outcome at run ⊢
      cases outcome with
      | error e => cases run
      | ok mem =>
        cases run
        rfl
  | clear =>
    rw [act] at run
    rw [left, run]
    rfl

end Left

/-- All runs of a memory set: a call may fail and the set is used further, but a panic ends
    the run. -/
def allCalls (P : Format) : Machine State Action where
  start s := ∃ mem, MemorySet.new mem = .ok s
  next s a t := (∀ region, a = .insert region → P.usable region.flags) ∧
    (∀ cause, act P.toGenericPTE s a ≠ .error (.panic cause)) ∧ t = left P.toGenericPTE s a

/-! The stored regions have their pages, each at a leaf of its own. Other leaves may be in
    use too. -/

variable {P : Format} {mem mem' : HostMemory} {root : Nat}

def Belongs (stored : Nat × MemoryRegion → Prop) (va : BitVec 64) (size : PageSize) : Prop :=
  ∃ e, stored e ∧ ∃ page ∈ pages e.2, SameEntry va size page.va page.size

variable (P) in
structure Laid (mem : HostMemory) (root : Nat) (stored : Nat × MemoryRegion → Prop) : Prop where
  tree : Tree P mem root
  keyed : ∀ e, stored e → e.1 = e.2.start.toNat
  nonempty : ∀ e, stored e → e.2.size ≠ 0
  used : ∀ e, stored e → ∀ page ∈ pages e.2, leafOf P mem root page.va page.size ≠ 0
  own : ∀ e, stored e → (pages e.2).Pairwise fun a b => ¬ SameEntry b.va b.size a.va a.size
  apart : ∀ e e', stored e → stored e' → e ≠ e' → ∀ page ∈ pages e.2, ∀ page' ∈ pages e'.2,
    ¬ SameEntry page.va page.size page'.va page'.size

variable (P) in
noncomputable def stray (mem : HostMemory) (root : Nat) (stored : Nat × MemoryRegion → Prop)
    (va : BitVec 64) (size : PageSize) : BitVec 64 :=
  open Classical in if Belongs stored va size then 0 else leafOf P mem root va size

theorem stray_owned (owned : Belongs regions va size) : stray P mem root regions va size = 0 := if_pos owned

theorem stray_free (free : ¬ Belongs regions va size) :
    stray P mem root regions va size = leafOf P mem root va size :=
  if_neg free

theorem used_once (tree : Tree P mem root) (used : leafOf P mem root va s ≠ 0)
    (used' : leafOf P mem root va t ≠ 0) : s = t := by
  have tree' : Tree P mem (PageTable.mk root []).root := tree
  obtain ⟨f, _, _, others, _⟩ := get_entry_used tree' used
  by_contra ne
  exact used' (others t (fun same => ne same.symm))

theorem first_page (nonempty : region.size ≠ 0) :
    ⟨region.start, region.choosePageSize region.start region.size⟩ ∈ pages region := by
  have positive := size_positive nonempty
  have aligned := region.aligned_size
  obtain ⟨n, count⟩ : ∃ n, region.size.toNat / 4096 = n + 1 := ⟨region.size.toNat / 4096 - 1, by omega⟩
  rw [pages, count, pagesFrom, if_neg nonempty]
  exact .head _

theorem mapped_alone {region : MemoryRegion} (usable : P.usable region.flags) (tree : Tree P mem pt.root)
    (run : PageTable.mapPage P.toGenericPTE mem pt va size paddr region.flags = .ok (pt', mem')) :
    leafOf P mem' pt.root va size ≠ 0 ∧ ∀ t, leafOf P mem pt.root va t = 0 := by
  obtain ⟨tree', same_root, unused, e, made, leaves⟩ := map_page_spec tree usable run
  rw [same_root] at tree'
  have used : leafOf P mem' pt.root va size ≠ 0 := by
    rw [leaves, if_pos ⟨rfl, rfl⟩]
    exact (P.page_entry _ _ _ _ (align_down_aligned _ _) usable made).1
  refine ⟨used, fun t => ?_⟩
  by_contra before
  have kept : leafOf P mem' pt.root va t ≠ 0 := by
    rw [leaves]
    split
    · rename_i same
      rw [leaf_same_entry same] at before
      exact absurd unused before
    · exact before
  rw [used_once tree' used kept] at unused
  exact before unused

/-! What a failed mapping leaves. -/

theorem descend_left_grown (tree : Tree P mem root) (short : p.length + rest.length ≤ 3)
    (at_f : walk (child P) mem.view root p = some f)
    (result : descendLeft P.toGenericPTE mem pt (startPaddr f) rest = r) :
    r.1.root = pt.root ∧ Grown P mem r.2 root ∧ Footprint P mem r.2 root := by
  induction rest generalizing mem pt p f with
  | nil =>
    cases result
    exact ⟨rfl, ⟨tree, fun _ _ _ => rfl⟩, footprint_refl⟩
  | cons i rest ih =>
    simp only [List.length_cons] at short
    rw [descendLeft] at result
    split at result
    · cases result
      exact ⟨rfl, ⟨tree, fun _ _ _ => rfl⟩, footprint_refl⟩
    rename_i next pt1 mem1 step
    have footprint := next_footprint tree (by omega) at_f step
    obtain ⟨grown, same_root, ⟨g, rfl, at_g⟩, _⟩ := next_or_create tree (by omega) at_f step
    obtain ⟨same_root', grown', footprint'⟩ := ih grown.tree (by simp; omega) at_g result
    refine ⟨same_root'.trans same_root, ⟨grown'.tree, ?_⟩, footprint_trans footprint footprint'⟩
    intro q j q_short
    rw [grown'.leaves q j q_short, grown.leaves q j q_short]

theorem descend_left_leaves (tree : Tree P mem pt.root)
    (result : descendLeft P.toGenericPTE mem pt pt.rootPaddr (upperIndices va size) = r) :
    r.1.root = pt.root ∧ Tree P r.2 pt.root ∧ Footprint P mem r.2 pt.root ∧
      ∀ x t, leafOf P r.2 pt.root x t = leafOf P mem pt.root x t := by
  obtain ⟨same_root, grown, footprint⟩ := descend_left_grown (p := []) tree
    (by simpa using upper_short va size) rfl result
  exact ⟨same_root, grown.tree, footprint, fun x t => grown.leaves _ _ (upper_short x t)⟩

theorem map_loop_left_keeps (usable : P.usable region.flags) (vaddr size : BitVec 64) (tree : Tree P mem pt.root) :
    (mapLoopLeft P.toGenericPTE region n vaddr size pt mem).1.root = pt.root ∧
    Tree P (mapLoopLeft P.toGenericPTE region n vaddr size pt mem).2 pt.root ∧
    ∀ x t, leafOf P mem pt.root x t ≠ 0 →
      leafOf P (mapLoopLeft P.toGenericPTE region n vaddr size pt mem).2 pt.root x t = leafOf P mem pt.root x t := by
  induction n generalizing vaddr size pt mem with
  | zero => exact ⟨rfl, tree, fun _ _ _ => rfl⟩
  | succ n ih =>
    rw [mapLoopLeft]
    split
    · exact ⟨rfl, tree, fun _ _ _ => rfl⟩
    split
    · obtain ⟨same_root, tree', _, leaves⟩ := descend_left_leaves tree rfl
      exact ⟨same_root, tree', fun x t _ => leaves x t⟩
    rename_i pt1 mem1 first
    obtain ⟨tree1, root1, unused, e, _, leaves⟩ := map_page_spec tree usable first
    obtain ⟨root', tree', kept⟩ := ih (vaddr + (region.choosePageSize vaddr size).bytes)
      (size - (region.choosePageSize vaddr size).bytes) tree1
    rw [root1] at root' tree' kept
    refine ⟨root', tree', fun x t used => ?_⟩
    have first_kept : leafOf P mem1 pt.root x t = leafOf P mem pt.root x t := by
      rw [leaves, if_neg]
      intro same
      rw [leaf_same_entry same] at used
      exact used unused
    rw [kept x t (by rw [first_kept]; exact used), first_kept]

/-! The invariant over all runs. -/

abbrev stored (s : State) : Nat × MemoryRegion → Prop := fun e => e ∈ s.1.regions.entries

variable (P) in
abbrev Booked (s : State) : Prop := Laid P s.2 s.1.pt.root (stored s)

theorem laid_congr (laid : Laid P mem root regions) (tree' : Tree P mem' root)
    (kept : ∀ x t, leafOf P mem root x t ≠ 0 → leafOf P mem' root x t = leafOf P mem root x t) :
    Laid P mem' root regions := by
  refine ⟨tree', laid.keyed, laid.nonempty, ?_, laid.own, laid.apart⟩
  intro e here page member
  have used := laid.used e here page member
  rw [kept _ _ used]
  exact used

section Insert

variable {region : MemoryRegion} {regions : Nat × MemoryRegion → Prop} {pt pt' : PageTable}
  (laid : Laid P mem pt.root regions) (usable : P.usable region.flags)
  (run : map P.toGenericPTE region pt mem = .ok (pt', mem'))

include laid usable run

theorem mapped_kept (used : leafOf P mem pt.root x t ≠ 0) : leafOf P mem' pt.root x t = leafOf P mem pt.root x t := by
  obtain ⟨_, _, mapped⟩ := map_loop_spec usable laid.tree run
  apply mapped.elsewhere
  intro page member same
  exact used_apart mapped used member ⟨same.1.symm, same.2.symm⟩

theorem mapped_used (member : page ∈ pages region) : leafOf P mem' pt.root page.va page.size ≠ 0 := by
  obtain ⟨_, _, mapped⟩ := map_loop_spec usable laid.tree run
  exact entered_used usable (mapped.entered page member)

theorem start_is_new (nonempty : region.size ≠ 0) (here : regions e) : e.1 ≠ region.start.toNat := by
  intro same
  have at_start : e.2.start = region.start := BitVec.eq_of_toNat_eq ((laid.keyed e here).symm.trans same)
  obtain ⟨tree', same_root, mapped⟩ := map_loop_spec usable laid.tree run
  rw [same_root] at tree'
  have old := laid.used e here _ (first_page (laid.nonempty e here))
  rw [at_start] at old
  have old' := old
  rw [← mapped_kept laid usable run old] at old'
  have new := mapped_used laid usable run (first_page nonempty)
  have unused := mapped.unused _ (first_page nonempty)
  rw [used_once tree' new old'] at unused
  exact old unused

theorem insert_laid (nonempty : region.size ≠ 0) : pt'.root = pt.root ∧
      Laid P mem' pt.root (fun e => e = (region.start.toNat, region) ∨ regions e) := by
  obtain ⟨tree', same_root, mapped⟩ := map_loop_spec usable laid.tree run
  rw [same_root] at tree'
  have away : ∀ e, regions e → ∀ page ∈ pages e.2, ∀ page' ∈ pages region,
      ¬ SameEntry page'.va page'.size page.va page.size :=
    fun e here page member page' member' => used_apart mapped (laid.used e here page member) member'
  refine ⟨same_root, tree', ?_, ?_, ?_, ?_, ?_⟩
  · rintro e (rfl | old)
    · rfl
    · exact laid.keyed e old
  · rintro e (rfl | old)
    · exact nonempty
    · exact laid.nonempty e old
  · rintro e (rfl | old) page member
    · exact mapped_used laid usable run member
    have used := laid.used e old page member
    rw [mapped_kept laid usable run used]
    exact used
  · rintro e (rfl | old)
    · exact map_loop_apart usable laid.tree run
    · exact laid.own e old
  · rintro e e' (rfl | old) (rfl | old') ne page member page' member' same
    · exact ne rfl
    · exact away e' old' page' member' page member same
    · exact away e old page member page' member' ⟨same.1.symm, same.2.symm⟩
    · exact laid.apart e e' old old' ne page member page' member' same

theorem insert_stray :
    stray P mem' pt.root (fun e => e = (region.start.toNat, region) ∨ regions e) =
      stray P mem pt.root regions := by
  obtain ⟨_, _, mapped⟩ := map_loop_spec usable laid.tree run
  funext va size
  by_cases new : ∃ page ∈ pages region, SameEntry va size page.va page.size
  · have owned : Belongs (fun e => e = (region.start.toNat, region) ∨ regions e) va size :=
      ⟨_, Or.inl rfl, new⟩
    rw [stray_owned owned]
    by_cases old : Belongs regions va size
    · rw [stray_owned old]
    · obtain ⟨page, member, same⟩ := new
      rw [stray_free old, leaf_same_entry same, mapped.unused page member]
  · by_cases old : Belongs regions va size
    · have owned : Belongs (fun e => e = (region.start.toNat, region) ∨ regions e) va size := by
        obtain ⟨e, here, found⟩ := old
        exact ⟨e, Or.inr here, found⟩
      rw [stray_owned owned, stray_owned old]
    have free : ¬ Belongs (fun e => e = (region.start.toNat, region) ∨ regions e) va size := by
      rintro ⟨e, rfl | here, found⟩
      · exact new found
      · exact old ⟨e, here, found⟩
    rw [stray_free free, stray_free old]
    exact mapped.elsewhere va size fun page member same => new ⟨page, member, same⟩

end Insert

theorem unmap_laid (laid : Laid P mem pt.root regions) (here : regions e) :
    ∃ mem', unmap P.toGenericPTE e.2 pt mem = .ok mem' ∧
      Laid P mem' pt.root (fun e' => regions e' ∧ e' ≠ e) ∧
      stray P mem' pt.root (fun e' => regions e' ∧ e' ≠ e) = stray P mem pt.root regions := by
  obtain ⟨mem', run, tree', unmapped⟩ := unmap_loop_spec e.2 e.2.aligned_start e.2.aligned_size laid.tree
    (laid.used e here) (laid.own e here)
  refine ⟨mem', run, ⟨tree', ?_, ?_, ?_, ?_, ?_⟩, ?_⟩
  · exact fun e' there => laid.keyed e' there.1
  · exact fun e' there => laid.nonempty e' there.1
  · rintro e' ⟨there, other⟩ page member
    rw [unmapped.elsewhere]
    · exact laid.used e' there page member
    · exact fun gone gone_member => laid.apart e' e there here other page member gone gone_member
  · exact fun e' there => laid.own e' there.1
  · exact fun a b there there' ne => laid.apart a b there.1 there'.1 ne
  · funext va size
    by_cases gone : ∃ page ∈ pages e.2, SameEntry va size page.va page.size
    · rw [stray_owned ⟨e, here, gone⟩]
      by_cases other : Belongs (fun e' => regions e' ∧ e' ≠ e) va size
      · rw [stray_owned other]
      · rw [stray_free other, unmapped.unused va size gone]
    by_cases owned : Belongs regions va size
    · have other : Belongs (fun e' => regions e' ∧ e' ≠ e) va size := by
        obtain ⟨e', there, found⟩ := owned
        refine ⟨e', ⟨there, ?_⟩, found⟩
        rintro rfl
        exact gone found
      rw [stray_owned owned, stray_owned other]
    have free : ¬ Belongs (fun e' => regions e' ∧ e' ≠ e) va size := by
      rintro ⟨e', there, found⟩
      exact owned ⟨e', there.1, found⟩
    rw [stray_free owned, stray_free free]
    exact unmapped.elsewhere va size fun page member same => gone ⟨page, member, same⟩

theorem unmap_all_laid (distinct : entries.Nodup) (laid : Laid P mem pt.root (· ∈ entries)) :
    ∃ mem', MemorySet.unmapAll P.toGenericPTE pt entries mem = .ok mem' ∧ Tree P mem' pt.root ∧
      leafOf P mem' pt.root = stray P mem pt.root (· ∈ entries) := by
  induction entries generalizing mem with
  | nil =>
    refine ⟨mem, rfl, laid.tree, ?_⟩
    funext va size
    rw [stray_free]
    rintro ⟨e, here, _⟩
    cases here
  | cons e rest ih =>
    obtain ⟨fresh, distinct_rest⟩ := List.nodup_cons.mp distinct
    obtain ⟨mem1, run, laid1, same⟩ := unmap_laid laid (e := e) (.head _)
    have remaining : (fun e' => e' ∈ e :: rest ∧ e' ≠ e) = (· ∈ rest) := by
      funext e'
      simp only [List.mem_cons, eq_iff_iff]
      constructor
      · rintro ⟨rfl | later, other⟩
        · exact absurd rfl other
        · exact later
      · intro later
        exact ⟨Or.inr later, fun same => fresh (same ▸ later)⟩
    rw [remaining] at laid1 same
    obtain ⟨mem', run', tree', leaves⟩ := ih distinct_rest laid1
    refine ⟨mem', ?_, tree', leaves.trans same⟩
    rw [MemorySet.unmapAll, run]
    exact run'

/-! One step of a run, and all of them. -/

variable (P) in
/-- A step after which the pages in use are those of the stored regions and the same strays. -/
structure Passed (s t : State) : Prop where
  booked : Booked P t
  same_root : t.1.pt.root = s.1.pt.root
  footprint : Footprint P s.2 t.2 s.1.pt.root
  strays : stray P t.2 t.1.pt.root (stored t) = stray P s.2 s.1.pt.root (stored s)

variable {s : State}

theorem inserted_entries (pt : PageTable) (mem : HostMemory)
    (fresh : ∀ e ∈ s.1.regions.entries, e.1 ≠ region.start.toNat) :
    stored (⟨s.1.regions.insert region.start.toNat region, pt⟩, mem) =
      fun e => e = (region.start.toNat, region) ∨ stored s e := by
  funext e
  simp only [stored, OrderedMap.mem_insert, eq_iff_iff]
  constructor
  · rintro (new | ⟨old, _⟩)
    · exact Or.inl new
    · exact Or.inr old
  rintro (new | old)
  · exact Or.inl new
  · exact Or.inr ⟨old, fresh e old⟩

theorem erased_entries (here : (key, region) ∈ s.1.regions.entries) :
    stored (⟨s.1.regions.erase key, pt⟩, mem) = fun e => stored s e ∧ e ≠ (key, region) := by
  funext e
  simp only [stored, OrderedMap.mem_erase, eq_iff_iff]
  constructor
  · rintro ⟨there, other⟩
    exact ⟨there, fun same => other (by rw [same])⟩
  · rintro ⟨there, other⟩
    exact ⟨there, fun same => other (key_unique s.1.regions.sorted there here same)⟩

section

variable (booked : Booked P s)
include booked

theorem insert_left_booked (usable : P.usable region.flags) : Booked P (insertLeft P.toGenericPTE s region) := by
  rw [insertLeft]
  split
  · exact booked
  rename_i nonempty
  split
  · exact booked
  split
  · obtain ⟨same_root, tree', kept⟩ := map_loop_left_keeps usable region.start region.size booked.tree
    rw [Booked, same_root]
    exact laid_congr booked tree' kept
  rename_i pt mem mapping
  obtain ⟨same_root, laid⟩ := insert_laid booked usable mapping nonempty
  rw [Booked, inserted_entries pt mem fun e here => start_is_new booked usable mapping nonempty here, same_root]
  exact laid

theorem insert_passed (usable : P.usable region.flags)
    (run : s.1.insert P.toGenericPTE s.2 region = .ok t) : Passed P s t := by
  have footprint : Footprint P s.2 t.2 s.1.pt.root := insert_footprint usable booked.tree run
  rw [MemorySet.insert] at run
  split at run
  · cases run
    exact ⟨booked, rfl, footprint, rfl⟩
  rename_i nonempty
  split at run
  · cases run
  split at run
  · cases run
  rename_i pt mem mapping
  cases run
  obtain ⟨same_root, laid⟩ := insert_laid booked usable mapping nonempty
  have entries := inserted_entries pt mem fun e here => start_is_new booked usable mapping nonempty here
  refine ⟨?_, same_root, footprint, ?_⟩
  · rw [Booked, entries, same_root]
    exact laid
  · rw [entries, same_root]
    exact insert_stray booked usable mapping

theorem delete_cases (start : BitVec 64) :
    (∃ t, s.1.delete P.toGenericPTE s.2 start = .ok t ∧ Passed P s t) ∨
      s.1.regions.lookup start.toNat = none := by
  cases found : s.1.regions.lookup start.toNat with
  | none => exact Or.inr rfl
  | some region =>
    left
    have here := OrderedMap.lookup_some found
    obtain ⟨mem', run, laid, strays⟩ := unmap_laid booked here
    refine ⟨(⟨s.1.regions.erase start.toNat, s.1.pt⟩, mem'), ?_, ?_, rfl,
      (unmap_loop_footprint booked.tree run).2, ?_⟩
    · simp only [MemorySet.delete, found, run]
    · rw [Booked, erased_entries here]
      exact laid
    · rw [erased_entries here]
      exact strays

theorem clear_cases :
    ∃ mem', s.1.clear P.toGenericPTE s.2 = .ok (⟨OrderedMap.empty, s.1.pt⟩, mem') ∧
      Passed P s (⟨OrderedMap.empty, s.1.pt⟩, mem') ∧
      leafOf P mem' s.1.pt.root = stray P s.2 s.1.pt.root (stored s) := by
  have distinct : s.1.regions.entries.Nodup :=
    s.1.regions.sorted.imp fun {a b} (less : a.1 < b.1) (same : a = b) =>
      Nat.lt_irrefl b.1 (same ▸ less)
  obtain ⟨mem', run, tree', leaves⟩ := unmap_all_laid distinct booked
  have none_stored : ∀ e, ¬ stored (⟨OrderedMap.empty, s.1.pt⟩, mem') e := by
    intro e here
    cases here
  refine ⟨mem', by simp only [MemorySet.clear, run],
    ⟨⟨tree', ?_, ?_, ?_, ?_, ?_⟩, rfl, unmap_all_footprint booked.tree run, ?_⟩, leaves⟩
  · exact fun e here => absurd here (none_stored e)
  · exact fun e here => absurd here (none_stored e)
  · exact fun e here => absurd here (none_stored e)
  · exact fun e here => absurd here (none_stored e)
  · exact fun e e' here => absurd here (none_stored e)
  · rw [← leaves]
    funext va size
    apply stray_free
    rintro ⟨e, here, _⟩
    exact none_stored e here

theorem step_booked (step : (allCalls P).next s a t) : Booked P t := by
  obtain ⟨usable, _, rfl⟩ := step
  cases a with
  | insert region => exact insert_left_booked booked (usable region rfl)
  | delete start =>
    rcases delete_cases booked start with ⟨t, run, passed⟩ | missing
    · rw [left_of_ok P.toGenericPTE (a := .delete start) run]
      exact passed.booked
    · rw [left, deleteLeft, missing]
      exact booked
  | clear =>
    obtain ⟨mem', run, passed, _⟩ := clear_cases booked
    rw [left_of_ok P.toGenericPTE (a := .clear) run]
    exact passed.booked

end

theorem start_booked (start : (allCalls P).start s) : Booked P s := by
  obtain ⟨mem, run⟩ := start
  rw [MemorySet.new] at run
  split at run
  · cases run
  rename_i pt mem' fresh
  cases run
  obtain ⟨tree, _⟩ := new_tree (P := P) fresh
  have none_stored : ∀ e, ¬ stored (⟨OrderedMap.empty, pt⟩, mem') e := by
    intro e here
    cases here
  refine ⟨tree, ?_, ?_, ?_, ?_, ?_⟩
  · exact fun e here => absurd here (none_stored e)
  · exact fun e here => absurd here (none_stored e)
  · exact fun e here => absurd here (none_stored e)
  · exact fun e here => absurd here (none_stored e)
  · exact fun e e' here => absurd here (none_stored e)

theorem run_booked (reached : Reachable (allCalls P) s) : Booked P s :=
  reachable_invariant (Booked P) (fun _ start => start_booked start)
    (fun _ _ _ before step => step_booked before step) reached

def FailsAtOnce (P : GenericPTE) (s : State) (region : MemoryRegion) : Prop :=
  s.1.testFreeArea region = false ∨
    ∃ fault, PageTable.mapPage P s.2 s.1.pt region.start
      (region.choosePageSize region.start region.size) (region.mapper.mapFn region.start)
      region.flags = .error fault

/-- A mapping that fails at its first page changes no leaf. Any other has entered the first
    page, which was not in use. -/
theorem map_left_cases (usable : P.usable region.flags) (nonempty : region.size ≠ 0) (tree : Tree P mem pt.root)
    (result : mapLoopLeft P.toGenericPTE region (region.size.toNat / 4096) region.start region.size pt mem = r) :
    r.1.root = pt.root ∧ Tree P r.2 pt.root ∧ ((∃ fault, PageTable.mapPage P.toGenericPTE mem pt region.start
          (region.choosePageSize region.start region.size) (region.mapper.mapFn region.start)
          region.flags = .error fault) ∧ Footprint P mem r.2 pt.root ∧
        (∀ x t, leafOf P r.2 pt.root x t = leafOf P mem pt.root x t) ∨
      (∃ r', PageTable.mapPage P.toGenericPTE mem pt region.start
          (region.choosePageSize region.start region.size) (region.mapper.mapFn region.start)
          region.flags = .ok r') ∧
        (∀ t, leafOf P mem pt.root region.start t = 0) ∧ ∃ t, leafOf P r.2 pt.root region.start t ≠ 0) := by
  have positive := size_positive nonempty
  have aligned := region.aligned_size
  obtain ⟨n, count⟩ : ∃ n, region.size.toNat / 4096 = n + 1 := ⟨region.size.toNat / 4096 - 1, by omega⟩
  rw [count, mapLoopLeft, if_neg nonempty] at result
  split at result
  · rename_i fault first
    obtain ⟨same_root, tree', footprint, leaves⟩ := descend_left_leaves tree result
    exact ⟨same_root, tree', Or.inl ⟨⟨fault, first⟩, footprint, leaves⟩⟩
  rename_i pt1 mem1 first
  obtain ⟨used, unused⟩ := mapped_alone usable tree first
  obtain ⟨tree1, root1, _⟩ := map_page_spec tree usable first
  obtain ⟨same_root, tree', kept⟩ := map_loop_left_keeps usable
    (region.start + (region.choosePageSize region.start region.size).bytes)
    (region.size - (region.choosePageSize region.start region.size).bytes) tree1
  rw [result] at same_root tree' kept
  rw [root1] at same_root tree' kept
  refine ⟨same_root, tree', Or.inr ⟨⟨_, first⟩, unused, region.choosePageSize region.start region.size, ?_⟩⟩
  rw [kept _ _ used]
  exact used

theorem failed_insert_iff (booked : Booked P s) (usable : P.usable region.flags)
    (failed : s.1.insert P.toGenericPTE s.2 region = .error fault) :
    (insertLeft P.toGenericPTE s region).1.regions = s.1.regions ∧
      ((∀ va, (insertLeft P.toGenericPTE s region).1.query P.toGenericPTE
          (insertLeft P.toGenericPTE s region).2 va = s.1.query P.toGenericPTE s.2 va) ↔
        FailsAtOnce P.toGenericPTE s region) := by
  rw [MemorySet.insert] at failed
  split at failed
  · cases failed
  rename_i nonempty
  split at failed
  · rename_i overlap
    rw [insertLeft, if_neg nonempty, if_pos overlap]
    exact ⟨rfl, fun _ => Or.inl (by simpa using overlap), fun _ _ => rfl⟩
  rename_i free
  split at failed
  · rename_i fault mapping
    rw [insertLeft, if_neg nonempty, if_neg free, mapping]
    generalize result : mapLoopLeft P.toGenericPTE region (region.size.toNat / 4096) region.start region.size
      s.1.pt s.2 = r
    obtain ⟨same_root, tree', cases⟩ := map_left_cases usable nonempty booked.tree result
    refine ⟨rfl, ?_⟩
    rcases cases with ⟨first, _, leaves⟩ | ⟨⟨r', first⟩, unused, t, used⟩
    · refine ⟨fun _ => Or.inr first, fun _ va => ?_⟩
      apply query_congr booked.tree (by rw [same_root]; exact tree')
      intro size
      rw [same_root]
      exact leaves va size
    constructor
    · intro same
      have before := query_unused booked.tree unused
      rw [← same_root] at tree' used
      have after := query_used tree' used
      have both := same region.start
      rw [MemorySet.query, MemorySet.query, before, after] at both
      cases both
    · rintro (overlap | ⟨fault', first'⟩)
      · simp [overlap] at free
      · rw [first] at first'
        cases first'
  · cases failed

/-- A failed `delete` changes nothing, and a failed `insert` changes no stored region, and no
    answer exactly when it fails before a page is entered. -/
theorem failed_update_changes (reached : Reachable (allCalls P) s) :
    (∀ start fault, s.1.delete P.toGenericPTE s.2 start = .error fault →
      deleteLeft P.toGenericPTE s start = s) ∧
    ∀ region error, P.usable region.flags →
      s.1.insert P.toGenericPTE s.2 region = .error (.err error) →
      (insertLeft P.toGenericPTE s region).1.regions = s.1.regions ∧
        ((∀ va, (insertLeft P.toGenericPTE s region).1.query P.toGenericPTE
            (insertLeft P.toGenericPTE s region).2 va = s.1.query P.toGenericPTE s.2 va) ↔
          FailsAtOnce P.toGenericPTE s region) := by
  have booked := run_booked reached
  refine ⟨fun start fault failed => ?_, fun region error usable failed => failed_insert_iff booked usable failed⟩
  rcases delete_cases booked start with ⟨t, run, _⟩ | missing
  · rw [run] at failed
    cases failed
  · rw [deleteLeft, missing]

def fourFrames : HostMemory where
  bytes := fun _ => 0xa5
  free := [16, 17, 18, 19]
  ascending := by decide
  window := by decide

def identity (start size : BitVec 64) : MemoryRegion :=
  .newWithOffsetMapper start start size (MemFlags.read ||| MemFlags.write)

theorem identity_usable (start size : BitVec 64) : hostFormat.usable (identity start size).flags := by
  apply hostFormat.usable_read
  change contains (MemFlags.read ||| MemFlags.write) MemFlags.read = true
  decide

theorem identity_inserted {t : State} {start : BitVec 64}
    (done : act ptEntry s (.insert (identity start size)) = .ok t) :
    (allCalls hostFormat).next s (.insert (identity start size)) t := by
  refine ⟨?_, ?_, (left_of_ok ptEntry done).symm⟩
  · intro region same
    cases same
    exact identity_usable start size
  intro cause panics
  rw [show act hostFormat.toGenericPTE s _ = _ from done] at panics
  cases panics

def faultOf {ε α : Type} : Except ε α → Option ε
  | .error fault => some fault
  | .ok _ => none

theorem error_of_fault {ε α : Type} {result : Except ε α} {fault : ε} (found : faultOf result = some fault) :
    result = .error fault := by
  cases result with
  | error other =>
    cases found
    rfl
  | ok value => cases found

/-- With a page of the first two mebibytes mapped, there is no frame for a table of the next
    two. The insertion fails at its first page. -/
theorem table_missing_at_once : ∃ s error, Reachable (allCalls hostFormat) s ∧
    s.1.insert ptEntry s.2 (identity 0x200000 0x2000) = .error (.err error) ∧
    ∀ va, (insertLeft ptEntry s (identity 0x200000 0x2000)).1.query ptEntry
      (insertLeft ptEntry s (identity 0x200000 0x2000)).2 va = s.1.query ptEntry s.2 va := by
  have facts : (((MemorySet.new fourFrames).toOption.bind fun s =>
      (act ptEntry s (.insert (identity 0x1000 0x1000))).toOption).map fun s =>
        (faultOf (s.1.insert ptEntry s.2 (identity 0x200000 0x2000)),
          faultOf (PageTable.mapPage ptEntry s.2 s.1.pt (identity 0x200000 0x2000).start
            ((identity 0x200000 0x2000).choosePageSize (identity 0x200000 0x2000).start
              (identity 0x200000 0x2000).size)
            ((identity 0x200000 0x2000).mapper.mapFn (identity 0x200000 0x2000).start)
            (identity 0x200000 0x2000).flags))) =
      some (some (.err (HvError.ofPaging .noMemory)), some (.err .noMemory)) := by
    decide +kernel
  obtain ⟨s, run, seen⟩ := Option.map_eq_some_iff.mp facts
  obtain ⟨first, made, inserted⟩ := Option.bind_eq_some_iff.mp run
  simp only [Prod.mk.injEq] at seen
  have reach : Reachable (allCalls hostFormat) s :=
    reachable_next (reachable_start ⟨fourFrames, ok_of_to_option made⟩)
      (identity_inserted (ok_of_to_option inserted))
  have failed := error_of_fault seen.1
  refine ⟨s, _, reach, failed, ?_⟩
  exact ((failed_update_changes reach).2 _ _ (identity_usable _ _) failed).2.mpr
    (Or.inr ⟨_, error_of_fault seen.2⟩)

/-- Without that page the tables do for the first page of a region across the boundary, and
    the second page fails: the first stays mapped. -/
theorem first_page_left_mapped : ∃ s error, Reachable (allCalls hostFormat) s ∧
    s.1.insert ptEntry s.2 (identity 0x1ff000 0x2000) = .error (.err error) ∧
    s.1.query ptEntry s.2 0x1ff000 = .error (.err .notMapped) ∧
    ∃ reported size, (insertLeft ptEntry s (identity 0x1ff000 0x2000)).1.query ptEntry
      (insertLeft ptEntry s (identity 0x1ff000 0x2000)).2 0x1ff000 = .ok (0x1ff000, reported, size) := by
  have facts : ((MemorySet.new fourFrames).toOption.map fun s => decide
        (faultOf (s.1.insert ptEntry s.2 (identity 0x1ff000 0x2000)) =
            some (.err (HvError.ofPaging .noMemory)) ∧
          faultOf (s.1.query ptEntry s.2 0x1ff000) = some (.err .notMapped) ∧
          ((insertLeft ptEntry s (identity 0x1ff000 0x2000)).1.query ptEntry
            (insertLeft ptEntry s (identity 0x1ff000 0x2000)).2 0x1ff000).toOption =
              some (0x1ff000, MemFlags.read ||| MemFlags.write, .size4K))) = some true := by
    decide +kernel
  obtain ⟨s, made, seen⟩ := Option.map_eq_some_iff.mp facts
  rw [decide_eq_true_eq] at seen
  exact ⟨s, _, reachable_start ⟨fourFrames, ok_of_to_option made⟩, error_of_fault seen.1,
    error_of_fault seen.2.1, _, _, ok_of_to_option seen.2.2⟩

end RtosRvmFailedUpdate
