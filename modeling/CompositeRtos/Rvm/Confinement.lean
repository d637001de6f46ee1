import CompositeRtos.Rvm.Tables
import CompositeRtos.Rvm.Pages

/-!
Several page tables in one memory. The operations on a page table write to its own tables
and to frames that were free, and they take no table out again. So a page table that was
made after some moment consists of frames that were free at that moment, and every tree of
tables that existed before is still there, with the same leaves.
-/
namespace RtosRvmConfinement
open RtosRadixWalk RtosRvmPte RtosRvmPageTable RtosRvmPageTree RtosRvmMemorySet

variable {P : Format} {base mem mem' : HostMemory} {root : Nat}

variable (P) in
/-- What an operation on the tree below `root` does at most: it keeps all tables, and writes
    to them and to frames that were free. -/
structure Footprint (mem mem' : HostMemory) (root : Nat) : Prop where
  tables : ∀ q f, q.length ≤ 3 → walk (child P) mem.view root q = some f →
    walk (child P) mem'.view root q = some f
  outside : ∀ h, h ∉ mem.free → ¬ Reached (shape P).child mem.view root 3 h →
    ¬ Reached (shape P).child mem'.view root 3 h ∧ ∀ j, mem'.view h j = mem.view h j
  free : ∀ h ∈ mem'.free, h ∈ mem.free

theorem footprint_refl : Footprint P mem mem root :=
  ⟨fun _ _ _ ends => ends, fun _ _ away => ⟨away, fun _ => rfl⟩, fun _ free => free⟩

theorem footprint_trans (first : Footprint P mem mem' root) (later : Footprint P mem' mem'' root) :
    Footprint P mem mem'' root := by
  refine ⟨?_, ?_, fun h free => first.free h (later.free h free)⟩
  · exact fun q f short ends => later.tables q f short (first.tables q f short ends)
  intro h used away
  obtain ⟨away', same⟩ := first.outside h used away
  obtain ⟨away'', same'⟩ := later.outside h (fun free => used (first.free h free)) away'
  exact ⟨away'', fun j => (same' j).trans (same j)⟩

theorem store_footprint (tree : Tree P mem root) (short : p.length ≤ 3)
    (at_f : walk (child P) mem.view root p = some f)
    (quiet : p.length = 3 ∨ child P (mem.view f i) = none ∧ child P e = none) :
    Footprint P mem (mem.write ⟨startPaddr f, i⟩ e) root := by
  have view := write_view mem (tree_small tree short at_f) i e
  have walks : ∀ q, q.length ≤ 3 → walk (child P) (mem.write ⟨startPaddr f, i⟩ e).view root q =
      walk (child P) mem.view root q := by
    intro q q_short
    rw [view]
    exact RtosTableTree.stored_walk tree at_f quiet q_short
  refine ⟨fun q g q_short ends => (walks q q_short).trans ends, ?_, fun _ free => free⟩
  intro h _ away
  constructor
  · rintro ⟨q, q_short, ends⟩
    exact away ⟨q, q_short, (walks q q_short).symm.trans ends⟩
  intro j
  have other : ¬ (h = f ∧ j = i) := fun same => away (same.1 ▸ ⟨p, short, at_f⟩)
  rw [view, poke, if_neg other]

theorem next_footprint (tree : Tree P mem root) (short : p.length < 3)
    (at_f : walk (child P) mem.view root p = some f)
    (run : PageTable.nextTableMutOrCreate P.toGenericPTE mem pt ⟨startPaddr f, i⟩ = .ok (next, pt', mem')) :
    Footprint P mem mem' root := by
  obtain ⟨_, g, _, ⟨_, rfl⟩ | ⟨wiped, e, zero, allocated, link, rfl⟩⟩ :=
    next_or_create_cases tree short at_f run
  · exact footprint_refl
  refine ⟨?_, ?_, allocated.remaining⟩
  · intro q h q_short ends
    rw [link_walk tree short at_f zero allocated link q_short, if_neg]
    · exact ends
    rintro rfl
    rw [walk_snoc at_f i, zero, child_zero] at ends
    cases ends
  intro h used away
  have not_new : h ≠ g := fun same => used (same ▸ allocated.was_free)
  constructor
  · rintro ⟨q, q_short, ends⟩
    rw [link_walk tree short at_f zero allocated link q_short] at ends
    split at ends
    · exact not_new (Option.some.inj ends).symm
    · exact away ⟨q, q_short, ends⟩
  intro j
  have other : ¬ (h = f ∧ j = i) := fun same => away (same.1 ▸ ⟨p, Nat.le_of_lt short, at_f⟩)
  rw [write_view wiped (tree_small tree (Nat.le_of_lt short) at_f), poke, if_neg other,
    allocated.elsewhere h j not_new]

theorem descend_footprint (tree : Tree P mem root) (short : p.length + rest.length ≤ 3)
    (at_f : walk (child P) mem.view root p = some f)
    (run : PageTable.descendOrCreate P.toGenericPTE mem pt (startPaddr f) rest = .ok (table, pt', mem')) :
    Footprint P mem mem' root := by
  induction rest generalizing mem pt p f with
  | nil =>
    cases run
    exact footprint_refl
  | cons i rest ih =>
    simp only [List.length_cons] at short
    rw [PageTable.descendOrCreate] at run
    split at run
    · cases run
    rename_i next pt1 mem1 step
    obtain ⟨grown, _, ⟨g, rfl, at_g⟩, _⟩ := next_or_create tree (by omega) at_f step
    exact footprint_trans (next_footprint tree (by omega) at_f step) (ih grown.tree (by simp; omega) at_g run)

theorem map_page_footprint (tree : Tree P mem pt.root) (usable : P.usable flags)
    (run : PageTable.mapPage P.toGenericPTE mem pt va size paddr flags = .ok (pt', mem')) :
    Footprint P mem mem' pt.root := by
  obtain ⟨e, tables, f, made, parts⟩ := map_page_parts tree run
  have short := upper_short va size
  have grown := descend_footprint (p := []) tree (by simpa using short) rfl parts.descended
  have childless : child P (tables.view f (lastIndex va size)) = none := by rw [parts.zero, child_zero]
  rw [parts.written]
  exact footprint_trans grown
    (store_footprint parts.grown.tree short parts.at_f (page_quiet va usable made childless).1)

theorem map_loop_footprint (usable : P.usable region.flags) (tree : Tree P mem pt.root)
    (run : mapLoop P.toGenericPTE region n vaddr size pt mem = .ok (pt', mem')) :
    Footprint P mem mem' pt.root := by
  induction n generalizing vaddr size pt mem with
  | zero =>
    cases run
    exact footprint_refl
  | succ n ih =>
    rw [mapLoop] at run
    split at run
    · cases run
      exact footprint_refl
    split at run
    · cases run
    rename_i pt1 mem1 first
    obtain ⟨tree1, root1, _⟩ := map_page_spec tree usable first
    have next := ih tree1 run
    rw [root1] at next
    exact footprint_trans (map_page_footprint tree usable first) next

theorem insert_footprint {set : MemorySet} (usable : P.usable region.flags) (tree : Tree P mem set.pt.root)
    (run : set.insert P.toGenericPTE mem region = .ok (set', mem')) : Footprint P mem mem' set.pt.root := by
  rw [MemorySet.insert] at run
  split at run
  · cases run
    exact footprint_refl
  split at run
  · cases run
  split at run
  · cases run
  rename_i mapping
  cases run
  exact map_loop_footprint usable tree mapping

theorem unmap_page_footprint (tree : Tree P mem pt.root)
    (run : PageTable.unmapPage P.toGenericPTE mem pt va = .ok (paddr, size, mem')) :
    Footprint P mem mem' pt.root := by
  have used := RtosRvmTables.unmap_page_used tree run
  obtain ⟨f, at_f, here, _, found⟩ := get_entry_used tree used
  rw [PageTable.unmapPage, found] at run
  simp only at run
  split at run
  · cases run
  cases run
  exact store_footprint tree (upper_short va size) at_f (unmapped_quiet at_f used)

theorem unmap_loop_footprint (tree : Tree P mem pt.root)
    (run : unmapLoop P.toGenericPTE pt n vaddr size mem = .ok mem') :
    Tree P mem' pt.root ∧ Footprint P mem mem' pt.root := by
  induction n generalizing vaddr size mem with
  | zero =>
    cases run
    exact ⟨tree, footprint_refl⟩
  | succ n ih =>
    rw [unmapLoop] at run
    split at run
    · cases run
      exact ⟨tree, footprint_refl⟩
    split at run
    · cases run
    rename_i paddr pageSize mem1 first
    split at run
    · cases run
    split at run
    · cases run
    obtain ⟨tree', rest⟩ := ih (RtosRvmTables.unmap_page_tables tree first).1 run
    exact ⟨tree', footprint_trans (unmap_page_footprint tree first) rest⟩

theorem unmap_all_footprint (tree : Tree P mem pt.root)
    (run : MemorySet.unmapAll P.toGenericPTE pt entries mem = .ok mem') : Footprint P mem mem' pt.root := by
  induction entries generalizing mem with
  | nil =>
    cases run
    exact footprint_refl
  | cons e rest ih =>
    rw [MemorySet.unmapAll] at run
    split at run
    · cases run
    rename_i mem1 first
    obtain ⟨tree1, footprint⟩ := unmap_loop_footprint tree first
    exact footprint_trans footprint (ih tree1 run)

variable (P) in
structure Confined (base mem : HostMemory) (root : Nat) : Prop where
  reached : ∀ h, Reached (shape P).child mem.view root 3 h → h ∈ base.free
  kept : ∀ h, h ∉ base.free → ∀ j, mem.view h j = base.view h j
  free : ∀ h ∈ mem.free, h ∈ base.free

theorem new_confined (run : PageTable.new mem = .ok (pt, mem')) : Confined P mem mem' pt.root := by
  rw [PageTable.new] at run
  split at run
  · cases run
  rename_i f wiped alloc
  cases run
  have allocated := new_zero_spec alloc
  refine ⟨?_, ?_, allocated.remaining⟩
  · rintro h ⟨q, _, ends⟩
    rw [(RtosTableTree.fresh_walk (S := shape P) allocated.emptied ends).2]
    exact allocated.was_free
  · intro h used j
    exact allocated.elsewhere h j fun same => used (same ▸ allocated.was_free)

theorem confined_step (confined : Confined P base mem root) (step : Footprint P mem mem' root) :
    Confined P base mem' root := by
  have outside : ∀ h, h ∉ base.free → h ∉ mem.free ∧ ¬ Reached (shape P).child mem.view root 3 h :=
    fun h used => ⟨fun free => used (confined.free h free), fun reached => used (confined.reached h reached)⟩
  refine ⟨?_, ?_, fun h free => confined.free h (step.free h free)⟩
  · intro h reached
    by_contra used
    obtain ⟨in_use, away⟩ := outside h used
    exact (step.outside h in_use away).1 reached
  intro h used j
  obtain ⟨in_use, away⟩ := outside h used
  rw [(step.outside h in_use away).2 j]
  exact confined.kept h used j

theorem insert_confined {set : MemorySet} (usable : P.usable region.flags) (tree : Tree P mem set.pt.root)
    (confined : Confined P base mem set.pt.root) (run : set.insert P.toGenericPTE mem region = .ok (set', mem')) :
    Confined P base mem' set.pt.root :=
  confined_step confined (insert_footprint usable tree run)

theorem confined_keeps (confined : Confined P base mem root) (tree : Tree P' base other) :
    Tree P' mem other ∧ ∀ va size, leafOf P' mem other va size = leafOf P' base other va size := by
  have same : ∀ f, Reached (shape P').child base.view other 3 f → ∀ i, mem.view f i = base.view f i :=
    fun f reached => confined.kept f (tree.live f reached).2
  constructor
  · apply RtosTableTree.tree_outside same tree
    intro f reached
    obtain ⟨small, used⟩ := tree.live f reached
    exact ⟨small, fun free => used (confined.free f free)⟩
  · intro va size
    rw [leafOf, leaf, RtosTableTree.cells_outside same (upper_short va size), leafOf, leaf]

end RtosRvmConfinement
