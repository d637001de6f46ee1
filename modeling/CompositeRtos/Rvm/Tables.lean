import CompositeRtos.Lib.Transition
import CompositeRtos.Rvm.PageTree

/-!
Which tables a page table has, and when a page can be entered. Mapping a page makes the
tables on its way and unmapping leaves them: no table is ever taken out again. A page can
be entered when no coarser page is on its way, and its entry is unused and does not lead
to a table; the frame allocator is then the only thing that can fail.
-/
namespace RtosRvmTables
open RtosTransition RtosRadixWalk RtosRvmPte RtosRvmPageTable RtosRvmPageTree List

variable {P : Format} {mem : HostMemory} {root : Nat}

variable (P) in
def HasTable (mem : HostMemory) (root : Nat) (q : List (Fin 512)) : Prop :=
  walk (child P) mem.view root q ≠ none

theorem map_page_tables (tree : Tree P mem pt.root) (usable : P.usable flags)
    (run : PageTable.mapPage P.toGenericPTE mem pt va size paddr flags = .ok (pt', mem')) (short : q.length ≤ 3)
    (table : HasTable P mem' pt.root q) : q <+: upperIndices va size ∨ HasTable P mem pt.root q := by
  obtain ⟨e, tables, f, made, parts⟩ := map_page_parts tree run
  have childless : child P (tables.view f (lastIndex va size)) = none := by rw [parts.zero, child_zero]
  have quiet := (page_quiet va usable made childless).1
  have small := tree_small parts.grown.tree (upper_short va size) parts.at_f
  by_cases on_path : q <+: upperIndices va size
  · exact Or.inl on_path
  right
  rw [HasTable, parts.written, write_view tables small] at table
  have same : walk (child P) (poke tables.view f (lastIndex va size) e) pt.root q =
      walk (child P) tables.view pt.root q :=
    RtosTableTree.stored_walk parts.grown.tree parts.at_f quiet short
  rw [same, parts.walks q short on_path] at table
  exact table

theorem unmap_page_used (tree : Tree P mem pt.root)
    (run : PageTable.unmapPage P.toGenericPTE mem pt va = .ok (paddr, size, mem')) :
    leafOf P mem pt.root va size ≠ 0 := by
  have located := get_entry_spec tree va
  rw [PageTable.unmapPage] at run
  generalize PageTable.getEntryMut P.toGenericPTE mem pt va = result at located run
  cases located with
  | missing => cases run
  | found size f at_f here others =>
    simp only [entry_at_start mem (tree_small tree (upper_short va size) at_f)] at run
    split at run
    · cases run
    rename_i used
    cases run
    rw [here]
    simpa [isUnused] using used

theorem unmap_page_tables (tree : Tree P mem pt.root)
    (run : PageTable.unmapPage P.toGenericPTE mem pt va = .ok (paddr, size, mem')) :
    Tree P mem' pt.root ∧ ∀ q, q.length ≤ 3 →
      walk (child P) mem'.view pt.root q = walk (child P) mem.view pt.root q := by
  have used := unmap_page_used tree run
  obtain ⟨mem'', again, tree', _⟩ := unmap_page_spec tree used
  rw [run] at again
  cases again
  refine ⟨tree', ?_⟩
  intro q short
  obtain ⟨f, at_f, here, _, found⟩ := get_entry_used tree used
  have small := tree_small tree (upper_short va size) at_f
  rw [PageTable.unmapPage, found] at run
  simp only [entry_at_start mem small] at run
  split at run
  · cases run
  simp only [Except.ok.injEq, Prod.mk.injEq, true_and] at run
  rw [← run.2, write_view mem small]
  exact RtosTableTree.stored_walk tree at_f (unmapped_quiet at_f used) short

/-! When mapping succeeds. -/

theorem new_zero_total :
    mem.newZero = none ∧ mem.free = [] ∨
      ∃ g mem', mem.newZero = some (g, mem') ∧ mem.free.length = mem'.free.length + 1 := by
  unfold HostMemory.newZero
  split
  · rename_i empty
    exact Or.inl ⟨rfl, empty⟩
  · rename_i g rest free_eq
    exact Or.inr ⟨g, _, rfl, congrArg length free_eq⟩

theorem open_of_leaf (at_f : walk (child P) mem.view root p = some f) (unused : leaf P mem root p i = 0) :
    P.isHuge (mem.view f i) = false := by
  cases huge : P.isHuge (mem.view f i) with
  | false => rfl
  | true =>
    rw [leaf_of_childless at_f (child_huge huge)] at unused
    rw [unused, P.zero_huge] at huge
    cases huge

theorem next_or_create_total (pt : PageTable) (tree : Tree P mem root) (short : p.length < 3)
    (at_f : walk (child P) mem.view root p = some f) (unused : leaf P mem root p i = 0) :
    Ends (fun fault => fault = .err .noMemory ∧ mem.free.length < 1)
      (fun r => mem.free.length ≤ r.2.2.free.length + 1)
      (PageTable.nextTableMutOrCreate P.toGenericPTE mem pt ⟨startPaddr f, i⟩) := by
  have small := tree_small tree (Nat.le_of_lt short) at_f
  rw [PageTable.nextTableMutOrCreate, entry_at_start mem small]
  split
  · rename_i zero
    have zero : mem.view f i = 0 := by simpa [isUnused] using zero
    rcases new_zero_total with ⟨failed, empty⟩ | ⟨g, wiped, alloc, fewer⟩
    · rw [failed]
      exact ⟨rfl, by rw [empty]; exact Nat.one_pos⟩
    have allocated := new_zero_spec alloc
    have in_use := (tree.live f ⟨p, Nat.le_of_lt short, at_f⟩).2
    have apart : f ≠ g := fun same => in_use (same ▸ allocated.was_free)
    obtain ⟨e, link⟩ := link_made (P := P) (mem.window g allocated.was_free)
    simp only [alloc, entry_at_start wiped small, allocated.elsewhere f i apart, zero, link.2]
    exact Nat.le_of_eq fewer
  · rename_i nonzero
    rcases next_table (tree.formed p f i short at_f) (open_of_leaf at_f unused) with ⟨zero, _⟩ | ⟨g, _, _, next⟩
    · exact absurd (by rw [isUnused, beq_iff_eq]; exact zero) nonzero
    · rw [next]
      exact Nat.le_succ _

theorem descend_total (pt : PageTable) (tree : Tree P mem root) (short : p.length + rest.length ≤ 3)
    (at_f : walk (child P) mem.view root p = some f)
    (unused : ∀ pre i post, rest = pre ++ i :: post → leaf P mem root (p ++ pre) i = 0) :
    Ends (fun fault => fault = .err .noMemory ∧ mem.free.length < rest.length)
      (fun r => mem.free.length ≤ r.2.2.free.length + rest.length)
      (PageTable.descendOrCreate P.toGenericPTE mem pt (startPaddr f) rest) := by
  induction rest generalizing mem pt p f with
  | nil => exact Nat.le_refl _
  | cons i rest ih =>
    simp only [length_cons] at short ⊢
    have first := next_or_create_total pt tree (by omega) at_f (by simpa using unused [] i rest rfl)
    rw [PageTable.descendOrCreate]
    cases step : PageTable.nextTableMutOrCreate P.toGenericPTE mem pt ⟨startPaddr f, i⟩ with
    | error fault =>
      rw [step] at first
      obtain ⟨rfl, few⟩ := first
      exact ⟨rfl, by omega⟩
    | ok result =>
      obtain ⟨next, pt1, mem1⟩ := result
      rw [step] at first
      have first : mem.free.length ≤ mem1.free.length + 1 := first
      obtain ⟨grown, _, ⟨g, rfl, at_g⟩, _⟩ := next_or_create tree (by omega) at_f step
      have later := ih pt1 grown.tree (by simp; omega) at_g (by
        intro pre j post split
        have deep : (p ++ [i] ++ pre).length ≤ 3 := by
          rw [split] at short
          simp at short ⊢
          omega
        rw [grown.leaves _ _ deep, List.append_assoc]
        exact unused (i :: pre) j post (by rw [split]; rfl))
      apply ends_mono later
      · rintro fault ⟨kind, few⟩
        exact ⟨kind, by omega⟩
      · intro r enough
        omega

theorem upper_leaves (unused : ∀ t, size.bits < t.bits → leafOf P mem root va t = 0)
    (top : leaf P mem root [] (p4Index va) = 0) (split : upperIndices va size = pre ++ i :: post) :
    leaf P mem root pre i = 0 := by
  have coarse1G := unused .size1G
  have coarse2M := unused .size2M
  simp only [leafOf, upperIndices, lastIndex] at coarse1G coarse2M
  -- the indices above the page are at most three
  rcases pre with _ | ⟨a, _ | ⟨b, _ | ⟨c, rest⟩⟩⟩
  · cases size <;> simp only [upperIndices, nil_append, List.cons.injEq] at split <;>
      rw [← split.1] <;> exact top
  · cases size with
    | size1G => simp [upperIndices] at split
    | size2M | size4K =>
      simp only [upperIndices, List.cons_append, nil_append, List.cons.injEq] at split
      rw [← split.1, ← split.2.1]
      exact coarse1G (by decide)
  · cases size with
    | size1G | size2M => simp [upperIndices] at split
    | size4K =>
      simp only [upperIndices, List.cons_append, nil_append, List.cons.injEq] at split
      rw [← split.1, ← split.2.1, ← split.2.2.1]
      exact coarse2M (by decide)
  · have long := congrArg length split
    have := upper_short va size
    simp at long
    omega

/-- The formats accept every page address that a physical address can be. -/
def Accepts (P : Format) : Prop :=
  ∀ (p : PhysAddr) f huge, 2 ^ 12 ∣ p.toNat → p.toNat < 2 ^ 52 → P.pageEntry p f huge ≠ none

theorem host_accepts : Accepts hostFormat := by
  intro p f huge _ _ refused
  have made := pt_page_entry p f huge
  rw [show hostFormat.pageEntry p f huge = ptEntry.pageEntry p f huge from rfl, made] at refused
  cases refused

theorem npt_accepts : Accepts nptFormat := by
  intro p f huge _ _ refused
  have made := pt_page_entry p (f ||| MemFlags.user) huge
  rw [show nptFormat.pageEntry p f huge = ptEntry.pageEntry p (f ||| MemFlags.user) huge from rfl, made] at refused
  cases refused

theorem ept_accepts : Accepts eptFormat := by
  intro p f huge aligned small refused
  rw [show eptFormat.pageEntry p f huge = eptEntry.pageEntry p f huge from rfl] at refused
  simp only [GenericPTE.pageEntry, eptEntry, ept_set_addr aligned, if_pos small, Option.bind_some,
    ept_set_flags aligned (ept_word f huge).small
      (show memTypeWriteBack <<< 61 >>> 61 = memTypeWriteBack by decide)] at refused
  cases refused

structure Vacant (P : Format) (mem : HostMemory) (root : Nat) (va : BitVec 64) (size : PageSize) : Prop where
  unused : ∀ t, size.bits ≤ t.bits → leafOf P mem root va t = 0
  no_table : size.isHuge = true → ¬ HasTable P mem root (upperIndices va size ++ [lastIndex va size])

theorem root_leaf (tree : Tree P mem root) : leaf P mem root [] i = 0 := by
  have formed := tree.formed [] root i (by simp) rfl
  rcases formed with zero | ⟨g, link⟩ | ⟨deep, _⟩
  · rw [leaf_of_childless (f := root) rfl (by rw [zero, child_zero]), zero]
  · exact leaf_of_link (f := root) (by simp) rfl (child_link link)
  · exact absurd deep (by simp)

theorem vacant_entry (vacant : Vacant P mem root va size) (grown : Grown P mem tables root)
    (at_f : walk (child P) tables.view root (upperIndices va size) = some f)
    (walks : ∀ q, q.length ≤ 3 → ¬ q <+: upperIndices va size → walk (child P) tables.view root q = walk (child P) mem.view root q) :
    tables.view f (lastIndex va size) = 0 := by
  have unused : leaf P tables root (upperIndices va size) (lastIndex va size) = 0 := by
    rw [grown.leaves _ _ (upper_short va size)]
    exact vacant.unused size (Nat.le_refl _)
  by_cases deep : (upperIndices va size).length < 3
  · have longer : ¬ (upperIndices va size ++ [lastIndex va size]) <+: upperIndices va size := by
      intro inside
      have := inside.length_le
      simp at this
    have missing : child P (tables.view f (lastIndex va size)) = none := by
      rw [← walk_snoc at_f, walks _ (by simp; omega) longer]
      exact not_not.mp (vacant.no_table ((huge_short va size).mp deep))
    rw [← leaf_of_childless at_f missing]
    exact unused
  · have last : (upperIndices va size).length = 3 := by
      have := upper_short va size
      omega
    rw [← leaf_of_last last at_f]
    exact unused

theorem map_page_total (flags : MemFlags) (accepts : Accepts P) (tree : Tree P mem pt.root)
    (vacant : Vacant P mem pt.root va size) (target : paddr.toNat < 2 ^ 52) :
    Ends (fun fault => fault = .err .noMemory ∧ mem.free.length < 3) (fun r => mem.free.length ≤ r.2.free.length + 3)
      (PageTable.mapPage P.toGenericPTE mem pt va size paddr flags) := by
  have short := upper_short va size
  have descent := descend_total pt (p := []) tree (by simpa using short)
    rfl fun pre i post split => upper_leaves (fun t coarser => vacant.unused t (Nat.le_of_lt coarser))
      (root_leaf tree) split
  rw [PageTable.mapPage, PageTable.getEntryMutOrCreate, PageTable.rootPaddr]
  cases run : PageTable.descendOrCreate P.toGenericPTE mem pt (startPaddr pt.root) (upperIndices va size) with
  | error fault =>
    rw [run] at descent
    exact ⟨descent.1, Nat.lt_of_lt_of_le descent.2 short⟩
  | ok result =>
    obtain ⟨table, pt1, tables⟩ := result
    rw [run] at descent
    have enough : mem.free.length ≤ tables.free.length + (upperIndices va size).length := descent
    obtain ⟨grown, same_root, ⟨f, rfl, at_f⟩, walks⟩ :=
      descend_or_create (p := []) tree (by simpa using short) rfl run
    rw [nil_append] at at_f walks
    have zero := vacant_entry vacant grown at_f walks
    have bound : (size.alignDown paddr).toNat < 2 ^ 52 := by
      rw [align_down_value]
      exact Nat.lt_of_le_of_lt (Nat.div_mul_le_self _ _) target
    obtain ⟨e, made⟩ := Option.ne_none_iff_exists'.mp
      (accepts (size.alignDown paddr) flags size.isHuge (align_down_aligned size paddr) bound)
    obtain ⟨e1, set_addr, set_flags⟩ := Option.bind_eq_some_iff.mp made
    simp only [entry_at_start tables (tree_small grown.tree short at_f), zero, set_addr, set_flags]
    change mem.free.length ≤ tables.free.length + 3
    omega

end RtosRvmTables
