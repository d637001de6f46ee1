import CompositeRtos.Lib.TableTree
import CompositeRtos.Rvm.PageTable

/-!
The tables below a root form a tree in which an entry above the last level is zero, points
to a table, or maps a huge page, the last never in the root. The state of the page table is
then its leaves: the entry at each index list, where a missing table and a link to a table
both count as zero. At most one of the three entries that an address selects is a nonzero
leaf, and that one is what `get_entry_mut` finds.
-/
namespace RtosRvmPageTree
open RtosFrameMemory RtosRadixWalk RtosRvmPte RtosRvmPageTable

variable (P : Format)

def child (e : BitVec 64) : Option Nat :=
  if P.isPresent e && !P.isHuge e then some (frameOf (P.addr e)) else none

def LinksTo (g : Nat) (e : BitVec 64) : Prop := g < 2 ^ 40 ∧ P.setTable 0 (startPaddr g) = some e

variable {P}

theorem child_zero : child P 0 = none := by
  simp only [child, P.zero_present, Bool.false_and, Bool.false_eq_true, if_false]

theorem child_huge (huge : P.isHuge e = true) : child P e = none := by
  simp only [child, huge, Bool.not_true, Bool.and_false, Bool.false_eq_true, if_false]

theorem link_made (small : g < 2 ^ 40) : ∃ e, LinksTo P g e := by
  have value := start_paddr_value small
  obtain ⟨e, made, _⟩ := P.table_entry (startPaddr g) (by rw [value]; exact Nat.dvd_mul_right 4096 g) (by omega)
  exact ⟨e, small, made⟩

theorem link_read (link : LinksTo P g e) : P.isPresent e = true ∧ P.isHuge e = false ∧ P.addr e = startPaddr g := by
  obtain ⟨small, made⟩ := link
  have value := start_paddr_value small
  obtain ⟨e', made', present, not_huge, address⟩ := P.table_entry (startPaddr g)
    (by rw [value]; exact Nat.dvd_mul_right 4096 g) (by omega)
  rw [made] at made'
  cases made'
  exact ⟨present, not_huge, address⟩

theorem child_link (link : LinksTo P g e) : child P e = some g := by
  obtain ⟨present, not_huge, address⟩ := link_read link
  simp only [child, present, not_huge, address, Bool.not_false, Bool.and_self, if_true, frame_of_start link.1]

variable (P)

@[reducible]
def shape : RtosTableTree.Shape Nat (BitVec 64) where
  child := child P
  empty := 0
  allowed depth e := e = 0 ∨ (∃ g, LinksTo P g e) ∨ 1 ≤ depth ∧ P.isHuge e = true
  empty_child := child_zero
  empty_allowed _ := Or.inl rfl

abbrev Tree (mem : HostMemory) (root : Nat) : Prop :=
  RtosTableTree.Tree (shape P) mem.view root 3 fun f => f < 2 ^ 40 ∧ f ∉ mem.free

def leaf (mem : HostMemory) (root : Nat) (p : List (Fin 512)) (i : Fin 512) : BitVec 64 :=
  if p.length < 3 ∧ (child P (RtosTableTree.cell (shape P) mem.view root p i)).isSome then 0
  else RtosTableTree.cell (shape P) mem.view root p i

def leafOf (mem : HostMemory) (root : Nat) (va : BitVec 64) (size : PageSize) : BitVec 64 :=
  leaf P mem root (upperIndices va size) (lastIndex va size)

variable {P} {mem : HostMemory} {root : Nat}

theorem leaf_of_none (missing : walk (child P) mem.view root p = none) (i : Fin 512) : leaf P mem root p i = 0 := by
  have empty : RtosTableTree.cell (shape P) mem.view root p i = 0 := RtosTableTree.cell_of_none missing
  rw [leaf, empty, ite_self]

theorem leaf_of_last (last : p.length = 3) (at_f : walk (child P) mem.view root p = some f) :
    leaf P mem root p i = mem.view f i := by
  have content : RtosTableTree.cell (shape P) mem.view root p i = mem.view f i :=
    RtosTableTree.cell_of_walk at_f i
  rw [leaf, content, if_neg (by omega)]

theorem leaf_of_childless (at_f : walk (child P) mem.view root p = some f)
    (childless : child P (mem.view f i) = none) : leaf P mem root p i = mem.view f i := by
  have content : RtosTableTree.cell (shape P) mem.view root p i = mem.view f i :=
    RtosTableTree.cell_of_walk at_f i
  rw [leaf, content, childless]
  simp

theorem leaf_of_link (short : p.length < 3) (at_f : walk (child P) mem.view root p = some f)
    (link : child P (mem.view f i) = some g) : leaf P mem root p i = 0 := by
  have content : RtosTableTree.cell (shape P) mem.view root p i = mem.view f i :=
    RtosTableTree.cell_of_walk at_f i
  rw [leaf, content, link]
  simp [short]

theorem entry_at_start (mem : HostMemory) (small : f < 2 ^ 40) (i : Fin 512) :
    mem.entry ⟨startPaddr f, i⟩ = mem.view f i := by
  rw [HostMemory.entry, frame_of_start small]

theorem write_view (mem : HostMemory) (small : f < 2 ^ 40) (i : Fin 512) (e : BitVec 64) :
    (mem.write ⟨startPaddr f, i⟩ e).view = poke mem.view f i e := by
  simp only [HostMemory.write, HostMemory.view, frame_of_start small]
  exact view_store

theorem tree_small (tree : Tree P mem root) (short : p.length ≤ 3)
    (at_f : walk (child P) mem.view root p = some f) : f < 2 ^ 40 :=
  (tree.live f ⟨p, short, at_f⟩).1

theorem root_small (tree : Tree P mem root) : root < 2 ^ 40 :=
  tree_small (p := []) tree (by simp) rfl

theorem next_table (formed : (shape P).allowed depth e) (not_huge : P.isHuge e = false) :
    e = 0 ∧ PageTable.nextTableMut P.toGenericPTE e = .error (.err .notMapped) ∨
      ∃ g, g < 2 ^ 40 ∧ child P e = some g ∧
        PageTable.nextTableMut P.toGenericPTE e = .ok (startPaddr g) := by
  rcases formed with zero | ⟨g, link⟩ | ⟨_, huge⟩
  · left
    refine ⟨zero, ?_⟩
    rw [PageTable.nextTableMut, zero, P.zero_present]
    rfl
  · right
    obtain ⟨present, _, address⟩ := link_read link
    exact ⟨g, link.1, child_link link, by simp [PageTable.nextTableMut, present, not_huge, address]⟩
  · rw [huge] at not_huge
    cases not_huge

theorem root_not_huge (formed : (shape P).allowed 0 e) : P.isHuge e = false := by
  rcases formed with zero | ⟨g, link⟩ | ⟨deep, _⟩
  · rw [zero, P.zero_huge]
  · exact (link_read link).2.1
  · omega

theorem next_table_found (formed : (shape P).allowed depth e)
    (found : PageTable.nextTableMut P.toGenericPTE e = .ok table) :
    ∃ g, child P e = some g ∧ table = startPaddr g := by
  have not_huge : P.isHuge e = false := by
    by_contra huge
    simp only [PageTable.nextTableMut, Bool.not_eq_false] at found huge
    rw [if_pos huge] at found
    split at found <;> cases found
  rcases next_table formed not_huge with ⟨_, missing⟩ | ⟨g, _, link, next⟩
  · rw [missing] at found
    cases found
  rw [next] at found
  cases found
  exact ⟨g, link, rfl⟩

variable (P) in
/-- Where `get_entry_mut` ends: at the one leaf of the address that is in use, or at an
    unused one, or nowhere. -/
inductive Located (mem : HostMemory) (root : Nat) (va : BitVec 64) :
    PagingResult (Slot × PageSize) → Prop where
  | missing (unused : ∀ size, leafOf P mem root va size = 0) :
      Located mem root va (.error (.err .notMapped))
  | found (size : PageSize) (f : Nat)
      (at_f : walk (child P) mem.view root (upperIndices va size) = some f)
      (here : leafOf P mem root va size = mem.view f (lastIndex va size))
      (others : ∀ other, other ≠ size → leafOf P mem root va other = 0) :
      Located mem root va (.ok (⟨startPaddr f, lastIndex va size⟩, size))

theorem get_entry_spec (tree : Tree P mem pt.root) (va : BitVec 64) :
    Located P mem pt.root va (PageTable.getEntryMut P.toGenericPTE mem pt va) := by
  have formed4 := tree.formed [] pt.root (p4Index va) (by simp) rfl
  have walk4 : walk (child P) mem.view pt.root [p4Index va] =
      child P (mem.view pt.root (p4Index va)) := by
    simp [walk]
  rw [PageTable.getEntryMut, PageTable.rootPaddr, entry_at_start mem (root_small tree)]
  rcases next_table formed4 (root_not_huge formed4) with ⟨zero, next⟩ | ⟨f3, small3, link3, next⟩
  · -- no table below the root entry: no leaf of any size
    have childless : child P (mem.view pt.root (p4Index va)) = none := by rw [zero, child_zero]
    rw [next]
    refine .missing fun size => leaf_of_none ?_ _
    cases size <;> simp [upperIndices, walk, childless]
  rw [link3] at walk4
  have formed3 := tree.formed _ f3 (p3Index va) (by simp) walk4
  have walk3 : walk (child P) mem.view pt.root [p4Index va, p3Index va] =
      child P (mem.view f3 (p3Index va)) := walk_snoc walk4 _
  simp only [next, entry_at_start mem small3]
  split
  · rename_i huge
    have childless := child_huge huge
    refine .found .size1G f3 walk4 (leaf_of_childless walk4 childless) fun other ne => leaf_of_none ?_ _
    rw [childless] at walk3
    cases other with
    | size1G => exact absurd rfl ne
    | size2M => exact walk3
    | size4K => exact walk_below_childless walk4 childless _
  rename_i not_huge
  rcases next_table formed3 (by simpa using not_huge) with ⟨zero, next⟩ | ⟨f2, small2, link2, next⟩
  · rw [next]
    have childless : child P (mem.view f3 (p3Index va)) = none := by rw [zero, child_zero]
    refine .missing fun size => ?_
    cases size with
    | size1G => exact (leaf_of_childless walk4 childless).trans zero
    | size2M => exact leaf_of_none (walk3.trans childless) _
    | size4K => exact leaf_of_none (walk_below_childless walk4 childless _) _
  rw [link2] at walk3
  have formed2 := tree.formed _ f2 (p2Index va) (by simp) walk3
  have walk2 : walk (child P) mem.view pt.root [p4Index va, p3Index va, p2Index va] =
      child P (mem.view f2 (p2Index va)) := walk_snoc walk3 _
  have linked1G : leafOf P mem pt.root va .size1G = 0 := leaf_of_link (by simp [upperIndices]) walk4 link2
  simp only [next, entry_at_start mem small2]
  split
  · rename_i huge
    have childless := child_huge huge
    refine .found .size2M f2 walk3 (leaf_of_childless walk3 childless) fun other ne => ?_
    cases other with
    | size1G => exact linked1G
    | size2M => exact absurd rfl ne
    | size4K => exact leaf_of_none (walk2.trans childless) _
  rename_i not_huge
  rcases next_table formed2 (by simpa using not_huge) with ⟨zero, next⟩ | ⟨f1, small1, link1, next⟩
  · rw [next]
    have childless : child P (mem.view f2 (p2Index va)) = none := by rw [zero, child_zero]
    refine .missing fun size => ?_
    cases size with
    | size1G => exact linked1G
    | size2M => exact (leaf_of_childless walk3 childless).trans zero
    | size4K => exact leaf_of_none (walk2.trans childless) _
  rw [link1] at walk2
  rw [next]
  refine .found .size4K f1 walk2 (leaf_of_last (by simp [upperIndices]) walk2) fun other ne => ?_
  cases other with
  | size1G => exact linked1G
  | size2M => exact leaf_of_link (by simp [upperIndices]) walk3 link1
  | size4K => exact absurd rfl ne

theorem upper_short (va : BitVec 64) (size : PageSize) : (upperIndices va size).length ≤ 3 := by
  rw [upper_length]
  cases size <;> decide

theorem query_unused (tree : Tree P mem pt.root) (unused : ∀ size, leafOf P mem pt.root va size = 0) :
    PageTable.query P.toGenericPTE mem pt va = .error (.err .notMapped) := by
  have located := get_entry_spec tree va
  rw [PageTable.query]
  generalize PageTable.getEntryMut P.toGenericPTE mem pt va = result at located
  cases located with
  | missing => rfl
  | found size f at_f here =>
    have zero : mem.view f (lastIndex va size) = 0 := here.symm.trans (unused size)
    simp only [entry_at_start mem (tree_small tree (upper_short va size) at_f), zero]
    rfl

theorem get_entry_used (tree : Tree P mem pt.root) (used : leafOf P mem pt.root va size ≠ 0) :
    ∃ f, walk (child P) mem.view pt.root (upperIndices va size) = some f ∧
      leafOf P mem pt.root va size = mem.view f (lastIndex va size) ∧
      (∀ other, other ≠ size → leafOf P mem pt.root va other = 0) ∧
      PageTable.getEntryMut P.toGenericPTE mem pt va = .ok (⟨startPaddr f, lastIndex va size⟩, size) := by
  have located := get_entry_spec tree va
  generalize PageTable.getEntryMut P.toGenericPTE mem pt va = result at located
  cases located with
  | missing unused => exact absurd (unused size) used
  | found found_size f at_f here others =>
    by_cases same : size = found_size
    · subst same
      exact ⟨f, at_f, here, others, rfl⟩
    · exact absurd (others size same) used

theorem query_used (tree : Tree P mem pt.root) (used : leafOf P mem pt.root va size ≠ 0) :
    PageTable.query P.toGenericPTE mem pt va = .ok (P.addr (leafOf P mem pt.root va size) + size.pageOffset va,
        P.flags (leafOf P mem pt.root va size), size) := by
  obtain ⟨f, at_f, here, _, found⟩ := get_entry_used tree used
  have nonzero : isUnused (mem.view f (lastIndex va size)) = false := by
    rw [← here, isUnused, beq_eq_false_iff_ne]
    exact used
  rw [PageTable.query, found]
  simp only [entry_at_start mem (tree_small tree (upper_short va size) at_f), nonzero, here,
    Bool.false_eq_true, if_false]

/-! Creating tables and writing leaves. -/

structure Allocated (mem mem' : HostMemory) (g : Nat) : Prop where
  was_free : g ∈ mem.free
  taken : g ∉ mem'.free
  remaining : ∀ h ∈ mem'.free, h ∈ mem.free
  emptied : ∀ j, mem'.view g j = 0
  elsewhere : ∀ h j, h ≠ g → mem'.view h j = mem.view h j

theorem new_zero_spec (h : mem.newZero = some (g, mem')) : Allocated mem mem' g := by
  unfold HostMemory.newZero at h
  split at h
  · cases h
  rename_i free_eq
  cases h
  have order := mem.ascending
  rw [free_eq, List.pairwise_cons] at order
  refine ⟨by simp [free_eq], ?_, ?_, ?_, ?_⟩
  · intro again
    exact Nat.lt_irrefl g (order.1 g again)
  · intro h later
    rw [free_eq]
    exact List.mem_cons_of_mem g later
  · intro j
    exact view_wiped
  · intro h j ne
    exact view_same (wipe_elsewhere ne)

variable (P) in
structure Grown (mem mem' : HostMemory) (root : Nat) : Prop where
  tree : Tree P mem' root
  leaves : ∀ q j, q.length ≤ 3 → leaf P mem' root q j = leaf P mem root q j

section

variable (tree : Tree P mem root)
include tree

theorem allocated_fresh (allocated : Allocated mem wiped g) : ¬ Reached (shape P).child mem.view root 3 g :=
  fun reached => (tree.live g reached).2 allocated.was_free

theorem new_table_linked (short : p.length < 3)
    (at_f : walk (child P) mem.view root p = some f) (allocated : Allocated mem wiped g) :
    RtosTableTree.Linked (shape P) mem.view (wiped.write ⟨startPaddr f, i⟩ e).view f i e g := by
  have apart : f ≠ g := fun same => allocated_fresh tree allocated (same ▸ ⟨p, Nat.le_of_lt short, at_f⟩)
  rw [write_view wiped (tree_small tree (Nat.le_of_lt short) at_f)]
  refine ⟨by simp [poke], ?_, ?_⟩
  · intro j
    rw [poke, if_neg (by simp [apart.symm])]
    exact allocated.emptied j
  · intro h j ne away
    rw [poke, if_neg away, allocated.elsewhere h j ne]

theorem link_walk (short : p.length < 3) (at_f : walk (child P) mem.view root p = some f) (zero : mem.view f i = 0)
    (allocated : Allocated mem wiped g) (link : LinksTo P g e) (q_short : q.length ≤ 3) :
    walk (child P) (wiped.write ⟨startPaddr f, i⟩ e).view root q =
      if q = p ++ [i] then some g else walk (child P) mem.view root q :=
  RtosTableTree.linked_walk tree short at_f (by rw [zero]; exact child_zero) (child_link link)
    (allocated_fresh tree allocated) (new_table_linked tree short at_f allocated) q_short

theorem link_grown (short : p.length < 3)
    (at_f : walk (child P) mem.view root p = some f) (zero : mem.view f i = 0)
    (allocated : Allocated mem wiped g) (link : LinksTo P g e) :
    Grown P mem (wiped.write ⟨startPaddr f, i⟩ e) root := by
  have fresh := allocated_fresh tree allocated
  have linked := new_table_linked (e := e) (i := i) tree short at_f allocated
  have vacant : child P (mem.view f i) = none := by rw [zero, child_zero]
  have points := child_link link
  refine ⟨?_, ?_⟩
  · apply RtosTableTree.linked_tree tree short at_f vacant points fresh linked (Or.inr (Or.inl ⟨g, link⟩))
    · exact ⟨link.1, allocated.taken⟩
    intro h reached
    obtain ⟨h_small, not_free⟩ := tree.live h reached
    exact ⟨h_small, fun later => not_free (allocated.remaining h later)⟩
  intro q j q_short
  have content := RtosTableTree.linked_cell tree short at_f vacant points fresh linked q_short j
  by_cases here : q = p ∧ j = i
  · -- the entry was zero and is a link now: a zero leaf both times
    obtain ⟨rfl, rfl⟩ := here
    rw [if_pos ⟨rfl, rfl⟩] at content
    rw [leaf, content, points, leaf_of_childless at_f vacant, zero]
    simp [short]
  · rw [if_neg here] at content
    rw [leaf, content, leaf]

theorem next_or_create_cases (short : p.length < 3)
    (at_f : walk (child P) mem.view root p = some f)
    (run : PageTable.nextTableMutOrCreate P.toGenericPTE mem pt ⟨startPaddr f, i⟩ = .ok (next, pt', mem')) :
    pt'.root = pt.root ∧ ∃ g, next = startPaddr g ∧
      (child P (mem.view f i) = some g ∧ mem' = mem ∨
        ∃ wiped e, mem.view f i = 0 ∧ Allocated mem wiped g ∧ LinksTo P g e ∧
          mem' = wiped.write ⟨startPaddr f, i⟩ e) := by
  have small := tree_small tree (Nat.le_of_lt short) at_f
  rw [PageTable.nextTableMutOrCreate, entry_at_start mem small] at run
  split at run
  · rename_i unused
    have zero : mem.view f i = 0 := by simpa [isUnused] using unused
    split at run
    · cases run
    rename_i g wiped alloc
    have allocated := new_zero_spec alloc
    have in_use := (tree.live f ⟨p, Nat.le_of_lt short, at_f⟩).2
    have apart : f ≠ g := fun same => in_use (same ▸ allocated.was_free)
    obtain ⟨e, link⟩ := link_made (P := P) (mem.window g allocated.was_free)
    simp only [entry_at_start wiped small, allocated.elsewhere f i apart, zero, link.2,
      Except.ok.injEq, Prod.mk.injEq] at run
    obtain ⟨rfl, rfl, rfl⟩ := run
    exact ⟨rfl, g, rfl, Or.inr ⟨wiped, e, zero, allocated, link, rfl⟩⟩
  · split at run
    · cases run
    rename_i table found
    cases run
    obtain ⟨g, link, table_eq⟩ := next_table_found (tree.formed p f i short at_f) found
    exact ⟨rfl, g, table_eq, Or.inl ⟨link, rfl⟩⟩

theorem next_or_create (short : p.length < 3)
    (at_f : walk (child P) mem.view root p = some f)
    (run : PageTable.nextTableMutOrCreate P.toGenericPTE mem pt ⟨startPaddr f, i⟩ = .ok (next, pt', mem')) :
    Grown P mem mem' root ∧ pt'.root = pt.root ∧
      (∃ g, next = startPaddr g ∧ walk (child P) mem'.view root (p ++ [i]) = some g) ∧
      ∀ q, q.length ≤ 3 → q ≠ p ++ [i] →
        walk (child P) mem'.view root q = walk (child P) mem.view root q := by
  obtain ⟨same_root, g, next_eq, ⟨link, rfl⟩ | ⟨wiped, e, zero, allocated, link, rfl⟩⟩ :=
    next_or_create_cases tree short at_f run
  · exact ⟨⟨tree, fun _ _ _ => rfl⟩, same_root, ⟨g, next_eq, (walk_snoc at_f i).trans link⟩, fun _ _ _ => rfl⟩
  have walks := fun {q : List (Fin 512)} (q_short : q.length ≤ 3) =>
    link_walk tree short at_f zero allocated link q_short
  refine ⟨link_grown tree short at_f zero allocated link, same_root, ⟨g, next_eq, ?_⟩, ?_⟩
  · rw [walks (by simp; omega), if_pos rfl]
  · intro q q_short other
    rw [walks q_short, if_neg other]

theorem descend_or_create (short : p.length + rest.length ≤ 3)
    (at_f : walk (child P) mem.view root p = some f)
    (run : PageTable.descendOrCreate P.toGenericPTE mem pt (startPaddr f) rest = .ok (table, pt', mem')) :
    Grown P mem mem' root ∧ pt'.root = pt.root ∧
      (∃ g, table = startPaddr g ∧ walk (child P) mem'.view root (p ++ rest) = some g) ∧
      ∀ q, q.length ≤ 3 → ¬ q <+: p ++ rest →
        walk (child P) mem'.view root q = walk (child P) mem.view root q := by
  induction rest generalizing mem pt p f with
  | nil =>
    cases run
    exact ⟨⟨tree, fun _ _ _ => rfl⟩, rfl, ⟨f, rfl, by rw [List.append_nil]; exact at_f⟩, fun _ _ _ => rfl⟩
  | cons i rest ih =>
    simp only [List.length_cons] at short
    rw [PageTable.descendOrCreate] at run
    split at run
    · cases run
    rename_i next pt1 mem1 step
    obtain ⟨grown, same_root, ⟨g, rfl, at_g⟩, walks⟩ := next_or_create tree (by omega) at_f step
    obtain ⟨grown', same_root', ⟨h, rfl, at_h⟩, walks'⟩ := ih grown.tree (by simp; omega) at_g run
    have path : p ++ [i] ++ rest = p ++ i :: rest := by simp
    rw [path] at at_h walks'
    refine ⟨⟨grown'.tree, ?_⟩, same_root'.trans same_root, ⟨h, rfl, at_h⟩, ?_⟩
    · intro q j q_short
      rw [grown'.leaves q j q_short, grown.leaves q j q_short]
    intro q q_short off
    rw [walks' q q_short off, walks q q_short]
    rintro rfl
    exact off ⟨rest, path⟩

theorem stored_leaf (short : p.length ≤ 3)
    (at_f : walk (child P) mem.view root p = some f)
    (quiet : p.length = 3 ∨ child P (mem.view f i) = none ∧ child P e = none)
    (fits : p.length < 3 → (shape P).allowed p.length e) :
    Tree P (mem.write ⟨startPaddr f, i⟩ e) root ∧
      ∀ q j, q.length ≤ 3 → leaf P (mem.write ⟨startPaddr f, i⟩ e) root q j =
        if q = p ∧ j = i then e else leaf P mem root q j := by
  have small := tree_small tree short at_f
  constructor
  · change RtosTableTree.Tree (shape P) (mem.write ⟨startPaddr f, i⟩ e).view root 3 _
    rw [write_view mem small]
    exact RtosTableTree.stored_tree tree short at_f quiet fits
  intro q j q_short
  have content := RtosTableTree.stored_cell (e := e) tree short at_f quiet q_short j
  rw [← write_view mem small] at content
  rw [leaf, content]
  split
  · rename_i here
    split
    · rename_i linked
      -- a link can only be stored at the last level, where it is not followed
      rcases quiet with last | ⟨_, childless⟩
      · rw [here.1] at linked
        omega
      · simp [childless] at linked
    · rfl
  · rfl

end

theorem huge_short (va : BitVec 64) (size : PageSize) : (upperIndices va size).length < 3 ↔ size.isHuge = true := by
  rw [upper_length]
  cases size <;> decide

theorem upper_deep : 1 ≤ (upperIndices va size).length := by
  rw [upper_length]
  cases size <;> decide

/-- The parts of `map_page`: the tables on the way, the unused entry and the new one. -/
structure PageWritten (P : Format) (mem mem' : HostMemory) (pt pt' : PageTable) (va : BitVec 64)
    (size : PageSize) (e : BitVec 64) (tables : HostMemory) (f : Nat) : Prop where
  descended : PageTable.descendOrCreate P.toGenericPTE mem pt (startPaddr pt.root) (upperIndices va size) =
    .ok (startPaddr f, pt', tables)
  grown : Grown P mem tables pt.root
  same_root : pt'.root = pt.root
  at_f : walk (child P) tables.view pt.root (upperIndices va size) = some f
  walks : ∀ q, q.length ≤ 3 → ¬ q <+: upperIndices va size →
    walk (child P) tables.view pt.root q = walk (child P) mem.view pt.root q
  zero : tables.view f (lastIndex va size) = 0
  written : mem' = tables.write ⟨startPaddr f, lastIndex va size⟩ e

theorem map_page_parts (tree : Tree P mem pt.root)
    (run : PageTable.mapPage P.toGenericPTE mem pt va size paddr flags = .ok (pt', mem')) :
    ∃ e tables f, P.pageEntry (size.alignDown paddr) flags size.isHuge = some e ∧
      PageWritten P mem mem' pt pt' va size e tables f := by
  rw [PageTable.mapPage, PageTable.getEntryMutOrCreate, PageTable.rootPaddr] at run
  split at run
  · cases run
  rename_i slot pt1 mem1 found
  split at found
  · cases found
  rename_i table pt2 mem2 descended
  cases found
  obtain ⟨grown, same_root, ⟨f, rfl, at_f⟩, walks⟩ :=
    descend_or_create (p := []) tree (by simpa using upper_short va size) rfl descended
  rw [List.nil_append] at at_f walks
  simp only [entry_at_start mem1 (tree_small grown.tree (upper_short va size) at_f)] at run
  split at run
  · cases run
  rename_i unused
  have zero : mem1.view f (lastIndex va size) = 0 := by simpa [isUnused] using unused
  split at run
  · cases run
  rename_i e1 set_addr
  split at run
  · cases run
  rename_i e set_flags
  cases run
  refine ⟨e, mem1, f, ?_, descended, grown, same_root, at_f, walks, zero, rfl⟩
  rw [zero] at set_addr
  rw [GenericPTE.pageEntry, set_addr, Option.bind_some, set_flags]

theorem page_quiet (va : BitVec 64) (usable : P.usable flags)
    (made : P.pageEntry (size.alignDown paddr) flags size.isHuge = some e) (childless : child P old = none) :
    ((upperIndices va size).length = 3 ∨ child P old = none ∧ child P e = none) ∧
      ((upperIndices va size).length < 3 → (shape P).allowed (upperIndices va size).length e) := by
  obtain ⟨_, huge_bit, _, _⟩ := P.page_entry _ _ _ _ (align_down_aligned size paddr) usable made
  constructor
  · by_cases short : (upperIndices va size).length < 3
    · right
      rw [(huge_short va size).mp short] at huge_bit
      exact ⟨childless, child_huge huge_bit⟩
    left
    have := upper_short va size
    omega
  · intro short
    rw [(huge_short va size).mp short] at huge_bit
    exact Or.inr (Or.inr ⟨upper_deep, huge_bit⟩)

theorem map_page_spec (tree : Tree P mem pt.root) (usable : P.usable flags)
    (run : PageTable.mapPage P.toGenericPTE mem pt va size paddr flags = .ok (pt', mem')) :
    Tree P mem' pt'.root ∧ pt'.root = pt.root ∧ leafOf P mem pt.root va size = 0 ∧
      ∃ e, P.pageEntry (size.alignDown paddr) flags size.isHuge = some e ∧ ∀ other t, leafOf P mem' pt.root other t =
          if SameEntry other t va size then e else leafOf P mem pt.root other t := by
  obtain ⟨e, tables, f, made, parts⟩ := map_page_parts tree run
  have childless : child P (tables.view f (lastIndex va size)) = none := by rw [parts.zero, child_zero]
  obtain ⟨quiet, fits⟩ := page_quiet va usable made childless
  obtain ⟨tree', leaves⟩ := stored_leaf parts.grown.tree (upper_short va size) parts.at_f quiet fits
  rw [← parts.written] at tree' leaves
  refine ⟨by rw [parts.same_root]; exact tree', parts.same_root, ?_, e, made, ?_⟩
  · rw [leafOf, ← parts.grown.leaves _ _ (upper_short va size), leaf_of_childless parts.at_f childless, parts.zero]
  intro other t
  rw [leafOf, leaves _ _ (upper_short other t), parts.grown.leaves _ _ (upper_short other t)]
  rfl

theorem unmapped_quiet (at_f : walk (child P) mem.view root (upperIndices va size) = some f)
    (used : leafOf P mem root va size ≠ 0) :
    (upperIndices va size).length = 3 ∨
      child P (mem.view f (lastIndex va size)) = none ∧ child P cleared = none := by
  by_cases short : (upperIndices va size).length < 3
  · right
    refine ⟨?_, child_zero⟩
    cases link : child P (mem.view f (lastIndex va size)) with
    | none => rfl
    | some g => exact absurd (leaf_of_link short at_f link) used
  left
  have := upper_short va size
  omega

theorem unmap_page_spec (tree : Tree P mem pt.root) (used : leafOf P mem pt.root va size ≠ 0) :
    ∃ mem', PageTable.unmapPage P.toGenericPTE mem pt va =
        .ok (P.addr (leafOf P mem pt.root va size), size, mem') ∧ Tree P mem' pt.root ∧
      ∀ other t, leafOf P mem' pt.root other t =
        if SameEntry other t va size then 0 else leafOf P mem pt.root other t := by
  obtain ⟨f, at_f, here, _, found⟩ := get_entry_used tree used
  have nonzero : mem.view f (lastIndex va size) ≠ 0 := by
    rw [← here]
    exact used
  obtain ⟨tree', leaves⟩ := stored_leaf (e := cleared) tree (upper_short va size) at_f (unmapped_quiet at_f used)
    (fun _ => Or.inl rfl)
  refine ⟨mem.write ⟨startPaddr f, lastIndex va size⟩ cleared, ?_, tree', ?_⟩
  · have in_use : isUnused (mem.view f (lastIndex va size)) = false := by
      rw [isUnused, beq_eq_false_iff_ne]
      exact nonzero
    rw [PageTable.unmapPage, found]
    simp only [entry_at_start mem (tree_small tree (upper_short va size) at_f), in_use, here,
      Bool.false_eq_true, if_false]
  intro other t
  rw [leafOf, leaves _ _ (upper_short other t)]
  rfl

theorem new_tree (run : PageTable.new mem = .ok (pt, mem')) :
    Tree P mem' pt.root ∧ ∀ va size, leafOf P mem' pt.root va size = 0 := by
  rw [PageTable.new] at run
  split at run
  · cases run
  rename_i f wiped alloc
  cases run
  have allocated := new_zero_spec alloc
  have in_use : f < 2 ^ 40 ∧ f ∉ mem'.free := ⟨mem.window f allocated.was_free, allocated.taken⟩
  refine ⟨RtosTableTree.fresh_tree allocated.emptied in_use, fun va size => ?_⟩
  have unused : RtosTableTree.cell (shape P) mem'.view f (upperIndices va size) (lastIndex va size) = 0 :=
    RtosTableTree.fresh_cell allocated.emptied _ _
  rw [leafOf, leaf, unused, ite_self]

end RtosRvmPageTree
