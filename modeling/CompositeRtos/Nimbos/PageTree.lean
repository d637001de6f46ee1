import CompositeRtos.Lib.TableTree
import CompositeRtos.Nimbos.PageTable

/-!
The tables below a root form a tree of distinct frames that are in use, and the entries
above the last level are zero or point to a table. This is all that the descents need:
without creation a descent ends where the walk ends, and with creation it only adds zeroed
tables, so no last-level entry changes. An entry of a table that does not exist counts as
zero, which makes the state of a page a total function of the indices.
-/
namespace RtosNimbosPageTree
open RtosFrameMemory RtosRadixWalk RtosNimbosFrames RtosNimbosPageTable List Option

def child (e : BitVec 64) : Option Nat :=
  if Pte.isPresent e then some (frameOf (Pte.paddr e)) else none

theorem unused_iff (e : BitVec 64) : Pte.isUnused e = true ↔ e = 0 := by
  rw [Pte.isUnused, beq_iff_eq]

theorem child_zero : child 0 = none := by decide

theorem next_table_of_zero : nextTableMut 0 = .ok none := by
  have absent : Pte.isPresent 0 = false := by decide
  rw [nextTableMut, if_pos (by rw [absent]; rfl)]

theorem paddr_masked (aligned : 2 ^ 12 ∣ paddr.toNat) (small : paddr.toNat < 2 ^ 40) :
    PhysAddr.new (paddr &&& Pte.physAddrMask) = paddr := by
  rw [RtosBitField.and_field 12 52 (by decide) aligned (by omega), PhysAddr.new]
  exact RtosBitField.and_field 0 40 (by decide) (by simp) small

theorem start_paddr_masked (small : g < 2 ^ 27) :
    PhysAddr.new (startPaddr g &&& Pte.physAddrMask) = startPaddr g := by
  have value := start_paddr_toNat (show g < 2 ^ 28 by omega)
  apply paddr_masked
  · rw [value]
    exact Nat.dvd_mul_right 4096 g
  · omega

theorem truncated_table : Ptf.fromBitsTruncate (Pte.newTable paddr) = 7 :=
  RtosBitField.flags_read_back paddr (by decide) (by decide)

theorem paddr_new_table (small : g < 2 ^ 27) : Pte.paddr (Pte.newTable (startPaddr g)) = startPaddr g := by
  rw [Pte.paddr, Pte.newTable, RtosBitField.field_read_back _ (by decide)]
  exact start_paddr_masked small

theorem table_present (paddr : PhysAddr) : Pte.isPresent (Pte.newTable paddr) = true := by
  rw [Pte.isPresent, truncated_table]
  decide

theorem table_used : Pte.isUnused (Pte.newTable paddr) = false := by
  have present := table_present paddr
  rw [Bool.eq_false_iff, ne_eq, unused_iff]
  intro zero
  rw [zero] at present
  exact absurd present (by decide)

theorem child_new_table (small : g < 2 ^ 27) : child (Pte.newTable (startPaddr g)) = some g := by
  rw [child, if_pos (table_present _), paddr_new_table small, frame_of_start (by omega)]

theorem next_table_of_table (small : g < 2 ^ 27) :
    nextTableMut (Pte.newTable (startPaddr g)) = .ok (some (startPaddr g)) := by
  have single : Pte.isBlock (Pte.newTable (startPaddr g)) = false := by
    rw [Pte.isBlock, truncated_table]
    decide
  simp [nextTableMut, table_present, single, paddr_new_table small]

theorem flag_bits_apart : Ptf.ofMemFlags flags &&& Pte.physAddrMask = 0#64 ∧
    Ptf.ofMemFlags flags &&& Ptf.all = Ptf.ofMemFlags flags := by
  obtain ⟨r, w, x, u, d⟩ := flags
  revert r w x u d
  decide

theorem truncated_page (pa : PhysAddr) (flags : MemFlags) :
    Ptf.fromBitsTruncate (Pte.newPage pa flags false) = Ptf.ofMemFlags flags := by
  rw [Pte.newPage, if_neg (by simp), show (0 : BitVec 64) = 0#64 from rfl, BitVec.or_zero]
  exact RtosBitField.flags_read_back pa (by decide) flag_bits_apart.2

theorem paddr_new_page (aligned : 2 ^ 12 ∣ pa.toNat) (small : pa.toNat < 2 ^ 40) :
    Pte.paddr (Pte.newPage pa flags false) = pa := by
  rw [Pte.paddr, Pte.newPage, if_neg (by simp), show (0 : BitVec 64) = 0#64 from rfl, BitVec.or_zero,
    RtosBitField.field_read_back pa flag_bits_apart.1]
  exact paddr_masked aligned small

theorem flags_new_page (readable : flags.read) : Pte.flags (Pte.newPage pa flags false) = flags := by
  rw [Pte.flags, truncated_page]
  obtain ⟨r, w, x, u, d⟩ := flags
  revert r w x u d
  decide

theorem new_page_used (pa : PhysAddr) (some_flag : flags ≠ MemFlags.empty) : Pte.newPage pa flags false ≠ 0 := by
  intro zero
  have bits := truncated_page pa flags
  rw [zero] at bits
  clear zero
  obtain ⟨r, w, x, u, d⟩ := flags
  revert r w x u d
  decide

@[reducible]
def shape : RtosTableTree.Shape Nat (BitVec 64) where
  child := child
  empty := 0
  allowed _ e := e = 0 ∨ ∃ g, g < 2 ^ 27 ∧ e = Pte.newTable (startPaddr g)
  empty_child := child_zero
  empty_allowed _ := Or.inl rfl

abbrev Tree (ram : Ram) (root : Nat) : Prop :=
  RtosTableTree.Tree shape ram.view root 3 fun f => ¬ ram.Available f ∧ f < 2 ^ 27

def leaf (ram : Ram) (root : Nat) (q : List (Fin 512)) (j : Fin 512) : BitVec 64 :=
  RtosTableTree.cell shape ram.view root q j

theorem entry_at_start (ram : Ram) (small : f < 2 ^ 27) (i : Fin 512) :
    entryAt ram (startPaddr f) i = ram.view f i := by
  rw [entryAt, frame_of_start (by omega)]

theorem store_entry_view (ram : Ram) (small : f < 2 ^ 27) (i : Fin 512) (e : BitVec 64) :
    (ram.storeEntry (startPaddr f) i e).view = poke ram.view f i e := by
  simp only [Ram.storeEntry, Ram.view, frame_of_start (show f < 2 ^ 28 by omega)]
  exact view_store

theorem copy_elsewhere (ram : Ram) (small : f < 2 ^ 27) (inside : pgoff + data.length ≤ 4096) (other : g ≠ f) :
    SameFrame ram.bytes (ram.copy ((startPaddr f).toNat + pgoff) data).bytes g := by
  intro a in_frame
  have place := start_paddr_toNat (show f < 2 ^ 28 by omega)
  simp only [Ram.copy, place]
  split
  · have beyond : data.length ≤ a - (4096 * f + pgoff) := by omega
    rw [List.getD_eq_getElem?_getD, List.getElem?_eq_none beyond, getD_none]
  · rfl

theorem tree_small (tree : Tree ram root) (short : p.length ≤ 3) (at_f : walk child ram.view root p = some f) :
    f < 2 ^ 27 :=
  (tree.live f ⟨p, short, at_f⟩).2

theorem descend_spec (tree : Tree ram root) (short : p.length + rest.length ≤ 3)
    (at_f : walk child ram.view root p = some f) :
    descend ram (startPaddr f) rest = .ok ((walk child ram.view root (p ++ rest)).map startPaddr) := by
  induction rest generalizing p f with
  | nil => simp [descend, at_f]
  | cons i rest ih =>
    simp only [length_cons] at short
    have here := entry_at_start ram (tree_small tree (by omega) at_f) i
    rw [descend, here]
    rcases tree.formed p f i (by omega) at_f with zero | ⟨g, small, table⟩
    · rw [walk_below_childless at_f (by rw [zero]; exact child_zero)]
      simp only [zero, next_table_of_zero, map_none]
    have at_g : walk child ram.view root (p ++ [i]) = some g := by
      rw [walk_snoc at_f, table, child_new_table small]
    have onward := ih (p := p ++ [i]) (by simp; omega) at_g
    rw [List.append_assoc, singleton_append] at onward
    simp only [table, next_table_of_table small]
    exact onward

theorem query_spec (tree : Tree ram root) (pt : PageTable) (at_root : pt.rootPaddr = startPaddr root)
    (va : VirtAddr) :
    pt.query ram va =
      let e := leaf ram root (upperIndices va) (p1Index va)
      if Pte.isUnused e then .ok none
      else .ok (some (PhysAddr.new (Pte.paddr e + pageOffset va), Pte.flags e)) := by
  have descent : descend ram (startPaddr root) (upperIndices va) =
      .ok ((walk child ram.view root (upperIndices va)).map startPaddr) :=
    descend_spec tree (p := []) (by simp [upperIndices]) rfl
  rw [PageTable.query, PageTable.getEntryMut, at_root, descent, leaf]
  cases ends : walk child ram.view root (upperIndices va) with
  | none =>
    have unused : Pte.isUnused shape.empty = true := (unused_iff 0).mpr rfl
    rw [RtosTableTree.cell_of_none ends]
    simp only [map_none, unused, if_true]
  | some f =>
    have here := entry_at_start ram (tree_small tree (by simp [upperIndices]) ends) (p1Index va)
    rw [RtosTableTree.cell_of_walk ends]
    simp only [map_some, here]

section Outside

variable {ram ram' : Ram} {root : Nat}
  (same : ∀ f, Reached child ram.view root 3 f → SameFrame ram.bytes ram'.bytes f)

include same

theorem walks_outside (short : q.length ≤ 3) : walk child ram'.view root q = walk child ram.view root q :=
  RtosTableTree.walks_outside (S := shape) (fun f reached i => view_same (same f reached)) short

theorem leaves_outside (j : Fin 512) (len : q.length = 3) : leaf ram' root q j = leaf ram root q j :=
  RtosTableTree.cells_outside (fun f reached i => view_same (same f reached)) (Nat.le_of_eq len) j

theorem tree_outside (tree : Tree ram root)
    (used : ∀ f, Reached child ram.view root 3 f → ¬ ram'.Available f) : Tree ram' root :=
  RtosTableTree.tree_outside (fun f reached i => view_same (same f reached)) tree
    fun f reached => ⟨used f reached, (tree.live f reached).2⟩

end Outside

theorem root_entry_kept (tree : Tree ram root) (tree' : Tree ram' root)
    (walks : ∀ g, walk child ram.view root [i] = some g → walk child ram'.view root [i] = some g)
    (present : ram.view root i ≠ 0) : ram'.view root i = ram.view root i := by
  have entry : ∀ {ram : Ram} {g : Nat}, Tree ram root → walk child ram.view root [i] = some g →
      ram.view root i = Pte.newTable (startPaddr g) := by
    intro ram g tree reached
    rcases tree.formed [] root i (by simp) rfl with zero | ⟨h, small, table⟩
    · rw [walk, zero, child_zero] at reached
      cases reached
    rw [walk, table, child_new_table small] at reached
    cases reached
    exact table
  rcases tree.formed [] root i (by simp) rfl with zero | ⟨g, small, table⟩
  · exact absurd zero present
  have reached : walk child ram.view root [i] = some g := by
    rw [walk, table, child_new_table small]
    rfl
  rw [table, entry tree' (walks g reached)]

structure Grown (pt : PageTable) (ram : Ram) (pt' : PageTable) (ram' : Ram) (root : Nat)
    (path : List (Fin 512)) : Prop where
  tree : Tree ram' root
  kept_root : pt'.rootPaddr = pt.rootPaddr
  tables : ∃ new, pt'.intrmTables = pt.intrmTables ++ new ∧
    ∀ f ∈ new, ram.Available f ∧ ¬ ram'.Available f
  shrinks : ∀ f, ram'.Available f → ram.Available f
  walks : ∀ q f, q.length ≤ 3 → walk child ram.view root q = some f →
    walk child ram'.view root q = some f
  back : ∀ q f, q.length ≤ 3 → walk child ram'.view root q = some f →
    walk child ram.view root q = some f ∨ f ∈ pt'.intrmTables ∧ ram.Available f
  kept : ∀ g, ¬ ram.Available g → (∀ q, q <+: path → walk child ram.view root q ≠ some g) →
    SameFrame ram.bytes ram'.bytes g

theorem grown_refl (tree : Tree ram root) (pt : PageTable) (path : List (Fin 512)) :
    Grown pt ram pt ram root path where
  tree := tree
  kept_root := rfl
  tables := ⟨[], by simp⟩
  shrinks := fun _ h => h
  walks := fun _ _ _ h => h
  back := fun _ _ _ h => Or.inl h
  kept := fun g _ _ => same_frame_refl

theorem grown_trans (short : path.length ≤ 3) (first : Grown pt ram pt₁ ram₁ root path)
    (second : Grown pt₁ ram₁ pt₂ ram₂ root path) : Grown pt ram pt₂ ram₂ root path := by
  obtain ⟨new₁, tables₁, fresh₁⟩ := first.tables
  obtain ⟨new₂, tables₂, fresh₂⟩ := second.tables
  refine ⟨second.tree, second.kept_root.trans first.kept_root, ⟨new₁ ++ new₂, ?_, ?_⟩, ?_, ?_, ?_, ?_⟩
  · rw [tables₂, tables₁, List.append_assoc]
  · intro f member
    rcases mem_append.mp member with early | late
    · exact ⟨(fresh₁ f early).1, fun h => (fresh₁ f early).2 (second.shrinks f h)⟩
    · exact ⟨first.shrinks f (fresh₂ f late).1, (fresh₂ f late).2⟩
  · intro f available
    exact first.shrinks f (second.shrinks f available)
  · intro q f len reached
    exact second.walks q f len (first.walks q f len reached)
  · intro q f len reached
    rcases second.back q f len reached with before | made
    · rcases first.back q f len before with before | made
      · exact Or.inl before
      · exact Or.inr ⟨by rw [tables₂]; exact mem_append_left _ made.1, made.2⟩
    · exact Or.inr ⟨made.1, first.shrinks f made.2⟩
  · intro g used off_path
    apply same_frame_trans (first.kept g used off_path)
    apply second.kept g (fun h => used (first.shrinks g h))
    intro q ahead reached
    have len : q.length ≤ 3 := Nat.le_trans ahead.length_le short
    rcases first.back q g len reached with before | made
    · exact off_path q ahead before
    · exact used made.2

structure Taken (ram ram₁ : Ram) (root g : Nat) : Prop where
  available : ram.Available g
  small : g < 2 ^ 27
  used : ¬ ram₁.Available g
  shrinks : ∀ h, ram₁.Available h → ram.Available h
  elsewhere : ∀ h, h ≠ g → SameFrame ram.bytes ram₁.bytes h
  empty : ∀ j, ram₁.view g j = 0
  same : ∀ h, Reached child ram.view root 3 h → SameFrame ram.bytes ram₁.bytes h
  tree : Tree ram₁ root
  fresh : ¬ Reached child ram₁.view root 3 g

theorem taken_beside (tree : Tree ram root) (made : ram.allocZero = some (g, ram₁)) : Taken ram ram₁ root g := by
  obtain ⟨available, wiped, others, _⟩ := Ram.alloc_zero_some made
  have shrinks : ∀ h, ram₁.Available h → ram.Available h := fun h still => ((others h).mp still).1
  have elsewhere : ∀ h, h ≠ g → SameFrame ram.bytes ram₁.bytes h := by
    intro h ne
    rw [wiped]
    exact wipe_elsewhere ne
  have apart : ∀ h, Reached child ram.view root 3 h → h ≠ g := by
    intro h reached same
    exact (tree.live h reached).1 (same ▸ available)
  have same : ∀ h, Reached child ram.view root 3 h → SameFrame ram.bytes ram₁.bytes h :=
    fun h reached => elsewhere h (apart h reached)
  refine ⟨available, Ram.available_small available, fun h => ((others g).mp h).2 rfl, shrinks, elsewhere,
    ?_, same, ?_, ?_⟩
  · intro j
    rw [Ram.view, wiped]
    exact view_wiped
  · exact tree_outside same tree fun h reached still => (tree.live h reached).1 (shrinks h still)
  rintro ⟨q, len, reached⟩
  rw [walks_outside same len] at reached
  exact apart g ⟨q, len, reached⟩ rfl

theorem grown_create (rest : List (Fin 512)) (tree : Tree ram root) (short : p.length < 3)
    (at_f : walk child ram.view root p = some f) (zero : ram.view f i = 0)
    (made : ram.allocZero = some (g, ram₁)) :
    Grown pt ram { pt with intrmTables := pt.intrmTables ++ [g] }
      (ram₁.storeEntry (startPaddr f) i (Pte.newTable (startPaddr g))) root (p ++ i :: rest) ∧
    (∀ q j, q.length = 3 → leaf (ram₁.storeEntry (startPaddr f) i (Pte.newTable (startPaddr g))) root q j =
      leaf ram root q j) ∧
    walk child (ram₁.storeEntry (startPaddr f) i (Pte.newTable (startPaddr g))).view root
      (p ++ [i]) = some g := by
  have taken := taken_beside tree made
  have small_f := tree_small tree (by omega) at_f
  have not_g : f ≠ g := fun same => (tree.live f ⟨p, by omega, at_f⟩).1 (same ▸ taken.available)
  have fresh : ¬ Reached child ram.view root 3 g := fun reached => (tree.live g reached).1 taken.available
  have vacant : child (ram.view f i) = none := by rw [zero, child_zero]
  have points := child_new_table taken.small
  have stored := store_entry_view ram₁ small_f i (Pte.newTable (startPaddr g))
  have linked : RtosTableTree.Linked shape ram.view
      (ram₁.storeEntry (startPaddr f) i (Pte.newTable (startPaddr g))).view f i
      (Pte.newTable (startPaddr g)) g := by
    rw [stored]
    refine ⟨poke_here _ f i _, ?_, ?_⟩
    · intro j
      rw [poke_other_table _ (Ne.symm not_g), taken.empty]
    intro h j other away
    rw [poke, if_neg away]
    exact view_same (taken.elsewhere h other)
  have walks := fun {q : List (Fin 512)} (len : q.length ≤ 3) =>
    RtosTableTree.linked_walk tree short at_f vacant points fresh linked len
  refine ⟨⟨?_, rfl, ⟨[g], rfl, ?_⟩, taken.shrinks, ?_, ?_, ?_⟩, ?_, ?_⟩
  · apply RtosTableTree.linked_tree tree short at_f vacant points fresh linked
    · exact Or.inr ⟨g, taken.small, rfl⟩
    · exact ⟨taken.used, taken.small⟩
    · intro h reached
      exact ⟨fun still => (tree.live h reached).1 (taken.shrinks h still), (tree.live h reached).2⟩
  · intro h member
    rw [mem_singleton.mp member]
    exact ⟨taken.available, taken.used⟩
  · intro q h len reached
    rw [walks len, if_neg _, reached]
    intro here
    rw [here, walk_snoc at_f, vacant] at reached
    cases reached
  · intro q h len reached
    rw [walks len] at reached
    split at reached
    · cases reached
      exact Or.inr ⟨by simp, taken.available⟩
    · exact Or.inl reached
  · intro h busy off_path
    have not_f : h ≠ f := by
      intro same
      subst same
      exact off_path p (prefix_append p _) at_f
    have other : h ≠ g := by
      intro same
      exact busy (same ▸ taken.available)
    have second := store_elsewhere ram₁.bytes (f := f) not_f i (Pte.newTable (startPaddr g))
    simp only [Ram.storeEntry, frame_of_start (show f < 2 ^ 28 by omega)]
    exact same_frame_trans (taken.elsewhere h other) second
  · intro q j len
    rw [leaf, RtosTableTree.linked_cell tree short at_f vacant points fresh linked (by omega), if_neg _, leaf]
    rintro ⟨same, _⟩
    rw [same] at len
    omega
  · rw [walks (by simp; omega), if_pos rfl]

/-- The two ways a descent with creation can end. `need` bounds the frames it asks for. -/
inductive Descended (pt : PageTable) (ram : Ram) (root : Nat) (path q : List (Fin 512)) (need : Nat) :
    Except Panic (Option PhysAddr × PageTable × Ram) → Prop where
  | full (short_of : ram.availableSpace < need) : Descended pt ram root path q need (.error .outOfFrames)
  | found {g : Nat} {pt' : PageTable} {ram' : Ram} (grown : Grown pt ram pt' ram' root path)
      (leaves : ∀ q j, q.length = 3 → leaf ram' root q j = leaf ram root q j)
      (ends : walk child ram'.view root q = some g)
      (space : ram.availableSpace ≤ ram'.availableSpace + need) :
      Descended pt ram root path q need (.ok (some (startPaddr g), pt', ram'))

theorem next_or_create_spec (pt : PageTable) (i : Fin 512) (rest : List (Fin 512)) (tree : Tree ram root)
    (short : p.length < 3) (at_f : walk child ram.view root p = some f) :
    Descended pt ram root (p ++ i :: rest) (p ++ [i]) 1 (pt.nextTableMutOrCreate ram (startPaddr f) i) := by
  have here := entry_at_start ram (tree_small tree (by omega) at_f) i
  rw [PageTable.nextTableMutOrCreate, here]
  rcases tree.formed p f i short at_f with zero | ⟨g, small, table⟩
  · simp only [zero, show Pte.isUnused 0 = true from rfl, if_true, PageTable.allocIntrmTable]
    cases made : ram.allocZero with
    | none =>
      have exhausted := Ram.alloc_zero_none made
      exact Descended.full (by omega)
    | some result =>
      obtain ⟨g, ram₁⟩ := result
      obtain ⟨grown, leaves, ends⟩ := grown_create rest tree short at_f zero made
      exact Descended.found grown leaves ends (Ram.alloc_zero_some made).2.2.2
  · simp only [table, table_used, next_table_of_table small]
    apply Descended.found (grown_refl tree pt _) (fun _ _ _ => rfl) _ (by omega)
    rw [walk_snoc at_f, table, child_new_table small]

theorem descend_or_create_spec (pt : PageTable) (tree : Tree ram root) (short : p.length + rest.length ≤ 3)
    (at_f : walk child ram.view root p = some f) :
    Descended pt ram root (p ++ rest) (p ++ rest) rest.length
      (pt.descendOrCreate ram (startPaddr f) rest) := by
  induction rest generalizing pt ram p f with
  | nil =>
    rw [append_nil]
    exact Descended.found (grown_refl tree pt p) (fun _ _ _ => rfl) at_f (by simp)
  | cons i rest ih =>
    simp only [length_cons] at short
    have step := next_or_create_spec pt i rest tree (by omega) at_f
    rw [PageTable.descendOrCreate]
    generalize pt.nextTableMutOrCreate ram (startPaddr f) i = outcome at step
    cases step with
    | full short_of => exact Descended.full (by simp only [length_cons]; omega)
    | @found g pt₁ ram₁ grown leaves ends space =>
      have onward := ih pt₁ (p := p ++ [i]) grown.tree (by simp; omega) ends
      rw [List.append_assoc, singleton_append] at onward
      show Descended pt ram root _ _ _ (pt₁.descendOrCreate ram₁ (startPaddr g) rest)
      generalize pt₁.descendOrCreate ram₁ (startPaddr g) rest = final at onward
      cases onward with
      | full short_of => exact Descended.full (by simp only [length_cons]; omega)
      | found grown₂ leaves₂ ends₂ space₂ =>
        apply Descended.found (grown_trans (by simp; omega) grown grown₂) _ ends₂
        · simp only [length_cons]
          omega
        · intro q j len
          rw [leaves₂ q j len, leaves q j len]

section Store

variable {ram : Ram} {root f : Nat} {path : List (Fin 512)} (tree : Tree ram root)
  (last : path.length = 3) (at_f : walk child ram.view root path = some f) (i : Fin 512) (e : BitVec 64)

include tree last at_f

theorem stored_walk (len : q.length ≤ 3) :
    walk child (ram.storeEntry (startPaddr f) i e).view root q = walk child ram.view root q := by
  rw [store_entry_view ram (tree_small tree (by omega) at_f)]
  exact RtosTableTree.stored_walk tree at_f (Or.inl last) len

theorem stored_leaf (len : q.length = 3) (j : Fin 512) : leaf (ram.storeEntry (startPaddr f) i e) root q j =
      if q = path ∧ j = i then e else leaf ram root q j := by
  rw [leaf, store_entry_view ram (tree_small tree (by omega) at_f)]
  exact RtosTableTree.stored_cell tree (by omega) at_f (Or.inl last) (by omega) j

theorem stored_tree : Tree (ram.storeEntry (startPaddr f) i e) root := by
  unfold Tree
  rw [store_entry_view ram (tree_small tree (by omega) at_f)]
  exact RtosTableTree.stored_tree tree (by omega) at_f (Or.inl last) (by omega)

theorem stored_grown (pt : PageTable) : Grown pt ram pt (ram.storeEntry (startPaddr f) i e) root path where
  tree := stored_tree tree last at_f i e
  kept_root := rfl
  tables := ⟨[], by simp⟩
  shrinks := fun _ h => h
  walks := fun q g len reached => by rw [stored_walk tree last at_f i e len, reached]
  back := fun q g len reached => by
    rw [stored_walk tree last at_f i e len] at reached
    exact Or.inl reached
  kept := fun g _ off_path => by
    have not_f : g ≠ f := by
      intro same
      subst same
      exact off_path path (prefix_refl path) at_f
    have exact_frame : frameOf (startPaddr f) = f :=
      frame_of_start (by have := tree_small tree (by omega) at_f; omega)
    simp only [Ram.storeEntry, exact_frame]
    exact store_elsewhere ram.bytes not_f i e

end Store

theorem upper_length (va : VirtAddr) : (upperIndices va).length = 3 := rfl

/-- The ways `map` can end: only the entry of the page itself is written, and only if it
    was unused. -/
inductive Mapped (pt : PageTable) (ram : Ram) (root : Nat) (va : VirtAddr) (e : BitVec 64) :
    Except Panic (PageTable × Ram) → Prop where
  | full (short_of : ram.availableSpace < 3) : Mapped pt ram root va e (.error .outOfFrames)
  | taken (used : leaf ram root (upperIndices va) (p1Index va) ≠ 0) :
      Mapped pt ram root va e (.error .mappedBefore)
  | entered {pt' : PageTable} {ram' : Ram} (free : leaf ram root (upperIndices va) (p1Index va) = 0)
      (grown : Grown pt ram pt' ram' root (upperIndices va))
      (leaves : ∀ q j, q.length = 3 → leaf ram' root q j =
        if q = upperIndices va ∧ j = p1Index va then e else leaf ram root q j) :
      Mapped pt ram root va e (.ok (pt', ram'))

theorem map_spec (tree : Tree ram root) (at_root : pt.rootPaddr = startPaddr root) (va : VirtAddr)
    (pa : PhysAddr) (flags : MemFlags) :
    Mapped pt ram root va (Pte.newPage (alignDown pa) flags false) (pt.map ram va pa flags) := by
  have descent : Descended pt ram root (upperIndices va) (upperIndices va) 3
      (pt.descendOrCreate ram pt.rootPaddr (upperIndices va)) := by
    rw [at_root]
    exact descend_or_create_spec pt (p := []) tree (by simp) rfl
  rw [PageTable.map]
  generalize pt.descendOrCreate ram pt.rootPaddr (upperIndices va) = outcome at descent
  cases descent with
  | full short_of => exact Mapped.full short_of
  | @found f pt₁ ram₁ grown leaves ends space =>
    have here := entry_at_start ram₁ (tree_small grown.tree (by rw [upper_length]) ends) (p1Index va)
    have before : leaf ram root (upperIndices va) (p1Index va) = ram₁.view f (p1Index va) := by
      rw [← leaves _ _ (upper_length va)]
      exact RtosTableTree.cell_of_walk ends (p1Index va)
    simp only [here]
    by_cases unused : ram₁.view f (p1Index va) = 0
    · rw [if_neg (by rw [(unused_iff _).mpr unused]; simp)]
      apply Mapped.entered (before.trans unused)
      · exact grown_trans (by rw [upper_length]) grown
          (stored_grown grown.tree (upper_length va) ends _ _ pt₁)
      · intro q j len
        rw [stored_leaf grown.tree (upper_length va) ends _ _ len, leaves q j len]
    · rw [if_pos (by rw [Bool.not_eq_true', Bool.eq_false_iff, ne_eq, unused_iff]; exact unused)]
      exact Mapped.taken (by rw [before]; exact unused)

inductive Unmapped (pt : PageTable) (ram : Ram) (root : Nat) (va : VirtAddr) : Except Panic Ram → Prop where
  | missing (free : leaf ram root (upperIndices va) (p1Index va) = 0) (why : Panic) :
      Unmapped pt ram root va (.error why)
  | cleared {ram' : Ram} (used : leaf ram root (upperIndices va) (p1Index va) ≠ 0)
      (grown : Grown pt ram pt ram' root (upperIndices va))
      (leaves : ∀ q j, q.length = 3 → leaf ram' root q j =
        if q = upperIndices va ∧ j = p1Index va then 0 else leaf ram root q j) :
      Unmapped pt ram root va (.ok ram')

theorem unmap_spec (tree : Tree ram root) (at_root : pt.rootPaddr = startPaddr root) (va : VirtAddr) :
    Unmapped pt ram root va (pt.unmap ram va) := by
  have descent : descend ram (startPaddr root) (upperIndices va) =
      .ok ((walk child ram.view root (upperIndices va)).map startPaddr) :=
    descend_spec tree (p := []) (by simp [upper_length]) rfl
  rw [PageTable.unmap, PageTable.getEntryMut, at_root, descent]
  cases ends : walk child ram.view root (upperIndices va) with
  | none => exact Unmapped.missing (RtosTableTree.cell_of_none ends) _
  | some f =>
    have here := entry_at_start ram (tree_small tree (by rw [upper_length]) ends) (p1Index va)
    have before : leaf ram root (upperIndices va) (p1Index va) = ram.view f (p1Index va) :=
      RtosTableTree.cell_of_walk ends (p1Index va)
    simp only [map_some, here]
    by_cases unused : ram.view f (p1Index va) = 0
    · rw [if_pos ((unused_iff _).mpr unused)]
      exact Unmapped.missing (before.trans unused) _
    rw [if_neg (by rw [unused_iff]; exact unused)]
    apply Unmapped.cleared (by rw [before]; exact unused)
    · exact stored_grown tree (upper_length va) ends _ _ pt
    · intro q j len
      exact stored_leaf tree (upper_length va) ends _ _ len j

theorem new_tree {ram : Ram} (made : ram.allocZero = some (root, ram')) :
    Tree ram' root ∧ ∀ q f, walk child ram'.view root q = some f → q = [] ∧ f = root := by
  obtain ⟨available, wiped, others, _⟩ := Ram.alloc_zero_some made
  have empty : ∀ j, ram'.view root j = 0 := by
    intro j
    rw [Ram.view, wiped]
    exact view_wiped
  have in_use : ¬ ram'.Available root ∧ root < 2 ^ 27 :=
    ⟨fun still => ((others root).mp still).2 rfl, Ram.available_small available⟩
  exact ⟨RtosTableTree.fresh_tree empty in_use, fun q f reached => RtosTableTree.fresh_walk (S := shape) empty reached⟩

end RtosNimbosPageTree
