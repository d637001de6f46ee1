import Mathlib.Tactic.Abel
import CompositeRtos.Nimbos.FrameLedger
import CompositeRtos.Nimbos.LoadUser

/-!
User address spaces beside the kernel's. The page table of a user memory set owns every table
it reaches except those of the kernel, which hang below one root entry, and its last-level
entries for user addresses are a partial function from page numbers to frames and flags. The
frames behind the pages belong to map areas. Mapping, unmapping, taking and dropping frames are
steps on such a space.
-/
namespace RtosNimbosAddressSpace
open RtosLedger RtosFrameMemory RtosRadixWalk RtosOrderedMap RtosNimbosFrames RtosNimbosPageTable Function
open RtosNimbosPageTree RtosNimbosPaging RtosNimbosMemorySet RtosNimbosLoadUser RtosNimbosFrameLedger
open RtosNimbosLoadStage (sharedIndex SameArea same_area_trans)

abbrev UserPages := Nat → Option (Nat × MemFlags)

def entryFor : Option (Nat × MemFlags) → BitVec 64
  | none => 0
  | some (f, flags) => Pte.newPage (startPaddr f) flags false

def UserAddr (va : VirtAddr) : Prop := Canonical va ∧ va < kernelAspaceBase

instance (va : VirtAddr) : Decidable (UserAddr va) := inferInstanceAs (Decidable (_ ∧ _))

/-- The kernel's page table, with every table it reaches its own. -/
structure KernelSpace (ram : Ram) (kernel : PageTable) (kroot : Nat) : Prop where
  ready : KernelReady ram kernel kroot
  tables : ∀ f, Reached child ram.view kroot 3 f → f ∈ kernel.intrmTables

structure Table (kroot : Nat) (ram : Ram) (root : Nat) (pt : PageTable) (pages : UserPages) : Prop where
  at_root : pt.rootPaddr = startPaddr root
  tree : Tree ram root
  own : ∀ q f, q.length ≤ 3 → q.head? ≠ some sharedIndex → walk child ram.view root q = some f →
    f ∈ pt.intrmTables
  shared : ram.view root sharedIndex = ram.view kroot sharedIndex
  leaves : ∀ va, UserAddr va →
    leaf ram root (upperIndices va) (p1Index va) = entryFor (pages (pageOf va))
  sound : ∀ n f flags, pages n = some (f, flags) → f < 2 ^ 27 ∧ flags ≠ MemFlags.empty

variable {kernel : PageTable} {kroot root : Nat}

theorem entry_for_zero {pages : UserPages} (n : Nat)
    (sound : ∀ n f flags, pages n = some (f, flags) → f < 2 ^ 27 ∧ flags ≠ MemFlags.empty) :
    entryFor (pages n) = 0 ↔ pages n = none := by
  cases mapped : pages n with
  | none => simp [entryFor]
  | some x =>
    obtain ⟨f, flags⟩ := x
    constructor
    · intro zero
      exact absurd zero (new_page_used _ (sound n f flags mapped).2)
    · intro missing
      cases missing

theorem root_owned (table : Table kroot ram root pt pages) : root ∈ pt.intrmTables :=
  table.own [] root (by simp) (by simp) rfl

theorem table_reached (space : KernelSpace ram kernel kroot) (table : Table kroot ram root pt pages)
    (reached : Reached child ram.view root 3 f) : f ∈ pt.intrmTables ∨ f ∈ kernel.intrmTables := by
  obtain ⟨q, len, at_f⟩ := reached
  by_cases shared : q.head? = some sharedIndex
  · obtain ⟨rest, rfl⟩ : ∃ rest, q = sharedIndex :: rest := List.head?_eq_some_iff.mp shared
    rw [walk_shared table.shared] at at_f
    exact Or.inr (space.tables f ⟨_, len, at_f⟩)
  · exact Or.inl (table.own q f len shared at_f)

theorem kernel_beside (space : KernelSpace ram kernel kroot)
    (same : ∀ f ∈ kernel.intrmTables, SameFrame ram.bytes ram'.bytes f ∧ ¬ ram'.Available f) :
    KernelSpace ram' kernel kroot := by
  have kept : ∀ f, Reached child ram.view kroot 3 f → SameFrame ram.bytes ram'.bytes f :=
    fun f reached => (same f (space.tables f reached)).1
  refine ⟨⟨space.ready.at_root, ?_, ?_⟩, ?_⟩
  · exact tree_outside kept space.ready.tree fun f reached => (same f (space.tables f reached)).2
  · rw [Ram.view, view_same (kept kroot ⟨[], by simp, rfl⟩)]
    exact space.ready.mapped
  rintro f ⟨q, len, reached⟩
  rw [walks_outside kept len] at reached
  exact space.tables f ⟨q, len, reached⟩

theorem table_beside (space : KernelSpace ram kernel kroot) (table : Table kroot ram root pt pages)
    (same : ∀ f, f ∈ pt.intrmTables ∨ f ∈ kernel.intrmTables →
      SameFrame ram.bytes ram'.bytes f ∧ ¬ ram'.Available f) : Table kroot ram' root pt pages := by
  have kept : ∀ f, Reached child ram.view root 3 f → SameFrame ram.bytes ram'.bytes f :=
    fun f reached => (same f (table_reached space table reached)).1
  have kroot_kept := (same kroot (Or.inr (space.tables kroot ⟨[], by simp, rfl⟩))).1
  refine ⟨table.at_root, ?_, ?_, ?_, ?_, table.sound⟩
  · exact tree_outside kept table.tree fun f reached => (same f (table_reached space table reached)).2
  · intro q f len user reached
    rw [walks_outside kept len] at reached
    exact table.own q f len user reached
  · have here : ram'.view root sharedIndex = ram.view root sharedIndex :=
      view_same (kept root ⟨[], by simp, rfl⟩)
    have there : ram'.view kroot sharedIndex = ram.view kroot sharedIndex := view_same kroot_kept
    rw [here, there]
    exact table.shared
  · intro va user
    rw [leaves_outside kept _ (upper_length va)]
    exact table.leaves va user

/-- A page table with the frames that are held besides it. -/
structure Space (kernel : PageTable) (kroot : Nat) (ram : Ram) (root : Nat) (pt : PageTable)
    (pages : UserPages) (data : Multiset Nat) : Prop where
  beside : KernelSpace ram kernel kroot
  table : Table kroot ram root pt pages
  owns : Holds (pool ram) (↑pt.intrmTables + data + ↑kernel.intrmTables)

theorem space_sane (space : Space kernel kroot ram root pt pages data) : ram.Sane := by
  apply sane_of_holds (f := root) space.owns
  simp only [Multiset.mem_add, Multiset.mem_coe]
  exact Or.inl (Or.inl (root_owned space.table))

theorem space_tables (space : Space kernel kroot ram root pt pages data) : Holds (pool ram) ↑pt.intrmTables :=
  holds_part (holds_part space.owns)

theorem space_data_first (space : Space kernel kroot ram root pt pages (data + rest)) :
    Holds (pool ram) (data + (↑pt.intrmTables + rest + ↑kernel.intrmTables)) := by
  have owns := space.owns
  rwa [show ↑pt.intrmTables + (data + rest) + ↑kernel.intrmTables =
    data + (↑pt.intrmTables + rest + ↑kernel.intrmTables) by abel] at owns

theorem space_data (space : Space kernel kroot ram root pt pages (data + rest))
    (step : Effect ram data ram' data') : Space kernel kroot ram' root pt pages (data' + rest) := by
  have owns := space_data_first space
  have beside := effect_beside step owns
  have ours : ∀ f, f ∈ pt.intrmTables ∨ f ∈ kernel.intrmTables →
      SameFrame ram.bytes ram'.bytes f ∧ ¬ ram'.Available f := by
    intro f member
    apply beside f
    simp only [Multiset.mem_add, Multiset.mem_coe]
    tauto
  refine ⟨kernel_beside space.beside fun f member => ours f (Or.inr member),
    table_beside space.beside space.table ours, ?_⟩
  have holds := (effect_frame step owns).exchange.holds
  rwa [show data' + (↑pt.intrmTables + rest + ↑kernel.intrmTables) =
    ↑pt.intrmTables + (data' + rest) + ↑kernel.intrmTables by abel] at holds

section Pages

variable {ram ram' : Ram} {pt pt' : PageTable} {pages : UserPages} {data : Multiset Nat} {va : VirtAddr}

theorem path_owned (table : Table kroot ram root pt pages) (user : UserAddr va) (ahead : q <+: upperIndices va)
    (reached : walk child ram.view root q = some f) : f ∈ pt.intrmTables := by
  apply table.own q f (Nat.le_trans ahead.length_le (Nat.le_of_eq (upper_length va))) _ reached
  cases q with
  | nil => simp
  | cons i rest =>
    have first : i = p4Index va := (List.cons_prefix_cons.mp ahead).1
    rw [List.head?_cons, first, ne_eq, Option.some.injEq]
    exact user_index user.1 user.2

/-- One page-table operation on a user page: the tree grows, the page's entry becomes that of
    `value`, and nothing but the table's own frames is written. -/
theorem table_after (space : KernelSpace ram kernel kroot) (table : Table kroot ram root pt pages)
    (user : UserAddr va) (value : Option (Nat × MemFlags))
    (grown : Grown pt ram pt' ram' root (upperIndices va))
    (leaves : ∀ q j, q.length = 3 → leaf ram' root q j =
      if q = upperIndices va ∧ j = p1Index va then entryFor value else leaf ram root q j)
    (kept : SameFrame ram.bytes ram'.bytes kroot)
    (sound : ∀ f flags, value = some (f, flags) → f < 2 ^ 27 ∧ flags ≠ MemFlags.empty) :
    Table kroot ram' root pt' (update pages (pageOf va) value) := by
  obtain ⟨new, tables, _⟩ := grown.tables
  refine ⟨grown.kept_root.trans table.at_root, grown.tree, ?_, ?_, ?_, ?_⟩
  · intro q f len ours reached
    rcases grown.back q f len reached with before | made
    · rw [tables]
      exact List.mem_append_left _ (table.own q f len ours before)
    · exact made.1
  · have there : ram'.view kroot sharedIndex = ram.view kroot sharedIndex := view_same kept
    rw [there, ← table.shared]
    apply root_entry_kept table.tree grown.tree (fun g => grown.walks _ g (by simp))
    rw [table.shared]
    exact space.ready.mapped
  · intro vb user_b
    have slot := same_slot_iff user.1 user_b.1
    rw [leaves _ _ (upper_length vb)]
    by_cases same : pageOf vb = pageOf va
    · rw [if_pos (slot.mpr same)]
      simp only [same, update_self]
    · rw [if_neg (fun h => same (slot.mp h)), table.leaves vb user_b]
      simp only [update_of_ne same]
  · intro n f flags mapped
    by_cases same : n = pageOf va
    · simp only [same, update_self] at mapped
      exact sound f flags mapped
    · simp only [update_of_ne same] at mapped
      exact table.sound n f flags mapped

theorem space_tables_step (space : Space kernel kroot ram root pt pages data)
    (step : Effect ram ↑pt.intrmTables ram' ↑pt'.intrmTables)
    (table : SameFrame ram.bytes ram'.bytes kroot → Table kroot ram' root pt' pages') :
    Space kernel kroot ram' root pt' pages' data := by
  have owns := space.owns
  rw [add_assoc] at owns
  have beside := effect_beside step owns
  have kernel_kept : ∀ f ∈ kernel.intrmTables, SameFrame ram.bytes ram'.bytes f ∧ ¬ ram'.Available f :=
    fun f member => beside f (Multiset.mem_add.mpr (Or.inr member))
  have at_kroot := space.beside.tables kroot ⟨[], by simp, rfl⟩
  refine ⟨kernel_beside space.beside kernel_kept, table (kernel_kept kroot at_kroot).1, ?_⟩
  rw [add_assoc]
  exact (effect_frame step owns).exchange.holds

inductive PageMapped (kernel : PageTable) (kroot : Nat) (ram : Ram) (root : Nat) (pt : PageTable)
    (pages : UserPages) (data : Multiset Nat) (va : VirtAddr) (f : Nat) (flags : MemFlags) :
    Except Panic (PageTable × Ram) → Prop where
  | full (short_of : ram.availableSpace < 3) :
      PageMapped kernel kroot ram root pt pages data va f flags (.error .outOfFrames)
  | taken (used : pages (pageOf va) ≠ none) :
      PageMapped kernel kroot ram root pt pages data va f flags (.error .mappedBefore)
  | entered {pt' : PageTable} {ram' : Ram} (free : pages (pageOf va) = none)
      (space : Space kernel kroot ram' root pt' (Function.update pages (pageOf va) (some (f, flags))) data)
      (step : Effect ram ↑pt.intrmTables ram' ↑pt'.intrmTables)
      (grows : ∀ f ∈ pt.intrmTables, f ∈ pt'.intrmTables)
      (few : pt'.intrmTables.length ≤ pt.intrmTables.length + 3) :
      PageMapped kernel kroot ram root pt pages data va f flags (.ok (pt', ram'))

theorem start_paddr_aligned (small : f < 2 ^ 27) : isAligned (startPaddr f) := by
  rw [aligned_iff, start_paddr_toNat (show f < 2 ^ 28 by omega)]
  exact Nat.dvd_mul_right _ f

theorem space_map (space : Space kernel kroot ram root pt pages data) (user : UserAddr va) {flags : MemFlags}
    (small : f < 2 ^ 27) (some_flag : flags ≠ MemFlags.empty) :
    PageMapped kernel kroot ram root pt pages data va f flags (pt.map ram va (startPaddr f) flags) := by
  have outcome := map_spec space.table.tree space.table.at_root va (startPaddr f) flags
  have tables := space_tables space
  rw [align_down_aligned (start_paddr_aligned small)] at outcome
  have state := space.table.leaves va user
  cases run : pt.map ram va (startPaddr f) flags with
  | error e =>
    rw [run] at outcome
    cases outcome with
    | full short_of => exact PageMapped.full short_of
    | taken used =>
      apply PageMapped.taken
      intro missing
      rw [state, missing] at used
      exact used rfl
  | ok result =>
    obtain ⟨pt', ram'⟩ := result
    rw [run] at outcome
    cases outcome with
    | entered free grown leaves =>
      obtain ⟨exchange, few⟩ := map_exchange tables (space_sane space) run
      have step : Effect ram ↑pt.intrmTables ram' ↑pt'.intrmTables := by
        refine ⟨exchange, ?_⟩
        intro g issued outside
        apply grown.kept g (Ram.issued_unavailable issued)
        intro q ahead reached
        exact outside (path_owned space.table user ahead reached)
      rw [state, entry_for_zero _ space.table.sound] at free
      obtain ⟨new, shape, _⟩ := grown.tables
      refine PageMapped.entered free (space_tables_step space step ?_) step
        (fun g member => shape ▸ List.mem_append_left new member) few
      intro kept
      apply table_after space.beside space.table user (some (f, flags)) grown leaves kept
      rintro _ _ ⟨⟩
      exact ⟨small, some_flag⟩

theorem space_unmap (space : Space kernel kroot ram root pt pages data) (user : UserAddr va)
    (used : pages (pageOf va) ≠ none) : ∃ ram', pt.unmap ram va = .ok ram' ∧
      Space kernel kroot ram' root pt (update pages (pageOf va) none) data ∧
      Effect ram ↑pt.intrmTables ram' ↑pt.intrmTables := by
  have outcome := unmap_spec space.table.tree space.table.at_root va
  have state := space.table.leaves va user
  cases run : pt.unmap ram va with
  | error e =>
    rw [run] at outcome
    cases outcome with
    | missing free =>
      rw [state, entry_for_zero _ space.table.sound] at free
      exact absurd free used
  | ok ram' =>
    rw [run] at outcome
    cases outcome with
    | cleared _ grown leaves =>
      have step : Effect ram ↑pt.intrmTables ram' ↑pt.intrmTables := by
        apply effect_write (space_tables space) (unmap_frames run)
        intro g issued outside
        apply grown.kept g (Ram.issued_unavailable issued)
        intro q ahead reached
        exact outside (path_owned space.table user ahead reached)
      refine ⟨ram', rfl, space_tables_step space step ?_, step⟩
      intro kept
      apply table_after space.beside space.table user none grown leaves kept
      rintro _ _ ⟨⟩

end Pages

end RtosNimbosAddressSpace
