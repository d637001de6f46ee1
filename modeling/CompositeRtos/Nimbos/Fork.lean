import CompositeRtos.Nimbos.Lifecycle

/-!
`fork` copies and isolates. What a program sees through a memory set is, for each user address,
the flags and the byte behind it. A copy shows the same as the original at the time of the copy,
and since the two share no frame, no write through one of them is seen through the other. All
of this is for programs without a segment in the kernel half: such a segment is mapped in the
tables that all sets share, so that the copy finds its page taken.
-/
namespace RtosNimbosFork
open RtosTransition RtosLedger RtosFrameMemory RtosNimbosFrames RtosNimbosPageTable RtosNimbosPaging
open RtosNimbosMemorySet RtosNimbosLoadUser RtosNimbosFrameLedger RtosNimbosAddressSpace
open RtosNimbosAreas RtosNimbosUserSets RtosNimbosSetCopy RtosNimbosLifecycle

def look (ms : MemorySet) (ram : Ram) (va : VirtAddr) : Option (MemFlags × BitVec 8) :=
  match ms.pt.query ram va with
  | .ok (some (pa, flags)) => some (flags, ram.bytes pa.toNat)
  | _ => none

def storeAll (ms : MemorySet) (ram : Ram) (writes : List (VirtAddr × BitVec 8)) : Ram :=
  writes.foldl (fun ram w => store ms ram w.1 w.2) ram

variable {kernel : PageTable} {kroot root : Nat} {ram ram' : Ram} {pages : UserPages}
  {ms copy : MemorySet} {va : VirtAddr}

theorem look_user (table : Table kroot ram root ms.pt pages) (user : UserAddr va) : look ms ram va =
    (pages (pageOf va)).map fun x => (reported x.2, ram.bytes (4096 * x.1 + va.toNat % 4096)) := by
  rw [look, query_user table user]
  cases mapped : pages (pageOf va) with
  | none => rfl
  | some x =>
    obtain ⟨f, flags⟩ := x
    have small := (table.sound _ f flags mapped).1
    simp only [Option.map_some, address_toNat small]

theorem sound_beside (sound : Sound kernel kroot ram root pages ms)
    (same : ∀ f ∈ held ms + ↑kernel.intrmTables, SameFrame ram.bytes ram'.bytes f ∧ ¬ ram'.Available f)
    (owns : Holds (pool ram') (held ms + ↑kernel.intrmTables)) :
    Sound kernel kroot ram' root pages ms ∧ ∀ va, UserAddr va → look ms ram' va = look ms ram va := by
  have tables : ∀ f, f ∈ ms.pt.intrmTables ∨ f ∈ kernel.intrmTables →
      SameFrame ram.bytes ram'.bytes f ∧ ¬ ram'.Available f := by
    intro f member
    apply same f
    rw [Multiset.mem_add, held, Multiset.mem_add, Multiset.mem_coe, Multiset.mem_coe]
    tauto
  have table := table_beside sound.space.beside sound.space.table tables
  constructor
  · refine ⟨⟨kernel_beside sound.space.beside fun f member => tables f (Or.inr member), table, ?_⟩,
      sound.laid, sound.keys⟩
    rw [held, add_comm (dataOfAll _)] at owns
    exact owns
  intro va user
  rw [look_user table user, look_user sound.space.table user]
  cases mapped : pages (pageOf va) with
  | none => rfl
  | some x =>
    obtain ⟨f, flags⟩ := x
    have inside : f ∈ held ms + ↑kernel.intrmTables := by
      rw [Multiset.mem_add, held, Multiset.mem_add]
      exact Or.inl (Or.inl (page_frame_held sound.laid mapped))
    have byte := (same f inside).1 (4096 * f + va.toNat % 4096) (by omega)
    simp only [Option.map_some, byte]

structure Separate (kernel : PageTable) (kroot : Nat) (ram : Ram) (ms other : MemorySet) : Prop where
  here : ∃ root pages, Sound kernel kroot ram root pages ms
  there : ∃ root pages, Sound kernel kroot ram root pages other
  owns : Holds (pool ram) (held ms + (held other + ↑kernel.intrmTables))

section

variable (h : Separate kernel kroot ram ms other)
include h

theorem separate_symm : Separate kernel kroot ram other ms := by
  refine ⟨h.there, h.here, ?_⟩
  have owns := h.owns
  rwa [add_left_comm] at owns

theorem separate_store (user : UserAddr va) (byte : BitVec 8) :
    Separate kernel kroot (store ms ram va byte) ms other ∧
      ∀ vb, UserAddr vb → look other (store ms ram va byte) vb = look other ram vb := by
  obtain ⟨root, pages, sound⟩ := h.here
  obtain ⟨root', pages', sound'⟩ := h.there
  obtain ⟨after, data_step⟩ := store_step sound user
  have step := effect_frame data_step (sound_holds sound)
  have owns := (effect_frame step h.owns).exchange.holds
  have kept := effect_beside step h.owns
  have theirs := owns
  rw [add_comm] at theirs
  obtain ⟨other_after, view⟩ := sound_beside sound' kept (holds_part theirs)
  exact ⟨⟨⟨root, pages, after⟩, ⟨root', pages', other_after⟩, owns⟩, view⟩

theorem separate_store_all (users : ∀ w ∈ writes, UserAddr w.1) :
    ∀ vb, UserAddr vb → look other (storeAll ms ram writes) vb = look other ram vb := by
  induction writes generalizing ram with
  | nil => exact fun _ _ => rfl
  | cons w rest ih =>
    intro vb user
    obtain ⟨next, view⟩ := separate_store h (users w (.head _)) w.2
    have onward := ih next (fun v member => users v (.tail _ member)) vb user
    exact onward.trans (view vb user)

end

section Copies

variable {pages' : UserPages} {root' : Nat} (sound : Sound kernel kroot ram root pages ms)
  (copied : Copied kernel kroot ram ms copy ram') (sound' : Sound kernel kroot ram' root' pages' copy)

include sound copied sound'

theorem copied_page (mapped : pages n = some (f, flags)) :
    ∃ g, pages' n = some (g, flags) ∧ FrameCopy ram.bytes f ram'.bytes g := by
  obtain ⟨a, member, covers, found⟩ := (sound.laid.mapped n (f, flags)).mp mapped
  obtain ⟨f', here, same⟩ := Option.map_eq_some_iff.mp found
  obtain ⟨rfl, rfl⟩ := Prod.mk.inj same
  obtain ⟨b, member', content⟩ := copied.copies a member
  obtain ⟨g, there, bytes⟩ := content.2 _ _ here
  refine ⟨g, (sound'.laid.mapped n _).mpr ⟨b, member', (covers_same content.1 n).mpr covers, ?_⟩, bytes⟩
  rw [there, content.1.2.2]
  rfl

theorem copied_page_only (mapped : pages' n = some (g, flags)) : pages n ≠ none := by
  obtain ⟨b, member, covers, _⟩ := (sound'.laid.mapped n (g, flags)).mp mapped
  obtain ⟨a, member', content⟩ := copied.only b member
  obtain ⟨va, _, page, inside⟩ := covered_address ((covers_same content.1 n).mp covers)
  obtain ⟨f, _, here⟩ := laid_page sound.laid member' inside
  rw [← page, here]
  simp

theorem copied_view (user : UserAddr va) : look copy ram' va = look ms ram va := by
  rw [look_user sound'.space.table user, look_user sound.space.table user]
  cases mapped : pages (pageOf va) with
  | none =>
    cases there : pages' (pageOf va) with
    | none => rfl
    | some x => exact absurd mapped (copied_page_only sound copied sound' there)
  | some x =>
    obtain ⟨f, flags⟩ := x
    obtain ⟨g, there, content⟩ := copied_page sound copied sound' mapped
    have byte := content (va.toNat % 4096) (Nat.mod_lt _ (by decide))
    simp only [there, Option.map_some, byte]

theorem copied_apart : Separate kernel kroot ram' ms copy ∧ ∀ va, UserAddr va → look ms ram' va = look ms ram va := by
  have owns := sound_holds_all sound
  rw [← zero_add (held ms + _)] at owns
  have kept := effect_beside copied.effect owns
  have both := (effect_frame copied.effect owns).exchange.holds
  have ours := both
  rw [add_comm] at ours
  obtain ⟨after, view⟩ := sound_beside sound kept (holds_part ours)
  refine ⟨⟨⟨root, pages, after⟩, ⟨root', pages', sound'⟩, ?_⟩, view⟩
  rwa [add_left_comm] at both

end Copies

theorem fork_copies_and_isolates {boot s : System} {i : Nat} {parent : MemorySet} (booted : Booted boot)
    (reach : Reachable ((lifecycle boot).guarded LoadsBelow) s) (live : s.users[i]? = some parent)
    (enough : forkNeed parent ≤ s.ram.availableSpace) :
    ∃ child after, parent.dup s.kernel.pt s.ram = .ok (child, after) ∧
      (∀ va, UserAddr va → look child after va = look parent s.ram va) ∧
      (∀ va, UserAddr va → look parent after va = look parent s.ram va) ∧
      (∀ f ∈ held child, f ∉ held parent) ∧
      (∀ writes : List (VirtAddr × BitVec 8), (∀ w ∈ writes, UserAddr w.1) → ∀ va, UserAddr va →
        look parent (storeAll child after writes) va = look parent after va ∧
        look child (storeAll parent after writes) va = look child after va) := by
  obtain ⟨kroot, good⟩ := reachable_good booted reach
  obtain ⟨root, pages, sound⟩ := good_sound good live
  have outcome := dup_spec sound
  cases run : parent.dup s.kernel.pt s.ram with
  | error e =>
    rw [run] at outcome
    exact absurd outcome.2 (by omega)
  | ok result =>
    obtain ⟨child, after⟩ := result
    rw [run] at outcome
    have copied : Copied s.kernel.pt kroot s.ram parent child after := outcome
    obtain ⟨root', pages', sound'⟩ := copied.sound
    obtain ⟨separate, view⟩ := copied_apart sound copied sound'
    refine ⟨child, after, rfl, fun va user => copied_view sound copied sound' user, view, ?_, ?_⟩
    · intro f inside shared
      have once := separate.owns.nodup
      rw [← add_assoc] at once
      obtain ⟨pair, _, _⟩ := Multiset.nodup_add.mp once
      exact Multiset.disjoint_left.mp (Multiset.nodup_add.mp pair).2.2 shared inside
    · intro writes users va user
      exact ⟨separate_store_all (separate_symm separate) users va user, separate_store_all separate users va user⟩

def startAndWrite : List Op :=
  [.new, .loadUser 0 (some plainProgram), .write 0 0x7ffefffffff8 7]

theorem stack_byte_forked : ∃ boot s parent child after, Booted boot ∧
    Reachable ((lifecycle boot).guarded LoadsBelow) s ∧ s.users[0]? = some parent ∧
    parent.dup s.kernel.pt s.ram = .ok (child, after) ∧
    look child after 0x7ffefffffff8 = some (userData, 7) ∧
    look parent (store child after 0x7ffefffffff8 9) 0x7ffefffffff8 = some (userData, 7) := by
  have seen : (bootSystem.bind fun boot => (startAndWrite.foldlM attemptOp boot).bind fun s =>
      s.users[0]?.map fun parent => (decide (forkNeed parent ≤ s.ram.availableSpace),
        look parent s.ram 0x7ffefffffff8)) = some (true, some (userData, 7)) := by
    decide +kernel
  obtain ⟨boot, booted, rest⟩ := Option.bind_eq_some_iff.mp seen
  obtain ⟨s, run, rest⟩ := Option.bind_eq_some_iff.mp rest
  obtain ⟨parent, live, result⟩ := Option.map_eq_some_iff.mp rest
  obtain ⟨room, shown⟩ := Prod.mk.inj result
  have start := boot_system_booted booted
  have reach := reachable_follow (attempt_op_allowed boot) (reachable_start rfl) run
  have user : UserAddr 0x7ffefffffff8 := by decide
  obtain ⟨child, after, made, same, kept, _, isolated⟩ :=
    fork_copies_and_isolates start reach live (of_decide_eq_true room)
  refine ⟨boot, s, parent, child, after, start, reach, live, made, (same _ user).trans shown, ?_⟩
  have apart := (isolated [(0x7ffefffffff8, 9)] (by simpa using user) _ user).1
  exact apart.trans ((kept _ user).trans shown)

def attemptAny (s : System) (op : Op) : Option System :=
  if Permitted s op then (apply s op).toOption else none

theorem attempt_any_allowed (boot s : System) (op : Op) (t : System) (h : attemptAny s op = some t) :
    (lifecycle boot).next s op t := by
  unfold attemptAny at h
  split at h
  · rename_i permitted
    exact ⟨permitted, ok_of_to_option h⟩
  · cases h

def panicOf {α : Type} : Except Panic α → Option Panic
  | .error e => some e
  | .ok _ => none

/-- The page of the intruder's segment is in the shared tables, so its fork panics although
    there are frames enough. -/
theorem intruder_fork_panics : ∃ boot s parent, Booted boot ∧ Reachable (lifecycle boot) s ∧
    s.users[0]? = some parent ∧ forkNeed parent ≤ s.ram.availableSpace ∧
    parent.dup s.kernel.pt s.ram = .error .mappedBefore := by
  have seen : (bootSystem.bind fun boot =>
      ([Op.new, Op.loadUser 0 (some intruder)].foldlM attemptAny boot).bind fun s =>
        s.users[0]?.map fun parent => (decide (forkNeed parent ≤ s.ram.availableSpace),
          panicOf (parent.dup s.kernel.pt s.ram))) = some (true, some .mappedBefore) := by
    decide +kernel
  obtain ⟨boot, booted, rest⟩ := Option.bind_eq_some_iff.mp seen
  obtain ⟨s, run, rest⟩ := Option.bind_eq_some_iff.mp rest
  obtain ⟨parent, live, result⟩ := Option.map_eq_some_iff.mp rest
  obtain ⟨room, panic⟩ := Prod.mk.inj result
  have reach := reachable_follow (attempt_any_allowed boot) (reachable_start rfl) run
  refine ⟨boot, s, parent, boot_system_booted booted, reach, live, of_decide_eq_true room, ?_⟩
  cases outcome : parent.dup s.kernel.pt s.ram with
  | error e =>
    rw [outcome] at panic
    cases panic
    rfl
  | ok result =>
    rw [outcome] at panic
    cases panic

end RtosNimbosFork
