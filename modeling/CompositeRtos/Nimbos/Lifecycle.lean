import CompositeRtos.Nimbos.KernelBoot
import CompositeRtos.Nimbos.SetCopy

/-!
Memory sets over their lifetime. The kernel's set stays; user sets are created, loaded, copied,
cleared and dropped in any order, and programs write through them. The frames in use are at all
times exactly the frames of the live sets, each in one place, so nothing leaks and nothing is
freed twice.
-/
namespace RtosNimbosLifecycle
open RtosTransition RtosLedger RtosFrameMemory RtosNimbosFrames
open RtosNimbosPageTable RtosNimbosPageTree RtosNimbosPaging RtosNimbosMemorySet RtosNimbosLoadUser
open RtosNimbosFrameLedger RtosNimbosAddressSpace RtosNimbosAreas RtosNimbosUserSets
open RtosNimbosKernelBoot RtosNimbosSetCopy List Option

/-- A store through a memory set, whatever the page's flags are. Where nothing is mapped it
    faults and changes nothing. -/
def store (ms : MemorySet) (ram : Ram) (va : VirtAddr) (byte : BitVec 8) : Ram :=
  match ms.pt.query ram va with
  | .ok (some (pa, _)) => ram.write pa.toNat byte
  | _ => ram

def reported (flags : MemFlags) : MemFlags := Ptf.toMemFlags (Ptf.ofMemFlags flags)

theorem address_toNat (small : f < 2 ^ 27) : (startPaddr f + pageOffset va).toNat = 4096 * f + va.toNat % 4096 := by
  rw [BitVec.toNat_add, start_paddr_toNat (show f < 2 ^ 28 by omega), page_offset_toNat]
  omega

theorem query_user (table : Table kroot ram root pt pages) (user : UserAddr va) : pt.query ram va =
    .ok ((pages (pageOf va)).map fun x => (startPaddr x.1 + pageOffset va, reported x.2)) := by
  rw [query_spec table.tree pt table.at_root va, table.leaves va user]
  cases mapped : pages (pageOf va) with
  | none => rfl
  | some x =>
    obtain ⟨f, flags⟩ := x
    obtain ⟨small, some_flag⟩ := table.sound _ f flags mapped
    have place := start_paddr_toNat (show f < 2 ^ 28 by omega)
    have used : ¬ Pte.isUnused (entryFor (some (f, flags))) = true := by
      rw [unused_iff]
      exact new_page_used _ some_flag
    have whole : PhysAddr.new (startPaddr f + pageOffset va) = startPaddr f + pageOffset va := by
      apply RtosBitField.and_field 0 40 (by decide) (by simp)
      rw [address_toNat small]
      omega
    have frame : Pte.paddr (Pte.newPage (startPaddr f) flags false) = startPaddr f := by
      apply paddr_new_page
      · rw [place]
        exact Nat.dvd_mul_right _ f
      · omega
    simp only [if_neg used]
    simp only [entryFor, frame, whole, Pte.flags, truncated_page, map_some, reported]

theorem page_frame_held (laid : Laid pages (areasOf ms)) (mapped : pages n = some (f, flags)) :
    f ∈ dataOfAll (areasOf ms) := by
  obtain ⟨a, member, _, found⟩ := (laid.mapped n (f, flags)).mp mapped
  obtain ⟨g, here, same⟩ := map_eq_some_iff.mp found
  rw [← (Prod.mk.inj same).1]
  exact mem_total member (frame_held here)

theorem write_elsewhere (ram : Ram) (other : address / 4096 ≠ f) :
    SameFrame ram.bytes (ram.write address byte).bytes f := by
  intro a inside
  apply Function.update_of_ne
  rintro rfl
  exact other inside

theorem store_step (sound : Sound kernel kroot ram root pages ms) (user : UserAddr va) :
    Sound kernel kroot (store ms ram va byte) root pages ms ∧
      Effect ram (dataOfAll (areasOf ms)) (store ms ram va byte) (dataOfAll (areasOf ms)) := by
  have answer := query_user sound.space.table user
  have owns := sound.space.owns
  rw [add_comm (ms.pt.intrmTables : Multiset Nat), add_assoc] at owns
  cases mapped : pages (pageOf va) with
  | none =>
    rw [mapped] at answer
    simp only [store, answer, map_none]
    exact ⟨sound, effect_refl (holds_part owns)⟩
  | some x =>
    obtain ⟨f, flags⟩ := x
    have small := (sound.space.table.sound _ f flags mapped).1
    have member := page_frame_held sound.laid mapped
    rw [mapped] at answer
    simp only [store, answer, map_some, address_toNat small]
    have step : Effect ram (dataOfAll (areasOf ms)) (ram.write (4096 * f + va.toNat % 4096) byte)
        (dataOfAll (areasOf ms)) := by
      refine effect_write (holds_part owns) rfl ?_
      intro g _ outside
      apply write_elsewhere ram
      rintro rfl
      rw [show (4096 * f + va.toNat % 4096) / 4096 = f by omega] at outside
      exact outside member
    have space := sound.space
    rw [← add_zero (dataOfAll (areasOf ms))] at space
    have space' := space_data space step
    rw [add_zero] at space'
    exact ⟨⟨space', sound.laid, sound.keys⟩, step⟩

structure System where
  ram : Ram
  kernel : MemorySet
  users : List MemorySet

inductive Op where
  | new
  | loadUser (i : Nat) (file : Option ElfFile)
  | dup (i : Nat)
  | clear (i : Nat)
  | drop (i : Nat)
  | write (i : Nat) (va : VirtAddr) (byte : BitVec 8)

def apply (s : System) : Op → Except Panic System
  | .new =>
    match MemorySet.new s.kernel.pt s.ram with
    | .error e => .error e
    | .ok (ms, ram) => .ok { s with ram := ram, users := s.users ++ [ms] }
  | .loadUser i file =>
    match s.users[i]? with
    | none => .ok s
    | some ms =>
      match ms.loadUser s.ram file with
      | .error e => .error e
      | .ok (_, _, ms', ram) => .ok { s with ram := ram, users := s.users.set i ms' }
  | .dup i =>
    match s.users[i]? with
    | none => .ok s
    | some ms =>
      match ms.dup s.kernel.pt s.ram with
      | .error e => .error e
      | .ok (copy, ram) => .ok { s with ram := ram, users := s.users ++ [copy] }
  | .clear i =>
    match s.users[i]? with
    | none => .ok s
    | some ms =>
      match ms.clear s.ram with
      | .error e => .error e
      | .ok (ms', ram) => .ok { s with ram := ram, users := s.users.set i ms' }
  | .drop i =>
    match s.users[i]? with
    | none => .ok s
    | some ms =>
      match ms.drop s.ram with
      | .error e => .error e
      | .ok ram => .ok { s with ram := ram, users := s.users.eraseIdx i }
  | .write i va byte =>
    match s.users[i]? with
    | none => .ok s
    | some ms => .ok { s with ram := store ms s.ram va byte }

/-- Operations are on live sets, `load_user` only on a set without areas, and programs write
    to user addresses. -/
def Permitted (s : System) : Op → Prop
  | .new => True
  | .loadUser i _ => i < s.users.length ∧ ∀ ms ∈ s.users[i]?, ms.areas.entries.isEmpty
  | .dup i => i < s.users.length
  | .clear i => i < s.users.length
  | .drop i => i < s.users.length
  | .write i va _ => i < s.users.length ∧ UserAddr va

instance (s : System) (op : Op) : Decidable (Permitted s op) := by
  cases op <;> unfold Permitted <;> infer_instance

def lifecycle (boot : System) : Machine System Op where
  start s := s = boot
  next s op t := Permitted s op ∧ apply s op = .ok t

def LoadsBelow (_ : System) : Op → Prop
  | .loadUser _ (some elf) => ∀ ph ∈ elf.programIter, BelowKernel ph
  | _ => True

instance (s : System) (op : Op) : Decidable (LoadsBelow s op) := by
  cases op with
  | loadUser i file =>
    cases file with
    | none => exact isTrue trivial
    | some elf => exact inferInstanceAs (Decidable (∀ ph ∈ elf.programIter, BelowKernel ph))
  | _ => exact isTrue trivial

def Booted (boot : System) : Prop :=
  boot.users = [] ∧ ∃ bytes start stop window ranges, ranges ≠ [] ∧
    (∀ range ∈ ranges, KernelRange.Usual range) ∧
    initKernelAspace ⟨bytes, FreeListAllocator.init start stop, window⟩ ranges = .ok (boot.kernel, boot.ram)

def owned (s : System) : Multiset Nat := held s.kernel + (s.users.map held).sum

def Fine (kroot : Nat) (ram : Ram) (ms : MemorySet) : Prop :=
  ∃ root pages, Table kroot ram root ms.pt pages ∧ Laid pages (areasOf ms) ∧
    ∀ e ∈ ms.areas.entries, e.1 = e.2.start.toNat

structure Good (boot : System) (kroot : Nat) (s : System) : Prop where
  same_kernel : s.kernel = boot.kernel
  kernel : KernelSpace s.ram s.kernel.pt kroot
  sets : ∀ ms ∈ s.users, Fine kroot s.ram ms
  complete : Complete (pool s.ram) (owned s)
  balance : s.ram.availableSpace + Multiset.card (owned s) = boot.ram.availableSpace + Multiset.card (owned boot)

variable {boot s : System} {kroot : Nat}

theorem sound_of_fine (space : KernelSpace ram kernel kroot) (fine : Fine kroot ram ms)
    (owns : Holds (pool ram) (held ms + ↑kernel.intrmTables)) :
    ∃ root pages, Sound kernel kroot ram root pages ms := by
  obtain ⟨root, pages, table, laid, keys⟩ := fine
  refine ⟨root, pages, ⟨space, table, ?_⟩, laid, keys⟩
  rw [held, add_comm (dataOfAll _)] at owns
  exact owns

theorem fine_of_sound (sound : Sound kernel kroot ram root pages ms) : Fine kroot ram ms :=
  ⟨root, pages, sound.space.table, sound.laid, sound.keys⟩

/-- One operation exchanges the frames of the sets `olds` for those of `news` and leaves the
    other sets alone. -/
theorem good_after (olds news : List MemorySet) (good : Good boot kroot s)
    (before : s.users.Perm (olds ++ others)) (after : users'.Perm (news ++ others))
    (step : Effect s.ram (olds.map held).sum ram' (news.map held).sum) (fine : ∀ ms ∈ news, Fine kroot ram' ms) :
    Good boot kroot ⟨ram', s.kernel, users'⟩ := by
  have split : owned s = (olds.map held).sum + (held s.kernel + (others.map held).sum) := by
    rw [owned, (before.map held).sum_eq, map_append, sum_append]
    abel
  have split' : owned ⟨ram', s.kernel, users'⟩ = (news.map held).sum + (held s.kernel + (others.map held).sum) := by
    rw [owned, (after.map held).sum_eq, map_append, sum_append]
    abel
  have complete := good.complete
  rw [split] at complete
  have beside := effect_beside step (complete_holds complete)
  have kernel_kept : ∀ f ∈ s.kernel.pt.intrmTables, SameFrame s.ram.bytes ram'.bytes f ∧ ¬ ram'.Available f := by
    intro f member
    apply beside f
    rw [Multiset.mem_add, held, Multiset.mem_add]
    exact Or.inl (Or.inr member)
  refine ⟨good.same_kernel, kernel_beside good.kernel kernel_kept, ?_, ?_, ?_⟩
  · intro ms member
    rcases mem_append.mp (after.mem_iff.mp member) with new | other
    · exact fine ms new
    have old : ms ∈ s.users := before.mem_iff.mpr (mem_append_right _ other)
    obtain ⟨root, pages, table, laid, keys⟩ := good.sets ms old
    refine ⟨root, pages, table_beside good.kernel table ?_, laid, keys⟩
    rintro f (ours | kernels)
    · apply beside f
      rw [Multiset.mem_add]
      exact Or.inr (mem_total other (Multiset.mem_add.mpr (Or.inr ours)))
    · exact kernel_kept f kernels
  · rw [split']
    exact complete_exchange complete step.exchange
  · have exchanged := step.exchange.balance
    have start := good.balance
    simp only [pool] at exchanged
    rw [split, Multiset.card_add] at start
    rw [split', Multiset.card_add]
    simp only
    omega

section Operations

variable {i : Nat}

theorem taken_out (at_i : s.users[i]? = some ms) : s.users.Perm ([ms] ++ s.users.eraseIdx i) := by
  obtain ⟨inside, rfl⟩ := List.getElem?_eq_some_iff.mp at_i
  exact (getElem_cons_eraseIdx_perm inside).symm

theorem put_back (at_i : s.users[i]? = some ms) : (s.users.set i ms').Perm ([ms'] ++ s.users.eraseIdx i) := by
  obtain ⟨inside, _⟩ := List.getElem?_eq_some_iff.mp at_i
  have inside' : i < (s.users.set i ms').length := by rwa [length_set]
  have perm := getElem_cons_eraseIdx_perm inside'
  rw [getElem_set_self, eraseIdx_set_eq] at perm
  exact perm.symm

theorem live_set (live : i < s.users.length) : ∃ ms, s.users[i]? = some ms :=
  ⟨_, List.getElem?_eq_getElem live⟩

section

variable (good : Good boot kroot s)
include good

theorem good_sound (at_i : s.users[i]? = some ms) : ∃ root pages, Sound s.kernel.pt kroot s.ram root pages ms := by
  apply sound_of_fine good.kernel (good.sets ms (mem_of_getElem? at_i))
  have complete := good.complete
  rw [owned, ((taken_out at_i).map held).sum_eq, map_append, sum_append, held,
    show dataOfAll (areasOf s.kernel) + ↑s.kernel.pt.intrmTables + ((([ms].map held).sum) +
      ((s.users.eraseIdx i).map held).sum) = held ms + ↑s.kernel.pt.intrmTables +
      (dataOfAll (areasOf s.kernel) + ((s.users.eraseIdx i).map held).sum) by
        rw [map_singleton, sum_singleton]
        abel] at complete
  exact holds_part (complete_holds complete)

theorem good_kernel_tables : Holds (pool s.ram) ↑s.kernel.pt.intrmTables := by
  have complete := good.complete
  rw [owned, held, add_comm (dataOfAll _), add_assoc] at complete
  exact holds_part (complete_holds complete)

theorem good_update (at_i : s.users[i]? = some ms)
    (step : Effect s.ram (held ms) ram' (held ms')) (fine : Fine kroot ram' ms') :
    Good boot kroot ⟨ram', s.kernel, s.users.set i ms'⟩ := by
  apply good_after [ms] [ms'] good (taken_out at_i) (put_back at_i) _ (by simpa using fine)
  simpa using step

theorem good_add (step : Effect s.ram 0 ram' (held ms')) (fine : Fine kroot ram' ms') :
    Good boot kroot ⟨ram', s.kernel, s.users ++ [ms']⟩ := by
  apply good_after [] [ms'] good (Perm.refl _) perm_append_comm _ (by simpa using fine)
  simpa using step

theorem good_remove (at_i : s.users[i]? = some ms)
    (step : Effect s.ram (held ms) ram' 0) : Good boot kroot ⟨ram', s.kernel, s.users.eraseIdx i⟩ := by
  apply good_after [ms] [] good (taken_out at_i) (Perm.refl _) _ (by simp)
  simpa using step

theorem clear_good (live : i < s.users.length) : ∃ t, apply s (.clear i) = .ok t ∧ Good boot kroot t := by
  obtain ⟨ms, at_i⟩ := live_set live
  obtain ⟨root, pages, sound⟩ := good_sound good at_i
  obtain ⟨ram', run, sound', step⟩ := clear_spec sound
  refine ⟨_, ?_, good_update good at_i step (fine_of_sound sound')⟩
  simp only [apply, at_i, run]

theorem drop_good (live : i < s.users.length) : ∃ t, apply s (.drop i) = .ok t ∧ Good boot kroot t := by
  obtain ⟨ms, at_i⟩ := live_set live
  obtain ⟨root, pages, sound⟩ := good_sound good at_i
  obtain ⟨ram', run, step⟩ := drop_spec sound
  refine ⟨_, ?_, good_remove good at_i step⟩
  simp only [apply, at_i, run]

theorem apply_good (permitted : Permitted s op) (below : LoadsBelow s op) :
    Ends (fun e => ¬ e.ofDealloc) (Good boot kroot) (apply s op) := by
  cases op with
  | new =>
    have made := new_spec good.kernel (good_kernel_tables good)
    simp only [apply]
    generalize MemorySet.new s.kernel.pt s.ram = outcome at made
    cases outcome with
    | error e =>
      obtain ⟨rfl, _⟩ := made
      exact id
    | ok result =>
      obtain ⟨_, ⟨root, sound, _⟩, step, _⟩ := made
      exact good_add good step (fine_of_sound sound)
  | loadUser i file =>
    obtain ⟨ms, at_i⟩ := live_set permitted.1
    obtain ⟨root, pages, sound⟩ := good_sound good at_i
    have loaded := load_user_step sound file (by
      rintro elf rfl
      exact below)
    simp only [apply, at_i]
    generalize ms.loadUser s.ram file = outcome at loaded
    cases outcome with
    | error e => exact loaded
    | ok result =>
      obtain ⟨⟨pages', sound'⟩, step⟩ := loaded
      exact good_update good at_i step (fine_of_sound sound')
  | dup i =>
    obtain ⟨ms, at_i⟩ := live_set permitted
    obtain ⟨root, pages, sound⟩ := good_sound good at_i
    have copied := dup_spec sound
    simp only [apply, at_i]
    generalize ms.dup s.kernel.pt s.ram = outcome at copied
    cases outcome with
    | error e =>
      obtain ⟨rfl, _⟩ := copied
      exact id
    | ok result =>
      have done : Copied s.kernel.pt kroot s.ram ms result.1 result.2 := copied
      obtain ⟨root', pages', sound'⟩ := done.sound
      exact good_add good done.effect (fine_of_sound sound')
  | clear i =>
    obtain ⟨t, run, after⟩ := clear_good good permitted
    rw [run]
    exact after
  | drop i =>
    obtain ⟨t, run, after⟩ := drop_good good permitted
    rw [run]
    exact after
  | write i va byte =>
    obtain ⟨ms, at_i⟩ := live_set permitted.1
    obtain ⟨root, pages, sound⟩ := good_sound good at_i
    obtain ⟨sound', step⟩ := store_step sound permitted.2
    simp only [apply, at_i]
    have whole := effect_frame step (sound_holds sound)
    have after := good_update good at_i whole (fine_of_sound sound')
    obtain ⟨inside, rfl⟩ := List.getElem?_eq_some_iff.mp at_i
    rwa [set_getElem_self] at after

end

end Operations

theorem booted_good (booted : Booted boot) : ∃ kroot, Good boot kroot boot := by
  obtain ⟨no_users, bytes, start, stop, window, ranges, some_range, usual, run⟩ := booted
  obtain ⟨⟨kroot, kernel⟩, complete, plain⟩ := kernel_booted some_range usual run
  have no_data : dataOfAll (areasOf boot.kernel) = 0 := by
    apply sum_eq_zero
    intro data member
    obtain ⟨a, inside, rfl⟩ := List.mem_map.mp member
    exact plain a inside
  refine ⟨kroot, rfl, kernel, by simp [no_users], ?_, rfl⟩
  rw [owned, held, no_data, no_users, map_nil, sum_nil, zero_add, add_zero]
  exact complete

theorem reachable_good (booted : Booted boot) (reach : Reachable ((lifecycle boot).guarded LoadsBelow) s) :
    ∃ kroot, Good boot kroot s := by
  obtain ⟨kroot, first⟩ := booted_good booted
  refine ⟨kroot, reachable_invariant (Good boot kroot) ?_ ?_ reach⟩
  · rintro s rfl
    exact first
  rintro s op t good ⟨below, permitted, run⟩
  have after := apply_good good permitted below
  rw [run] at after
  exact after

theorem frames_have_one_owner (booted : Booted boot)
    (reach : Reachable ((lifecycle boot).guarded LoadsBelow) s) :
    (owned s).Nodup ∧ (∀ f, f ∈ owned s ↔ s.ram.Issued f) ∧
    s.ram.availableSpace + Multiset.card (owned s) = boot.ram.availableSpace + Multiset.card (owned boot) ∧
    (∀ op e, Permitted s op → LoadsBelow s op → apply s op = .error e → ¬ e.ofDealloc) ∧
    (∀ i, i < s.users.length → (∃ t, apply s (.clear i) = .ok t) ∧ ∃ t, apply s (.drop i) = .ok t) ∧
    (s.users = [] → s.ram.availableSpace = boot.ram.availableSpace) := by
  obtain ⟨kroot, good⟩ := reachable_good booted reach
  refine ⟨good.complete.nodup, good.complete.exact, good.balance, ?_, ?_, ?_⟩
  · intro op e permitted below run
    have after := apply_good good permitted below
    rw [run] at after
    exact after
  · intro i live
    obtain ⟨t, cleared, _⟩ := clear_good good live
    obtain ⟨u, dropped, _⟩ := drop_good good live
    exact ⟨⟨t, cleared⟩, ⟨u, dropped⟩⟩
  intro no_users
  have balance := good.balance
  rw [owned, owned, good.same_kernel, no_users, booted.1] at balance
  omega

def textRange : KernelRange := ⟨0xffffff8000200000, 0xffffff8000201000, kernelText⟩

def bootSystem : Option System :=
  (initKernelAspace bootRam [textRange]).toOption.map fun (kernel, ram) => ⟨ram, kernel, []⟩

theorem boot_system_booted (h : bootSystem = some boot) : Booted boot := by
  obtain ⟨⟨kernel, ram⟩, made, rfl⟩ := map_eq_some_iff.mp h
  exact ⟨rfl, _, 1, 64, by decide, [textRange], by simp, by decide, ok_of_to_option made⟩

def attemptOp (s : System) (op : Op) : Option System :=
  if LoadsBelow s op ∧ Permitted s op then (apply s op).toOption else none

theorem attempt_op_allowed (boot s : System) (op : Op) (t : System) (h : attemptOp s op = some t) :
    ((lifecycle boot).guarded LoadsBelow).next s op t := by
  unfold attemptOp at h
  split at h
  · rename_i allowed
    exact ⟨allowed.1, allowed.2, ok_of_to_option h⟩
  · cases h

def startAndFork : List Op :=
  [.new, .loadUser 0 (some plainProgram), .write 0 0x7ffefffffff8 1, .dup 0]

theorem forked_sets_share_no_frame : ∃ boot s, Booted boot ∧
    Reachable ((lifecycle boot).guarded LoadsBelow) s ∧ s.users.length = 2 ∧ (owned s).Nodup ∧
    s.ram.availableSpace + Multiset.card (owned s) = boot.ram.availableSpace + Multiset.card (owned boot) ∧
    ∃ t, apply s (.drop 0) = .ok t := by
  have seen : (bootSystem.bind fun boot => (startAndFork.foldlM attemptOp boot).map fun s => s.users.length) =
      some 2 := by
    decide +kernel
  obtain ⟨boot, booted, rest⟩ := Option.bind_eq_some_iff.mp seen
  obtain ⟨s, run, two⟩ := Option.map_eq_some_iff.mp rest
  have start := boot_system_booted booted
  have reach := reachable_follow (attempt_op_allowed boot) (reachable_start rfl) run
  obtain ⟨once, _, constant, _, never_fail, _⟩ := frames_have_one_owner start reach
  exact ⟨boot, s, start, reach, two, once, constant, (never_fail 0 (by omega)).2⟩

end RtosNimbosLifecycle
