import CompositeRtos.Nimbos.Task

/-!
The scheduler's invariant. `Tree` says where every task is held, `Lined` what is queued.
A switch starts from a paused kernel, in which no task is running, and ends in a coherent
one, whose only running task is the current one.
-/
namespace RtosNimbosTaskInvariant
open RtosNimbosTask Function Option

structure Tree (k : Kernel) : Prop where
  size : 1 < k.made
  counter : k.nextPid = BitVec.ofNat 64 k.made
  pids : ∀ r, r < k.made → (k.tasks r).pid = BitVec.ofNat 64 r
  blank : ∀ r, k.made ≤ r → (k.tasks r).children = []
  child : ∀ p c, c ∈ (k.tasks p).children →
    p < c ∧ 1 < c ∧ c < k.made ∧ (k.tasks c).parent = some p ∧ (k.tasks p).state ≠ .zombie
  single : ∀ p, (k.tasks p).children.Nodup
  adopted : ∀ r, 1 < r → r < k.made → (k.tasks r).state ≠ .zombie → ∃ p, r ∈ (k.tasks p).children
  idle : (k.tasks 0).state ≠ .zombie
  root : (k.tasks 1).state ≠ .zombie

structure Lined (k : Kernel) : Prop where
  nodup : k.readyQueue.Nodup
  queued : ∀ r, r ∈ k.readyQueue ↔ 0 < r ∧ r < k.made ∧ (k.tasks r).state = .ready

structure Paused (k : Kernel) : Prop where
  tree : Tree k
  lined : Lined k
  inside : k.currentTask < k.made
  still : ∀ r, r < k.made → (k.tasks r).state ≠ .running

structure Coherent (k : Kernel) : Prop where
  tree : Tree k
  lined : Lined k
  inside : k.currentTask < k.made
  running : ∀ r, r < k.made → ((k.tasks r).state = .running ↔ r = k.currentTask)

theorem small_pid_eq (hr : r < 2 ^ 64) (hn : n < 2 ^ 64) : BitVec.ofNat 64 r = BitVec.ofNat 64 n ↔ r = n := by
  constructor
  · intro same
    have values := congrArg BitVec.toNat same
    simp only [BitVec.toNat_ofNat] at values
    omega
  · intro same
    rw [same]

theorem is_idle_iff (h : Tree k) (inside : r < k.made) (small : r < 2 ^ 64) : k.isIdle r = true ↔ r = 0 := by
  rw [Kernel.isIdle, beq_iff_eq, h.pids r inside]
  exact small_pid_eq (n := 0) small (by omega)

theorem is_root_iff (h : Tree k) (inside : r < k.made) (small : r < 2 ^ 64) : k.isRoot r = true ↔ r = 1 := by
  rw [Kernel.isRoot, beq_iff_eq, h.pids r inside]
  exact small_pid_eq (n := 1) small (by omega)

def anchors (k : Kernel) (r : Nat) : Nat :=
  (if idleRef = r then 1 else 0) + (if rootRef = r then 1 else 0) + k.listedIn r

theorem listed_pos (h : Tree k) (member : c ∈ (k.tasks p).children) : 0 < k.listedIn c := by
  have inside : p < k.made := by
    have bounds := h.child p c member
    omega
  unfold Kernel.listedIn
  rw [List.sum_pos_iff_exists_pos_nat]
  exact ⟨_, List.mem_map.mpr ⟨p, List.mem_range.mpr inside, rfl⟩, List.count_pos_iff.mpr member⟩

theorem anchored_of_live (h : Tree k) (inside : r < k.made) (live : (k.tasks r).state ≠ .zombie) :
    0 < anchors k r := by
  unfold anchors idleRef rootRef
  by_cases first : r ≤ 1
  · rcases Nat.le_one_iff_eq_zero_or_eq_one.mp first with rfl | rfl
    · rw [if_pos rfl]
      omega
    · rw [if_neg (by omega), if_pos rfl]
      omega
  obtain ⟨p, member⟩ := h.adopted r (by omega) inside live
  have listed := listed_pos h member
  omega

theorem set_state_task (k : Kernel) (state : TaskState) (q : Nat) : (k.setState r state).tasks q =
      { k.tasks q with state := if q = r then state else (k.tasks q).state } := by
  simp only [Kernel.setState, Kernel.modify]
  by_cases same : q = r
  · rw [same, update_self, if_pos rfl]
  · rw [update_of_ne same, if_neg same]

theorem tree_set_state (h : Tree k) (state : TaskState) (was : (k.tasks r).state ≠ .zombie)
    (live : state ≠ .zombie) : Tree (k.setState r state) := by
  have field : ∀ q, ((k.setState r state).tasks q).pid = (k.tasks q).pid ∧
      ((k.setState r state).tasks q).children = (k.tasks q).children ∧
      ((k.setState r state).tasks q).parent = (k.tasks q).parent ∧
      (((k.setState r state).tasks q).state ≠ .zombie ↔ (k.tasks q).state ≠ .zombie) := by
    intro q
    rw [set_state_task]
    by_cases same : q = r
    · subst same
      simp [was, live]
    · simp [same]
  refine ⟨h.size, h.counter, ?_, ?_, ?_, ?_, ?_, ?_, ?_⟩
  · intro q inside
    rw [(field q).1]
    exact h.pids q inside
  · intro q outside
    rw [(field q).2.1]
    exact h.blank q outside
  · intro p c member
    rw [(field p).2.1] at member
    obtain ⟨below, above, inside, parent, alive⟩ := h.child p c member
    exact ⟨below, above, inside, (field c).2.2.1.trans parent, (field p).2.2.2.mpr alive⟩
  · intro p
    rw [(field p).2.1]
    exact h.single p
  · intro q above inside alive
    obtain ⟨p, member⟩ := h.adopted q above inside ((field q).2.2.2.mp alive)
    exact ⟨p, by rw [(field p).2.1]; exact member⟩
  · exact (field 0).2.2.2.mpr h.idle
  · exact (field 1).2.2.2.mpr h.root

def switched (k : Kernel) (next : Nat) : Kernel :=
  { k.setState next .running with readyQueue := k.readyQueue.tail, currentTask := next }

def chosen (k : Kernel) : Nat := k.readyQueue.head?.getD idleRef

theorem chosen_live (h : Paused k) : chosen k < k.made ∧ (k.tasks (chosen k)).state ≠ .zombie := by
  cases queue : k.readyQueue with
  | nil =>
    have size := h.tree.size
    simp only [chosen, queue, List.head?_nil, getD_none, idleRef]
    exact ⟨by omega, h.tree.idle⟩
  | cons next rest =>
    have entry := (h.lined.queued next).mp (by rw [queue]; exact (.head _))
    simp only [chosen, queue, List.head?_cons, getD_some]
    exact ⟨entry.2.1, by rw [entry.2.2]; simp⟩

theorem switched_task (k : Kernel) (next r : Nat) : (switched k next).tasks r =
      { k.tasks r with state := if r = next then .running else (k.tasks r).state } :=
  set_state_task k .running r

theorem switched_coherent (h : Paused k) : Coherent (switched k (chosen k)) := by
  obtain ⟨inside, live⟩ := chosen_live h
  have tree := tree_set_state h.tree .running live (by simp)
  have state : ∀ r, ((switched k (chosen k)).tasks r).state =
      if r = chosen k then .running else (k.tasks r).state := by
    intro r
    rw [switched_task]
  refine ⟨⟨tree.size, tree.counter, tree.pids, tree.blank, tree.child, tree.single,
    tree.adopted, tree.idle, tree.root⟩, ⟨?_, ?_⟩, inside, ?_⟩
  · exact h.lined.nodup.tail
  · intro r
    rw [state]
    cases queue : k.readyQueue with
    | nil =>
      have none_ready := h.lined.queued r
      simp only [queue, List.not_mem_nil, false_iff] at none_ready
      simp only [switched, Kernel.setState, Kernel.modify, queue, List.tail_nil, List.not_mem_nil,
        false_iff, chosen, List.head?_nil, getD_none, idleRef]
      intro all
      split at all
      · cases all.2.2
      · exact none_ready all
    | cons next rest =>
      have entry := h.lined.queued r
      have nodup := h.lined.nodup
      rw [queue, List.mem_cons] at entry
      rw [queue, List.nodup_cons] at nodup
      simp only [switched, Kernel.setState, Kernel.modify, queue, List.tail_cons, chosen,
        List.head?_cons, getD_some]
      by_cases same : r = next
      · subst same
        simp [nodup.1]
      · rw [if_neg same, ← entry]
        exact ⟨Or.inr, fun e => e.resolve_left same⟩
  · intro r inside
    rw [state]
    split
    · rename_i same
      exact ⟨fun _ => same, fun _ => rfl⟩
    · rename_i different
      exact ⟨fun running => absurd running (h.still r inside), fun same => absurd same different⟩

theorem strong_count_set_state (k : Kernel) (state : TaskState) (locals : List Nat) (q : Nat) :
    (k.setState r state).strongCount locals q = k.strongCount locals q := by
  have lists : ∀ p, ((k.setState r state).tasks p).children = (k.tasks p).children := by
    intro p
    rw [set_state_task]
  unfold Kernel.strongCount Kernel.listedIn
  simp only [lists]
  rfl

theorem switch_to_succeeds (held : 0 < anchors k k.currentTask) (live : 0 < anchors k next) :
    k.switchTo k.currentTask next = .ok { k.setState next .running with currentTask := next } := by
  unfold Kernel.switchTo
  simp only [strong_count_set_state]
  split
  · rename_i same
    rw [← same]
    rfl
  rename_i apart
  have currentCount : 1 < k.strongCount [next] k.currentTask := by
    unfold anchors at held
    unfold Kernel.strongCount
    rw [if_pos rfl]
    omega
  have nextCount : 1 < k.strongCount [next] next := by
    unfold anchors at live
    unfold Kernel.strongCount
    rw [List.count_cons_self]
    omega
  rw [if_neg (by omega), if_neg (by omega)]

theorem resched_switches (h : Paused k) (held : 0 < anchors k k.currentTask) :
    k.resched = .ok (switched k (chosen k)) := by
  obtain ⟨inside, live⟩ := chosen_live h
  have anchored := anchored_of_live h.tree inside live
  unfold Kernel.resched
  rw [if_neg (h.still k.currentTask h.inside)]
  cases queue : k.readyQueue with
  | nil =>
    simp only [chosen, queue, List.head?_nil, getD_none] at anchored ⊢
    rw [switch_to_succeeds held anchored]
    simp only [switched, Kernel.setState, Kernel.modify, queue, List.tail_nil]
  | cons next rest =>
    simp only [chosen, queue, List.head?_cons, getD_some] at anchored ⊢
    have moved := switch_to_succeeds (k := { k with readyQueue := rest }) held anchored
    rw [moved]
    simp only [switched, Kernel.setState, Kernel.modify, queue, List.tail_cons]

def parked (k : Kernel) : Kernel :=
  let t := k.setState k.currentTask .ready
  if k.currentTask = 0 then t else { t with readyQueue := k.readyQueue ++ [k.currentTask] }

theorem parked_task (k : Kernel) (r : Nat) : (parked k).tasks r =
      { k.tasks r with state := if r = k.currentTask then .ready else (k.tasks r).state } := by
  rw [← set_state_task]
  unfold parked
  split <;> rfl

theorem parked_kernel (k : Kernel) : (parked k).made = k.made ∧ (parked k).nextPid = k.nextPid ∧
      (parked k).currentTask = k.currentTask := by
  unfold parked
  split <;> exact ⟨rfl, rfl, rfl⟩

theorem current_unqueued (h : Coherent k) : k.currentTask ∉ k.readyQueue := by
  intro member
  have entry := (h.lined.queued _).mp member
  rw [(h.running _ h.inside).mpr rfl] at entry
  cases entry.2.2

theorem parked_tree (h : Coherent k) : Tree (parked k) := by
  have was : (k.tasks k.currentTask).state ≠ .zombie := by
    rw [(h.running _ h.inside).mpr rfl]
    simp
  have tree := tree_set_state h.tree .ready was (by simp)
  unfold parked
  simp only
  split
  · exact tree
  · exact ⟨tree.size, tree.counter, tree.pids, tree.blank, tree.child, tree.single, tree.adopted,
      tree.idle, tree.root⟩

theorem parked_paused (h : Coherent k) : Paused (parked k) := by
  have unqueued := current_unqueued h
  obtain ⟨made, _, current⟩ := parked_kernel k
  refine ⟨parked_tree h, ⟨?_, ?_⟩, ?_, ?_⟩
  · unfold parked
    simp only
    split
    · exact h.lined.nodup
    · exact List.nodup_append_comm.mp (List.nodup_cons.mpr ⟨unqueued, h.lined.nodup⟩)
  · intro r
    have inside := h.inside
    have entry := h.lined.queued r
    rw [parked_task, made]
    unfold parked
    simp only
    by_cases same : r = k.currentTask
    · subst same
      rw [if_pos rfl]
      split
      · rename_i first
        simp only [first] at unqueued ⊢
        simp [unqueued, Kernel.setState, Kernel.modify]
      rename_i later
      simp only [List.mem_append, List.mem_singleton, or_true, true_iff]
      exact ⟨by omega, inside, trivial⟩
    · rw [if_neg same]
      split
      · exact entry
      · simp only [List.mem_append, List.mem_singleton, same, or_false]
        exact entry
  · rw [current, made]
    exact h.inside
  · intro r inside
    rw [made] at inside
    rw [parked_task]
    simp only
    split
    · simp
    · rename_i other
      exact fun running => other ((h.running r inside).mp running)

theorem yield_switches (h : Coherent k) (small : k.currentTask < 2 ^ 64) :
    k.yieldCurrent = .ok (switched (parked k) (chosen (parked k))) := by
  have isRunning : (k.tasks k.currentTask).state = .running := (h.running _ h.inside).mpr rfl
  have paused := parked_paused h
  have held : 0 < anchors (parked k) (parked k).currentTask := by
    apply anchored_of_live paused.tree paused.inside
    rw [parked_task, (parked_kernel k).2.2]
    simp
  have idle : (k.setState k.currentTask .ready).isIdle k.currentTask = true ↔ k.currentTask = 0 := by
    rw [← is_idle_iff h.tree h.inside small]
    simp [Kernel.isIdle, Kernel.setState, Kernel.modify]
  have same : parked k =
      if (k.setState k.currentTask .ready).isIdle k.currentTask then k.setState k.currentTask .ready
      else { k.setState k.currentTask .ready with
        readyQueue := (k.setState k.currentTask .ready).readyQueue ++ [k.currentTask] } := by
    unfold parked
    by_cases first : k.currentTask = 0
    · rw [if_pos first, if_pos (idle.mpr first)]
    · rw [if_neg first, if_neg (fun yes => first (idle.mp yes))]
      rfl
  unfold Kernel.yieldCurrent
  rw [if_neg (by rw [isRunning]; simp)]
  simp only
  rw [← same]
  exact resched_switches paused held

def born (k : Kernel) (parent : Nat) (isKernel isShared : Bool) : Kernel :=
  let t := (k.alloc isKernel isShared).1.addChild parent k.made
  { t with readyQueue := t.readyQueue ++ [k.made] }

theorem born_tasks (known : parent < k.made) (isKernel isShared : Bool) (r : Nat) :
    (born k parent isKernel isShared).tasks r =
      if r = k.made then { newCommon k.nextPid with isKernel, isShared, parent := some parent }
      else if r = parent then
        { k.tasks parent with children := (k.tasks parent).children ++ [k.made] }
      else k.tasks r := by
  have apart : parent ≠ k.made := by omega
  simp only [born, Kernel.alloc, Kernel.addChild, Kernel.modify, update_self, update_of_ne apart]
  by_cases fresh : r = k.made
  · rw [fresh, update_of_ne (Ne.symm apart), update_self, if_pos rfl]
  by_cases same : r = parent
  · rw [same, update_self, if_neg apart, if_pos rfl]
  · rw [update_of_ne same, update_of_ne fresh, update_of_ne fresh, if_neg fresh, if_neg same]

theorem born_fields (known : parent < k.made) (isKernel isShared : Bool) (r : Nat) (old : r < k.made) :
    ((born k parent isKernel isShared).tasks r).pid = (k.tasks r).pid ∧
    ((born k parent isKernel isShared).tasks r).state = (k.tasks r).state ∧
    ((born k parent isKernel isShared).tasks r).parent = (k.tasks r).parent ∧
    ((born k parent isKernel isShared).tasks r).children =
      (k.tasks r).children ++ (if r = parent then [k.made] else []) := by
  rw [born_tasks known, if_neg (by omega)]
  by_cases same : r = parent
  · simp [same]
  · simp [same]

theorem born_children (h : Tree k) (known : parent < k.made) (isKernel isShared : Bool) (p c : Nat) :
    c ∈ ((born k parent isKernel isShared).tasks p).children ↔
      c ∈ (k.tasks p).children ∨ (p = parent ∧ c = k.made) := by
  by_cases old : p < k.made
  · rw [(born_fields known isKernel isShared p old).2.2.2, List.mem_append]
    by_cases same : p = parent <;> simp [same]
  have none_old := h.blank p (by omega)
  rw [born_tasks known, none_old]
  by_cases fresh : p = k.made
  · simp [fresh, newCommon]
    omega
  rw [if_neg fresh, if_neg (by omega), none_old]
  simp
  omega

theorem born_tree (h : Tree k) (known : parent < k.made) (alive : (k.tasks parent).state ≠ .zombie) :
    Tree (born k parent isKernel isShared) := by
  have size := h.size
  have fields := born_fields known isKernel isShared
  have lists := born_children h known isKernel isShared
  have fresh : (born k parent isKernel isShared).tasks k.made =
      { newCommon k.nextPid with isKernel, isShared, parent := some parent } := by
    rw [born_tasks known, if_pos rfl]
  have alive_iff : ∀ p, p < k.made → (((born k parent isKernel isShared).tasks p).state ≠ .zombie ↔
      (k.tasks p).state ≠ .zombie) := by
    intro p old
    rw [(fields p old).2.1]
  have made : (born k parent isKernel isShared).made = k.made + 1 := rfl
  constructor
  case size =>
    rw [made]
    omega
  case counter =>
    have next : (born k parent isKernel isShared).nextPid = k.nextPid + 1 := rfl
    rw [next, made, h.counter]
    apply BitVec.eq_of_toNat_eq
    simp
  case pids =>
    intro r inside
    rw [made] at inside
    by_cases old : r < k.made
    · rw [(fields r old).1]
      exact h.pids r old
    have same : r = k.made := by omega
    rw [same, fresh, ← h.counter]
    rfl
  case blank =>
    intro r outside
    rw [made] at outside
    rw [born_tasks known, if_neg (by omega), if_neg (by omega)]
    exact h.blank r (by omega)
  case child =>
    intro p c member
    rw [made]
    rcases (lists p c).mp member with older | ⟨rfl, rfl⟩
    · obtain ⟨below, above, inside, parent', live⟩ := h.child p c older
      exact ⟨below, above, by omega, (fields c inside).2.2.1.trans parent',
        (alive_iff p (by omega)).mpr live⟩
    · exact ⟨known, size, by omega, by rw [fresh], (alive_iff p known).mpr alive⟩
  case single =>
    intro p
    by_cases old : p < k.made
    · rw [(fields p old).2.2.2]
      split
      · have unlisted : k.made ∉ (k.tasks p).children := by
          intro member
          have bounds := h.child p _ member
          omega
        exact List.nodup_append_comm.mp (List.nodup_cons.mpr ⟨unlisted, h.single p⟩)
      · rw [List.append_nil]
        exact h.single p
    · have empty : ((born k parent isKernel isShared).tasks p).children = [] := by
        apply List.eq_nil_iff_forall_not_mem.mpr
        intro c member
        rcases (lists p c).mp member with older | ⟨rfl, _⟩
        · rw [h.blank p (by omega)] at older
          cases older
        · exact old known
      rw [empty]
      exact List.nodup_nil
  case adopted =>
    intro r above inside live
    rw [made] at inside
    by_cases old : r < k.made
    · obtain ⟨p, member⟩ := h.adopted r above old ((alive_iff r old).mp live)
      exact ⟨p, (lists p r).mpr (Or.inl member)⟩
    · exact ⟨parent, (lists parent r).mpr (Or.inr ⟨rfl, by omega⟩)⟩
  case idle =>
    exact (alive_iff 0 (by omega)).mpr h.idle
  case root =>
    exact (alive_iff 1 (by omega)).mpr h.root

theorem born_coherent (h : Coherent k) (known : parent < k.made)
    (alive : (k.tasks parent).state ≠ .zombie) (isKernel isShared : Bool) :
    Coherent (born k parent isKernel isShared) := by
  have size := h.tree.size
  have inside := h.inside
  have fields := born_fields known isKernel isShared
  have made : (born k parent isKernel isShared).made = k.made + 1 := rfl
  have queue : (born k parent isKernel isShared).readyQueue = k.readyQueue ++ [k.made] := rfl
  have ready : ((born k parent isKernel isShared).tasks k.made).state = .ready := by
    rw [born_tasks known, if_pos rfl]
    rfl
  refine ⟨born_tree h.tree known alive, ⟨?_, ?_⟩, ?_, ?_⟩
  · rw [queue]
    have unqueued : k.made ∉ k.readyQueue := by
      intro member
      have entry := (h.lined.queued _).mp member
      omega
    exact List.nodup_append_comm.mp (List.nodup_cons.mpr ⟨unqueued, h.lined.nodup⟩)
  · intro r
    rw [queue, made, List.mem_append, List.mem_singleton, h.lined.queued]
    by_cases old : r < k.made
    · rw [(fields r old).2.1]
      constructor
      · intro entry
        rcases entry with entry | same
        · exact ⟨entry.1, by omega, entry.2.2⟩
        · omega
      · intro entry
        exact Or.inl ⟨entry.1, old, entry.2.2⟩
    · constructor
      · intro entry
        rcases entry with entry | same
        · omega
        · rw [same]
          exact ⟨by omega, by omega, ready⟩
      · intro entry
        exact Or.inr (by omega)
  · exact Nat.lt_succ_of_lt inside
  · intro r bound
    have current : (born k parent isKernel isShared).currentTask = k.currentTask := rfl
    rw [made] at bound
    rw [current]
    by_cases old : r < k.made
    · rw [(fields r old).2.1]
      exact h.running r old
    have same : r = k.made := by omega
    rw [same, ready]
    simp
    omega

theorem hand_over (children : List Nat) (k : Kernel) : children.foldl (fun k c => k.addChild rootRef c) k =
      { k with tasks := fun r =>
          { k.tasks r with
            parent := if r ∈ children then some rootRef else (k.tasks r).parent
            children := if r = rootRef then (k.tasks r).children ++ children else (k.tasks r).children } } := by
  induction children generalizing k with
  | nil => simp
  | cons c rest ih =>
    rw [List.foldl_cons, ih]
    simp only [Kernel.addChild, Kernel.modify, Kernel.mk.injEq, and_true]
    funext r
    by_cases root : r = rootRef <;> by_cases self : r = c <;> by_cases later : r ∈ rest <;>
      simp [update, root, self, later] <;> simp_all

section Exit
variable {k : Kernel} (code : BitVec 32)

def kids (k : Kernel) : List Nat := (k.tasks k.currentTask).children

theorem leave_tasks (own : k.currentTask ∉ kids k) (r : Nat) :
    (k.leave code).tasks r =
      { k.tasks r with
        state := if r = k.currentTask then .zombie else (k.tasks r).state
        exitCode := if r = k.currentTask then code else (k.tasks r).exitCode
        parent := if r ∈ kids k then some 1 else (k.tasks r).parent
        children := if r = k.currentTask then []
          else if r = 1 then (k.tasks r).children ++ kids k else (k.tasks r).children } := by
  unfold kids at own ⊢
  simp only [Kernel.leave, hand_over, Kernel.setState, Kernel.modify, update_self]
  by_cases same : r = k.currentTask
  · subst same
    simp [own]
  · simp [same, rootRef]

theorem leave_kernel (k : Kernel) : (k.leave code).made = k.made ∧ (k.leave code).nextPid = k.nextPid ∧
      (k.leave code).readyQueue = k.readyQueue ∧ (k.leave code).currentTask = k.currentTask := by
  simp only [Kernel.leave, hand_over, Kernel.setState, Kernel.modify, and_self]

theorem own_not_kid (h : Tree k) : k.currentTask ∉ kids k := by
  intro member
  have below := (h.child _ _ member).1
  omega

variable (h : Coherent k) (user : 1 < k.currentTask)
include h

theorem leave_children (p c : Nat) :
    c ∈ ((k.leave code).tasks p).children ↔
      p ≠ k.currentTask ∧ (c ∈ (k.tasks p).children ∨ (p = 1 ∧ c ∈ kids k)) := by
  rw [leave_tasks code (own_not_kid h.tree)]
  by_cases self : p = k.currentTask
  · simp [self]
  by_cases root : p = 1
  · subst root
    simp [self]
  · simp [self, root]

theorem leave_state (r : Nat) :
    ((k.leave code).tasks r).state = if r = k.currentTask then .zombie else (k.tasks r).state := by
  rw [leave_tasks code (own_not_kid h.tree)]

theorem leave_parent (r : Nat) :
    ((k.leave code).tasks r).parent = if r ∈ kids k then some 1 else (k.tasks r).parent := by
  rw [leave_tasks code (own_not_kid h.tree)]

include user

theorem leave_tree : Tree (k.leave code) := by
  have tree := h.tree
  have size := tree.size
  have lists := leave_children code h
  have state := leave_state code h
  have parents := leave_parent code h
  obtain ⟨made, counter, _, _⟩ := leave_kernel code k
  have alive : ∀ p, p ≠ k.currentTask → (((k.leave code).tasks p).state ≠ .zombie ↔
      (k.tasks p).state ≠ .zombie) := by
    intro p other
    rw [state, if_neg other]
  constructor
  case size =>
    rw [made]
    exact size
  case counter =>
    rw [made, counter]
    exact tree.counter
  case pids =>
    intro r inside
    rw [made] at inside
    rw [leave_tasks code (own_not_kid h.tree)]
    exact tree.pids r inside
  case blank =>
    intro r outside
    rw [made] at outside
    apply List.eq_nil_iff_forall_not_mem.mpr
    intro c member
    obtain ⟨_, older | ⟨first, _⟩⟩ := (lists r c).mp member
    · rw [tree.blank r outside] at older
      cases older
    · omega
  case child =>
    intro p c member
    rw [made]
    obtain ⟨other, older | ⟨rfl, orphan⟩⟩ := (lists p c).mp member
    · obtain ⟨below, above, inside, parent, live⟩ := tree.child p c older
      refine ⟨below, above, inside, ?_, (alive p other).mpr live⟩
      rw [parents]
      split
      · rename_i orphan
        have mine := (tree.child _ _ orphan).2.2.2.1
        rw [parent] at mine
        exact absurd (some.inj mine) other
      · exact parent
    · obtain ⟨_, above, inside, _, _⟩ := tree.child _ _ orphan
      refine ⟨above, above, inside, ?_, (alive 1 other).mpr tree.root⟩
      rw [parents, if_pos orphan]
  case single =>
    intro p
    rw [leave_tasks code (own_not_kid h.tree)]
    simp only
    split
    · exact List.nodup_nil
    rename_i other
    split
    · rename_i root
      refine List.nodup_append.mpr ⟨tree.single p, tree.single _, ?_⟩
      intro a mine b theirs same
      subst same
      have first := (tree.child _ _ mine).2.2.2.1
      have second := (tree.child _ _ theirs).2.2.2.1
      rw [first] at second
      exact other (some.inj second)
    · exact tree.single p
  case adopted =>
    intro r above inside live
    rw [made] at inside
    have other : r ≠ k.currentTask := by
      intro same
      rw [state, if_pos same] at live
      exact live rfl
    obtain ⟨p, member⟩ := tree.adopted r above inside ((alive r other).mp live)
    by_cases mine : p = k.currentTask
    · subst mine
      exact ⟨1, (lists 1 r).mpr ⟨by omega, Or.inr ⟨rfl, member⟩⟩⟩
    · exact ⟨p, (lists p r).mpr ⟨mine, Or.inl member⟩⟩
  case idle =>
    exact (alive 0 (by omega)).mpr tree.idle
  case root =>
    exact (alive 1 (by omega)).mpr tree.root

theorem leave_paused : Paused (k.leave code) ∧ 0 < anchors (k.leave code) k.currentTask := by
  have tree := leave_tree code h user
  have state := leave_state code h
  obtain ⟨made, _, queue, current⟩ := leave_kernel code k
  have isRunning : (k.tasks k.currentTask).state = .running := (h.running _ h.inside).mpr rfl
  have unqueued := current_unqueued h
  refine ⟨⟨tree, ⟨?_, ?_⟩, ?_, ?_⟩, ?_⟩
  · rw [queue]
    exact h.lined.nodup
  · intro r
    rw [queue, made, state]
    split
    · rename_i same
      rw [same]
      simp [unqueued]
    · exact h.lined.queued r
  · rw [current, made]
    exact h.inside
  · intro r inside
    rw [made] at inside
    rw [state]
    split
    · simp
    · rename_i other
      exact fun running => other ((h.running r inside).mp running)
  · obtain ⟨p, member⟩ := h.tree.adopted k.currentTask user h.inside (by rw [isRunning]; simp)
    have below := (h.tree.child _ _ member).1
    have still := (leave_children code h p k.currentTask).mpr ⟨by omega, Or.inl member⟩
    have listed := listed_pos tree still
    unfold anchors
    omega

theorem exit_switches (small : k.currentTask < 2 ^ 64) :
    k.exitCurrent code = .ok (switched (k.leave code) (chosen (k.leave code))) := by
  obtain ⟨paused, held⟩ := leave_paused code h user
  obtain ⟨made, _, queue, current⟩ := leave_kernel code k
  have isRunning : (k.tasks k.currentTask).state = .running := (h.running _ h.inside).mpr rfl
  have notIdle : ¬ k.isIdle k.currentTask = true := by
    rw [is_idle_iff h.tree h.inside small]
    omega
  have notRoot : ¬ k.isRoot k.currentTask = true := by
    rw [is_root_iff h.tree h.inside small]
    omega
  have different : chosen (k.leave code) ≠ k.currentTask := by
    intro same
    obtain ⟨_, live⟩ := chosen_live paused
    rw [same, leave_state code h, if_pos rfl] at live
    exact live rfl
  unfold Kernel.exitCurrent
  rw [if_neg notIdle, if_neg notRoot, if_neg (by rw [isRunning]; simp),
    resched_switches paused (by rw [current]; exact held)]
  exact if_neg different

end Exit

theorem wait_loop_cases (k : Kernel) (pid : BitVec 64) (children : List Nat) (start : Nat) (found : Bool) :
    (∃ i c, k.waitLoop pid children start found = (some (start + i), true) ∧
      children[i]? = some c ∧ k.pidMatches pid c = true ∧ (k.tasks c).state = .zombie) ∨
    ((∀ c ∈ children, k.pidMatches pid c = true → (k.tasks c).state ≠ .zombie) ∧
      k.waitLoop pid children start found = (none, found || children.any (k.pidMatches pid))) := by
  induction children generalizing start found with
  | nil => exact Or.inr ⟨by simp, by simp [Kernel.waitLoop]⟩
  | cons t rest ih =>
    unfold Kernel.waitLoop
    by_cases hit : k.pidMatches pid t = true
    · rw [if_pos hit]
      by_cases dead : (k.tasks t).state = .zombie
      · rw [if_pos dead]
        exact Or.inl ⟨0, t, rfl, rfl, hit, dead⟩
      rw [if_neg dead]
      rcases ih (start + 1) true with ⟨i, c, run, entry, matched, zombie⟩ | ⟨alive, run⟩
      · refine Or.inl ⟨i + 1, c, ?_, by simpa using entry, matched, zombie⟩
        rw [run, Nat.add_assoc, Nat.add_comm 1 i]
      refine Or.inr ⟨?_, by rw [run]; simp [hit]⟩
      intro c member matched
      rcases List.mem_cons.mp member with same | member
      · rw [same]
        exact dead
      · exact alive c member matched
    · rw [if_neg hit]
      rcases ih (start + 1) found with ⟨i, c, run, entry, matched, zombie⟩ | ⟨alive, run⟩
      · refine Or.inl ⟨i + 1, c, ?_, by simpa using entry, matched, zombie⟩
        rw [run, Nat.add_assoc, Nat.add_comm 1 i]
      refine Or.inr ⟨?_, by rw [run]; simp [hit]⟩
      intro c member matched
      rcases List.mem_cons.mp member with same | member
      · rw [same] at matched
        exact absurd matched hit
      · exact alive c member matched

def reaped (k : Kernel) (child : Nat) : Kernel :=
  k.modify k.currentTask fun t => { t with children := t.children.erase child }

section Reap
variable {k : Kernel} (h : Coherent k) {child : Nat} (member : child ∈ kids k)
  (dead : (k.tasks child).state = .zombie)
include h

theorem reaped_fields (child r : Nat) :
    ((reaped k child).tasks r).pid = (k.tasks r).pid ∧
    ((reaped k child).tasks r).state = (k.tasks r).state ∧
    ((reaped k child).tasks r).parent = (k.tasks r).parent ∧
    ((reaped k child).tasks r).exitCode = (k.tasks r).exitCode ∧
    ∀ c, c ∈ ((reaped k child).tasks r).children ↔
      c ∈ (k.tasks r).children ∧ (r = k.currentTask → c ≠ child) := by
  unfold reaped Kernel.modify
  by_cases self : r = k.currentTask
  · subst self
    simp only [update_self, true_and, forall_const]
    intro c
    rw [(h.tree.single _).mem_erase_iff, and_comm]
  · simp [self]

include member

theorem reaped_unlisted (p : Nat) : child ∉ ((reaped k child).tasks p).children := by
  intro listed
  obtain ⟨older, other⟩ := ((reaped_fields h child p).2.2.2.2 child).mp listed
  have mine := (h.tree.child _ _ member).2.2.2.1
  have theirs := (h.tree.child _ _ older).2.2.2.1
  rw [mine] at theirs
  exact other (some.inj theirs).symm rfl

include dead

theorem reaped_count : (reaped k child).strongCount [child] child = 1 := by
  obtain ⟨_, above, inside, _, _⟩ := h.tree.child _ _ member
  have notCurrent : ¬ k.currentTask = child := by
    intro same
    have running := (h.running child inside).mpr same.symm
    rw [dead] at running
    cases running
  have unqueued : k.readyQueue.count child = 0 := by
    apply List.count_eq_zero.mpr
    intro queued
    have entry := (h.lined.queued _).mp queued
    rw [dead] at entry
    cases entry.2.2
  have unlisted : (reaped k child).listedIn child = 0 := by
    unfold Kernel.listedIn
    rw [List.sum_eq_zero_iff_forall_eq_nat]
    intro n term
    obtain ⟨p, _, rfl⟩ := List.mem_map.mp term
    exact List.count_eq_zero.mpr (reaped_unlisted h member p)
  have current : (reaped k child).currentTask = k.currentTask := rfl
  have queue : (reaped k child).readyQueue = k.readyQueue := rfl
  unfold Kernel.strongCount
  rw [unlisted, queue, unqueued, current, if_neg notCurrent, if_neg (by unfold idleRef; omega),
    if_neg (by unfold rootRef; omega)]
  simp

omit member in
theorem reaped_coherent : Coherent (reaped k child) := by
  have tree := h.tree
  have fields := reaped_fields h child
  refine ⟨⟨tree.size, tree.counter, ?_, ?_, ?_, ?_, ?_, ?_, ?_⟩, ⟨h.lined.nodup, ?_⟩,
    h.inside, ?_⟩
  · intro r inside
    rw [(fields r).1]
    exact tree.pids r inside
  · intro r outside
    apply List.eq_nil_iff_forall_not_mem.mpr
    intro c listed
    have older := (((fields r).2.2.2.2 c).mp listed).1
    rw [tree.blank r outside] at older
    cases older
  · intro p c listed
    have older := (((fields p).2.2.2.2 c).mp listed).1
    obtain ⟨below, above, inside, parent, live⟩ := tree.child p c older
    exact ⟨below, above, inside, (fields c).2.2.1.trans parent, by rw [(fields p).2.1]; exact live⟩
  · intro p
    by_cases self : p = k.currentTask
    · subst self
      simp only [reaped, Kernel.modify, update_self]
      exact (tree.single _).erase child
    · simp only [reaped, Kernel.modify, update_of_ne self]
      exact tree.single p
  · intro r above inside live
    rw [(fields r).2.1] at live
    obtain ⟨p, listed⟩ := tree.adopted r above inside live
    refine ⟨p, ((fields p).2.2.2.2 r).mpr ⟨listed, ?_⟩⟩
    intro _ same
    rw [same] at live
    exact live dead
  · rw [(fields 0).2.1]
    exact tree.idle
  · rw [(fields 1).2.1]
    exact tree.root
  · intro r
    rw [(fields r).2.1]
    exact h.lined.queued r
  · intro r inside
    rw [(fields r).2.1]
    exact h.running r inside

end Reap

theorem waitpid_cases (h : Coherent k) (pid : BitVec 64) :
    (∃ child ∈ kids k, k.pidMatches pid child = true ∧ (k.tasks child).state = .zombie ∧
      k.waitpid pid = .ok ⟨reaped k child, (k.tasks child).pid, some (child, (k.tasks child).exitCode)⟩) ∨
    ((∀ c ∈ kids k, k.pidMatches pid c = true → (k.tasks c).state ≠ .zombie) ∧
      k.waitpid pid = .ok ⟨k, if (kids k).any (k.pidMatches pid) then -2 else -1, none⟩) := by
  rcases wait_loop_cases k pid (kids k) 0 false with ⟨i, child, run, entry, matched, dead⟩ | ⟨alive, run⟩
  · refine Or.inl ⟨child, List.mem_of_getElem? entry, matched, dead, ?_⟩
    have member : child ∈ kids k := List.mem_of_getElem? entry
    have removed : k.modify k.currentTask (fun t => { t with children := t.children.eraseIdx i }) =
        reaped k child := by
      obtain ⟨bound, value⟩ := List.getElem?_eq_some_iff.mp entry
      have erased : (kids k).erase child = (kids k).eraseIdx i := by
        rw [← value]
        exact (h.tree.single k.currentTask).erase_getElem i bound
      simp only [kids] at erased
      simp only [reaped, Kernel.modify, erased]
    have fields := reaped_fields h child child
    rw [Nat.zero_add] at run
    simp only [kids] at run entry
    simp only [Kernel.waitpid, run, entry, removed, reaped_count h member dead, ↓reduceIte, fields.1,
      fields.2.2.2.1]
  · refine Or.inr ⟨alive, ?_⟩
    rw [Bool.false_or] at run
    by_cases matching : (kids k).any (k.pidMatches pid) = true
    · rw [if_pos matching]
      rw [matching] at run
      simp only [kids] at run
      simp only [Kernel.waitpid, run]
    rw [if_neg matching]
    rw [Bool.not_eq_true] at matching
    rw [matching] at run
    simp only [kids] at run
    simp only [Kernel.waitpid, run]

end RtosNimbosTaskInvariant
