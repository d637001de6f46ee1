import Mathlib.Algebra.Group.Nat.Defs
import CompositeRtos.Lib.Agents
import CompositeRtos.Lib.Transition

/-!
The ids that `PerCpu::new` hands out when any number of CPUs call it. The load of
`ENTERED_CPUS` that is compared with `max_cpus` and the `fetch_add` that takes the id are
two steps, so more callers can pass the comparison than there are ids left.
-/
namespace RtosRvmCpuIds
open RtosTransition RtosAgents Function BitVec

inductive Call where
  | load
  | fetchAdd
  | ok (id : BitVec 32)
  | einval
  deriving DecidableEq

def Call.succeeded : Call → Bool
  | .ok _ => true
  | _ => false

def Call.admitted : Call → Bool
  | .fetchAdd | .ok _ => true
  | _ => false

def Call.returned : Call → Bool
  | .ok _ | .einval => true
  | _ => false

structure Callers (n : Nat) where
  enteredCpus : BitVec 32
  calls : Fin n → Call

variable {n : Nat} {maxCpus : BitVec 32}

def Callers.step (maxCpus : BitVec 32) (s : Callers n) (i : Fin n) : Option (Callers n) :=
  match s.calls i with
  | .load =>
    if s.enteredCpus ≥ maxCpus then some { s with calls := Function.update s.calls i .einval }
    else some { s with calls := Function.update s.calls i .fetchAdd }
  | .fetchAdd => some ⟨s.enteredCpus + 1, Function.update s.calls i (.ok s.enteredCpus)⟩
  | .ok _ | .einval => none

def calling (n : Nat) (maxCpus : BitVec 32) : Machine (Callers n) (Fin n) where
  start s := s = ⟨0, fun _ => .load⟩
  next s i t := s.step maxCpus i = some t

/-- Ids are unique and below `max_cpus`, and when all calls have returned as many succeeded
    as should. -/
structure Right (maxCpus : BitVec 32) (s : Callers n) : Prop where
  distinct : ∀ i j id, s.calls i = .ok id → s.calls j = .ok id → i = j
  below : ∀ i id, s.calls i = .ok id → id < maxCpus
  count : (∀ i, (s.calls i).returned = true) → passed Call.succeeded s.calls = min n maxCpus.toNat

/-- A load that passes the comparison leaves room for every caller admitted before. -/
def Room (maxCpus : BitVec 32) (s : Callers n) (i : Fin n) : Prop :=
  s.calls i = .load → s.enteredCpus < maxCpus → passed Call.admitted s.calls < maxCpus.toNat

instance (s : Callers n) (i : Fin n) : Decidable (Room maxCpus s i) := inferInstanceAs (Decidable (_ → _ → _))

structure Counted (maxCpus : BitVec 32) (s : Callers n) : Prop where
  entered : s.enteredCpus.toNat = passed Call.succeeded s.calls
  room : passed Call.admitted s.calls ≤ maxCpus.toNat
  taken : ∀ i id, s.calls i = .ok id → id < s.enteredCpus
  distinct : ∀ i j id, s.calls i = .ok id → s.calls j = .ok id → i = j
  full : ∀ i, s.calls i = .einval → maxCpus ≤ s.enteredCpus

theorem succeeded_admitted (c : Call) (h : c.succeeded = true) : c.admitted = true := by
  cases c with
  | ok id => rfl
  | load | fetchAdd | einval => cases h

theorem counted_start : Counted maxCpus (⟨0, fun _ => .load⟩ : Callers n) where
  entered := by
    rw [passed_none Call.succeeded fun _ => rfl]
    rfl
  room := by
    rw [passed_none Call.admitted fun _ => rfl]
    exact Nat.zero_le _
  taken := by
    intro i id h
    cases h
  distinct := by
    intro i j id h
    cases h
  full := by
    intro i h
    cases h

theorem of_update {calls : Fin n → Call} (h : update calls i c j = d) (other : c ≠ d) :
    calls j = d := by
  by_cases here : j = i
  · subst here
    rw [update_self] at h
    exact absurd h other
  · rw [update_of_ne here] at h
    exact h

theorem counted_load (inv : Counted maxCpus s) (at_load : s.calls i = .load) (room : Room maxCpus s i)
    (step : s.step maxCpus i = some t) : Counted maxCpus t := by
  have unmoved : ∀ c, c.succeeded = false → passed Call.succeeded (update s.calls i c) =
      passed Call.succeeded s.calls := by
    intro c none
    apply passed_same
    rw [none, at_load]
    rfl
  simp only [Callers.step, at_load] at step
  split at step
  · rename_i refused
    cases step
    refine ⟨?_, ?_, ?_, ?_, ?_⟩
    · rw [unmoved .einval rfl]
      exact inv.entered
    · rw [passed_same Call.admitted (by rw [at_load]; rfl)]
      exact inv.room
    · intro j id h
      exact inv.taken j id (of_update h (by simp))
    · intro j k id h h'
      exact inv.distinct j k id (of_update h (by simp)) (of_update h' (by simp))
    · intro j h
      exact refused
  · rename_i passes
    cases step
    refine ⟨?_, ?_, ?_, ?_, ?_⟩
    · rw [unmoved .fetchAdd rfl]
      exact inv.entered
    · rw [passed_cross Call.admitted (by rw [at_load]; rfl) rfl]
      exact room at_load (BitVec.not_le.mp passes)
    · intro j id h
      exact inv.taken j id (of_update h (by simp))
    · intro j k id h h'
      exact inv.distinct j k id (of_update h (by simp)) (of_update h' (by simp))
    · intro j h
      exact inv.full j (of_update h (by simp))

theorem counted_add (inv : Counted maxCpus s) (at_add : s.calls i = .fetchAdd)
    (step : s.step maxCpus i = some t) : Counted maxCpus t := by
  simp only [Callers.step, at_add] at step
  cases step
  have more : passed Call.succeeded (update s.calls i (.ok s.enteredCpus)) =
      passed Call.succeeded s.calls + 1 := passed_cross Call.succeeded (by rw [at_add]; rfl) rfl
  have same : passed Call.admitted (update s.calls i (.ok s.enteredCpus)) =
      passed Call.admitted s.calls := passed_same Call.admitted (by rw [at_add]; rfl)
  have fits := passed_mono succeeded_admitted (update s.calls i (.ok s.enteredCpus))
  have entered := inv.entered
  have room := inv.room
  have word := maxCpus.isLt
  -- one more id, and no wrap since the caller had been admitted
  have grown : (s.enteredCpus + 1).toNat = s.enteredCpus.toNat + 1 := by
    rw [toNat_add, show (1 : BitVec 32).toNat = 1 from rfl]
    omega
  refine ⟨?_, ?_, ?_, ?_, ?_⟩
  · rw [grown, more, entered]
  · rw [same]
    exact room
  · intro j id h
    rw [lt_def, grown]
    by_cases fresh : s.enteredCpus = id
    · rw [fresh]
      exact Nat.lt_succ_self _
    have old := inv.taken j id (of_update h (by simpa using fresh))
    rw [lt_def] at old
    omega
  · -- an id taken before is below the counter, so it is not the new one
    have new : ∀ j id, update s.calls i (.ok s.enteredCpus) j = .ok id →
        j = i ∧ id = s.enteredCpus ∨ s.calls j = .ok id ∧ id < s.enteredCpus := by
      intro j id h
      by_cases here : j = i
      · subst here
        rw [update_self] at h
        cases h
        exact Or.inl ⟨rfl, rfl⟩
      · rw [update_of_ne here] at h
        exact Or.inr ⟨h, inv.taken j id h⟩
    intro j k id h h'
    rcases new j id h with ⟨rfl, rfl⟩ | ⟨old, small⟩
    · rcases new k _ h' with ⟨rfl, _⟩ | ⟨_, small⟩
      · rfl
      · exact absurd small (BitVec.lt_irrefl _)
    rcases new k id h' with ⟨_, rfl⟩ | ⟨old', _⟩
    · exact absurd small (BitVec.lt_irrefl _)
    · exact inv.distinct j k id old old'
  · intro j h
    have full := inv.full j (of_update h (by simp))
    rw [le_def] at full ⊢
    omega

theorem counted_reachable (run : Reachable ((calling n maxCpus).guarded (Room maxCpus)) s) : Counted maxCpus s := by
  apply reachable_invariant (Counted maxCpus) _ _ run
  · intro s first
    cases first
    exact counted_start
  rintro s i t inv ⟨room, step⟩
  cases here : s.calls i with
  | load => exact counted_load inv here room step
  | fetchAdd => exact counted_add inv here step
  | ok id =>
    simp only [calling, Callers.step, here] at step
    cases step
  | einval =>
    simp only [calling, Callers.step, here] at step
    cases step

theorem right_of_counted {s : Callers n} (inv : Counted maxCpus s) : Right maxCpus s where
  distinct := inv.distinct
  below := by
    intro i id h
    have small := inv.taken i id h
    have fits := passed_mono succeeded_admitted s.calls
    have entered := inv.entered
    have room := inv.room
    rw [lt_def] at small ⊢
    omega
  count := by
    intro all
    have fits := passed_mono succeeded_admitted s.calls
    have room := inv.room
    by_cases failed : ∃ i, s.calls i = .einval
    · obtain ⟨i, failure⟩ := failed
      have full := inv.full i failure
      have entered := inv.entered
      have fewer : passed Call.succeeded s.calls < Fintype.card (Fin n) :=
        passed_lt Call.succeeded (i := i) (by rw [failure]; rfl)
      rw [Fintype.card_fin] at fewer
      rw [le_def] at full
      omega
    · have everyone : passed Call.succeeded s.calls = n := by
        rw [passed_all Call.succeeded, Fintype.card_fin]
        intro i
        have done := all i
        cases here : s.calls i with
        | ok id => rfl
        | einval => exact absurd ⟨i, here⟩ failed
        | load | fetchAdd =>
          rw [here] at done
          cases done
      omega

theorem room_enough (enough : n ≤ maxCpus.toNat) (s : Callers n) (i : Fin n) : Room maxCpus s i := by
  intro at_load _
  have fewer : passed Call.admitted s.calls < Fintype.card (Fin n) :=
    passed_lt Call.admitted (i := i) (by rw [at_load]; rfl)
  rw [Fintype.card_fin] at fewer
  omega

theorem room_none (none : maxCpus = 0) (s : Callers n) (i : Fin n) : Room maxCpus s i := by
  intro _ below
  rw [none, lt_def] at below
  exact absurd below (Nat.not_lt_zero _)

theorem guarded_of_room (room : ∀ (s : Callers n) i, Room maxCpus s i) (run : Reachable (calling n maxCpus) s) :
    Reachable ((calling n maxCpus).guarded (Room maxCpus)) s := by
  apply reachable_invariant (Reachable ((calling n maxCpus).guarded (Room maxCpus))) _ _ run
  · intro s start
    exact reachable_start start
  · intro s i t before step
    exact reachable_next before ⟨room s i, step⟩

def loaded (n k : Nat) : Callers n := ⟨0, fun j => if j.val < k then .fetchAdd else .load⟩

def taken (n k : Nat) : Callers n :=
  ⟨BitVec.ofNat 32 k, fun j => if j.val < k then .ok (BitVec.ofNat 32 j.val) else .fetchAdd⟩

theorem update_next (bound : k < n) (before : A) (after : Fin n → A) :
    update (fun j : Fin n => if j.val < k then after j else before) ⟨k, bound⟩ (after ⟨k, bound⟩) =
      fun j => if j.val < k + 1 then after j else before := by
  funext j
  by_cases here : j = ⟨k, bound⟩
  · rw [here, update_self, if_pos (Nat.lt_succ_self k)]
  have other : j.val ≠ k := fun same => here (Fin.ext same)
  rw [update_of_ne here]
  by_cases small : j.val < k
  · rw [if_pos small, if_pos (by omega)]
  · rw [if_neg small, if_neg (by omega)]

theorem loaded_reachable (positive : 0 < maxCpus.toNat) (bound : k ≤ n) :
    Reachable (calling n maxCpus) (loaded n k) := by
  induction k with
  | zero =>
    apply reachable_start
    simp [calling, loaded]
  | succ k ih =>
    apply reachable_next (a := ⟨k, bound⟩) (ih (by omega))
    have passes : ¬ (0 : BitVec 32) ≥ maxCpus := by
      rw [ge_iff_le, le_def, show (0 : BitVec 32).toNat = 0 from rfl]
      omega
    have here : (loaded n k).calls ⟨k, bound⟩ = .load := if_neg (Nat.lt_irrefl k)
    simp only [calling, Callers.step, here]
    rw [show (loaded n k).enteredCpus = 0 from rfl, if_neg passes]
    exact congrArg (fun calls => Option.some (⟨0, calls⟩ : Callers n))
      (update_next bound Call.load fun _ => Call.fetchAdd)

theorem taken_reachable (positive : 0 < maxCpus.toNat) (bound : k ≤ n) :
    Reachable (calling n maxCpus) (taken n k) := by
  induction k with
  | zero =>
    have all : taken n 0 = loaded n n := by
      simp [taken, loaded]
    rw [all]
    exact loaded_reachable positive (Nat.le_refl n)
  | succ k ih =>
    apply reachable_next (a := ⟨k, bound⟩) (ih (by omega))
    have here : (taken n k).calls ⟨k, bound⟩ = .fetchAdd := if_neg (Nat.lt_irrefl k)
    simp only [calling, Callers.step, here]
    have calls := update_next bound Call.fetchAdd fun j => .ok (BitVec.ofNat 32 j.val)
    have counter : (taken n k).enteredCpus + 1 = BitVec.ofNat 32 (k + 1) := (ofNat_add k 1).symm
    rw [counter]
    exact congrArg (fun calls => Option.some (⟨BitVec.ofNat 32 (k + 1), calls⟩ : Callers n)) calls

theorem wrong_reachable (positive : 0 < maxCpus.toNat) (more : maxCpus.toNat < n) :
    ∃ s : Callers n, Reachable (calling n maxCpus) s ∧ ¬ Right maxCpus s := by
  refine ⟨taken n (maxCpus.toNat + 1), taken_reachable positive more, ?_⟩
  intro right
  have last : (taken n (maxCpus.toNat + 1)).calls ⟨maxCpus.toNat, more⟩ = .ok (BitVec.ofNat 32 maxCpus.toNat) :=
    if_pos (Nat.lt_succ_self _)
  have below := right.below _ _ last
  rw [ofNat_toNat, setWidth_eq] at below
  exact BitVec.lt_irrefl _ below

/-- In every run whose loads leave room for the callers admitted before them the ids are
    right, in every state; and in every run at all exactly if there are as many ids as
    callers, or none. -/
theorem cpu_ids_right (n : Nat) (maxCpus : BitVec 32) :
    (∀ s, Reachable ((calling n maxCpus).guarded (Room maxCpus)) s → Right maxCpus s) ∧
      ((∀ s, Reachable (calling n maxCpus) s → Right maxCpus s) ↔ n ≤ maxCpus.toNat ∨ maxCpus = 0) := by
  refine ⟨fun s run => right_of_counted (counted_reachable run), ?_, ?_⟩
  · intro always
    by_contra neither
    obtain ⟨more, some⟩ := not_or.mp neither
    have positive : 0 < maxCpus.toNat := by
      rw [Nat.pos_iff_ne_zero]
      intro zero
      exact some (BitVec.eq_of_toNat_eq zero)
    obtain ⟨s, run, wrong⟩ := wrong_reachable (n := n) positive (by omega)
    exact wrong (always s run)
  · rintro (enough | none) s run
    · exact right_of_counted (counted_reachable (guarded_of_room (room_enough enough) run))
    · exact right_of_counted (counted_reachable (guarded_of_room (room_none none) run))

/-- One id and two callers, one after the other: the second is refused. -/
theorem second_refused :
    ∃ s : Callers 2, Reachable ((calling 2 1).guarded (Room 1)) s ∧ s.calls 0 = .ok 0 ∧ s.calls 1 = .einval ∧
      Right 1 s := by
  let checked (s : Callers 2) (i : Fin 2) : Option (Callers 2) := if Room 1 s i then s.step 1 i else none
  have done : ([0, 0, 1].foldlM checked ⟨0, fun _ => .load⟩).map (fun s => (s.calls 0, s.calls 1)) =
      some (.ok 0, .einval) := by decide +kernel
  obtain ⟨s, ended, result⟩ := Option.map_eq_some_iff.mp done
  have allowed : ∀ s i t, checked s i = some t → ((calling 2 1).guarded (Room 1)).next s i t := by
    intro s i t step
    simp only [checked] at step
    split at step
    · rename_i room
      exact ⟨room, step⟩
    · cases step
  have reached : Reachable ((calling 2 1).guarded (Room 1)) s :=
    reachable_follow allowed (reachable_start rfl) ended
  obtain ⟨first, second⟩ := Prod.mk.inj result
  exact ⟨s, reached, first, second, (cpu_ids_right 2 1).1 s reached⟩

/-- One id and two callers that both load the counter first. -/
theorem two_admitted :
    ∃ s : Callers 2, Reachable (calling 2 1) s ∧ s.calls 0 = .ok 0 ∧ s.calls 1 = .ok 1 ∧ ¬ Right 1 s := by
  refine ⟨taken 2 2, taken_reachable (by decide) (by decide), rfl, rfl, ?_⟩
  intro right
  exact absurd (right.below 1 1 rfl) (by decide)

end RtosRvmCpuIds
