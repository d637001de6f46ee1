import CompositeRtos.Uintr.Machine

/-!
Where posted vectors go. `outstanding` follows the history alone: a vector is outstanding
from a posting until a handler entry that pushes its number. Conservation says that the
outstanding vectors are the bits of PIR and UIRR. The emulator keeps it exactly as long as
posted vectors fit a 32-bit shift and no acceptance overwrites a bit of UIRR.
-/
namespace RtosUintrConservation
open RtosTransition RtosUintrMachine BitVec

def afterEvent (v : Nat) (out : Bool) : Event → Bool
  | .posted w => out || w == v
  | .entered w => out && w != v

def outstanding (history : List Event) (v : Nat) : Bool :=
  history.foldl (afterEvent v) false

theorem outstanding_append : outstanding (history ++ [e]) v = afterEvent v (outstanding history v) e := by
  simp [outstanding]

def Conserved (s : World) : Prop :=
  ∀ v, outstanding s.history v = (heldVectors s).getLsbD v

def Genuine (history : List Event) : Prop :=
  ∀ before v after, history = before ++ .entered v :: after → outstanding before v = true

def initiallyClear (s : World) : Prop :=
  s.upid.status &&& 3 = 0 ∧ s.upid.puir = 0 ∧ s.cpu.uintrRr = 0 ∧ s.history = []

/-- The condition on a step under which no vector is lost or invented. -/
def Lossless (s : World) : Action → Prop
  | .senduipi uitte => uitte.userVec.toNat ≤ 30
  | .accept _ => interruptible s.cpu = true → s.upid.puir ≠ 0 →
      ∀ v, s.cpu.uintrRr.getLsbD v = true → s.upid.puir.getLsbD v = true
  | _ => True

structure Faithful (s : World) : Prop where
  conserved : Conserved s
  low : ∀ v, 30 < v → (heldVectors s).getLsbD v = false
  genuine : Genuine s.history

theorem genuine_append (h : Genuine history) (last : ∀ v, e = .entered v → outstanding history v = true) :
    Genuine (history ++ [e]) := by
  intro before v after same
  rcases List.eq_nil_or_concat after with rfl | ⟨rest, final, rfl⟩
  · have parts := List.append_inj' same rfl
    rw [← parts.1]
    exact last v (by simpa using parts.2)
  rw [List.concat_eq_append, ← List.cons_append, ← List.append_assoc] at same
  have parts := List.append_inj' same rfl
  exact h before v rest parts.1

theorem senduipi_posts (apicId : BitVec 8) (s : World) (uitte : UittEntry) :
    (worldSenduipi apicId s uitte).upid.puir = s.upid.puir ||| intOneShifted uitte.userVec.toNat ∧
      (worldSenduipi apicId s uitte).cpu = s.cpu ∧
      (worldSenduipi apicId s uitte).history = s.history ++ [.posted uitte.userVec.toNat] := by
  refine ⟨?_, rfl, rfl⟩
  simp only [worldSenduipi, helperSenduipi]
  split <;> rfl

theorem senduipi_held : (heldVectors (worldSenduipi apicId s uitte)).getLsbD v =
      ((heldVectors s).getLsbD v || (intOneShifted uitte.userVec.toNat).getLsbD v) := by
  obtain ⟨puir, cpu, _⟩ := senduipi_posts apicId s uitte
  simp only [heldVectors, puir, cpu, getLsbD_or]
  cases s.upid.puir.getLsbD v <;> simp [Bool.or_comm]

theorem faithful_senduipi (h : Faithful s) (low : uitte.userVec.toNat ≤ 30) :
    Faithful (worldSenduipi apicId s uitte) := by
  obtain ⟨_, _, history⟩ := senduipi_posts apicId s uitte
  have mask : ∀ v, (intOneShifted uitte.userVec.toNat).getLsbD v = (uitte.userVec.toNat == v) := by
    intro v
    rw [shifted_one_low low, getLsbD_twoPow]
    by_cases same : uitte.userVec.toNat = v
    · simp [same]
      omega
    · simp [same]
  refine ⟨?_, ?_, ?_⟩
  · intro v
    rw [history, outstanding_append, senduipi_held, mask, h.conserved v]
    rfl
  · intro v above
    rw [senduipi_held, mask, h.low v above]
    simp
    omega
  · rw [history]
    exact genuine_append h.genuine (by intro v impossible; cases impossible)

theorem wide_senduipi_breaks (h : Faithful s) (bound : uitte.userVec.toNat < 64)
    (wide : 30 < uitte.userVec.toNat) : ¬ Conserved (worldSenduipi apicId s uitte) := by
  intro conserved
  obtain ⟨_, _, history⟩ := senduipi_posts apicId s uitte
  obtain ⟨w, above, wrong⟩ := shifted_one_high wide bound
  have now := conserved w
  rw [history, outstanding_append, senduipi_held, h.conserved w, h.low w above] at now
  apply wrong
  rw [← Bool.false_or ((intOneShifted uitte.userVec.toNat).getLsbD w), ← now]
  simp only [afterEvent, Bool.false_or]
  by_cases same : w = uitte.userVec.toNat
  · simp [same]
  · simp [same, Ne.symm same]

theorem entered_bits (posted : puir ≠ 0) (low : ∀ v, 30 < v → puir.getLsbD v = false) (v : Nat) :
    (puir &&& ~~~(intOneShifted (uintrRrv puir).toNat)).getLsbD v =
      (puir.getLsbD v && (uintrRrv puir).toNat != v) := by
  obtain ⟨_, top⟩ := top_vector_set posted
  have small : (uintrRrv puir).toNat ≤ 30 := by
    by_contra high
    rw [low _ (by omega)] at top
    cases top
  rw [shifted_one_low small, getLsbD_and, getLsbD_not, getLsbD_twoPow]
  by_cases inside : v < 64
  · by_cases same : (uintrRrv puir).toNat = v
    · simp [same, inside]
    · simp [same, inside]
  · rw [getLsbD_of_ge puir v (by omega)]
    simp

theorem accept_conserved_iff (h : Faithful s) (outcome : AcceptOutcome s t) :
    Conserved t ↔ (interruptible s.cpu = true → s.upid.puir ≠ 0 →
      ∀ v, s.cpu.uintrRr.getLsbD v = true → s.upid.puir.getLsbD v = true) := by
  have lowPuir : ∀ v, 30 < v → s.upid.puir.getLsbD v = false := by
    intro v above
    have both := h.low v above
    rw [heldVectors, getLsbD_or, Bool.or_eq_false_iff] at both
    exact both.1
  cases outcome with
  | ignored masked =>
    constructor
    · intro _ open_
      rw [masked] at open_
      cases open_
    · intro _
      exact h.conserved
  | nothing_posted _ empty =>
    constructor
    · intro _ _ posted
      exact absurd empty posted
    intro _ v
    have now := h.conserved v
    simpa [heldVectors, acknowledged, empty] using now
  | faulted _ posted cpu m recognised =>
    constructor
    · intro conserved _ _ v held
      have now := conserved v
      have was := h.conserved v
      simp only [heldVectors, acknowledged, recognised, getLsbD_or, held, Bool.or_true] at now was
      rw [was] at now
      simpa using now.symm
    intro covered v
    have was := h.conserved v
    simp only [heldVectors, acknowledged, recognised, getLsbD_or] at was ⊢
    rw [was]
    cases held : s.cpu.uintrRr.getLsbD v with
    | false => simp
    | true => simp [covered ‹_› posted v held]
  | entered _ posted cpu m recognised =>
    have bits := entered_bits posted lowPuir
    constructor
    · intro conserved _ _ v held
      have now := conserved v
      have was := h.conserved v
      rw [outstanding_append, was] at now
      simp only [heldVectors, acknowledged, recognised, getLsbD_or, bits, held, Bool.or_true,
        afterEvent, Bool.true_and] at now
      by_cases same : (uintrRrv s.upid.puir).toNat = v
      · rw [← same]
        exact (top_vector_set posted).2
      · simpa [same] using now.symm
    · intro covered v
      have was := h.conserved v
      rw [outstanding_append, was]
      simp only [heldVectors, acknowledged, recognised, getLsbD_or, bits, afterEvent]
      cases held : s.cpu.uintrRr.getLsbD v with
      | false => simp
      | true => simp [covered ‹_› posted v held]

theorem faithful_accept (h : Faithful s) (outcome : AcceptOutcome s t) (conserved : Conserved t) : Faithful t := by
  refine ⟨conserved, ?_, ?_⟩
  · intro v above
    have was := h.conserved v
    rw [h.low v above] at was
    rw [← conserved v]
    cases outcome with
    | ignored => exact was
    | nothing_posted => exact was
    | faulted => exact was
    | entered => rw [outstanding_append, was]; rfl
  · cases outcome with
    | ignored => exact h.genuine
    | nothing_posted => exact h.genuine
    | faulted => exact h.genuine
    | entered _ posted =>
      apply genuine_append h.genuine
      intro v same
      cases same
      rw [h.conserved, heldVectors, getLsbD_or, (top_vector_set posted).2]
      rfl

theorem faithful_of_same (h : Faithful s) (upid : t.upid = s.upid) (rr : t.cpu.uintrRr = s.cpu.uintrRr)
    (history : t.history = s.history) : Faithful t := by
  have held : heldVectors t = heldVectors s := by simp only [heldVectors, upid, rr]
  refine ⟨?_, ?_, ?_⟩
  · intro v
    rw [history, held]
    exact h.conserved v
  · intro v above
    rw [held]
    exact h.low v above
  · rw [history]
    exact h.genuine

theorem act_faithful_iff (h : Faithful s) (step : act apicId s a = some t) :
    (Conserved t ↔ Lossless s a) ∧ (Lossless s a → Faithful t) := by
  have still : ∀ {t : World}, Faithful t → (Conserved t ↔ True) ∧ (True → Faithful t) :=
    fun kept => ⟨⟨fun _ => trivial, fun _ => kept.conserved⟩, fun _ => kept⟩
  cases a with
  | senduipi uitte =>
    simp only [act] at step
    split at step
    · rename_i small
      cases step
      have bound : uitte.userVec.toNat < 64 := by simpa [lt_def] using small
      refine ⟨⟨?_, fun low => (faithful_senduipi h low).conserved⟩, faithful_senduipi h⟩
      intro conserved
      by_contra wide
      exact wide_senduipi_breaks h bound (by simpa [Lossless] using wide) conserved
    · cases step
  | accept writable =>
    simp only [act] at step
    split at step
    · cases step
      have outcome := accept_outcome s writable
      have exact_ := accept_conserved_iff h outcome
      exact ⟨exact_, fun ok => faithful_accept h outcome (exact_.mpr ok)⟩
    · cases step
  | stui =>
    cases step
    exact still (faithful_of_same h rfl rfl rfl)
  | clui =>
    cases step
    exact still (faithful_of_same h rfl rfl rfl)
  | uiret readable =>
    simp only [act] at step
    split at step
    · rename_i cpu ret
      cases step
      exact still (faithful_of_same h rfl (uiret_keeps_recognised ret).1 rfl)
    · cases step
      exact still h
  | changeCpl after =>
    cases step
    exact still (faithful_of_same h rfl rfl rfl)

theorem clear_faithful (start : initiallyClear s) : Faithful s := by
  obtain ⟨_, puir, rr, history⟩ := start
  have empty : heldVectors s = 0 := by simp [heldVectors, puir, rr]
  refine ⟨?_, ?_, ?_⟩
  · intro v
    rw [history, empty]
    simp [outstanding]
  · intro v _
    simp [empty]
  rw [history]
  intro before v after same
  simp at same

theorem careful_faithful (reach : Reachable ((receiver apicId initiallyClear).guarded Lossless) s) : Faithful s := by
  apply reachable_invariant Faithful _ _ reach
  · intro s start
    exact clear_faithful start
  · intro s a t kept step
    exact (act_faithful_iff kept step.2).2 step.1

/-- As long as every step is lossless nothing is lost or invented, and the first step that
    is not lossless leads to a state that breaks conservation. -/
theorem user_interrupts_conserved {apicId : BitVec 8} {s : World}
    (reach : Reachable ((receiver apicId initiallyClear).guarded Lossless) s) :
    Conserved s ∧ Genuine s.history ∧
      ∀ a t, act apicId s a = some t → (Conserved t ↔ Lossless s a) := by
  have kept := careful_faithful reach
  refine ⟨kept.conserved, kept.genuine, ?_⟩
  intro a t step
  exact (act_faithful_iff kept step).1

def userThread : World where
  cpu := ⟨0x8000, 0x400000, 0x202, 3, 0, 0x500000, 128, 1⟩
  upid := ⟨0, 0, uintrUinv, 0, 0, 0⟩
  memory := fun _ => 0
  pending := false
  history := []

def vectorEntry (v : BitVec 8) : UittEntry := ⟨1, v, 0x1000⟩

def anywhere : Access := fun _ => true

def oneDelivered : World := worldAccept (worldSenduipi 0 userThread (vectorEntry 5)) anywhere

theorem one_vector_conserved :
    oneDelivered.history = [.posted 5, .entered 5] ∧ Conserved oneDelivered := by
  have start : Reachable ((receiver 0 initiallyClear).guarded Lossless) userThread :=
    reachable_start (by decide : _ ∧ _ ∧ _ ∧ _)
  have sent := reachable_next (a := .senduipi (vectorEntry 5)) start
    ⟨(by decide : _ ≤ _), (rfl : act 0 userThread _ = some (worldSenduipi 0 userThread (vectorEntry 5)))⟩
  have covered : Lossless (worldSenduipi 0 userThread (vectorEntry 5)) (.accept anywhere) := by
    intro _ _ v held
    simp [worldSenduipi, userThread] at held
  have taken := reachable_next sent ⟨covered, (rfl : act 0 _ _ = some oneDelivered)⟩
  exact ⟨by decide, (user_interrupts_conserved taken).1⟩

def vectorDropped (s : World) : Context :=
  ⟨s.cpu.cpl, s.cpu.rsp + 8, s.cpu.eip, s.cpu.eflags, s.cpu.uintrHandler, s.cpu.uintrStackadjust,
    s.memory⟩

def twoPosted : World :=
  worldSenduipi 0 (worldSenduipi 0 userThread (vectorEntry 1)) (vectorEntry 2)

def overwritingRun : List Action :=
  [.senduipi (vectorEntry 1), .senduipi (vectorEntry 2), .accept anywhere,
    .changeCpl (vectorDropped (worldAccept twoPosted anywhere)), .uiret anywhere,
    .senduipi (vectorEntry 3), .accept anywhere]

theorem overwritten_vector_lost :
    ∃ s, Reachable (receiver 0 initiallyClear) s ∧ s.cpu.uintrUif = 0 ∧
      s.history = [.posted 1, .posted 2, .entered 2, .posted 3, .entered 3] ∧
      outstanding s.history 1 = true ∧ heldVectors s = 0 ∧ ¬ Conserved s := by
  have result : ((overwritingRun.foldlM (act 0) userThread).map fun s =>
      (s.cpu.uintrUif, s.history, heldVectors s)) =
      some (0, [.posted 1, .posted 2, .entered 2, .posted 3, .entered 3], 0) := by decide
  obtain ⟨s, run, seen⟩ := Option.map_eq_some_iff.mp result
  simp only [Prod.mk.injEq] at seen
  obtain ⟨flag, history, held⟩ := seen
  have start : Reachable (receiver 0 initiallyClear) userThread :=
    reachable_start (by decide : _ ∧ _ ∧ _ ∧ _)
  have reach := reachable_follow (fun _ _ _ step => step) start run
  have missing : outstanding s.history 1 = true := by
    rw [history]
    decide
  refine ⟨s, reach, flag, history, missing, held, ?_⟩
  intro conserved
  have now := conserved 1
  rw [missing, held] at now
  cases now

end RtosUintrConservation
