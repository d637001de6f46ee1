import CompositeRtos.Uintr.Conservation

/-!
Whether a held vector always has something left to trigger its delivery. The two early
returns of `do_interrupt64` consume the notification and leave ON set, and UIRET or STUI
may open the window while UIRR still holds vectors. Away from these situations the
outstanding notification bit and the pending vector 0xec go together.
-/
namespace RtosUintrStranded
open RtosTransition RtosUintrMachine RtosUintrConservation

def Stranded (s : World) : Prop :=
  interruptible s.cpu = true ∧ heldVectors s ≠ 0 ∧ s.pending = false

def notifiesReceiver (apicId : BitVec 8) (upid : Upid) : Bool :=
  upid.nv == uintrUinv && apicReceives apicId ⟨(upid.ndst >>> 8).setWidth 8, upid.nv⟩

def atReset (apicId : BitVec 8) (s : World) : Prop :=
  s.upid.status &&& 3 = 0 ∧ s.upid.puir = 0 ∧ s.cpu.uintrRr = 0 ∧ s.pending = false ∧
    notifiesReceiver apicId s.upid = true

/-- The condition on a step: SENDUIPI finds the reserved status bit 4 clear, the receiver
    takes its notification in user mode with UIF set and a usable stack, and it opens the
    window only with UIRR empty or the notification still waiting. -/
def Prompt (s : World) : Action → Prop
  | .senduipi _ => s.upid.status &&& 0x10 = 0
  | .accept writable => interruptible s.cpu = true ∧
      (s.upid.puir ≠ 0 → (doInterrupt64 writable s.cpu s.upid s.memory).entered = true)
  | .stui => s.cpu.cpl = 3 → s.cpu.uintrRr = 0 ∨ s.pending = true
  | .clui => True
  | .uiret _ => s.cpu.cpl = 3 → s.cpu.uintrRr = 0 ∨ s.pending = true
  | .changeCpl after => after.cpl = 3 → uifEnable s.cpu = true → s.cpu.uintrRr = 0 ∨ s.pending = true

structure Notified (apicId : BitVec 8) (s : World) : Prop where
  target : notifiesReceiver apicId s.upid = true
  on_pending : s.upid.status &&& upidOn = upidOn ↔ s.pending = true
  posted_pending : s.upid.puir ≠ 0 ↔ s.pending = true
  recognised : interruptible s.cpu = true → s.cpu.uintrRr = 0 ∨ s.pending = true

theorem notified_not_stranded (h : Notified apicId s) : ¬ Stranded s := by
  intro stranded
  obtain ⟨open_, held, waiting⟩ := stranded
  have empty : s.upid.puir = 0 := by
    by_contra posted
    rw [h.posted_pending.mp posted] at waiting
    cases waiting
  rcases h.recognised open_ with none_left | pending
  · exact held (by simp [heldVectors, empty, none_left])
  · rw [pending] at waiting
    cases waiting

theorem shifted_one_ne_zero : intOneShifted n ≠ 0 := by
  have table : ∀ k : Fin 32, intOneShifted k.val ≠ 0 := by decide
  have same : intOneShifted n = intOneShifted (n % 32) := by
    simp only [intOneShifted, Nat.mod_mod]
  rw [same]
  exact table ⟨n % 32, by omega⟩

theorem or_mask_ne_zero {a : BitVec 64} (h : b ≠ 0) : a ||| b ≠ 0 := by
  intro zero
  exact h (BitVec.or_eq_zero_iff.mp zero).2

theorem on_clear_or_set (spare : status &&& 0x10 = 0) :
    (status &&& 0x11 = 0 ∧ (status ||| upidOn) &&& upidOn = upidOn) ∨
      (status &&& 0x11 ≠ 0 ∧ status &&& upidOn = upidOn) := by
  revert status
  decide

theorem notified_senduipi (h : Notified apicId s) (spare : s.upid.status &&& 0x10 = 0) :
    Notified apicId (worldSenduipi apicId s uitte) := by
  have set_bit : s.upid.puir ||| intOneShifted uitte.userVec.toNat ≠ 0 :=
    or_mask_ne_zero (shifted_one_ne_zero)
  rcases on_clear_or_set spare with ⟨quiet, raised⟩ | ⟨busy, on⟩
  · have arrived : (worldSenduipi apicId s uitte).pending = true := by
      have target := h.target
      simp only [notifiesReceiver] at target
      simp only [worldSenduipi, helperSenduipi, quiet, ↓reduceIte, Option.any_some, target, Bool.or_true]
    have upid : (worldSenduipi apicId s uitte).upid =
        { s.upid with
          puir := s.upid.puir ||| intOneShifted uitte.userVec.toNat
          status := s.upid.status ||| upidOn } := by
      simp only [worldSenduipi, helperSenduipi, quiet, ↓reduceIte]
    refine ⟨?_, ?_, ?_, ?_⟩
    · rw [upid]
      exact h.target
    · rw [upid]
      exact ⟨fun _ => arrived, fun _ => raised⟩
    · rw [upid]
      exact ⟨fun _ => arrived, fun _ => set_bit⟩
    · exact fun _ => Or.inr arrived
  · have waiting : s.pending = true := h.on_pending.mp on
    have arrived : (worldSenduipi apicId s uitte).pending = true := by
      simp [worldSenduipi, waiting]
    have upid : (worldSenduipi apicId s uitte).upid =
        { s.upid with puir := s.upid.puir ||| intOneShifted uitte.userVec.toNat } := by
      simp only [worldSenduipi, helperSenduipi, busy, ↓reduceIte]
    refine ⟨?_, ?_, ?_, ?_⟩
    · rw [upid]
      exact h.target
    · rw [upid]
      exact ⟨fun _ => arrived, fun _ => on⟩
    · rw [upid]
      exact ⟨fun _ => arrived, fun _ => set_bit⟩
    · exact fun _ => Or.inr arrived

theorem acknowledged_clears_on : (acknowledged upid).status &&& upidOn ≠ upidOn := by
  have table : ∀ status : BitVec 8, status &&& ~~~upidOn &&& upidOn ≠ upidOn := by decide
  exact table upid.status

theorem notified_accept (h : Notified apicId s) (waiting : s.pending = true)
    (prompt : Prompt s (.accept writable)) : Notified apicId (worldAccept s writable) := by
  have posted := h.posted_pending.mpr waiting
  obtain ⟨open_, pushes⟩ := prompt
  have entered := pushes posted
  have taken := accept_interruptible open_ writable s.upid s.memory posted
  rw [taken] at entered
  simp only at entered
  rcases rrnzero_outcome writable { s.cpu with uintrRr := s.upid.puir } s.memory with
    ⟨left, _⟩ | ⟨_, _, _, flag, _⟩
  · rw [left] at entered
    cases entered
  have upid : (worldAccept s writable).upid = acknowledged s.upid := by
    simp only [worldAccept, taken]
  refine ⟨?_, ?_, ?_, ?_⟩
  · rw [upid]
    exact h.target
  · rw [upid]
    exact ⟨fun on => absurd on (acknowledged_clears_on), fun on => by cases on⟩
  · rw [upid]
    exact ⟨fun some_bit => absurd rfl some_bit, fun on => by cases on⟩
  · intro window
    simp only [worldAccept, taken, interruptible, uifEnable, flag] at window
    cases window

theorem notified_of_same (h : Notified apicId s) (upid : t.upid = s.upid) (pending : t.pending = s.pending)
    (window : interruptible t.cpu = true → t.cpu.uintrRr = 0 ∨ t.pending = true) : Notified apicId t := by
  refine ⟨?_, ?_, ?_, window⟩
  · rw [upid]
    exact h.target
  · rw [upid, pending]
    exact h.on_pending
  · rw [upid, pending]
    exact h.posted_pending

theorem act_notified (h : Notified apicId s) (prompt : Prompt s a) (step : act apicId s a = some t) :
    Notified apicId t := by
  have level : ∀ {cpu : Cpu}, interruptible cpu = true → cpu.cpl = 3 := by
    intro cpu window
    simp only [interruptible, Bool.and_eq_true, beq_iff_eq] at window
    exact window.2
  cases a with
  | senduipi uitte =>
    simp only [act] at step
    split at step
    · cases step
      exact notified_senduipi h prompt
    · cases step
  | accept writable =>
    simp only [act] at step
    split at step
    · rename_i waiting
      cases step
      exact notified_accept h waiting prompt
    · cases step
  | stui =>
    cases step
    exact notified_of_same h rfl rfl fun window =>
      prompt (show (helperStui s.cpu).cpl = 3 from level window)
  | clui =>
    cases step
    refine notified_of_same h rfl rfl fun window => ?_
    simp [interruptible, uifEnable, helperClui, switchUif] at window
  | uiret readable =>
    simp only [act] at step
    split at step
    · rename_i cpu ret
      cases step
      obtain ⟨rr, cpl⟩ := uiret_keeps_recognised ret
      refine notified_of_same h rfl rfl fun window => ?_
      simp only [rr]
      exact prompt (by rw [← cpl]; exact level window)
    · cases step
      exact h
  | changeCpl after =>
    cases step
    refine notified_of_same h rfl rfl fun window => ?_
    have flag : uifEnable s.cpu = true := by
      simp only [interruptible, Bool.and_eq_true] at window
      exact window.1
    exact prompt (level window) flag

theorem reset_notified (reset : atReset apicId s) : Notified apicId s := by
  obtain ⟨status, puir, rr, pending, target⟩ := reset
  have off : s.upid.status &&& upidOn ≠ upidOn := by
    have table : ∀ status : BitVec 8, status &&& 3 = 0 → status &&& upidOn ≠ upidOn := by decide
    exact table s.upid.status status
  refine ⟨target, ?_, ?_, fun _ => Or.inl rr⟩
  · rw [pending]
    exact ⟨fun on => absurd on off, fun on => by cases on⟩
  · rw [pending]
    exact ⟨fun posted => absurd puir posted, fun on => by cases on⟩

/-- In every run whose steps meet the condition no vector is stranded, and the
    notification bit is set only while its notification is on the way. -/
theorem no_stranded_vector {apicId : BitVec 8} {s : World}
    (reach : Reachable ((receiver apicId (atReset apicId)).guarded Prompt) s) :
    ¬ Stranded s ∧ (s.upid.status &&& upidOn = upidOn → s.pending = true) := by
  have notified : Notified apicId s := by
    apply reachable_invariant (Notified apicId) _ _ reach
    · intro s start
      exact reset_notified start
    · intro s a t kept step
      exact act_notified kept step.1 step.2
  exact ⟨notified_not_stranded notified, notified.on_pending.mp⟩

def handled : World := worldAccept (worldSenduipi 0 userThread (vectorEntry 5)) anywhere

theorem handled_not_stranded : handled.upid.puir = 0 ∧ ¬ Stranded handled := by
  have start : Reachable ((receiver 0 (atReset 0)).guarded Prompt) userThread :=
    reachable_start (by decide : _ ∧ _ ∧ _ ∧ _ ∧ _)
  have spare : Prompt userThread (.senduipi (vectorEntry 5)) := (by decide : userThread.upid.status &&& 0x10 = 0)
  have sent := reachable_next start
    ⟨spare, (rfl : act 0 _ _ = some (worldSenduipi 0 userThread (vectorEntry 5)))⟩
  have prompt : Prompt (worldSenduipi 0 userThread (vectorEntry 5)) (.accept anywhere) :=
    ⟨by decide, fun _ => by decide⟩
  have taken := reachable_next sent ⟨prompt, (rfl : act 0 _ _ = some handled)⟩
  exact ⟨by decide, (no_stranded_vector taken).1⟩

def ignoringRun : List Action :=
  [.clui, .senduipi (vectorEntry 5), .accept anywhere, .stui]

theorem ignored_notification_strands :
    ∃ s, Reachable (receiver 0 (atReset 0)) s ∧ Stranded s ∧
      s.upid.status &&& upidOn = upidOn ∧ s.upid.puir = 0x20 := by
  have result : ((ignoringRun.foldlM (act 0) userThread).map fun s =>
      (interruptible s.cpu, heldVectors s, s.pending, s.upid.status, s.upid.puir)) =
      some (true, 0x20, false, 1, 0x20) := by decide
  obtain ⟨s, run, seen⟩ := Option.map_eq_some_iff.mp result
  simp only [Prod.mk.injEq] at seen
  obtain ⟨window, held, waiting, status, puir⟩ := seen
  have start : Reachable (receiver 0 (atReset 0)) userThread :=
    reachable_start (by decide : _ ∧ _ ∧ _ ∧ _ ∧ _)
  have reach := reachable_follow (fun _ _ _ step => step) start run
  refine ⟨s, reach, ⟨window, ?_, waiting⟩, ?_, puir⟩
  · rw [held]
    decide
  · rw [status]
    decide

def Deaf (s : World) : Prop :=
  s.upid.status &&& 0x11 ≠ 0 ∧ s.upid.puir ≠ 0 ∧ s.pending = false

theorem deaf_act {s : World} (h : Deaf s) (step : act apicId s a = some t) : Deaf t := by
  obtain ⟨busy, posted, waiting⟩ := h
  cases a with
  | senduipi uitte =>
    simp only [act] at step
    split at step
    · cases step
      refine ⟨?_, ?_, ?_⟩
      · simp only [worldSenduipi, helperSenduipi, busy, ↓reduceIte]
        exact busy
      · rw [(senduipi_posts apicId s uitte).1]
        exact or_mask_ne_zero (shifted_one_ne_zero)
      · simp only [worldSenduipi, helperSenduipi, busy, waiting, ↓reduceIte, Option.any_none, Bool.or_false]
    · cases step
  | accept writable => simp [act, waiting] at step
  | stui =>
    cases step
    exact ⟨busy, posted, waiting⟩
  | clui =>
    cases step
    exact ⟨busy, posted, waiting⟩
  | uiret readable =>
    simp only [act] at step
    split at step <;> cases step <;> exact ⟨busy, posted, waiting⟩
  | changeCpl after =>
    cases step
    exact ⟨busy, posted, waiting⟩

/-- The receiver as before the acceptance, and no vector lost. -/
structure Undone (cpu : Cpu) (upid : Upid) (after : Accepted) : Prop where
  rsp : after.cpu.rsp = cpu.rsp
  eip : after.cpu.eip = cpu.eip
  eflags : after.cpu.eflags = cpu.eflags
  uif : after.cpu.uintrUif = cpu.uintrUif
  held : ∀ v, (upid.puir ||| cpu.uintrRr).getLsbD v = true →
    (after.upid.puir ||| after.cpu.uintrRr).getLsbD v = true

theorem push_fault_state (open_ : interruptible cpu = true) (posted : upid.puir ≠ 0)
    (faulted : (doInterrupt64 writable cpu upid m).entered = false) :
    (doInterrupt64 writable cpu upid m).cpu = { cpu with rsp := adjustedStack cpu, uintrRr := upid.puir } ∧
      (doInterrupt64 writable cpu upid m).upid = acknowledged upid := by
  rw [accept_interruptible open_ writable upid m posted] at faulted ⊢
  rcases rrnzero_outcome writable { cpu with uintrRr := upid.puir } m with ⟨_, left⟩ | ⟨entered, _⟩
  · exact ⟨left, rfl⟩
  · rw [entered] at faulted
    cases faulted

/-- A fault in a push undoes the acceptance just when the stack adjustment would not have
    moved RSP and PIR has every vector of UIRR. -/
theorem push_fault_undone_iff {writable : Access} {cpu : Cpu} {upid : Upid} {m : Memory}
    (open_ : interruptible cpu = true) (posted : upid.puir ≠ 0)
    (faulted : (doInterrupt64 writable cpu upid m).entered = false) :
    Undone cpu upid (doInterrupt64 writable cpu upid m) ↔
      adjustedStack cpu = cpu.rsp ∧ ∀ v, cpu.uintrRr.getLsbD v = true → upid.puir.getLsbD v = true := by
  obtain ⟨left, cleared⟩ := push_fault_state open_ posted faulted
  have after : ∀ v, ((doInterrupt64 writable cpu upid m).upid.puir |||
      (doInterrupt64 writable cpu upid m).cpu.uintrRr).getLsbD v = upid.puir.getLsbD v := by
    intro v
    rw [left, cleared, acknowledged, BitVec.ofNat_eq_ofNat, BitVec.zero_or]
  constructor
  · intro undone
    refine ⟨?_, ?_⟩
    · have rsp := undone.rsp
      rwa [left] at rsp
    intro v recognised
    rw [← after v]
    apply undone.held
    rw [BitVec.getLsbD_or, recognised, Bool.or_true]
  · rintro ⟨unmoved, covered⟩
    refine ⟨?_, by rw [left], by rw [left], by rw [left], ?_⟩
    · rw [left]
      exact unmoved
    intro v held
    rw [after v]
    rw [BitVec.getLsbD_or, Bool.or_eq_true] at held
    rcases held with posted_bit | recognised
    · exact posted_bit
    · exact covered v recognised

def posted5 : Upid := (helperSenduipi (vectorEntry 5) userThread.upid).1

def nowhere : Access := fun _ => false

theorem plain_stack_fault_undone :
    Undone { userThread.cpu with uintrStackadjust := 0 } posted5
      (doInterrupt64 nowhere { userThread.cpu with uintrStackadjust := 0 } posted5 userThread.memory) :=
  (push_fault_undone_iff (by decide) (by decide) (by decide)).mpr
    ⟨by decide, fun v recognised => by simp [userThread] at recognised⟩

/-- The usual adjustment by the 128 bytes of the red zone. -/
theorem push_fault_moves_stack :
    interruptible userThread.cpu = true ∧ posted5.puir ≠ 0 ∧
    (doInterrupt64 nowhere userThread.cpu posted5 userThread.memory).entered = false ∧
    (doInterrupt64 nowhere userThread.cpu posted5 userThread.memory).cpu.rsp ≠ userThread.cpu.rsp := by
  decide

end RtosUintrStranded
