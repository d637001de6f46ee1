import CompositeRtos.Lib.BitTable
import CompositeRtos.Uintr.Machine

/-!
The acknowledgement of vector 0xec. Every way out of the `UINTR_UINV` branch of
`do_interrupt64` passes `helper_clear_eoi`, which ends the highest vector in service. For
an interrupt that the local APIC has accepted this is 0xec itself, since acceptance asks
for a higher priority class than any in service. The other ways in (the spurious vector,
the 8259, a virtual interrupt, INT 0xEC) have put no vector in service.
-/
namespace RtosUintrApic
open RtosBitTable RtosUintrMachine

def apicSvEnable : BitVec 32 := 0x100
def apicSvDirectedIo : BitVec 32 := 0x1000
def apicLvtLevelTrigger : BitVec 32 := 0x8000
def apicLvtMasked : BitVec 32 := 0x10000
def apicbaseEnable : BitVec 32 := 0x800

/-- The part of `APICCommonState` that decides about interrupts. `vapic` is the task priority
    in the guest's VAPIC page, if there is such a page. -/
structure Apic where
  apicbase : BitVec 32
  tpr : BitVec 8
  spuriousVec : BitVec 32
  isr : Table 32
  tmr : Table 32
  irr : Table 32
  lvtLint0 : BitVec 32
  vapic : Option (BitVec 8)

/-- The 8259 as the CPU sees it: its output line and what `pic_read_irq` returns. -/
structure Pic where
  output : Bool
  irq : Nat

def getHighestPriorityInt (tab : Table 32) : Option Nat := highest tab 8

def apicSyncVapic (s : Apic) : Apic :=
  match s.vapic with
  | none => s
  | some tpr => { s with tpr }

def apicGetPpr (s : Apic) : Nat :=
  let tpr := s.tpr.toNat >>> 4
  let isrv := (getHighestPriorityInt s.isr).getD 0 >>> 4
  if isrv ≤ tpr then s.tpr.toNat else isrv <<< 4

/-- Negative for an interrupt of low priority, 0 for none. -/
def apicIrqPending (s : Apic) : Int :=
  if s.spuriousVec &&& apicSvEnable = 0 then 0
  else
    match getHighestPriorityInt s.irr with
    | none => 0
    | some irrv =>
      let ppr := apicGetPpr s
      if ppr ≠ 0 ∧ irrv &&& 0xf0 ≤ ppr &&& 0xf0 then -1 else irrv

def apicSetIrq (s : Apic) (vectorNum : Nat) (level : Bool) : Apic :=
  apicSyncVapic { s with
    irr := setBit s.irr vectorNum
    tmr := if level then setBit s.tmr vectorNum else resetBit s.tmr vectorNum }

/-- `apic_local_deliver` for `APIC_LVT_LINT0`. In the modes other than `APIC_DM_FIXED` it signals the
    CPU only. -/
def apicLocalDeliver (s : Apic) : Apic :=
  if s.lvtLint0 &&& apicLvtMasked ≠ 0 then s
  else if (s.lvtLint0 >>> 8) &&& 7 = 0 then
    apicSetIrq s (s.lvtLint0 &&& 0xff).toNat (s.lvtLint0 &&& apicLvtLevelTrigger != 0)
  else s

def apicAcceptPicIntr (s : Apic) : Bool :=
  s.apicbase &&& apicbaseEnable == 0 || s.lvtLint0 &&& apicLvtMasked == 0

def apicCheckPic (pic : Pic) (s : Apic) : Bool × Apic :=
  if !apicAcceptPicIntr s || !pic.output then (false, s) else (true, apicLocalDeliver s)

def apicGetInterrupt (pic : Pic) (s : Apic) : Int × Apic :=
  if s.spuriousVec &&& apicSvEnable = 0 then (-1, s)
  else
    let s := apicSyncVapic s
    let intno := apicIrqPending s
    if intno = 0 then (-1, s)
    else
      match apicCheckPic pic s with
      | (true, s) => (-1, s)
      | (false, s) =>
        if intno < 0 then ((s.spuriousVec &&& 0xff).toNat, s)
        else (intno, { s with irr := resetBit s.irr intno.toNat, isr := setBit s.isr intno.toNat })

def cpuGetPicInterrupt (pic : Pic) (s : Apic) : Int × Apic :=
  match apicGetInterrupt pic s with
  | (intno, s) => if 0 ≤ intno then (intno, s) else if apicAcceptPicIntr s then (pic.irq, s) else (-1, s)

/-- The new state, and the vector of an EOI broadcast to the I/O APICs. -/
def apicClearEoi (s : Apic) : Apic × Option Nat :=
  match getHighestPriorityInt s.isr with
  | none => (s, none)
  | some isrv =>
    let s := { s with isr := resetBit s.isr isrv }
    (apicSyncVapic s, if s.spuriousVec &&& apicSvDirectedIo = 0 ∧ getBit s.tmr isrv then some isrv else none)

/-- `accepted` is `none` after a VMEXIT. -/
structure Processed where
  accepted : Option Accepted
  apic : Apic
  broadcast : Option Nat

/-- The UPID is looked up only in the state in which a handler could be entered. Under nested
    paging the lookup can end in a VMEXIT (`nestedFault`). -/
def leavesBefore (nestedFault : Bool) (cpu : Cpu) : Bool := interruptible cpu && nestedFault

/-- The `UINTR_UINV` branch with the local APIC. The acknowledgement is before
    `helper_rrnzero`, so that a fault there does not leave it out. -/
def acceptUinv (nestedFault : Bool) (writable : Access) (cpu : Cpu) (upid : Upid) (m : Memory) (s : Apic) :
    Processed :=
  if leavesBefore nestedFault cpu then ⟨none, s, none⟩
  else
    let (apic, broadcast) := apicClearEoi s
    ⟨some (doInterrupt64 writable cpu upid m), apic, broadcast⟩

inductive Arrival where
  | hardware (pic : Pic)
  | virq
  | software

/-- The local APIC when `do_interrupt64` is called, if the arrival is one of vector 0xec. -/
def arrive (s : Apic) : Arrival → Option Apic
  | .hardware pic =>
    match cpuGetPicInterrupt pic s with
    | (intno, s) => if intno = uintrUinv.toNat then some s else none
  | .virq => some s
  | .software => some s

def process (nestedFault : Bool) (writable : Access) (cpu : Cpu) (upid : Upid) (m : Memory) (s : Apic)
    (a : Arrival) : Option Processed :=
  (arrive s a).map (acceptUinv nestedFault writable cpu upid m)

/-- The in-service set is as before, and no other vector was broadcast. -/
structure Balanced (s : Apic) (r : Processed) : Prop where
  in_service : ∀ v, v < 256 → getBit r.apic.isr v = getBit s.isr v
  broadcast : ∀ v, r.broadcast = some v → v = uintrUinv.toNat

def OwnAcceptance (s : Apic) : Arrival → Prop
  | .hardware pic =>
    apicIrqPending (apicSyncVapic s) = uintrUinv.toNat ∧ (apicGetInterrupt pic s).1 = uintrUinv.toNat
  | _ => False

theorem sync_vapic_isr : (apicSyncVapic s).isr = s.isr := by
  unfold apicSyncVapic
  split <;> rfl

theorem check_pic_isr (pic : Pic) (s : Apic) : (apicCheckPic pic s).2.isr = s.isr := by
  unfold apicCheckPic
  split
  · rfl
  change (apicLocalDeliver s).isr = s.isr
  unfold apicLocalDeliver
  split
  · rfl
  split
  · exact sync_vapic_isr
  · rfl

theorem high_nibble (small : n < 256) : n &&& 0xf0 = n / 16 * 16 := by
  have table : ∀ k : Fin 256, k.val &&& 0xf0 = k.val / 16 * 16 := by decide +kernel
  exact table ⟨n, small⟩

/-- A pending interrupt is of a higher priority class than everything in service. Class 0 has
    no interrupts; the test does not hold back its vectors. -/
theorem pending_above_service {s : Apic} {irrv : Nat} (usable : 16 ≤ irrv)
    (pending : apicIrqPending s = irrv) {v : Nat} (bound : v < 256) (serving : getBit s.isr v = true) :
    v < irrv := by
  unfold apicIrqPending at pending
  split at pending
  · omega
  split at pending
  · omega
  rename_i top requested
  dsimp only at pending
  split at pending
  · omega
  rename_i higher
  have same : top = irrv := by omega
  subst same
  have top_bound := (highest_some (by decide) requested).1
  have tpr_bound := s.tpr.isLt
  -- `v` is not above the vector that decides the class
  obtain ⟨isrv, found⟩ : ∃ isrv, getHighestPriorityInt s.isr = some isrv := by
    cases found : getHighestPriorityInt s.isr with
    | none =>
      rw [highest_none (by decide) found bound] at serving
      cases serving
    | some isrv => exact ⟨isrv, rfl⟩
  obtain ⟨isrv_bound, _, greatest⟩ := highest_some (by decide) found
  have below : v ≤ isrv := by
    by_contra above
    rw [greatest v (by omega) bound] at serving
    cases serving
  have ppr : apicGetPpr s = if isrv / 16 ≤ s.tpr.toNat / 16 then s.tpr.toNat else isrv / 16 * 16 := by
    simp only [apicGetPpr, found, Option.getD_some, Nat.shiftRight_eq_div_pow, Nat.shiftLeft_eq]
  by_cases task : isrv / 16 ≤ s.tpr.toNat / 16
  · rw [if_pos task] at ppr
    rw [ppr, high_nibble (by omega), high_nibble (by omega)] at higher
    omega
  rw [if_neg task] at ppr
  rw [ppr, high_nibble (by omega), high_nibble (by omega)] at higher
  omega

theorem get_interrupt_isr (pic : Pic) (s : Apic) :
    (0 ≤ (apicGetInterrupt pic s).1 ∧ apicIrqPending (apicSyncVapic s) = (apicGetInterrupt pic s).1 ∧
      (apicGetInterrupt pic s).2.isr = setBit s.isr (apicGetInterrupt pic s).1.toNat) ∨
    ((apicIrqPending (apicSyncVapic s) < 0 ∨ (apicGetInterrupt pic s).1 = -1) ∧
      (apicGetInterrupt pic s).2.isr = s.isr) := by
  unfold apicGetInterrupt
  split
  · exact Or.inr ⟨Or.inr rfl, rfl⟩
  dsimp only
  split
  · exact Or.inr ⟨Or.inr rfl, sync_vapic_isr⟩
  have checked := check_pic_isr pic (apicSyncVapic s)
  rw [sync_vapic_isr] at checked
  split
  · rename_i t found
    rw [found] at checked
    exact Or.inr ⟨Or.inr rfl, checked⟩
  rename_i t found
  rw [found] at checked
  split
  · rename_i low
    exact Or.inr ⟨Or.inl low, checked⟩
  refine Or.inl ⟨by omega, rfl, ?_⟩
  change setBit t.isr _ = _
  rw [show t.isr = s.isr from checked]

theorem hardware_isr (arrived : arrive s (.hardware pic) = some t) :
    (OwnAcceptance s (.hardware pic) ∧ t.isr = setBit s.isr uintrUinv.toNat) ∨
      (¬ OwnAcceptance s (.hardware pic) ∧ t.isr = s.isr) := by
  unfold arrive cpuGetPicInterrupt at arrived
  dsimp only at arrived
  by_cases accepted : 0 ≤ (apicGetInterrupt pic s).1
  · rw [if_pos accepted] at arrived
    split at arrived
    · rename_i vector
      cases arrived
      rcases get_interrupt_isr pic s with ⟨_, pending, isr⟩ | ⟨low, isr⟩
      · rw [vector] at pending isr
        exact Or.inl ⟨⟨pending, vector⟩, isr⟩
      refine Or.inr ⟨?_, isr⟩
      rintro ⟨pending, _⟩
      omega
    · cases arrived
  · rcases get_interrupt_isr pic s with ⟨positive, _⟩ | ⟨_, isr⟩
    · exact absurd positive accepted
    refine Or.inr ⟨fun own => accepted (by rw [own.2]; omega), ?_⟩
    rw [if_neg accepted] at arrived
    by_cases listens : apicAcceptPicIntr (apicGetInterrupt pic s).2 = true
    · rw [if_pos listens] at arrived
      split at arrived
      · cases arrived
        exact isr
      · cases arrived
    rw [if_neg listens] at arrived
    split at arrived
    · cases arrived
      exact isr
    · cases arrived

theorem arrival_isr (arrived : arrive s a = some t) :
    (OwnAcceptance s a ∧ t.isr = setBit s.isr uintrUinv.toNat) ∨ (¬ OwnAcceptance s a ∧ t.isr = s.isr) := by
  cases a with
  | hardware pic => exact hardware_isr arrived
  | virq =>
    cases arrived
    exact Or.inr ⟨id, rfl⟩
  | software =>
    cases arrived
    exact Or.inr ⟨id, rfl⟩

theorem clear_eoi_spec :
    (getHighestPriorityInt s.isr = none ∧ (apicClearEoi s).1.isr = s.isr ∧ (apicClearEoi s).2 = none) ∨
      ∃ isrv, getHighestPriorityInt s.isr = some isrv ∧ (apicClearEoi s).1.isr = resetBit s.isr isrv ∧
        ∀ v, (apicClearEoi s).2 = some v → v = isrv := by
  unfold apicClearEoi
  split
  · rename_i none_serving
    exact Or.inl ⟨none_serving, rfl, rfl⟩
  rename_i isrv serving
  refine Or.inr ⟨isrv, serving, sync_vapic_isr, ?_⟩
  intro v sent
  dsimp only at sent
  split at sent
  · cases sent
    rfl
  · cases sent

theorem own_vector_highest {s t : Apic} {a : Arrival} (own : OwnAcceptance s a)
    (isr : t.isr = setBit s.isr uintrUinv.toNat) :
    getHighestPriorityInt t.isr = some uintrUinv.toNat ∧ getBit s.isr uintrUinv.toNat = false := by
  have below : ∀ v, v < 256 → getBit s.isr v = true → v < uintrUinv.toNat := by
    intro v bound serving
    cases a with
    | hardware pic =>
      rw [← sync_vapic_isr] at serving
      exact pending_above_service (by decide) own.1 bound serving
    | virq => cases own
    | software => cases own
  have fresh : getBit s.isr uintrUinv.toNat = false := by
    by_contra serving
    exact absurd (below _ (by decide) (Bool.of_not_eq_false serving)) (by omega)
  refine ⟨?_, fresh⟩
  rw [isr]
  apply highest_eq (by decide) (by decide)
  · rw [get_set_bit (by decide)]
    simp
  intro u above bound
  rw [get_set_bit (by decide), decide_eq_false (by omega : ¬ u = uintrUinv.toNat), Bool.or_false]
  by_contra serving
  exact absurd (below u bound (Bool.of_not_eq_false serving)) (by omega)

theorem own_acceptance_balanced (own : OwnAcceptance s a) (isr : t.isr = setBit s.isr uintrUinv.toNat)
    (accepted : Option Accepted) : Balanced s ⟨accepted, (apicClearEoi t).1, (apicClearEoi t).2⟩ := by
  obtain ⟨top, fresh⟩ := own_vector_highest own isr
  rcases clear_eoi_spec with ⟨none_serving, _⟩ | ⟨isrv, serving, cleared, broadcast⟩
  · rw [top] at none_serving
    cases none_serving
  rw [top] at serving
  cases serving
  refine ⟨?_, broadcast⟩
  intro v bound
  rw [cleared, isr, get_reset_bit (by decide), get_set_bit (by decide)]
  by_cases same : v = uintrUinv.toNat
  · rw [same, fresh]
    simp
  · simp [same]

theorem foreign_arrival_balanced_iff (isr : t.isr = s.isr) (accepted : Option Accepted) :
    Balanced s ⟨accepted, (apicClearEoi t).1, (apicClearEoi t).2⟩ ↔
      ∀ v, v < 256 → getBit s.isr v = false := by
  rcases clear_eoi_spec with ⟨none_serving, cleared, broadcast⟩ | ⟨isrv, serving, cleared, broadcast⟩
  · rw [isr] at none_serving
    refine ⟨fun _ v bound => highest_none (by decide) none_serving bound, fun _ => ?_⟩
    refine ⟨fun v _ => by rw [cleared, isr], fun v vector => ?_⟩
    rw [broadcast] at vector
    cases vector
  rw [isr] at serving
  obtain ⟨bound, member, _⟩ := highest_some (by decide) serving
  constructor
  · intro balanced
    have kept := balanced.in_service isrv bound
    rw [cleared, isr, get_reset_bit (by decide), member] at kept
    simp at kept
  intro empty
  rw [empty isrv bound] at member
  cases member

/-- The acknowledgement is balanced just when 0xec was accepted by the local APIC, or when
    there was nothing in service that it could end in its place. When it is left out, a
    vector that was accepted stays in service. -/
theorem acknowledgement_balanced_iff {nestedFault : Bool} {writable : Access} {cpu : Cpu} {upid : Upid}
    {m : Memory} {s : Apic} {a : Arrival} {r : Processed}
    (processed : process nestedFault writable cpu upid m s a = some r) :
    Balanced s r ↔
      (leavesBefore nestedFault cpu = false ∧ (OwnAcceptance s a ∨ ∀ v, v < 256 → getBit s.isr v = false)) ∨
      (leavesBefore nestedFault cpu = true ∧ ¬ OwnAcceptance s a) := by
  obtain ⟨t, arrived, rfl⟩ := Option.map_eq_some_iff.mp processed
  cases leaves : leavesBefore nestedFault cpu with
  | false =>
    have result : acceptUinv nestedFault writable cpu upid m t =
        ⟨some (doInterrupt64 writable cpu upid m), (apicClearEoi t).1, (apicClearEoi t).2⟩ := by
      rw [acceptUinv, if_neg (by simp [leaves])]
    rw [result]
    simp only [true_and, Bool.false_eq_true, false_and, or_false]
    rcases arrival_isr arrived with ⟨own, isr⟩ | ⟨foreign, isr⟩
    · exact ⟨fun _ => Or.inl own, fun _ => own_acceptance_balanced own isr _⟩
    · rw [foreign_arrival_balanced_iff isr]
      exact ⟨Or.inr, fun either => either.resolve_left foreign⟩
  | true =>
    have result : acceptUinv nestedFault writable cpu upid m t = ⟨none, t, none⟩ := by
      rw [acceptUinv, if_pos leaves]
    rw [result]
    simp only [true_and, Bool.true_eq_false, false_and, false_or]
    rcases arrival_isr arrived with ⟨own, isr⟩ | ⟨foreign, isr⟩
    · refine ⟨fun balanced => ?_, fun foreign => absurd own foreign⟩
      have kept := balanced.in_service uintrUinv.toNat (by decide)
      rw [isr, get_set_bit (by decide), (own_vector_highest own isr).2] at kept
      simp at kept
    · exact ⟨fun _ => foreign, fun _ => ⟨fun v _ => by rw [isr], fun v vector => by cases vector⟩⟩

def nested : Apic where
  apicbase := 0x800
  tpr := 0
  spuriousVec := 0x1ff
  isr := setBit (fun _ => 0) 0x31
  tmr := setBit (fun _ => 0) 0x31
  irr := setBit (fun _ => 0) 0xec
  lvtLint0 := 0x10000
  vapic := none

def quietPic : Pic := ⟨false, 0⟩

def maskedCpu : Cpu := ⟨0x8000, 0x400000, 0x202, 3, 0, 0x500000, 128, 0⟩

def emptyUpid : Upid := ⟨0, 0, uintrUinv, 0, 0, 0⟩

theorem nested_acceptance_balanced : ∃ r,
    process false (fun _ => true) maskedCpu emptyUpid (fun _ => 0) nested (.hardware quietPic) = some r ∧
    getBit nested.isr 0x31 = true ∧ Balanced nested r := by
  have some_result : (process false (fun _ => true) maskedCpu emptyUpid (fun _ => 0) nested
      (.hardware quietPic)).isSome = true := by decide
  obtain ⟨r, processed⟩ := Option.isSome_iff_exists.mp some_result
  have own : OwnAcceptance nested (.hardware quietPic) := (by decide : apicIrqPending _ = _ ∧ _ = _)
  exact ⟨r, processed, by decide, (acknowledgement_balanced_iff processed).mpr
    (Or.inl ⟨by decide, Or.inl own⟩)⟩

/-- INT 0xEC ends the interrupt that is in service, and the I/O APICs are told. -/
theorem software_interrupt_ends_other : ∃ r,
    process false (fun _ => true) maskedCpu emptyUpid (fun _ => 0) nested .software = some r ∧
    getBit nested.isr 0x31 = true ∧ getBit r.apic.isr 0x31 = false ∧ r.broadcast = some 0x31 :=
  ⟨_, rfl, by decide, by decide, by decide⟩

end RtosUintrApic
