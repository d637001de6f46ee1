import CompositeRtos.Lib.BitField
import CompositeRtos.Nimbos.UintrTasks
import CompositeRtos.Uintr.Senduipi

/-!
The user-interrupt target table of a task. The mask, the entries and the MSRs say the same
thing after every sequence of the task's system calls, with one exception: `register_sender`
takes any vector and stores its low eight bits.
-/
namespace RtosNimbosSenderTable
open RtosTransition RtosUintrMachine RtosUintrPermission RtosX86 RtosUintrTableAccess RtosUintrSenduipi
open RtosNimbosUintrTasks BitVec List

/-- A successful `register_sender`: its arguments and the index it returned. -/
structure Grant where
  uvec : BitVec 64
  upid : BitVec 64
  index : Nat
  deriving DecidableEq

structure Registrations where
  ctx : UintrContext
  cpu : X86
  granted : List Grant

inductive Syscall where
  | registerSender (upidAddr uvec : BitVec 64)
  | registerHandler (handler upidAddr : BitVec 64) (apicId : BitVec 32)

def Registrations.table (s : Registrations) : UintrUittCtx := uintrInitSender s.ctx

def isValid (e : UittEntry) : Bool := e.valid.getLsbD 0

def InUse (s : Registrations) (i : Nat) : Prop := ∃ e, s.table.uitt[i]? = some e ∧ isValid e = true

def sysUintrRegisterSender (uittPtr : BitVec 64) (s : Registrations) (upidAddr uvec : BitVec 64) : Call Int :=
  doUintrRegisterSender s.ctx s.cpu uvec upidAddr uittPtr

def record (granted : List Grant) (uvec upid : BitVec 64) : Int → List Grant
  | .ofNat index => granted ++ [⟨uvec, upid, index⟩]
  | .negSucc _ => granted

def serve (uittPtr : BitVec 64) (s : Registrations) : Syscall → Registrations
  | .registerSender upidAddr uvec =>
    let call := sysUintrRegisterSender uittPtr s upidAddr uvec
    ⟨call.ctx, call.cpu, record s.granted uvec upidAddr call.result⟩
  | .registerHandler handler upidAddr apicId =>
    let call := sysUintrRegisterHandler s.ctx s.cpu handler upidAddr apicId
    ⟨call.ctx, call.cpu, s.granted⟩

def registering (uittPtr : BitVec 64) : Machine Registrations Syscall where
  start s := s.ctx = ⟨none, false, false, none⟩ ∧ s.granted = []
  next s a t := t = serve uittPtr s a

/-- The condition: a call that is not refused anyway asks for one of the 64 vectors. -/
def Legal (s : Registrations) : Syscall → Prop
  | .registerSender upidAddr uvec => uvec.toNat < 64 ∨ upidAddr = 0 ∨ ∀ i, i < uintrMaxUittNr → InUse s i
  | .registerHandler _ _ _ => True

/-- SENDUIPI with index `i` passes the bounds check of the emulator and reads entry `i` of
    the table. -/
def Acceptable (core : Core) (uittPtr : BitVec 64) (i : Nat) : Prop :=
  ∀ env regIndex, env.uintrMisc = core.uintrMisc → env.uintrTt = core.uintrTt →
    uitteIndex env regIndex = BitVec.ofNat 32 i →
    ¬ env.uintrMisc.setWidth 32 < uitteIndex env regIndex ∧ Enabled env ∧
      uittBase env + uitteOffset (uitteIndex env regIndex) = uittPtr + BitVec.ofNat 64 (16 * i)

/-- Mask, entries and MSRs agree with the calls that were granted. -/
structure TableRight (uittPtr : BitVec 64) (s : Registrations) : Prop where
  mask : ∀ i, i < uintrMaxUittNr → (s.table.uittMask.getLsbD i = true ↔ InUse s i)
  asked : ∀ i e, s.table.uitt[i]? = some e → isValid e = true → ∃ g ∈ s.granted, g.index = i ∧
    g.uvec.toNat < 64 ∧ e.userVec.toNat = g.uvec.toNat ∧ e.targetUpidAddr = g.upid
  returned : ∀ g ∈ s.granted, InUse s g.index ∧ Acceptable s.cpu.core uittPtr g.index

structure CallRight (s : Registrations) (upidAddr uvec : BitVec 64) (call : Call Int) : Prop where
  refused : call.result < 0 ↔ upidAddr = 0 ∨ ¬ uvec.toNat < 64 ∨ ∀ i, i < uintrMaxUittNr → InUse s i
  unchanged : call.result < 0 → uintrInitSender call.ctx = s.table
  lowest : ∀ n : Nat, call.result = n → n < uintrMaxUittNr ∧ ¬ InUse s n ∧ ∀ i, i < n → InUse s i
  others : ∀ n i : Nat, call.result = n → i ≠ n → (uintrInitSender call.ctx).uitt[i]? = s.table.uitt[i]?

theorem find_first_zero_some (found : findFirstZero word = some n) :
    n < uintrMaxUittNr ∧ word.getLsbD n = false ∧ ∀ i, i < n → word.getLsbD i = true := by
  unfold findFirstZero at found
  split at found
  · cases found
  rename_i partly
  simp only at found
  split at found
  · rename_i small
    cases found
    refine ⟨small, ?_⟩
    have limit : uintrMaxUittNr = 16 := rfl
    unfold trailingOnes at small ⊢
    cases search : (List.range 64).find? fun i => !word.getLsbD i with
    | none =>
      rw [search] at small
      simp only [Option.getD_none] at small
      omega
    | some m =>
      obtain ⟨zero, _, ones⟩ := List.find?_range_eq_some.mp search
      simp only [Option.getD_some]
      exact ⟨by simpa using zero, fun i below => by simpa using ones i below⟩
  · cases found

theorem find_first_zero_none (missing : findFirstZero word = none) :
    ∀ i, i < uintrMaxUittNr → word.getLsbD i = true := by
  intro i bound
  have limit : uintrMaxUittNr = 16 := rfl
  unfold findFirstZero at missing
  split at missing
  · rename_i full
    rw [full, show (-1 : BitVec 64) = allOnes 64 from rfl, getLsbD_allOnes]
    exact decide_eq_true (by omega)
  simp only at missing
  split at missing
  · cases missing
  rename_i large
  unfold trailingOnes at large
  cases search : (List.range 64).find? fun i => !word.getLsbD i with
  | none =>
    have one := List.find?_eq_none.mp search i (mem_range.mpr (by omega))
    simpa using one
  | some m =>
    obtain ⟨_, _, ones⟩ := List.find?_range_eq_some.mp search
    rw [search, Option.getD_some] at large
    simpa using ones i (by omega)

theorem set_bit (word : BitVec 64) (bound : i < 64) :
    (word ||| (1 <<< n : Nat)).getLsbD i = (word.getLsbD i || decide (i = n)) := by
  have shifted : (BitVec.ofNat 64 (1 <<< n)).getLsbD i = decide (i = n) := by
    rw [getLsbD_ofNat, Nat.one_shiftLeft, Nat.testBit_two_pow]
    simp [bound, eq_comm]
  rw [getLsbD_or, ← shifted]
  rfl

def MsrsSet (core : Core) (uittPtr : BitVec 64) : Prop :=
  core.uintrTt = uittPtr ||| 1 ∧ uintrMaxUittNr - 1 ≤ (core.uintrMisc.setWidth 32).toNat

theorem write_msr_core (s : X86) :
    (writeMsr s index low high).core = (helperWrmsr (fun _ => true) s.core s.memory index (high ++ low)).core := by
  simp [writeMsr, X86.wrmsr, X86.movImm, X86.setGpr]

theorem write_tt (s : X86) : (writeMsr s msrUintrTt low high).core = { s.core with uintrTt := high ++ low } := by
  rw [write_msr_core]
  rfl

theorem write_misc (s : X86) :
    (writeMsr s msrUintrMisc low high).core = { s.core with uintrMisc := high ++ low } := by
  rw [write_msr_core]
  rfl

theorem write_handler (s : X86) : (writeMsr s msrUintrHandler low high).core =
    { s.core with cpu := { s.core.cpu with uintrHandler := high ++ low } } := by
  rw [write_msr_core]
  rfl

theorem write_pd (s : X86) : (writeMsr s msrUintrPd low high).core = { s.core with uintrPd := high ++ low } := by
  rw [write_msr_core]
  rfl

theorem write_stackadjust (s : X86) : (writeMsr s msrUintrStackadjust low high).core =
    { s.core with cpu := { s.core.cpu with uintrStackadjust := high ++ low } } := by
  rw [write_msr_core]
  rfl

theorem table_address_halves (v : BitVec 64) : (v >>> 32).setWidth 32 ++ (v.setWidth 32 ||| 1) = v ||| 1 := by
  have high : ((v ||| 1) >>> 32).setWidth 32 = (v >>> 32).setWidth 32 := by
    rw [ushiftRight_or_distrib, show (1 : BitVec 64) >>> 32 = 0#64 from rfl, or_zero]
  have low : (v ||| 1).setWidth 32 = v.setWidth 32 ||| 1 := setWidth_or
  rw [← high, ← low]
  exact word_halves (v ||| 1)

theorem sender_msrs_set (s : X86) : MsrsSet (uintrSetSenderMsrs ctx s uittPtr).2.core uittPtr := by
  simp only [uintrSetSenderMsrs, write_misc, write_tt, MsrsSet, setWidth_append_eq_right,
    table_address_halves, true_and, toNat_or]
  exact Nat.right_le_or

theorem acceptable_of_set (aligned : 2 ^ 4 ∣ uittPtr.toNat) (set : MsrsSet core uittPtr)
    (bound : i < uintrMaxUittNr) : Acceptable core uittPtr i := by
  intro env regIndex misc tt index
  have limit : uintrMaxUittNr = 16 := rfl
  have offset : uitteOffset (BitVec.ofNat 32 i) = BitVec.ofNat 64 (16 * i) := by
    have table : ∀ k : Fin 16, uitteOffset (BitVec.ofNat 32 k.val) = BitVec.ofNat 64 (16 * k.val) := by decide
    exact table ⟨i, bound⟩
  have plain : env.uintrTt.getLsbD 3 = false := by
    rw [tt, set.1, getLsbD_or, Bool.or_eq_false_iff, Bool.eq_false_iff]
    refine ⟨?_, by decide⟩
    intro bit
    have := RtosBitField.bit_of_aligned aligned uittPtr.isLt bit
    omega
  have whole : (uittPtr ||| 1) &&& ~~~0xf = uittPtr := by
    rw [and_or_distrib_right, RtosBitField.and_field 4 64 (by decide) aligned uittPtr.isLt,
      show (1 : BitVec 64) &&& ~~~0xf = 0#64 from rfl, or_zero]
  refine ⟨?_, ?_, ?_⟩
  · rw [index, misc, lt_def, toNat_ofNat]
    have := set.2
    omega
  · rw [Enabled, tt, set.1, getLsbD_or]
    simp
  · rw [index, offset, base_of_plain plain, tableAddress, tt, set.1, whole]

section Calls

variable {uittPtr : BitVec 64} {s : Registrations} {upidAddr uvec : BitVec 64}

inductive Served (uittPtr : BitVec 64) (s : Registrations) (upidAddr uvec : BitVec 64) : Call Int → Prop where
  | null (missing : upidAddr = 0) : Served uittPtr s upidAddr uvec ⟨s.ctx, s.cpu, -einval⟩
  | full (given : upidAddr ≠ 0) (ones : ∀ i, i < uintrMaxUittNr → s.table.uittMask.getLsbD i = true) :
      Served uittPtr s upidAddr uvec ⟨{ s.ctx with uitt := some s.table }, s.cpu, -enospc⟩
  | entered {n : Nat} {ctx : UintrContext} {cpu : X86} (given : upidAddr ≠ 0) (bound : n < uintrMaxUittNr)
      (zero : s.table.uittMask.getLsbD n = false) (ones : ∀ i, i < n → s.table.uittMask.getLsbD i = true)
      (table : uintrInitSender ctx = ⟨s.table.uitt.set n ⟨1, (uvec &&& 0xff).setWidth 8, upidAddr⟩,
        s.table.uittMask ||| (1 <<< n : Nat)⟩)
      (activated : ctx.uittActivated = true)
      (msrs : (s.ctx.uittActivated = true → MsrsSet s.cpu.core uittPtr) → MsrsSet cpu.core uittPtr) :
      Served uittPtr s upidAddr uvec ⟨ctx, cpu, n⟩

theorem register_sender_served (uittPtr : BitVec 64) (s : Registrations) (upidAddr uvec : BitVec 64) :
    Served uittPtr s upidAddr uvec (sysUintrRegisterSender uittPtr s upidAddr uvec) := by
  unfold sysUintrRegisterSender doUintrRegisterSender
  split
  · rename_i missing
    exact Served.null missing
  rename_i given
  dsimp only
  split
  · rename_i missing
    exact Served.full given (find_first_zero_none missing)
  rename_i n found
  obtain ⟨bound, zero, ones⟩ := find_first_zero_some found
  split
  · rename_i active
    exact Served.entered given bound zero ones rfl active fun set => set active
  · exact Served.entered given bound zero ones rfl rfl fun _ => sender_msrs_set _

structure Good (uittPtr : BitVec 64) (s : Registrations) : Prop where
  size : s.table.uitt.length = uintrMaxUittNr
  mask : ∀ i, i < uintrMaxUittNr → (s.table.uittMask.getLsbD i = true ↔ InUse s i)
  asked : ∀ i e, s.table.uitt[i]? = some e → isValid e = true →
    ∃ g ∈ s.granted, g.index = i ∧ e = ⟨1, (g.uvec &&& 0xff).setWidth 8, g.upid⟩
  legal : ∀ g ∈ s.granted, g.uvec.toNat < 64
  returned : ∀ g ∈ s.granted, InUse s g.index
  active : s.granted ≠ [] → s.ctx.uittActivated = true
  armed : s.ctx.uittActivated = true → MsrsSet s.cpu.core uittPtr

theorem in_use_small (good : Good uittPtr s) (used : InUse s i) : i < uintrMaxUittNr := by
  obtain ⟨e, found, _⟩ := used
  rw [← good.size]
  exact (List.getElem?_eq_some_iff.mp found).1

theorem new_table_unused {i : Nat}
    (found : (List.replicate uintrMaxUittNr (⟨0, 0, 0⟩ : UittEntry))[i]? = some e) : isValid e ≠ true := by
  rw [eq_of_mem_replicate (mem_of_getElem? found)]
  decide

theorem start_good (start : (registering uittPtr).start s) : Good uittPtr s := by
  obtain ⟨ctx, granted⟩ := start
  have table : s.table = ⟨List.replicate uintrMaxUittNr ⟨0, 0, 0⟩, 0⟩ := by
    rw [Registrations.table, ctx]
    rfl
  have unused : ∀ (i : Nat) e, s.table.uitt[i]? = some e → isValid e ≠ true := by
    intro i e found
    rw [table] at found
    exact new_table_unused found
  refine ⟨by rw [table, length_replicate], ?_, ?_, by simp [granted], by simp [granted],
    fun some_grant => absurd granted some_grant, by simp [ctx]⟩
  · intro i _
    constructor
    · intro bit
      rw [table] at bit
      simp at bit
    · rintro ⟨e, found, valid⟩
      exact absurd valid (unused i e found)
  · intro i e found valid
    exact absurd valid (unused i e found)

theorem entry_valid (userVec : BitVec 8) (upid : BitVec 64) : isValid ⟨1, userVec, upid⟩ = true := by
  have bit : (1 : BitVec 8).getLsbD 0 = true := by decide
  exact bit

theorem in_use_after (good : Good uittPtr s) (bound : n < uintrMaxUittNr) (valid : isValid e = true)
    (table : t.table.uitt = s.table.uitt.set n e) (i : Nat) : InUse t i ↔ i = n ∨ InUse s i := by
  have inside : n < s.table.uitt.length := by
    rw [good.size]
    exact bound
  unfold InUse
  rw [table]
  by_cases here : i = n
  · subst here
    simp [inside, valid]
  · rw [List.getElem?_set_ne (Ne.symm here)]
    simp [here]

theorem sender_good (good : Good uittPtr s) (legal : Legal s (.registerSender upidAddr uvec)) :
    Good uittPtr (serve uittPtr s (.registerSender upidAddr uvec)) := by
  have served := register_sender_served uittPtr s upidAddr uvec
  simp only [serve]
  generalize sysUintrRegisterSender uittPtr s upidAddr uvec = call at served
  cases served with
  | null missing => exact good
  | full given ones =>
    exact ⟨good.size, good.mask, good.asked, good.legal, good.returned, good.active, good.armed⟩
  | @entered n ctx cpu given bound zero ones table activated msrs =>
    have free : ¬ InUse s n := by
      rw [← good.mask n bound, zero]
      simp
    have low : uvec.toNat < 64 := by
      rcases legal with low | missing | full
      · exact low
      · exact absurd missing given
      · exact absurd (full n bound) free
    have used := in_use_after good (t := ⟨ctx, cpu, s.granted ++ [⟨uvec, upidAddr, n⟩]⟩) bound
      (entry_valid ((uvec &&& 0xff).setWidth 8) upidAddr) (by rw [Registrations.table, table])
    have limit : uintrMaxUittNr = 16 := rfl
    refine ⟨?_, ?_, ?_, ?_, ?_, fun _ => activated, fun _ => msrs good.armed⟩
    · rw [Registrations.table, table, length_set]
      exact good.size
    · intro i small
      rw [Registrations.table, table, set_bit _ (by omega), Bool.or_eq_true, decide_eq_true_eq, good.mask i small]
      exact or_comm.trans (used i).symm
    · intro i e found valid
      rw [Registrations.table, table] at found
      by_cases here : i = n
      · subst here
        have inside : i < s.table.uitt.length := by
          rw [good.size]
          exact bound
        rw [List.getElem?_set_self inside] at found
        cases found
        exact ⟨_, mem_append_right _ (mem_singleton_self _), rfl, rfl⟩
      · rw [List.getElem?_set_ne (Ne.symm here)] at found
        obtain ⟨g, member, index, entry⟩ := good.asked i e found valid
        exact ⟨g, mem_append_left _ member, index, entry⟩
    · intro g member
      rcases mem_append.mp member with old | new
      · exact good.legal g old
      · rw [mem_singleton.mp new]
        exact low
    · intro g member
      rcases mem_append.mp member with old | new
      · exact (used g.index).mpr (Or.inr (good.returned g old))
      · rw [mem_singleton.mp new]
        exact (used n).mpr (Or.inl rfl)

theorem handler_keeps (uittPtr : BitVec 64) (s : Registrations) (handler upidAddr : BitVec 64) (apicId : BitVec 32) :
    (serve uittPtr s (.registerHandler handler upidAddr apicId)).table = s.table ∧
    (serve uittPtr s (.registerHandler handler upidAddr apicId)).ctx.uittActivated = s.ctx.uittActivated ∧
    (MsrsSet s.cpu.core uittPtr →
      MsrsSet (serve uittPtr s (.registerHandler handler upidAddr apicId)).cpu.core uittPtr) := by
  simp only [serve, sysUintrRegisterHandler, doUintrRegisterHandler, Registrations.table]
  split
  · exact ⟨rfl, rfl, id⟩
  split
  · exact ⟨rfl, rfl, id⟩
  refine ⟨rfl, rfl, ?_⟩
  rintro ⟨tt, misc⟩
  have read : ∀ core, readMsr core msrUintrMisc = core.uintrMisc := fun _ => rfl
  simp only [MsrsSet, write_misc, setWidth_append_eq_right, read, write_handler, write_pd, write_stackadjust]
  exact ⟨tt, misc⟩

theorem handler_good (good : Good uittPtr s) :
    Good uittPtr (serve uittPtr s (.registerHandler handler upidAddr apicId)) := by
  obtain ⟨table, activated, msrs⟩ := handler_keeps uittPtr s handler upidAddr apicId
  have granted : (serve uittPtr s (.registerHandler handler upidAddr apicId)).granted = s.granted := rfl
  generalize serve uittPtr s (.registerHandler handler upidAddr apicId) = t at table activated msrs granted
  have used : ∀ i, InUse t i ↔ InUse s i := by
    intro i
    rw [InUse, InUse, table]
  refine ⟨by rw [table]; exact good.size, ?_, ?_, by rw [granted]; exact good.legal, ?_, ?_, ?_⟩
  · intro i small
    rw [table, used]
    exact good.mask i small
  · intro i e found valid
    rw [table] at found
    rw [granted]
    exact good.asked i e found valid
  · intro g member
    rw [granted] at member
    exact (used g.index).mpr (good.returned g member)
  · intro some_grant
    rw [granted] at some_grant
    rw [activated]
    exact good.active some_grant
  · intro active
    rw [activated] at active
    exact msrs (good.armed active)

theorem table_right_of_good (aligned : 2 ^ 4 ∣ uittPtr.toNat) (good : Good uittPtr s) : TableRight uittPtr s where
  mask := good.mask
  asked := by
    intro i e found valid
    obtain ⟨g, member, index, entry⟩ := good.asked i e found valid
    have low := good.legal g member
    refine ⟨g, member, index, low, ?_, by rw [entry]⟩
    rw [entry]
    simp only [toNat_setWidth, toNat_and]
    rw [show (0xff : BitVec 64).toNat = 2 ^ 8 - 1 from rfl, Nat.and_two_pow_sub_one_eq_mod]
    omega
  returned := by
    intro g member
    have used := good.returned g member
    have set := good.armed (good.active (ne_nil_of_mem member))
    exact ⟨used, acceptable_of_set aligned set (in_use_small good used)⟩

theorem refused_right (negative : call.result < 0) (same : uintrInitSender call.ctx = s.table)
    (why : upidAddr = 0 ∨ ¬ uvec.toNat < 64 ∨ ∀ i, i < uintrMaxUittNr → InUse s i) :
    CallRight s upidAddr uvec call where
  refused := ⟨fun _ => why, fun _ => negative⟩
  unchanged := fun _ => same
  lowest := by
    intro n result
    omega
  others := by
    intro n i result
    omega

theorem call_right_iff (good : Good uittPtr s) :
    CallRight s upidAddr uvec (sysUintrRegisterSender uittPtr s upidAddr uvec) ↔
      Legal s (.registerSender upidAddr uvec) := by
  have served := register_sender_served uittPtr s upidAddr uvec
  generalize sysUintrRegisterSender uittPtr s upidAddr uvec = call at served
  cases served with
  | null missing =>
    have negative : -einval < 0 := by decide
    exact ⟨fun _ => Or.inr (Or.inl missing), fun _ => refused_right negative rfl (Or.inl missing)⟩
  | full given ones =>
    have all : ∀ i, i < uintrMaxUittNr → InUse s i := fun i small => (good.mask i small).mp (ones i small)
    have negative : -enospc < 0 := by decide
    exact ⟨fun _ => Or.inr (Or.inr all), fun _ => refused_right negative rfl (Or.inr (Or.inr all))⟩
  | @entered n ctx cpu given bound zero ones table activated msrs =>
    have free : ¬ InUse s n := by
      rw [← good.mask n bound, zero]
      simp
    have limit : uintrMaxUittNr = 16 := rfl
    constructor
    · intro right
      by_contra illegal
      have wide : ¬ uvec.toNat < 64 := fun low => illegal (Or.inl low)
      have negative := right.refused.mpr (Or.inr (Or.inl wide))
      simp only at negative
      omega
    intro legal
    have low : uvec.toNat < 64 := by
      rcases legal with low | missing | full
      · exact low
      · exact absurd missing given
      · exact absurd (full n bound) free
    refine ⟨⟨fun negative => ?_, ?_⟩, fun negative => ?_, ?_, ?_⟩
    · simp only at negative
      omega
    · rintro (missing | wide | full)
      · exact absurd missing given
      · exact absurd low wide
      · exact absurd (full n bound) free
    · simp only at negative
      omega
    · intro m same
      cases Int.ofNat.inj same
      exact ⟨bound, free, fun i below => (good.mask i (by omega)).mp (ones i below)⟩
    · intro m i same other
      cases Int.ofNat.inj same
      rw [table, List.getElem?_set_ne (Ne.symm other)]

end Calls

theorem reachable_good (reach : Reachable ((registering uittPtr).guarded Legal) s) : Good uittPtr s := by
  apply reachable_invariant (Good uittPtr) _ _ reach
  · intro s start
    exact start_good start
  rintro s a t good ⟨legal, rfl⟩
  cases a with
  | registerSender upidAddr uvec => exact sender_good good legal
  | registerHandler handler upidAddr apicId => exact handler_good good

/-- In every run of legal calls the table is right in every state, and a further call does
    what it may just when it is legal. -/
theorem sender_table_kept {uittPtr : BitVec 64} {s : Registrations} (aligned : 2 ^ 4 ∣ uittPtr.toNat)
    (reach : Reachable ((registering uittPtr).guarded Legal) s) :
    TableRight uittPtr s ∧ ∀ upidAddr uvec,
      (CallRight s upidAddr uvec (sysUintrRegisterSender uittPtr s upidAddr uvec) ↔
        Legal s (.registerSender upidAddr uvec)) := by
  have good := reachable_good reach
  exact ⟨table_right_of_good aligned good, fun _ _ => call_right_iff good⟩

def newTask : Registrations := ⟨⟨none, false, false, none⟩, bootCpu, []⟩

theorem new_task_started (uittPtr : BitVec 64) : (registering uittPtr).start newTask := ⟨rfl, rfl⟩

/-- A task registers as sender of vector 5, and may register for vector 63 next. -/
theorem two_senders_registered :
    TableRight 0x40000 (serve 0x40000 newTask (.registerSender 0x50000 5)) ∧
    (serve 0x40000 newTask (.registerSender 0x50000 5)).granted = [⟨5, 0x50000, 0⟩] ∧
    CallRight (serve 0x40000 newTask (.registerSender 0x50000 5)) 0x60000 63
      (sysUintrRegisterSender 0x40000 (serve 0x40000 newTask (.registerSender 0x50000 5)) 0x60000 63) := by
  have legal : Legal newTask (.registerSender 0x50000 5) := Or.inl (by decide)
  have reach : Reachable ((registering 0x40000).guarded Legal) (serve 0x40000 newTask (.registerSender 0x50000 5)) :=
    reachable_next (a := .registerSender 0x50000 5) (reachable_start (new_task_started 0x40000)) ⟨legal, rfl⟩
  obtain ⟨right, calls⟩ := sender_table_kept (by decide) reach
  exact ⟨right, by decide +kernel, (calls 0x60000 63).mpr (Or.inl (by decide))⟩

/-- Vector 64 is accepted, and vector 0x105 becomes vector 5. -/
theorem wide_vectors_accepted :
    (sysUintrRegisterSender 0x40000 newTask 0x50000 64).result = 0 ∧
    (serve 0x40000 newTask (.registerSender 0x50000 64)).table.uitt[0]? = some ⟨1, 64, 0x50000⟩ ∧
    (sysUintrRegisterSender 0x40000 newTask 0x50000 0x105).result = 0 ∧
    (serve 0x40000 newTask (.registerSender 0x50000 0x105)).table.uitt[0]? = some ⟨1, 5, 0x50000⟩ ∧
    ¬ CallRight newTask 0x50000 64 (sysUintrRegisterSender 0x40000 newTask 0x50000 64) := by
  have accepted : (sysUintrRegisterSender 0x40000 newTask 0x50000 64).result = 0 := by decide +kernel
  refine ⟨accepted, by decide +kernel, by decide +kernel, by decide +kernel, ?_⟩
  intro right
  have negative := right.refused.mpr (Or.inr (Or.inl (by decide)))
  rw [accepted] at negative
  exact absurd negative (by decide)

end RtosNimbosSenderTable
