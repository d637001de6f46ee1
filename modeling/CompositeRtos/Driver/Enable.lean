import CompositeRtos.Driver.HvLayout
import CompositeRtos.Driver.MemRegions
import Mathlib.Data.Finset.Card

/-!
The ioctl that enables the hypervisor (`jailhouse_cmd_enable` of `driver/main.c`), with all
the points at which it gives up. Each of them jumps into one ladder of labels, which undoes
the steps taken so far in reverse order. The two regions of the argument are global
variables and are written before any check.
-/
namespace RtosDriverEnable

open RtosDriverMemRegions RtosDriverHvLayout

/-- The variables of the driver, with the state of the kernel that it changes. -/
structure Driver where
  lock : Bool
  enabled : Bool
  moduleRefs : Nat
  online : Finset Nat
  hvRegion : MemRegion
  rtRegion : MemRegion
  hypervisorMemRes : Option MemRegion
  mapped : Bool
  maxCpus : Nat
  rtCpus : Nat
  hvCoreAndPercpuSize : BitVec 64
  enterHvCpus : Nat

def getRtMemoryRegion (driver : Driver) : Option MemRegion :=
  if driver.rtRegion.start = 0 ∨ driver.rtRegion.size = 0 then none else some driver.rtRegion

inductive Item where
  | firmware
  | memRegions
  | memory (region : MemRegion)
deriving DecidableEq

inductive Event where
  | taken (item : Item)
  | released (item : Item)
deriving DecidableEq

/-- A call in progress. The history is not in the source. -/
structure Call extends Driver where
  history : List Event

def Call.log (call : Call) (event : Event) : Call := { call with history := call.history ++ [event] }

structure Image where
  signature : List Char
  coreSize : BitVec 64
  percpuSize : BitVec 64

/-- The answers of the kernel. `copy` gives the value that is left in the variable when the
    user memory cannot be read to its end. -/
structure Host where
  svm : Bool
  vmx : Bool
  vmxUsable : Bool
  copyHvRegion : Except MemRegion MemRegion
  copyRtRegion : Except MemRegion MemRegion
  interrupted : Bool
  moduleAlive : Bool
  requestFirmware : String → Except { err : Int // err ≠ 0 } Image
  resources : List Resource
  arrayAllocated : Bool
  possibleCpus : Nat
  memRegionFree : Bool
  ioremap : Bool
  cpuDown : Nat → Bool
  cpuUp : Nat → Bool
  entry : Nat → Int
  some_cpu : 0 < possibleCpus

inductive Exit where
  | noDevice
  | hvCopy
  | rtCopy
  | interrupted
  | busy
  | vmxDisabled
  | firmware (err : Int)
  | noMemory
  | overlap
  | signature
  | size
  | memRegion
  | ioremap
  | entry (err : Int)
  | done
deriving DecidableEq

def Exit.code : Exit → Int
  | noDevice => -19
  | hvCopy => -14
  | rtCopy => -14
  | interrupted => -4
  | busy => -16
  | vmxDisabled => -19
  | firmware err => err
  | noMemory => -12
  | overlap => -22
  | signature => -22
  | size => -22
  | memRegion => -22
  | ioremap => -22
  | entry err => err
  | done => 0

/-! The labels, from the last one to the first one. -/

def errorUnlock (call : Call) : Call := { call with lock := false }

def errorPutModule (call : Call) : Call := errorUnlock { call with moduleRefs := call.moduleRefs - 1 }

def errorReleaseFw (call : Call) : Call := errorPutModule (call.log (.released .firmware))

def errorFreeMemRegions (call : Call) : Call := errorReleaseFw (call.log (.released .memRegions))

def releaseMemRegion (call : Call) : Call :=
  match call.hypervisorMemRes with
  | some region => { call.log (.released (.memory region)) with hypervisorMemRes := none }
  | none => call

def errorReleaseMemreg (call : Call) : Call := errorFreeMemRegions (releaseMemRegion call)

def jailhouseFirmwareFree (call : Call) : Call := { releaseMemRegion call with mapped := false }

def rtCpuList (driver : Driver) : List Nat :=
  (List.range driver.maxCpus).filter (driver.maxCpus - driver.rtCpus ≤ ·)

def rtCpusDown (host : Host) (driver : Driver) : Finset Nat :=
  (rtCpuList driver).foldl (fun online cpu => if host.cpuDown cpu then online.erase cpu else online) driver.online

def rtCpusUp (host : Host) (driver : Driver) : Finset Nat :=
  (rtCpuList driver).foldl (fun online cpu => if host.cpuUp cpu then insert cpu online else online) driver.online

def errAddRtCpus (host : Host) (call : Call) : Call :=
  errorReleaseMemreg (jailhouseFirmwareFree { call with online := rtCpusUp host call.toDriver })

/-! The function. -/

def jailhouseGetFwName (host : Host) : Option String :=
  if host.svm then some "rvm-amd.bin" else if host.vmx then some "rvm-intel.bin" else none

/-- The call of `enter_hypervisor` on each CPU of `vm_cpus_mask`: how many have entered, and
    `error_code`. `none` means that the loop that waits for all CPUs does not end. -/
def enterHypervisors (host : Host) (driver : Driver) : Option (Nat × Int) :=
  let entered := (List.range (driver.maxCpus - driver.rtCpus)).filter (· ∈ driver.online)
  let error := entered.foldl (fun error cpu => if host.entry cpu = 0 then error else host.entry cpu) 0
  if entered.length = driver.online.card then some (entered.length, error) else none

def enableRegion (host : Host) (call : Call) : Option (Exit × Call) :=
  if !host.memRegionFree then some (.memRegion, errorFreeMemRegions call)
  else
    let call := { call.log (.taken (.memory call.hvRegion)) with hypervisorMemRes := some call.hvRegion }
    if !host.ioremap then some (.ioremap, errorReleaseMemreg call)
    else
      let call := { call with mapped := true }
      let call := { call with online := rtCpusDown host call.toDriver }
      match enterHypervisors host call.toDriver with
      | none => none
      | some (entered, error) =>
        if error ≠ 0 then some (.entry error, errAddRtCpus host call)
        else
          let call := (call.log (.released .memRegions)).log (.released .firmware)
          some (.done, { call with enterHvCpus := entered, enabled := true, lock := false })

def Call.sized (call : Call) (host : Host) (image : Image) : Call :=
  { call with maxCpus := host.possibleCpus, rtCpus := 1,
              hvCoreAndPercpuSize := coreAndPercpuSize image.coreSize image.percpuSize host.possibleCpus }

def enableImage (depth : Nat) (host : Host) (image : Image) (call : Call) : Option (Exit × Call) :=
  match (getMemRegions call.hvRegion depth host.resources .empty).1 with
  | none => none
  | some numMemRegions =>
    if numMemRegions = -1 then some (.overlap, errorFreeMemRegions call)
    else if image.signature ≠ "RVMIMAGE".toList then some (.signature, errorReleaseFw call)
    else
      let call := call.sized host image
      if doesNotFit call.hvRegion.size call.hvCoreAndPercpuSize (configBytes (BitVec.ofInt 32 numMemRegions)) then
        some (.size, errorFreeMemRegions call)
      else enableRegion host (jailhouseFirmwareFree call)

def enableLocked (depth : Nat) (host : Host) (fwName : String) (call : Call) : Option (Exit × Call) :=
  if call.enabled || !host.moduleAlive then some (.busy, errorUnlock call)
  else
    let call := { call with moduleRefs := call.moduleRefs + 1 }
    if host.vmx && !host.vmxUsable then some (.vmxDisabled, errorPutModule call)
    else
      match host.requestFirmware fwName with
      | .error err => some (.firmware err, errorPutModule call)
      | .ok image =>
        let call := call.log (.taken .firmware)
        if !host.arrayAllocated then some (.noMemory, errorReleaseFw call)
        else enableImage depth host image (call.log (.taken .memRegions))

def defaultSize (region : MemRegion) : MemRegion :=
  if region.size = 0 then { region with size := 256 <<< 20 } else region

def jailhouseCmdEnable (depth : Nat) (host : Host) (driver : Driver) : Option (Exit × Call) :=
  let call : Call := { driver with history := [] }
  match jailhouseGetFwName host with
  | none => some (.noDevice, call)
  | some fwName =>
    match host.copyHvRegion with
    | .error left => some (.hvCopy, { call with hvRegion := left })
    | .ok hvRegion =>
      match host.copyRtRegion with
      | .error left => some (.rtCopy, { call with hvRegion := hvRegion, rtRegion := left })
      | .ok rtRegion =>
        let call := { call with hvRegion := defaultSize hvRegion, rtRegion := rtRegion }
        if host.interrupted then some (.interrupted, call)
        else enableLocked depth host fwName { call with lock := true }

/-! The property. -/

def ReleasedOnce : List Event → Prop
  | [] => True
  | .taken item :: rest => rest.count (.released item) = 1 ∧ ReleasedOnce rest
  | .released _ :: rest => ReleasedOnce rest

instance : (history : List Event) → Decidable (ReleasedOnce history)
  | [] => isTrue trivial
  | .taken item :: rest =>
    have := instDecidableReleasedOnce rest
    inferInstanceAs (Decidable (rest.count (.released item) = 1 ∧ ReleasedOnce rest))
  | .released _ :: rest => instDecidableReleasedOnce rest

structure Restored (before : Driver) (after : Call) : Prop where
  lock : after.lock = false
  enabled : after.enabled = before.enabled
  moduleRefs : after.moduleRefs = before.moduleRefs
  online : after.online = before.online
  hvRegion : after.hvRegion = before.hvRegion
  rtRegion : after.rtRegion = before.rtRegion
  seen : getRtMemoryRegion after.toDriver = getRtMemoryRegion before
  once : ReleasedOnce after.history

/-- The two regions that the call leaves, from the argument alone. -/
def regionsLeft (host : Host) (driver : Driver) : MemRegion × MemRegion :=
  match jailhouseGetFwName host, host.copyHvRegion, host.copyRtRegion with
  | none, _, _ => (driver.hvRegion, driver.rtRegion)
  | some _, .error left, _ => (left, driver.rtRegion)
  | some _, .ok hvRegion, .error left => (hvRegion, left)
  | some _, .ok hvRegion, .ok rtRegion => (defaultSize hvRegion, rtRegion)

def rtCpu (host : Host) : Nat := host.possibleCpus - 1

def RtCpuBack (host : Host) (driver : Driver) (exit : Exit) : Prop :=
  ∀ err, exit = .entry err → (rtCpu host ∈ driver.online ↔ host.cpuUp (rtCpu host) = true)

/-! The CPUs. -/

section Cpus

variable {host : Host} {driver : Driver} (counted : driver.maxCpus = host.possibleCpus) (one : driver.rtCpus = 1)

include counted one

theorem rt_cpu_list : rtCpuList driver = [rtCpu host] := by
  obtain ⟨n, shape⟩ : ∃ n, host.possibleCpus = n + 1 := ⟨host.possibleCpus - 1, by have := host.some_cpu; omega⟩
  rw [rtCpuList, counted, one, rtCpu, shape, List.range_succ, List.filter_append]
  simp

theorem entered_offline (run : enterHypervisors host driver = some (entered, error)) :
    rtCpu host ∉ driver.online := by
  intro still
  rw [enterHypervisors] at run
  split at run
  · rename_i all_entered
    have others : ((List.range (driver.maxCpus - driver.rtCpus)).filter (· ∈ driver.online)).toFinset ⊆
        driver.online.erase (rtCpu host) := by
      intro cpu member
      simp only [List.mem_toFinset, List.mem_filter, List.mem_range, decide_eq_true_eq] at member
      rw [Finset.mem_erase]
      refine ⟨?_, member.2⟩
      rw [rtCpu, ← counted, ← one]
      omega
    have fewer := Finset.card_le_card others
    rw [List.toFinset_card_of_nodup (List.nodup_range.filter _), all_entered, Finset.card_erase_of_mem still] at fewer
    have := Finset.card_pos.mpr ⟨_, still⟩
    omega
  · cases run

theorem online_again (same : rtCpuList after = rtCpuList driver) (down : after.online = rtCpusDown host driver)
    (offline : rtCpu host ∉ after.online) (error : Int) :
    rtCpusUp host after = driver.online ↔ RtCpuBack host driver (.entry error) := by
  have back_iff : RtCpuBack host driver (.entry error) ↔
      (rtCpu host ∈ driver.online ↔ host.cpuUp (rtCpu host) = true) :=
    ⟨fun back => back error rfl, fun back _ _ => back⟩
  have erased : after.online = driver.online.erase (rtCpu host) := by
    rw [rtCpusDown, rt_cpu_list counted one, List.foldl_cons, List.foldl_nil] at down
    rw [down] at offline ⊢
    split
    · rfl
    rename_i failed
    rw [if_neg failed] at offline
    exact (Finset.erase_eq_of_notMem offline).symm
  rw [back_iff, rtCpusUp, same, rt_cpu_list counted one, List.foldl_cons, List.foldl_nil, erased]
  cases up : host.cpuUp (rtCpu host) with
  | false => simp
  | true =>
    simp only [if_true, iff_true]
    constructor
    · intro restored
      rw [← restored]
      exact Finset.mem_insert_self _ _
    · exact Finset.insert_erase

end Cpus

/-! What the call leaves when it fails. -/

def Holding (history : List Event) : Prop :=
  ∃ old : Option MemRegion, history = [.taken .firmware, .taken .memRegions] ++
    old.toList.map fun region => .released (.memory region)

/-- After a failure with the lock held, all is undone but for the array of an image without
    the signature, and a CPU that is not as it was. -/
structure Undone (host : Host) (call : Call) (moduleRefs : Nat) (exit : Exit) (after : Call) : Prop where
  lock : after.lock = false
  enabled : after.enabled = call.enabled
  refs : after.moduleRefs = moduleRefs
  hvRegion : after.hvRegion = call.hvRegion
  rtRegion : after.rtRegion = call.rtRegion
  online : after.online = call.online ↔ RtCpuBack host call.toDriver exit
  once : ReleasedOnce after.history ↔ exit ≠ .signature

theorem back_of_other (other : ∀ err, exit ≠ .entry err) :
    RtCpuBack host driver exit := fun err same => absurd same (other err)

theorem freed_undone (other : ∀ err, exit ≠ .entry err) (not_signature : exit ≠ .signature)
    (holding : Holding call.history) :
    Undone host call (call.moduleRefs - 1) exit (errorFreeMemRegions call) := by
  refine ⟨rfl, rfl, rfl, rfl, rfl, iff_of_true rfl (back_of_other other), iff_of_true ?_ not_signature⟩
  obtain ⟨old, history⟩ := holding
  change ReleasedOnce (call.history ++ [.released .memRegions] ++ [.released .firmware])
  rw [history]
  cases old <;> simp [ReleasedOnce]

theorem region_undone (counted : call.maxCpus = host.possibleCpus) (one : call.rtCpus = 1)
    (holding : Holding call.history) (run : enableRegion host call = some (exit, after)) (failed : exit ≠ .done) :
    Undone host call (call.moduleRefs - 1) exit after := by
  have once : ReleasedOnce (call.history ++ [.taken (.memory call.hvRegion)] ++ [.released (.memory call.hvRegion)] ++
      [.released .memRegions] ++ [.released .firmware]) := by
    obtain ⟨old, history⟩ := holding
    rw [history]
    cases old <;> simp [ReleasedOnce]
  rw [enableRegion] at run
  split at run
  · cases run
    exact freed_undone (by simp) (by simp) holding
  simp only at run
  split at run
  · cases run
    exact ⟨rfl, rfl, rfl, rfl, rfl, iff_of_true rfl (back_of_other (by simp)), iff_of_true once (by simp)⟩
  split at run
  · cases run
  rename_i entered error enter
  split at run
  · cases run
    have offline := entered_offline (by exact counted) (by exact one) enter
    have again : _ ↔ RtCpuBack host call.toDriver (.entry error) :=
      online_again counted one (by rfl) (by rfl) offline error
    exact ⟨rfl, rfl, rfl, rfl, rfl, again, iff_of_true once (by simp)⟩
  · cases run
    exact absurd rfl failed

structure Prepared (call call' : Call) : Prop where
  enabled : call'.enabled = call.enabled
  moduleRefs : call'.moduleRefs = call.moduleRefs
  hvRegion : call'.hvRegion = call.hvRegion
  rtRegion : call'.rtRegion = call.rtRegion
  online : call'.online = call.online

theorem undone_of_prepared (same : Prepared call call')
    (undone : Undone host call' (call'.moduleRefs - 1) exit after) :
    Undone host call (call.moduleRefs - 1) exit after := by
  have online := undone.online
  rw [RtCpuBack, same.online] at online
  exact ⟨undone.lock, undone.enabled.trans same.enabled, by rw [undone.refs, same.moduleRefs],
    undone.hvRegion.trans same.hvRegion, undone.rtRegion.trans same.rtRegion, online, undone.once⟩

theorem firmware_free_prepared (call : Call) : Prepared call (jailhouseFirmwareFree call) := by
  unfold jailhouseFirmwareFree releaseMemRegion
  cases call.hypervisorMemRes <;> exact ⟨rfl, rfl, rfl, rfl, rfl⟩

theorem firmware_free_holding (holding : call.history = [.taken .firmware, .taken .memRegions]) :
    Holding (jailhouseFirmwareFree call).history := by
  refine ⟨call.hypervisorMemRes, ?_⟩
  rw [← holding, jailhouseFirmwareFree, releaseMemRegion]
  cases call.hypervisorMemRes with
  | none => exact (List.append_nil _).symm
  | some region => rfl

theorem firmware_free_cpus (call : Call) :
    (jailhouseFirmwareFree call).maxCpus = call.maxCpus ∧ (jailhouseFirmwareFree call).rtCpus = call.rtCpus := by
  unfold jailhouseFirmwareFree releaseMemRegion
  cases call.hypervisorMemRes <;> exact ⟨rfl, rfl⟩

theorem image_undone (taken : call.history = [.taken .firmware, .taken .memRegions])
    (run : enableImage depth host image call = some (exit, after)) (failed : exit ≠ .done) :
    Undone host call (call.moduleRefs - 1) exit after := by
  have holding : Holding call.history := ⟨none, by rw [taken]; rfl⟩
  rw [enableImage] at run
  split at run
  · cases run
  split at run
  · cases run
    exact freed_undone (by simp) (by simp) holding
  split at run
  · cases run
    refine ⟨rfl, rfl, rfl, rfl, rfl, iff_of_true rfl (back_of_other (by simp)), iff_of_false ?_ (by simp)⟩
    change ¬ ReleasedOnce (call.history ++ [.released .firmware])
    rw [taken]
    decide
  have sized : Prepared call (call.sized host image) := ⟨rfl, rfl, rfl, rfl, rfl⟩
  simp only at run
  split at run
  · cases run
    exact undone_of_prepared sized (freed_undone (by simp) (by simp) holding)
  have cpus := firmware_free_cpus (call.sized host image)
  apply undone_of_prepared sized
  apply undone_of_prepared (firmware_free_prepared _)
  exact region_undone cpus.1 cpus.2 (firmware_free_holding taken) run failed

theorem locked_undone (start : call.history = [])
    (run : enableLocked depth host fwName call = some (exit, after)) (failed : exit ≠ .done) :
    Undone host call call.moduleRefs exit after := by
  have nothing_taken : ReleasedOnce call.history := by rw [start]; trivial
  rw [enableLocked] at run
  split at run
  · cases run
    exact ⟨rfl, rfl, rfl, rfl, rfl, iff_of_true rfl (back_of_other (by simp)), iff_of_true nothing_taken (by simp)⟩
  simp only at run
  split at run
  · cases run
    exact ⟨rfl, rfl, rfl, rfl, rfl, iff_of_true rfl (back_of_other (by simp)), iff_of_true nothing_taken (by simp)⟩
  split at run
  · cases run
    exact ⟨rfl, rfl, rfl, rfl, rfl, iff_of_true rfl (back_of_other (by simp)), iff_of_true nothing_taken (by simp)⟩
  split at run
  · cases run
    refine ⟨rfl, rfl, rfl, rfl, rfl, iff_of_true rfl (back_of_other (by simp)), iff_of_true ?_ (by simp)⟩
    change ReleasedOnce (call.history ++ [.taken .firmware] ++ [.released .firmware])
    rw [start]
    decide
  · have undone := image_undone (by simp [Call.log, start]) run failed
    exact ⟨undone.lock, undone.enabled, undone.refs, undone.hvRegion, undone.rtRegion, undone.online, undone.once⟩

def started (host : Host) (driver : Driver) : Call :=
  { driver with hvRegion := (regionsLeft host driver).1, rtRegion := (regionsLeft host driver).2, history := [] }

theorem enable_undone (free : driver.lock = false)
    (run : jailhouseCmdEnable depth host driver = some (exit, after)) (failed : exit ≠ .done) :
    Undone host (started host driver) driver.moduleRefs exit after := by
  -- up to the lock nothing is taken, and only the regions are written
  have early : ∀ exit : Exit, (∀ err, exit ≠ .entry err) → exit ≠ .signature →
      Undone host (started host driver) driver.moduleRefs exit (started host driver) := fun exit other signed =>
    ⟨free, rfl, rfl, rfl, rfl, iff_of_true rfl (back_of_other other), iff_of_true trivial signed⟩
  rw [jailhouseCmdEnable] at run
  cases name : jailhouseGetFwName host with
  | none =>
    have regions : started host driver = { driver with history := [] } := by simp [started, regionsLeft, name]
    rw [name] at run
    cases run
    rw [← regions]
    exact early .noDevice (by simp) (by simp)
  | some fwName =>
    cases hv : host.copyHvRegion with
    | error left =>
      have regions : started host driver = { driver with hvRegion := left, history := [] } := by
        simp [started, regionsLeft, name, hv]
      rw [name, hv] at run
      cases run
      rw [← regions]
      exact early .hvCopy (by simp) (by simp)
    | ok hvRegion =>
      cases rt : host.copyRtRegion with
      | error left =>
        have regions : started host driver =
            { driver with hvRegion := hvRegion, rtRegion := left, history := [] } := by
          simp [started, regionsLeft, name, hv, rt]
        rw [name, hv, rt] at run
        cases run
        rw [← regions]
        exact early .rtCopy (by simp) (by simp)
      | ok rtRegion =>
        have regions : started host driver =
            { driver with hvRegion := defaultSize hvRegion, rtRegion := rtRegion, history := [] } := by
          simp [started, regionsLeft, name, hv, rt]
        simp only [name, hv, rt] at run
        split at run
        · cases run
          rw [← regions]
          exact early .interrupted (by simp) (by simp)
        have undone := locked_undone rfl run failed
        rw [regions]
        exact ⟨undone.lock, undone.enabled, undone.refs, undone.hvRegion, undone.rtRegion, undone.online,
          undone.once⟩

/-- A call that fails leaves the driver as it was exactly when the regions of the argument are
    those in force, the image has the signature, and the CPU of the RTOS comes back. -/
theorem failed_enable_restores_iff {depth : Nat} {host : Host} {driver : Driver} {exit : Exit} {after : Call}
    (free : driver.lock = false) (run : jailhouseCmdEnable depth host driver = some (exit, after))
    (failed : exit.code ≠ 0) :
    Restored driver after ↔ regionsLeft host driver = (driver.hvRegion, driver.rtRegion) ∧ exit ≠ .signature ∧
      RtCpuBack host driver exit := by
  have undone := enable_undone free run (by rintro rfl; exact failed rfl)
  have hv : after.hvRegion = (regionsLeft host driver).1 := undone.hvRegion
  have rt : after.rtRegion = (regionsLeft host driver).2 := undone.rtRegion
  constructor
  · intro restored
    refine ⟨?_, undone.once.mp restored.once, undone.online.mp restored.online⟩
    exact Prod.ext (hv.symm.trans restored.hvRegion) (rt.symm.trans restored.rtRegion)
  rintro ⟨regions, signed, back⟩
  rw [regions] at hv rt
  have seen : getRtMemoryRegion after.toDriver = getRtMemoryRegion driver := by
    rw [getRtMemoryRegion, rt]
    rfl
  exact ⟨undone.lock, undone.enabled, undone.refs, undone.online.mpr back, hv, rt, seen, undone.once.mpr signed⟩

/-- A machine with four CPUs, of which the argument can be read and all calls succeed up to
    the entry. -/
def host (hvRegion rtRegion : MemRegion) (signature : String) : Host where
  svm := false
  vmx := true
  vmxUsable := true
  copyHvRegion := .ok hvRegion
  copyRtRegion := .ok rtRegion
  interrupted := false
  moduleAlive := true
  requestFirmware := fun _ => .ok ⟨signature.toList, 0x100000, 0x80000⟩
  resources := [⟨0, 0x9ffff, "System RAM"⟩]
  arrayAllocated := true
  possibleCpus := 4
  memRegionFree := true
  ioremap := true
  cpuDown := fun _ => true
  cpuUp := fun _ => true
  entry := fun _ => -12
  some_cpu := by decide

def driver (enabled : Bool) (online : Finset Nat) : Driver where
  lock := false
  enabled := enabled
  moduleRefs := 3
  online := online
  hvRegion := ⟨0x50000000, 0x10000000⟩
  rtRegion := ⟨0x60000000, 0x1000000⟩
  hypervisorMemRes := some ⟨0x50000000, 0x10000000⟩
  mapped := true
  maxCpus := 4
  rtCpus := 1
  hvCoreAndPercpuSize := 0x300000
  enterHvCpus := 3

/-- The entry fails after an earlier enable with the same regions. -/
theorem entry_failure_restored :
    ∃ after, jailhouseCmdEnable 2 (host ⟨0x50000000, 0x10000000⟩ ⟨0x60000000, 0x1000000⟩ "RVMIMAGE")
        (driver false {0, 1, 2, 3}) = some (.entry (-12), after) ∧
      Restored (driver false {0, 1, 2, 3}) after := by
  have ends : (jailhouseCmdEnable 2 (host ⟨0x50000000, 0x10000000⟩ ⟨0x60000000, 0x1000000⟩ "RVMIMAGE")
      (driver false {0, 1, 2, 3})).map Prod.fst = some (.entry (-12)) := by decide
  obtain ⟨⟨exit, after⟩, run, same⟩ := Option.map_eq_some_iff.mp ends
  cases same
  exact ⟨after, run,
    (failed_enable_restores_iff rfl run (by decide)).mpr ⟨by decide, by decide, fun _ _ => by decide⟩⟩

/-- A second enable with another region while the hypervisor runs, an image without the
    signature, and a failed entry with the CPU of the RTOS offline before. -/
theorem failures_leave_changes :
    (jailhouseCmdEnable 2 (host ⟨0x50000000, 0x10000000⟩ ⟨0x70000000, 0x1000000⟩ "RVMIMAGE")
      (driver true {0, 1, 2})).map (fun r => (r.1, getRtMemoryRegion r.2.toDriver)) =
        some (.busy, some ⟨0x70000000, 0x1000000⟩) ∧
    getRtMemoryRegion (driver true {0, 1, 2}) = some ⟨0x60000000, 0x1000000⟩ ∧
    (jailhouseCmdEnable 2 (host ⟨0x50000000, 0x10000000⟩ ⟨0x60000000, 0x1000000⟩ "ELF")
      (driver false {0, 1, 2, 3})).map (fun r => (r.1, r.2.history)) =
        some (.signature, [.taken .firmware, .taken .memRegions, .released .firmware]) ∧
    (jailhouseCmdEnable 2 (host ⟨0x50000000, 0x10000000⟩ ⟨0x60000000, 0x1000000⟩ "RVMIMAGE")
      (driver false {0, 1, 2})).map (fun r => (r.1, r.2.online)) =
        some (.entry (-12), {0, 1, 2, 3}) := by
  decide

end RtosDriverEnable
