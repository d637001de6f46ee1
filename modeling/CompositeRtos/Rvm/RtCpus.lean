import Mathlib.Data.Fintype.EquivFin
import CompositeRtos.Rvm.Startup

/-!
The CPUs of the RTOS. `start_rt_cpus` starts the CPUs whose APIC id no Linux CPU has
recorded; `shutdown_rt_cpus` stops those with the ids from `vm_cpus` on. Words of memory are
counted from the start page, which lies in low memory that belongs to Linux.
-/
namespace RtosRvmRtCpus
open RtosRvmStartup Function BitVec List

def maxApicId : BitVec 32 := 254

def noCpu : BitVec 32 := 0xffffffff

abbrev ApicTable := Nat → BitVec 32

def apicToCpuId (table : ApicTable) (apicId : BitVec 32) : BitVec 32 :=
  if apicId ≤ maxApicId then table apicId.toNat else noCpu

def initPercpu (table : ApicTable) (apicId cpuId : BitVec 32) : Except HvErrorNum ApicTable :=
  if apicId > maxApicId then .error .erange else .ok (Function.update table apicId.toNat cpuId)

def initAll (apicOf : BitVec 32 → BitVec 32) : List (BitVec 32) → ApicTable → Except HvErrorNum ApicTable
  | [], table => .ok table
  | cpuId :: rest, table =>
    match initPercpu table (apicOf cpuId) cpuId with
    | .error e => .error e
    | .ok table' => initAll apicOf rest table'

inductive ApicId where
  | x2apic (id : BitVec 32)
  | xapic (id : BitVec 8)

inductive IpiKind where
  | init
  | startup (page : BitVec 8)

structure Ipi where
  dest : ApicId
  kind : IpiKind

/-- The local APICs that an IPI in physical destination mode reaches: all ones is a
    broadcast. -/
def ApicId.Reaches (apicId : BitVec 32) : ApicId → Prop
  | .x2apic id => id = 0xffffffff ∨ id = apicId
  | .xapic id => id = 0xff ∨ id.setWidth 32 = apicId

def destination (isX2apic : Bool) (apicId : BitVec 32) : ApicId :=
  if isX2apic then .x2apic apicId else .xapic (apicId.setWidth 8)

def startAp (isX2apic : Bool) (apicId : BitVec 32) (startPageIdx : BitVec 8) : List Ipi :=
  let dest := destination isX2apic apicId
  [⟨dest, .init⟩, ⟨dest, .startup startPageIdx⟩, ⟨dest, .startup startPageIdx⟩]

def shutdownAp (isX2apic : Bool) (apicId : BitVec 32) : List Ipi := [⟨destination isX2apic apicId, .init⟩]

def startPageIdx : BitVec 8 := 6
def u64PerPage : Nat := 512
def perCpuSize : BitVec 64 := 512 * 1024

abbrev Words := Nat → BitVec 64

/-- What the two functions read. `code` is the part of the image from `ap_start` to `ap_end`. -/
structure Config where
  header : HvHeader
  isX2apic : Bool
  table : ApicTable
  enteredCpus : BitVec 32
  percpuArray : BitVec 64
  code : List (BitVec 64)

def Config.stackTop (c : Config) (cpuId : BitVec 32) : BitVec 64 :=
  c.percpuArray + cpuId.setWidth 64 * perCpuSize + perCpuSize - 8

/-- A CPU that was sent INIT and SIPI, with its slot and the memory at that time. -/
structure Started where
  apicId : BitVec 32
  cpuId : BitVec 32
  words : Words

def Config.startLoop (c : Config) : Nat → BitVec 32 → BitVec 32 → Words → List Started × Words
  | 0, _, _, words => ([], words)
  | left + 1, apicId, newCpuId, words =>
    if apicToCpuId c.table apicId = noCpu then
      if newCpuId ≥ c.header.maxCpus then ([], words)
      else
        let words := Function.update words (u64PerPage - 3) (c.stackTop newCpuId)
        let rest := c.startLoop left (apicId + 1) (newCpuId + 1) words
        (⟨apicId, newCpuId, words⟩ :: rest.1, rest.2)
    else c.startLoop left (apicId + 1) newCpuId words

def copyCode (code : List (BitVec 64)) (words : Words) : Words := fun i => code.getD i (words i)

def Config.startRtCpus (c : Config) (entry : BitVec 64) (words : Words) : List Started × Words :=
  let backup := words
  let words := Function.update (copyCode c.code words) (u64PerPage - 1) entry
  let result := c.startLoop c.header.maxCpus.toNat 0 c.enteredCpus words
  (result.1, fun i => if i < u64PerPage then backup i else result.2 i)

def Config.startIpis (c : Config) (started : List Started) : List Ipi :=
  started.flatMap fun cpu => startAp c.isX2apic cpu.apicId startPageIdx

def span (first last : BitVec 32) : List (BitVec 32) :=
  (List.range (last.toNat - first.toNat)).map fun k => first + BitVec.ofNat 32 k

def Config.shutdownRtCpus (c : Config) : List Ipi :=
  (span c.header.vmCpus c.header.maxCpus).flatMap (shutdownAp c.isX2apic)

/-- The Linux CPUs have entered and recorded their APIC ids. -/
structure Recorded (c : Config) (apicOf : BitVec 32 → BitVec 32) : Prop where
  fewer : c.header.rtCpus < c.header.maxCpus
  entered : c.enteredCpus = c.header.vmCpus
  table : ∃ order, (∀ cpu, cpu ∈ order ↔ cpu < c.header.vmCpus) ∧ initAll apicOf order (fun _ => noCpu) = .ok c.table
  injective : ∀ cpu cpu', cpu < c.header.vmCpus → cpu' < c.header.vmCpus → apicOf cpu = apicOf cpu' → cpu = cpu'
  below : ∀ cpu, cpu < c.header.vmCpus → apicOf cpu < c.header.maxCpus
  page : c.code.length ≤ u64PerPage

def Hit (ipis : List Ipi) (apicId : BitVec 32) : Prop := ∃ ipi ∈ ipis, ipi.dest.Reaches apicId

/-- The part of `start_rt_cpus`. A Linux CPU has the slot of its id, which is below
    `vm_cpus`. -/
structure StartRight (c : Config) (apicOf : BitVec 32 → BitVec 32) (entry : BitVec 64) (words : Words) : Prop where
  outside : ∀ cpu, cpu < c.header.vmCpus → ¬ Hit (c.startIpis (c.startRtCpus entry words).1) (apicOf cpu)
  slots : (c.startRtCpus entry words).1.Pairwise fun s t => s.cpuId ≠ t.cpuId
  free : ∀ s ∈ (c.startRtCpus entry words).1, c.header.vmCpus ≤ s.cpuId ∧ s.cpuId < c.header.maxCpus
  stack : ∀ s ∈ (c.startRtCpus entry words).1,
    s.words (u64PerPage - 3) = c.stackTop s.cpuId ∧ s.words (u64PerPage - 1) = entry
  restored : (c.startRtCpus entry words).2 = words

/-- The shutdown reaches the CPUs that the start has reached, and no Linux CPU. -/
structure Agree (c : Config) (apicOf : BitVec 32 → BitVec 32) (entry : BitVec 64) (words : Words) : Prop where
  start : StartRight c apicOf entry words
  same : ∀ apicId, Hit c.shutdownRtCpus apicId ↔ Hit (c.startIpis (c.startRtCpus entry words).1) apicId
  outside : ∀ cpu, cpu < c.header.vmCpus → ¬ Hit c.shutdownRtCpus (apicOf cpu)

/-- APIC ids fit into the destination field and none of them is the broadcast. -/
def Addressed (c : Config) : Prop := c.isX2apic = true ∨ c.header.maxCpus ≤ 255

section Table

theorem init_all_table (done : initAll apicOf order table = .ok table') :
    (∀ cpu ∈ order, apicOf cpu ≤ maxApicId) ∧
      ∀ a, (∃ cpu ∈ order, (apicOf cpu).toNat = a ∧ table' a = cpu) ∨
        (∀ cpu ∈ order, (apicOf cpu).toNat ≠ a) ∧ table' a = table a := by
  induction order generalizing table with
  | nil =>
    cases done
    exact ⟨by simp, fun a => Or.inr ⟨by simp, rfl⟩⟩
  | cons first rest ih =>
    simp only [initAll, initPercpu] at done
    by_cases large : apicOf first > maxApicId
    · rw [if_pos large] at done
      cases done
    rw [if_neg large] at done
    obtain ⟨small, entries⟩ := ih done
    refine ⟨?_, ?_⟩
    · intro cpu member
      rcases mem_cons.mp member with rfl | later
      · exact BitVec.not_lt.mp large
      · exact small cpu later
    intro a
    rcases entries a with ⟨cpu, member, place, value⟩ | ⟨others, kept⟩
    · exact Or.inl ⟨cpu, .tail _ member, place, value⟩
    by_cases here : (apicOf first).toNat = a
    · refine Or.inl ⟨first, (.head _), here, ?_⟩
      rw [kept, ← here, update_self]
    refine Or.inr ⟨?_, ?_⟩
    · intro cpu member
      rcases mem_cons.mp member with rfl | later
      · exact here
      · exact others cpu later
    · rw [kept, update_of_ne (Ne.symm here)]

variable {c : Config} {apicOf : BitVec 32 → BitVec 32} (rec : Recorded c apicOf)
include rec

theorem vm_cpus_value : c.header.vmCpus.toNat = c.header.maxCpus.toNat - c.header.rtCpus.toNat := by
  have fewer := rec.fewer
  rw [HvHeader.vmCpus, if_pos fewer]
  rw [lt_def] at fewer
  have := c.header.maxCpus.isLt
  rw [toNat_sub]
  omega

theorem recorded_small (linux : cpu < c.header.vmCpus) : apicOf cpu ≤ maxApicId := by
  obtain ⟨order, all, done⟩ := rec.table
  exact (init_all_table done).1 cpu ((all cpu).mpr linux)

theorem unrecorded_iff (a : BitVec 32) :
    apicToCpuId c.table a = noCpu ↔ ∀ cpu, cpu < c.header.vmCpus → apicOf cpu ≠ a := by
  obtain ⟨order, all, done⟩ := rec.table
  obtain ⟨small, entries⟩ := init_all_table done
  have vm := vm_cpus_le c.header
  unfold apicToCpuId
  by_cases low : a ≤ maxApicId
  · rw [if_pos low]
    rcases entries a.toNat with ⟨cpu, member, place, value⟩ | ⟨others, kept⟩
    · have linux := (all cpu).mp member
      constructor
      · intro none
        rw [value] at none
        rw [none, lt_def] at linux
        have top : noCpu.toNat = 2 ^ 32 - 1 := rfl
        have := c.header.vmCpus.isLt
        omega
      · intro free
        exact absurd (eq_of_toNat_eq place) (free cpu linux)
    · constructor
      · intro _ cpu linux same
        exact others cpu ((all cpu).mpr linux) (by rw [same])
      · intro _
        exact kept
  · rw [if_neg low]
    refine ⟨fun _ cpu linux same => low ?_, fun _ => rfl⟩
    rw [← same]
    exact small cpu ((all cpu).mpr linux)

omit rec in
theorem linux_id (bound : k < c.header.vmCpus.toNat) :
    (BitVec.ofNat 32 k).toNat = k ∧ BitVec.ofNat 32 k < c.header.vmCpus := by
  have word := c.header.vmCpus.isLt
  have value : (BitVec.ofNat 32 k).toNat = k := by
    rw [toNat_ofNat]
    omega
  refine ⟨value, ?_⟩
  rw [lt_def, value]
  exact bound

theorem ids_injective {i : Fin c.header.vmCpus.toNat}
    (same : (apicOf (BitVec.ofNat 32 i.val)).toNat = (apicOf (BitVec.ofNat 32 j.val)).toNat) : i = j := by
  obtain ⟨i_value, i_linux⟩ := linux_id i.isLt
  obtain ⟨j_value, j_linux⟩ := linux_id j.isLt
  have ids := rec.injective _ _ i_linux j_linux (eq_of_toNat_eq same)
  apply Fin.ext
  rw [← i_value, ← j_value, ids]

theorem vm_cpus_small : c.header.vmCpus.toNat ≤ 255 := by
  have place : ∀ i : Fin c.header.vmCpus.toNat, (apicOf (BitVec.ofNat 32 i.val)).toNat < 255 := by
    intro i
    have small := recorded_small rec (linux_id i.isLt).2
    rw [le_def, show maxApicId.toNat = 254 from rfl] at small
    omega
  have injective : Function.Injective fun i : Fin c.header.vmCpus.toNat => (⟨_, place i⟩ : Fin 255) :=
    fun _ _ same => ids_injective rec (Fin.mk.inj same)
  have count := Fintype.card_le_of_injective _ injective
  rw [Fintype.card_fin, Fintype.card_fin] at count
  exact count

end Table

section Loop

variable (c : Config)

/-- What the loop does from `apicId` on with the slots from `newCpuId` on. -/
structure LoopRight (apicId newCpuId : BitVec 32) (left : Nat) (words : Words) (result : List Started × Words) :
    Prop where
  free : ∀ s ∈ result.1, apicToCpuId c.table s.apicId = noCpu
  span : ∀ s ∈ result.1, apicId.toNat ≤ s.apicId.toNat ∧ s.apicId.toNat < apicId.toNat + left
  slot : ∀ s ∈ result.1, newCpuId ≤ s.cpuId ∧ s.cpuId < c.header.maxCpus
  distinct : result.1.Pairwise fun s t => s.cpuId ≠ t.cpuId
  stack : ∀ s ∈ result.1, s.words (u64PerPage - 3) = c.stackTop s.cpuId
  others : ∀ i, i ≠ u64PerPage - 3 → result.2 i = words i ∧ ∀ s ∈ result.1, s.words i = words i

theorem next_id {i : BitVec 32} (small : i.toNat + 1 < 2 ^ 32) : (i + 1).toNat = i.toNat + 1 := by
  rw [toNat_add, show (1 : BitVec 32).toNat = 1 from rfl]
  omega

theorem loop_right_cons (unrecorded : apicToCpuId c.table apicId = noCpu) (room : newCpuId < c.header.maxCpus)
    (next : (apicId + 1).toNat = apicId.toNat + 1)
    (rest : LoopRight c (apicId + 1) (newCpuId + 1) left (update words (u64PerPage - 3) (c.stackTop newCpuId)) result) :
    LoopRight c apicId newCpuId (left + 1) words
      (⟨apicId, newCpuId, update words (u64PerPage - 3) (c.stackTop newCpuId)⟩ :: result.1, result.2) := by
  have slot : (newCpuId + 1).toNat = newCpuId.toNat + 1 := by
    have := c.header.maxCpus.isLt
    rw [lt_def] at room
    exact next_id (by omega)
  have later : ∀ s ∈ result.1, newCpuId < s.cpuId := by
    intro s member
    have above := (rest.slot s member).1
    rw [le_def, slot] at above
    exact above
  constructor
  · intro s member
    rcases mem_cons.mp member with rfl | old
    · exact unrecorded
    · exact rest.free s old
  · intro s member
    rcases mem_cons.mp member with rfl | old
    · simp only
      omega
    · have span := rest.span s old
      omega
  · intro s member
    rcases mem_cons.mp member with rfl | old
    · exact ⟨BitVec.le_refl _, room⟩
    · exact ⟨BitVec.le_of_lt (later s old), (rest.slot s old).2⟩
  · refine pairwise_cons.mpr ⟨?_, rest.distinct⟩
    intro s member same
    have above := later s member
    rw [show newCpuId = s.cpuId from same] at above
    exact BitVec.lt_irrefl _ above
  · intro s member
    rcases mem_cons.mp member with rfl | old
    · simp only [update_self]
    · exact rest.stack s old
  · intro i other
    obtain ⟨last, each⟩ := rest.others i other
    have kept : update words (u64PerPage - 3) (c.stackTop newCpuId) i = words i :=
      update_of_ne other ..
    refine ⟨last.trans kept, ?_⟩
    intro s member
    rcases mem_cons.mp member with rfl | old
    · exact kept
    · exact (each s old).trans kept

theorem start_loop_right (apicId newCpuId : BitVec 32) (words : Words) (small : apicId.toNat + left < 2 ^ 32) :
    LoopRight c apicId newCpuId left words (c.startLoop left apicId newCpuId words) := by
  induction left generalizing apicId newCpuId words with
  | zero =>
    exact ⟨by simp [Config.startLoop], by simp [Config.startLoop], by simp [Config.startLoop], List.Pairwise.nil,
      by simp [Config.startLoop], fun i _ => ⟨rfl, by simp [Config.startLoop]⟩⟩
  | succ left ih =>
    have next := next_id (i := apicId) (by omega)
    rw [Config.startLoop]
    by_cases unrecorded : apicToCpuId c.table apicId = noCpu
    · rw [if_pos unrecorded]
      by_cases full : newCpuId ≥ c.header.maxCpus
      · rw [if_pos full]
        exact ⟨by simp, by simp, by simp, List.Pairwise.nil, by simp, fun i _ => ⟨rfl, by simp⟩⟩
      · rw [if_neg full]
        exact loop_right_cons c unrecorded (BitVec.not_le.mp full) next (ih _ _ _ (by omega))
    rw [if_neg unrecorded]
    have rest := ih (apicId + 1) newCpuId words (by omega)
    refine ⟨rest.free, ?_, rest.slot, rest.distinct, rest.stack, rest.others⟩
    intro s member
    have span := rest.span s member
    omega

theorem all_started (left : Nat) (apicId newCpuId : BitVec 32) (words : Words)
    (last : apicId.toNat + left = c.header.maxCpus.toNat)
    (slots : newCpuId.toNat = max apicId.toNat c.header.vmCpus.toNat)
    (order : ∀ a, a < c.header.maxCpus → (apicToCpuId c.table a = noCpu ↔ c.header.vmCpus ≤ a))
    {a : BitVec 32} (from_here : apicId ≤ a) (rt : c.header.vmCpus ≤ a) (below : a < c.header.maxCpus) :
    ∃ s ∈ (c.startLoop left apicId newCpuId words).1, s.apicId = a := by
  have word := c.header.maxCpus.isLt
  rw [le_def] at from_here rt
  rw [lt_def] at below
  induction left generalizing apicId newCpuId words with
  | zero => omega
  | succ left ih =>
    have next := next_id (i := apicId) (by omega)
    have here := order apicId (by rw [lt_def]; omega)
    rw [Config.startLoop]
    by_cases unrecorded : apicToCpuId c.table apicId = noCpu
    · have rt_here := here.mp unrecorded
      rw [le_def] at rt_here
      have room : ¬ newCpuId ≥ c.header.maxCpus := by
        rw [ge_iff_le, le_def]
        omega
      have slot : (newCpuId + 1).toNat = newCpuId.toNat + 1 := next_id (by omega)
      rw [if_pos unrecorded, if_neg room]
      by_cases same : apicId = a
      · exact ⟨_, (.head _), same⟩
      have above : apicId.toNat ≠ a.toNat := fun value => same (eq_of_toNat_eq value)
      obtain ⟨s, member, found⟩ := ih (apicId + 1) (newCpuId + 1)
        (update words (u64PerPage - 3) (c.stackTop newCpuId)) (by omega) (by omega) (by omega)
      exact ⟨s, .tail _ member, found⟩
    · have linux : apicId.toNat < c.header.vmCpus.toNat := by
        have below_vm := mt here.mpr unrecorded
        rw [le_def] at below_vm
        omega
      rw [if_neg unrecorded]
      exact ih (apicId + 1) newCpuId words (by omega) (by omega) (by omega)

end Loop

section Messages

variable {c : Config}

theorem mem_span : a ∈ span first last ↔ first ≤ a ∧ a < last := by
  simp only [span, List.mem_map, mem_range, le_def, lt_def]
  have word := last.isLt
  constructor
  · rintro ⟨k, bound, rfl⟩
    rw [toNat_add, toNat_ofNat]
    omega
  rintro ⟨low, high⟩
  refine ⟨a.toNat - first.toNat, by omega, ?_⟩
  apply eq_of_toNat_eq
  rw [toNat_add, toNat_ofNat]
  omega

theorem reaches_iff (addressed : Addressed c) {id : BitVec 32} (below : id < c.header.maxCpus) :
    (destination c.isX2apic id).Reaches a ↔ id = a := by
  have word := c.header.maxCpus.isLt
  rw [lt_def] at below
  by_cases wide : c.isX2apic = true
  · have single : id ≠ 0xffffffff := by
      rintro rfl
      rw [show (0xffffffff : BitVec 32).toNat = 2 ^ 32 - 1 from rfl] at below
      omega
    rw [destination, if_pos wide]
    exact or_iff_right single
  have few := addressed.resolve_left wide
  rw [le_def, show (255 : BitVec 32).toNat = 255 from rfl] at few
  have whole : (id.setWidth 8).setWidth 32 = id := by
    apply eq_of_toNat_eq
    rw [toNat_setWidth, toNat_setWidth]
    omega
  have single : id.setWidth 8 ≠ 0xff := by
    intro same
    have value := congrArg BitVec.toNat same
    rw [toNat_setWidth, show (0xff : BitVec 8).toNat = 255 from rfl] at value
    omega
  rw [destination, if_neg wide, ApicId.Reaches, whole]
  exact or_iff_right single

theorem hit_start (started : List Started) (a : BitVec 32) :
    Hit (c.startIpis started) a ↔ ∃ s ∈ started, (destination c.isX2apic s.apicId).Reaches a := by
  constructor
  · rintro ⟨ipi, member, reaches⟩
    obtain ⟨s, here, sent⟩ := mem_flatMap.mp member
    refine ⟨s, here, ?_⟩
    have dest : ipi.dest = destination c.isX2apic s.apicId := by
      simp only [startAp, mem_cons, not_mem_nil, or_false] at sent
      rcases sent with rfl | rfl | rfl
      · rfl
      · rfl
      · rfl
    rw [← dest]
    exact reaches
  · rintro ⟨s, here, reaches⟩
    exact ⟨⟨_, .init⟩, mem_flatMap.mpr ⟨s, here, (.head _)⟩, reaches⟩

theorem hit_shutdown (a : BitVec 32) :
    Hit c.shutdownRtCpus a ↔
      ∃ id, c.header.vmCpus ≤ id ∧ id < c.header.maxCpus ∧ (destination c.isX2apic id).Reaches a := by
  constructor
  · rintro ⟨ipi, member, reaches⟩
    obtain ⟨id, here, sent⟩ := mem_flatMap.mp member
    rw [shutdownAp, mem_singleton] at sent
    rw [sent] at reaches
    exact ⟨id, (mem_span.mp here).1, (mem_span.mp here).2, reaches⟩
  · rintro ⟨id, low, high, reaches⟩
    exact ⟨⟨_, .init⟩, mem_flatMap.mpr ⟨id, mem_span.mpr ⟨low, high⟩, mem_singleton_self _⟩, reaches⟩

theorem hit_shutdown_iff (addressed : Addressed c) (a : BitVec 32) :
    Hit c.shutdownRtCpus a ↔ c.header.vmCpus ≤ a ∧ a < c.header.maxCpus := by
  rw [hit_shutdown]
  constructor
  · rintro ⟨id, low, high, reaches⟩
    rw [← (reaches_iff addressed high).mp reaches]
    exact ⟨low, high⟩
  · rintro ⟨low, high⟩
    exact ⟨a, low, high, (reaches_iff addressed high).mpr rfl⟩

end Messages

section Both

variable {c : Config} {apicOf : BitVec 32 → BitVec 32} (rec : Recorded c apicOf) (entry : BitVec 64) (words : Words)

def loopWords (c : Config) (entry : BitVec 64) (words : Words) : Words :=
  Function.update (copyCode c.code words) (u64PerPage - 1) entry

theorem loop_of_start (c : Config) : LoopRight c 0 c.enteredCpus c.header.maxCpus.toNat (loopWords c entry words)
      (c.startLoop c.header.maxCpus.toNat 0 c.enteredCpus (loopWords c entry words)) := by
  apply start_loop_right
  rw [show (0 : BitVec 32).toNat = 0 from rfl, Nat.zero_add]
  exact c.header.maxCpus.isLt

theorem started_below (member : s ∈ (c.startRtCpus entry words).1) : s.apicId < c.header.maxCpus := by
  have span := (loop_of_start entry words c).span s member
  rw [show (0 : BitVec 32).toNat = 0 from rfl, Nat.zero_add] at span
  rw [lt_def]
  exact span.2

include rec

theorem start_right (addressed : Addressed c) : StartRight c apicOf entry words := by
  have loop := loop_of_start entry words c
  refine ⟨?_, loop.distinct, ?_, ?_, ?_⟩
  · intro cpu linux hit
    obtain ⟨s, member, reaches⟩ := (hit_start _ _).mp hit
    have same := (reaches_iff addressed (started_below entry words member)).mp reaches
    exact (unrecorded_iff rec s.apicId).mp (loop.free s member) cpu linux same.symm
  · intro s member
    rw [← rec.entered]
    exact loop.slot s member
  · intro s member
    refine ⟨loop.stack s member, ?_⟩
    rw [(loop.others (u64PerPage - 1) (by decide)).2 s member, loopWords, update_self]
  · funext i
    by_cases inside : i < u64PerPage
    · exact if_pos inside
    have page : u64PerPage = 512 := rfl
    have code := rec.page
    have restored : (c.startRtCpus entry words).2 i = loopWords c entry words i :=
      (if_neg inside).trans (loop.others i (by omega)).1
    rw [restored, loopWords, update_of_ne (by omega), copyCode, List.getD_eq_getElem?_getD,
      List.getElem?_eq_none (by omega), Option.getD_none]

theorem order_of_low (low : ∀ cpu, cpu < c.header.vmCpus → apicOf cpu < c.header.vmCpus) (a : BitVec 32) :
    apicToCpuId c.table a = noCpu ↔ c.header.vmCpus ≤ a := by
  have place : ∀ i : Fin c.header.vmCpus.toNat, (apicOf (BitVec.ofNat 32 i.val)).toNat < c.header.vmCpus.toNat := by
    intro i
    have bound := low _ (linux_id i.isLt).2
    rw [lt_def] at bound
    exact bound
  let number : Fin c.header.vmCpus.toNat → Fin c.header.vmCpus.toNat := fun i => ⟨_, place i⟩
  have injective : Function.Injective number := fun _ _ same => ids_injective rec (Fin.mk.inj same)
  -- an injection of the ids below `vm_cpus` into themselves leaves none out
  have onto := Finite.injective_iff_surjective.mp injective
  rw [unrecorded_iff rec]
  constructor
  · intro free
    by_contra small
    have bound : a.toNat < c.header.vmCpus.toNat := by
      rw [le_def] at small
      omega
    obtain ⟨i, value⟩ := onto ⟨a.toNat, bound⟩
    exact free _ (linux_id i.isLt).2 (eq_of_toNat_eq (Fin.mk.inj value))
  · intro high cpu linux same
    have bound := low cpu linux
    rw [same, lt_def] at bound
    rw [le_def] at high
    omega

theorem hit_start_iff (addressed : Addressed c) (low : ∀ cpu, cpu < c.header.vmCpus → apicOf cpu < c.header.vmCpus)
    (a : BitVec 32) :
    Hit (c.startIpis (c.startRtCpus entry words).1) a ↔ c.header.vmCpus ≤ a ∧ a < c.header.maxCpus := by
  have order := order_of_low rec low
  rw [hit_start]
  constructor
  · rintro ⟨s, member, reaches⟩
    have below := started_below entry words member
    have same := (reaches_iff addressed below).mp reaches
    rw [← same]
    exact ⟨(order _).mp ((loop_of_start entry words c).free s member), below⟩
  rintro ⟨high, below⟩
  obtain ⟨s, member, same⟩ := all_started c c.header.maxCpus.toNat 0 c.enteredCpus (loopWords c entry words)
    (Nat.zero_add _) (by rw [rec.entered]; exact (Nat.zero_max _).symm) (fun a _ => order a)
    (by rw [le_def]; exact Nat.zero_le _) high below
  exact ⟨s, member, (reaches_iff addressed (started_below entry words member)).mpr same⟩

theorem addressed_of_outside (outside : ∀ cpu, cpu < c.header.vmCpus → ¬ Hit c.shutdownRtCpus (apicOf cpu)) :
    Addressed c := by
  by_contra neither
  obtain ⟨narrow, many⟩ := not_or.mp neither
  have few := vm_cpus_small rec
  have value := vm_cpus_value rec
  have fewer := rec.fewer
  rw [lt_def] at fewer
  rw [le_def, show (255 : BitVec 32).toNat = 255 from rfl] at many
  have linux : (0 : BitVec 32) < c.header.vmCpus := by
    rw [lt_def, show (0 : BitVec 32).toNat = 0 from rfl]
    omega
  apply outside 0 linux
  rw [hit_shutdown]
  refine ⟨255, ?_, ?_, ?_⟩
  · rw [le_def]
    exact few
  · rw [lt_def, show (255 : BitVec 32).toNat = 255 from rfl]
    omega
  · rw [destination, if_neg narrow]
    exact Or.inl rfl

/-- While the APIC ids can be addressed the start is right for every assignment. Start and
    shutdown agree if and only if, moreover, the Linux CPUs have the ids below `vm_cpus`. -/
theorem rt_cpus_agree_iff :
    (Addressed c → StartRight c apicOf entry words) ∧
      (Agree c apicOf entry words ↔
        Addressed c ∧ ∀ cpu, cpu < c.header.vmCpus → apicOf cpu < c.header.vmCpus) := by
  refine ⟨start_right rec entry words, ?_, ?_⟩
  · intro agree
    have addressed := addressed_of_outside rec agree.outside
    refine ⟨addressed, ?_⟩
    intro cpu linux
    by_contra high
    exact agree.outside cpu linux
      ((hit_shutdown_iff addressed _).mpr ⟨BitVec.not_lt.mp high, rec.below cpu linux⟩)
  · rintro ⟨addressed, low⟩
    refine ⟨start_right rec entry words addressed, ?_, ?_⟩
    · intro a
      rw [hit_shutdown_iff addressed, hit_start_iff rec entry words addressed low]
    intro cpu linux hit
    have bound := low cpu linux
    have above := ((hit_shutdown_iff addressed _).mp hit).1
    rw [BitVec.lt_def] at bound
    rw [BitVec.le_def] at above
    omega

end Both

def oneLinuxCpu (apicId : BitVec 32) : Config where
  header := ⟨2, 1⟩
  isX2apic := true
  table := Function.update (fun _ => noCpu) apicId.toNat 0
  enteredCpus := 1
  percpuArray := 0xffffff0000400000
  code := []

theorem one_linux_recorded (small : apicId < 2) : Recorded (oneLinuxCpu apicId) fun _ => apicId := by
  have vm : (oneLinuxCpu apicId).header.vmCpus = 1 := show HvHeader.vmCpus ⟨2, 1⟩ = 1 by decide
  have only : ∀ cpu, cpu < (oneLinuxCpu apicId).header.vmCpus → cpu = 0 := by
    intro cpu linux
    rw [vm, lt_def, show (1 : BitVec 32).toNat = 1 from rfl] at linux
    apply eq_of_toNat_eq
    rw [show (0 : BitVec 32).toNat = 0 from rfl]
    omega
  have low : ¬ apicId > maxApicId := by
    rw [lt_def, show (2 : BitVec 32).toNat = 2 from rfl] at small
    rw [gt_iff_lt, lt_def, show maxApicId.toNat = 254 from rfl]
    omega
  have fewer : (1 : BitVec 32) < 2 := by decide
  refine ⟨fewer, vm.symm, ⟨[0], ?_, ?_⟩, ?_, fun _ _ => small, Nat.zero_le _⟩
  · intro cpu
    rw [mem_singleton]
    refine ⟨?_, only cpu⟩
    rintro rfl
    rw [vm]
    decide
  · simp only [initAll, initPercpu, if_neg low]
    rfl
  · intro cpu cpu' linux linux' _
    rw [only cpu linux, only cpu' linux']

theorem linux_on_first_agrees : Agree (oneLinuxCpu 0) (fun _ => 0) 0x100000 (fun _ => 0) :=
  (rt_cpus_agree_iff (one_linux_recorded (by decide)) 0x100000 fun _ => 0).2.mpr ⟨Or.inl rfl, fun _ _ => by decide⟩

/-- Linux runs on APIC id 1: the start wakes id 0, and the shutdown stops id 1. -/
theorem shutdown_stops_linux :
    Recorded (oneLinuxCpu 1) (fun _ => 1) ∧
      ((oneLinuxCpu 1).startRtCpus 0x100000 fun _ => 0).1.map Started.apicId = [0] ∧
      Hit (oneLinuxCpu 1).shutdownRtCpus 1 ∧ ¬ Agree (oneLinuxCpu 1) (fun _ => 1) 0x100000 fun _ => 0 := by
  have hit : Hit (oneLinuxCpu 1).shutdownRtCpus 1 :=
    (hit_shutdown 1).mpr ⟨1, by decide, by decide, Or.inr rfl⟩
  refine ⟨one_linux_recorded (by decide), by decide +kernel, hit, ?_⟩
  intro agree
  exact agree.outside 0 (by decide) hit

end RtosRvmRtCpus
