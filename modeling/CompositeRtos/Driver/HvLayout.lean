import CompositeRtos.Rvm.RootCell

/-!
The layout of the hypervisor region: core image, per-CPU array, configuration and frame
pool. The driver (`jailhouse_cmd_enable`) checks that the first three fit in bytes and puts
the configuration behind the per-CPU array. The hypervisor (`consts.rs`, `frame::init`)
finds it there again, and makes a pool of the whole pages that are left, from the rounded up
end of the configuration to the rounded down end of the region.
-/
namespace RtosDriverHvLayout
open RtosRvmMemorySet RtosRvmRootCell BitVec

/-- `sizeof(struct jailhouse_system)` and `sizeof(struct jailhouse_memory)`, which are those
    of `HvSystemConfig` and `HvMemoryRegion`. -/
def systemBytes : BitVec 64 := 120

def memoryBytes : BitVec 64 := 32

def perCpuSize : BitVec 64 := 0x80000

def jailhouseBase : BitVec 64 := 0xffffff0000000000

/-! The sizes that `jailhouse_cmd_enable` computes, and its check. -/

def coreAndPercpuSize (coreSize percpuSize : BitVec 64) (maxCpus : BitVec 32) : BitVec 64 :=
  coreSize + maxCpus.setWidth 64 * percpuSize

def configBytes (numMemRegions : BitVec 32) : BitVec 64 := systemBytes + numMemRegions.signExtend 64 * memoryBytes

def doesNotFit (hvSize coreAndPercpu config : BitVec 64) : Bool :=
  decide (hvSize ≤ coreAndPercpu) || decide (hvSize - coreAndPercpu ≤ config)

/-- The header of the image, the number of CPUs and the configuration that the driver
    writes. The region begins at a page boundary, and the regions are counted in an `int`. -/
structure Setup where
  coreSize : BitVec 64
  percpuSize : BitVec 64
  maxCpus : BitVec 32
  config : HvSystemConfig
  aligned_start : 2 ^ 12 ∣ config.hypervisorMemory.physStart.toNat
  counted : config.memRegions.length < 2 ^ 31

namespace Setup

variable (setup : Setup)

def hvSize : BitVec 64 := setup.config.hypervisorMemory.size

def numMemRegions : BitVec 32 := BitVec.ofNat 32 setup.config.memRegions.length

/-! The driver. -/

def hvCoreAndPercpuSize : BitVec 64 := coreAndPercpuSize setup.coreSize setup.percpuSize setup.maxCpus

def configSize : BitVec 64 := configBytes setup.numMemRegions

def refused : Bool := doesNotFit setup.hvSize setup.hvCoreAndPercpuSize setup.configSize

def configAddress : BitVec 64 := jailhouseBase + setup.hvCoreAndPercpuSize

/-! The hypervisor. The linker script puts the end of the core at its size. -/

def perCpuArrayPtr : BitVec 64 := hvBase + setup.coreSize

def hvConfigPtr : BitVec 64 := setup.perCpuArrayPtr + setup.maxCpus.setWidth 64 * perCpuSize

def systemConfigSize : BitVec 64 := systemBytes + setup.numMemRegions.setWidth 64 * memoryBytes

def freeMemoryStart : BitVec 64 := alignUp (setup.hvConfigPtr + setup.systemConfigSize)

def hvEnd : BitVec 64 := hvBase + setup.hvSize

def poolBase : BitVec 64 := alignUp (virtToPhys setup.config setup.freeMemoryStart)

def poolPages : BitVec 64 := alignUp (alignDown setup.hvEnd - setup.freeMemoryStart) / 0x1000

end Setup

structure Area where
  start : Nat
  bytes : Nat

def Area.Inside (a outer : Area) : Prop := outer.start ≤ a.start ∧ a.start + a.bytes ≤ outer.start + outer.bytes

def Area.Apart (a b : Area) : Prop := a.start + a.bytes ≤ b.start ∨ b.start + b.bytes ≤ a.start

def region (setup : Setup) : Area := ⟨hvBase.toNat, setup.hvSize.toNat⟩

def areas (setup : Setup) : List Area :=
  [⟨hvBase.toNat, setup.coreSize.toNat⟩,
    ⟨setup.perCpuArrayPtr.toNat, setup.maxCpus.toNat * perCpuSize.toNat⟩,
    ⟨setup.hvConfigPtr.toNat, setup.systemConfigSize.toNat⟩,
    ⟨(setup.poolBase + physVirtOffset setup.config).toNat, 4096 * setup.poolPages.toNat⟩]

structure Fits (setup : Setup) : Prop where
  same_config : setup.hvConfigPtr = setup.configAddress
  pool_left : setup.freeMemoryStart ≤ alignDown setup.hvEnd
  apart : (areas setup).Pairwise Area.Apart
  inside : ∀ a ∈ areas setup, a.Inside (region setup)

def occupied (setup : Setup) : Nat :=
  setup.coreSize.toNat + setup.maxCpus.toNat * 0x80000 + (120 + setup.config.memRegions.length * 32)

theorem align_up_aligned (aligned : 2 ^ 12 ∣ addr.toNat) : alignUp addr = addr := by
  have bound := addr.isLt
  apply eq_of_toNat_eq
  rw [align_up_floor]
  omega

section Sizes

variable (setup : Setup)

theorem num_mem_regions_value : setup.numMemRegions.toNat = setup.config.memRegions.length := by
  have counted := setup.counted
  rw [Setup.numMemRegions, toNat_ofNat, Nat.mod_eq_of_lt (by omega)]

theorem system_config_size_value : setup.systemConfigSize.toNat = 120 + setup.config.memRegions.length * 32 := by
  have counted := setup.counted
  have number := num_mem_regions_value setup
  rw [Setup.systemConfigSize, toNat_add, toNat_mul, toNat_setWidth, number,
    show systemBytes.toNat = 120 from rfl, show memoryBytes.toNat = 32 from rfl]
  omega

theorem config_size_same : setup.configSize = setup.systemConfigSize := by
  have counted := setup.counted
  have number := num_mem_regions_value setup
  have positive : setup.numMemRegions.msb = false := by
    rw [msb_eq_false_iff_two_mul_lt]
    omega
  rw [Setup.configSize, configBytes, Setup.systemConfigSize, signExtend_eq_setWidth_of_msb_false positive]

theorem percpu_value : (setup.maxCpus.setWidth 64 * perCpuSize).toNat = setup.maxCpus.toNat * 0x80000 := by
  have few := setup.maxCpus.isLt
  rw [toNat_mul, toNat_setWidth, show perCpuSize.toNat = 0x80000 from rfl]
  omega

theorem pool_at_start : setup.poolBase + physVirtOffset setup.config = setup.freeMemoryStart := by
  have start := align_down_dvd (setup.hvConfigPtr + setup.systemConfigSize + 0x1000 - 1)
  have free_aligned : 2 ^ 12 ∣ setup.freeMemoryStart.toNat := start
  have physical := setup.aligned_start
  have base : 2 ^ 12 ∣ hvBase.toNat := by decide
  have aligned : 2 ^ 12 ∣ (virtToPhys setup.config setup.freeMemoryStart).toNat := by
    have := setup.freeMemoryStart.isLt
    have := setup.config.hypervisorMemory.physStart.isLt
    have := hvBase.isLt
    rw [virtToPhys, physVirtOffset, toNat_sub, toNat_sub]
    omega
  rw [Setup.poolBase, align_up_aligned aligned, virtToPhys]
  grind

end Sizes

section Checked

variable {setup : Setup} (mapped : hvBase.toNat + setup.hvSize.toNat < 2 ^ 64)

theorem hv_base_value : hvBase.toNat = 2 ^ 64 - 2 ^ 40 := rfl

structure Placed (setup : Setup) : Prop where
  array : setup.perCpuArrayPtr.toNat = hvBase.toNat + setup.coreSize.toNat
  config : setup.hvConfigPtr.toNat = hvBase.toNat + setup.coreSize.toNat + setup.maxCpus.toNat * 0x80000
  config_end : (setup.hvConfigPtr + setup.systemConfigSize).toNat = hvBase.toNat + occupied setup
  region_end : (alignDown setup.hvEnd).toNat = hvBase.toNat + setup.hvSize.toNat / 4096 * 4096

include mapped

theorem placed (enough : occupied setup < setup.hvSize.toNat) : Placed setup := by
  have base := hv_base_value
  have cpus := percpu_value setup
  have size := system_config_size_value setup
  unfold occupied at enough
  have array : setup.perCpuArrayPtr.toNat = hvBase.toNat + setup.coreSize.toNat :=
    toNat_add_of_lt (by omega)
  have config : setup.hvConfigPtr.toNat =
      hvBase.toNat + setup.coreSize.toNat + setup.maxCpus.toNat * 0x80000 := by
    rw [Setup.hvConfigPtr, toNat_add_of_lt (by omega), array, cpus]
  refine ⟨array, config, ?_, ?_⟩
  · rw [toNat_add_of_lt (by omega), config, size, occupied]
    omega
  · rw [align_down_floor, Setup.hvEnd, toNat_add_of_lt mapped, base]
    omega

theorem checked_enough (compiled : setup.percpuSize = perCpuSize) (accepted : setup.refused = false)
    (core : setup.coreSize.toNat ≤ setup.hvSize.toNat) : occupied setup < setup.hvSize.toNat := by
  have base := hv_base_value
  have cpus := percpu_value setup
  have few := setup.maxCpus.isLt
  have size := system_config_size_value setup
  have total : setup.hvCoreAndPercpuSize.toNat = setup.coreSize.toNat + setup.maxCpus.toNat * 0x80000 := by
    rw [Setup.hvCoreAndPercpuSize, coreAndPercpuSize, compiled, toNat_add_of_lt (by omega), cpus]
  simp only [Setup.refused, doesNotFit, Bool.or_eq_false_iff, decide_eq_false_iff_not, le_def, config_size_same,
    size] at accepted
  obtain ⟨fits, rest⟩ := accepted
  rw [toNat_sub_of_le (le_def.mpr (by omega)), total] at rest
  rw [total] at fits
  unfold occupied
  omega

theorem pool_left_iff (enough : occupied setup < setup.hvSize.toNat)
    (whole : hvBase.toNat ≤ setup.freeMemoryStart.toNat) :
    setup.freeMemoryStart ≤ alignDown setup.hvEnd ↔
      (occupied setup + 4095) / 4096 * 4096 ≤ setup.hvSize.toNat / 4096 * 4096 := by
  have base := hv_base_value
  have here := placed mapped enough
  have start := align_up_floor (setup.hvConfigPtr + setup.systemConfigSize)
  rw [here.config_end] at start
  rw [le_def, here.region_end, Setup.freeMemoryStart, start]
  rw [Setup.freeMemoryStart, start] at whole
  omega

theorem areas_fit (compiled : setup.percpuSize = perCpuSize)
    (pages : (occupied setup + 4095) / 4096 * 4096 ≤ setup.hvSize.toNat / 4096 * 4096)
    (enough : occupied setup < setup.hvSize.toNat) : Fits setup := by
  have base := hv_base_value
  have here := placed mapped enough
  have size := system_config_size_value setup
  have start : setup.freeMemoryStart.toNat = hvBase.toNat + (occupied setup + 4095) / 4096 * 4096 := by
    rw [Setup.freeMemoryStart, align_up_floor, here.config_end]
    omega
  have order : setup.freeMemoryStart ≤ alignDown setup.hvEnd := by
    rw [le_def, start, here.region_end]
    omega
  have pool : 4096 * setup.poolPages.toNat =
      setup.hvSize.toNat / 4096 * 4096 - (occupied setup + 4095) / 4096 * 4096 := by
    have difference := toNat_sub_of_le order
    rw [start, here.region_end] at difference
    rw [Setup.poolPages, toNat_udiv, align_up_floor, difference, show (0x1000 : BitVec 64).toNat = 4096 from rfl]
    omega
  have array := here.array
  have config := here.config
  refine ⟨?_, order, ?_, ?_⟩
  · rw [Setup.configAddress, Setup.hvCoreAndPercpuSize, coreAndPercpuSize, compiled, Setup.hvConfigPtr,
      Setup.perCpuArrayPtr, show jailhouseBase = hvBase from rfl, BitVec.add_assoc]
  · simp only [areas, pool_at_start, List.pairwise_cons, List.mem_cons, List.not_mem_nil, or_false, forall_eq_or_imp,
      forall_eq, IsEmpty.forall_iff, implies_true, List.Pairwise.nil, and_true, Area.Apart, start, array, config, size,
      pool, show perCpuSize.toNat = 0x80000 from rfl]
    unfold occupied
    omega
  simp only [areas, pool_at_start, List.mem_cons, List.not_mem_nil, or_false, forall_eq_or_imp, forall_eq,
    Area.Inside, region, start, array, config, size, pool, show perCpuSize.toNat = 0x80000 from rfl]
  unfold occupied at *
  omega

end Checked

/-- A setup that passes the checks of the driver has the layout exactly when the pages in use
    are among the whole pages of the region. -/
theorem layout_fits_iff (setup : Setup) (compiled : setup.percpuSize = perCpuSize)
    (mapped : hvBase.toNat + setup.hvSize.toNat < 2 ^ 64) (accepted : setup.refused = false) :
    Fits setup ↔ (occupied setup + 4095) / 4096 * 4096 ≤ setup.hvSize.toNat / 4096 * 4096 := by
  constructor
  · intro fits
    have core := (fits.inside _ List.mem_cons_self).2
    have enough := checked_enough mapped compiled accepted (by simp only [region] at core; omega)
    have pool := (fits.inside _ (List.mem_cons_of_mem _ (List.mem_cons_of_mem _ (List.mem_cons_of_mem _
      List.mem_cons_self)))).1
    rw [pool_at_start] at pool
    exact (pool_left_iff mapped enough pool).mp fits.pool_left
  · intro pages
    have core : setup.coreSize.toNat ≤ setup.hvSize.toNat := by
      unfold occupied at pages
      omega
    exact areas_fit mapped compiled pages (checked_enough mapped compiled accepted core)

def setup (size : BitVec 64) : Setup where
  coreSize := 0x100000
  percpuSize := 0x80000
  maxCpus := 1
  config := ⟨⟨0x40000000, 0, size, 0⟩, [⟨0, 0, 0x40000000, 7⟩]⟩
  aligned_start := by
    change 2 ^ 12 ∣ (0x40000000 : BitVec 64).toNat
    decide
  counted := by
    change 1 < 2 ^ 31
    decide

/-- Two mebibytes are enough for a pool. -/
theorem two_mebibytes_fit : (setup 0x200000).refused = false ∧ Fits (setup 0x200000) :=
  ⟨by decide, (layout_fits_iff (setup 0x200000) rfl (by decide) (by decide)).mpr (by decide)⟩

/-- The region ends one byte behind the configuration. The pool would begin in the page after
    the region and have all the pages of the address space but one. -/
theorem last_page_not_whole : (setup 0x180099).refused = false ∧
    ¬ (setup 0x180099).freeMemoryStart ≤ alignDown (setup 0x180099).hvEnd ∧
    (setup 0x180099).poolPages = 0xfffffffffffff := by
  decide

end RtosDriverHvLayout
