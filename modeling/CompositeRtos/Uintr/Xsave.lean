import CompositeRtos.Uintr.Permission

/-!
The user-interrupt component of XSAVE and XRSTOR (`fpu_helper.c`). The six words of the
component are stored last, before the header, and read back in the same order. UIF and the
misc register share a word: UIF is added as its top bit, so that the word can be taken
apart again as long as misc leaves that bit alone. WRMSR writes any value to misc.
-/
namespace RtosUintrXsave
open RtosByteMemory RtosTransition RtosUintrMachine RtosUintrPermission
open BitVec (eq_of_toNat_eq getLsbD_and getLsbD_not getLsbD_or getLsbD_zero ofNat_eq_ofNat toNat_add toNat_ofNat
  toNat_ushiftRight)

def xstateFp : BitVec 64 := 0x1
def xstateSse : BitVec 64 := 0x2
def xstateBndregs : BitVec 64 := 0x8
def xstateBndcsr : BitVec 64 := 0x10
def xstatePkru : BitVec 64 := 0x200
def xstateUintr : BitVec 64 := 0x4000

def xstateBvOffset : BitVec 64 := 0x200
def xcompBvOffset : BitVec 64 := 0x208
def reserve0Offset : BitVec 64 := 0x210
def uintrOffset : BitVec 64 := 0xa90

/-- What of the CPU decides what is saved. -/
structure Config where
  osxsave : Bool
  cs64 : Bool
  mpxInUse : Bool
  xcr0 : BitVec 64

inductive XFault where
  | illop
  | gpf
  | page
  deriving DecidableEq

/-! The other components: where their registers are stored and loaded. -/

structure Range where
  offset : Nat
  length : Nat
  deriving DecidableEq

def fpregs : List Range := (List.range 8).flatMap fun i => [⟨0x20 + 16 * i, 8⟩, ⟨0x28 + 16 * i, 2⟩]

def xmmRegs (cs64 : Bool) : List Range :=
  (List.range (if cs64 then 16 else 8)).flatMap fun i => [⟨0xa0 + 16 * i, 8⟩, ⟨0xa8 + 16 * i, 8⟩]

def bndRegs : List Range := (List.range 4).flatMap fun i => [⟨0x3c0 + 16 * i, 8⟩, ⟨0x3c8 + 16 * i, 8⟩]

def requested (mask component : BitVec 64) (ranges : List Range) : List Range :=
  if mask &&& component ≠ 0 then ranges else []

def otherStores (cs64 : Bool) (rfbm opt : BitVec 64) : List Range :=
  requested opt xstateFp ([⟨0, 2⟩, ⟨2, 2⟩, ⟨4, 2⟩, ⟨8, 8⟩, ⟨0x10, 8⟩] ++ fpregs) ++
  -- saving MXCSR is not suppressed by XSAVEOPT
  requested rfbm xstateSse [⟨0x18, 4⟩, ⟨0x1c, 4⟩] ++
  requested opt xstateSse (xmmRegs cs64) ++
  requested opt xstateBndregs bndRegs ++
  requested opt xstateBndcsr [⟨0x400, 8⟩, ⟨0x408, 8⟩] ++
  requested opt xstatePkru [⟨0xa80, 8⟩]

def otherLoads (cs64 : Bool) (rfbm bv : BitVec 64) : List Range :=
  requested (rfbm &&& bv) xstateFp ([⟨0, 2⟩, ⟨2, 2⟩, ⟨4, 2⟩] ++ fpregs) ++
  requested rfbm xstateSse [⟨0x18, 4⟩] ++
  requested (rfbm &&& bv) xstateSse (xmmRegs cs64) ++
  requested (rfbm &&& bv) xstateBndregs bndRegs ++
  requested (rfbm &&& bv) xstateBndcsr [⟨0x400, 8⟩, ⟨0x408, 8⟩] ++
  requested (rfbm &&& bv) xstatePkru [⟨0xa80, 8⟩]

def rangeAllowed (access : Access) (ptr : BitVec 64) (r : Range) : Bool :=
  (List.range r.length).all fun k => access (ptr + BitVec.ofNat 64 (r.offset + k))

/-- `image` has the registers as they are saved, byte by byte at their offset in the area. -/
def storeRange (ptr : BitVec 64) (image : Nat → BitVec 8) (r : Range) (m : Memory) : Memory := fun a =>
  if r.offset ≤ (a - ptr).toNat ∧ (a - ptr).toNat < r.offset + r.length then image (a - ptr).toNat else m a

def storeRanges (writable : Access) (ptr : BitVec 64) (image : Nat → BitVec 8) :
    List Range → Memory → Memory × Bool
  | [], m => (m, true)
  | r :: rest, m =>
    if rangeAllowed writable ptr r then storeRanges writable ptr image rest (storeRange ptr image r m)
    else (m, false)

/-! The component itself. -/

/-- A sequence of `cpu_stq_data_ra`, up to the first fault. -/
def storeWords (writable : Access) : List (BitVec 64 × BitVec 64) → Memory → Memory × Bool
  | [], m => (m, true)
  | (a, v) :: rest, m =>
    if wordAllowed writable a then storeWords writable rest (stq m a v) else (m, false)

/-- A sequence of assignments from `cpu_ldq_data_ra`, up to the first fault. -/
def loadWords (readable : Access) (m : Memory) :
    List (BitVec 64 × (Core → BitVec 64 → Core)) → Core → Core × Bool
  | [], core => (core, true)
  | (a, put) :: rest, core =>
    if wordAllowed readable a then loadWords readable m rest (put core (ldq m a)) else (core, false)

def fieldsFrom {α : Type} : BitVec 64 → List α → List (BitVec 64 × α)
  | _, [] => []
  | a, field :: rest => (a, field) :: fieldsFrom (a + 8) rest

def doXsaveUintr (core : Core) : List (BitVec 64) :=
  [core.cpu.uintrHandler, core.cpu.uintrStackadjust, core.uintrMisc + (core.cpu.uintrUif <<< 63),
    core.uintrPd, core.cpu.uintrRr, core.uintrTt]

def putMiscUif (core : Core) (temp : BitVec 64) : Core :=
  { core with cpu := { core.cpu with uintrUif := temp >>> 63 }, uintrMisc := (temp <<< 1) >>> 1 }

def doXrstorUintr : List (Core → BitVec 64 → Core) :=
  [fun core v => { core with cpu := { core.cpu with uintrHandler := v } },
    fun core v => { core with cpu := { core.cpu with uintrStackadjust := v } },
    putMiscUif,
    fun core v => { core with uintrPd := v },
    fun core v => { core with cpu := { core.cpu with uintrRr := v } },
    fun core v => { core with uintrTt := v }]

def clearUintrReg (core : Core) : Core where
  cpu := { core.cpu with uintrHandler := 0, uintrStackadjust := 0, uintrUif := 0, uintrRr := 0 }
  uintrMisc := 0
  uintrPd := 0
  uintrTt := 0

def getXinuse (cfg : Config) : BitVec 64 :=
  if cfg.mpxInUse then -1 else -1 &&& ~~~xstateBndregs

structure Saved where
  core : Core
  memory : Memory
  fault : Option XFault

/-- The words that are stored, and the new `XSTATE_BV`. -/
def savedWords (core : Core) (opt : BitVec 64) : List (BitVec 64) :=
  if opt &&& xstateUintr ≠ 0 then doXsaveUintr core else []

def newBv (m : Memory) (ptr rfbm inuse : BitVec 64) : BitVec 64 :=
  (ldq m (ptr + xstateBvOffset) &&& ~~~rfbm) ||| (inuse &&& rfbm)

/-- The stores of `do_xsave`, up to the first fault. -/
def saveArea (cs64 : Bool) (readable writable : Access) (image : Nat → BitVec 8) (core : Core) (m : Memory)
    (ptr rfbm inuse opt : BitVec 64) : Memory × Bool :=
  match storeRanges writable ptr image (otherStores cs64 rfbm opt) m with
  | (m, false) => (m, false)
  | (m, true) =>
    match storeWords writable (fieldsFrom (ptr + uintrOffset) (savedWords core opt)) m with
    | (m, false) => (m, false)
    | (m, true) =>
      if wordAllowed readable (ptr + xstateBvOffset) then
        storeWords writable [(ptr + xstateBvOffset, newBv m ptr rfbm inuse)] m
      else (m, false)

def doXsave (cfg : Config) (readable writable : Access) (image : Nat → BitVec 8) (core : Core) (m : Memory)
    (ptr rfbm inuse opt : BitVec 64) : Saved :=
  if !cfg.osxsave then ⟨core, m, some .illop⟩
  else if ptr &&& 63 ≠ 0 then ⟨core, m, some .gpf⟩
  else
    let rfbm := rfbm &&& cfg.xcr0
    let opt := opt &&& rfbm
    let (m, complete) := saveArea cfg.cs64 readable writable image core m ptr rfbm inuse opt
    ⟨core, m, if complete then none else some .page⟩

def helperXsave (cfg : Config) (readable writable : Access) (image : Nat → BitVec 8) (core : Core) (m : Memory)
    (ptr rfbm : BitVec 64) : Saved :=
  doXsave cfg readable writable image core m ptr rfbm (getXinuse cfg) (-1)

def helperXsaveopt (cfg : Config) (readable writable : Access) (image : Nat → BitVec 8) (core : Core)
    (m : Memory) (ptr rfbm : BitVec 64) : Saved :=
  doXsave cfg readable writable image core m ptr rfbm (getXinuse cfg) (getXinuse cfg)

structure Restored where
  core : Core
  fault : Option XFault

/-- The checks of `helper_xrstor`, and the loads of the other components, whose registers are
    not part of the state. -/
def xrstorFault (cfg : Config) (readable : Access) (m : Memory) (ptr rfbm bv : BitVec 64) : Option XFault :=
  if !cfg.osxsave then some .illop
  else if ptr &&& 63 ≠ 0 then some .gpf
  else if !wordAllowed readable (ptr + xstateBvOffset) then some .page
  else if bv.toInt < 0 then some .gpf
  else if bv &&& ~~~cfg.xcr0 ≠ 0 then some .gpf
  else if !(wordAllowed readable (ptr + xcompBvOffset) && wordAllowed readable (ptr + reserve0Offset)) then
    some .page
  else if ldq m (ptr + xcompBvOffset) ≠ 0 ∨ ldq m (ptr + reserve0Offset) ≠ 0 then some .gpf
  else if !(otherLoads cfg.cs64 rfbm bv).all (rangeAllowed readable ptr) then some .page
  else none

def helperXrstor (cfg : Config) (readable : Access) (core : Core) (m : Memory) (ptr rfbm : BitVec 64) :
    Restored :=
  let rfbm := rfbm &&& cfg.xcr0
  let bv := ldq m (ptr + xstateBvOffset)
  match xrstorFault cfg readable m ptr rfbm bv with
  | some fault => ⟨core, some fault⟩
  | none =>
    if rfbm &&& xstateUintr ≠ 0 then
      if bv &&& xstateUintr ≠ 0 then
        let (core, complete) := loadWords readable m (fieldsFrom (ptr + uintrOffset) doXrstorUintr) core
        ⟨core, if complete then none else some .page⟩
      else ⟨clearUintrReg core, none⟩
    else ⟨core, none⟩

structure UintrState where
  handler : BitVec 64
  stackadjust : BitVec 64
  misc : BitVec 64
  pd : BitVec 64
  rr : BitVec 64
  tt : BitVec 64
  uif : BitVec 64
  deriving DecidableEq

def uintrState (core : Core) : UintrState :=
  ⟨core.cpu.uintrHandler, core.cpu.uintrStackadjust, core.uintrMisc, core.uintrPd, core.cpu.uintrRr,
    core.uintrTt, core.cpu.uintrUif⟩

/-- The word that UIF and misc share can be taken apart again. -/
structure Tidy (core : Core) : Prop where
  uif : core.cpu.uintrUif = 0 ∨ core.cpu.uintrUif = 1
  misc : core.uintrMisc.toNat < 2 ^ 63

theorem misc_uif_parts (tidy : Tidy core) :
    (core.uintrMisc + (core.cpu.uintrUif <<< 63)) >>> 63 = core.cpu.uintrUif ∧
      ((core.uintrMisc + (core.cpu.uintrUif <<< 63)) <<< 1) >>> 1 = core.uintrMisc := by
  have small := tidy.misc
  have halves : ∀ word : BitVec 64, (word >>> 63).toNat = word.toNat / 2 ^ 63 ∧
      ((word <<< 1) >>> 1).toNat = word.toNat % 2 ^ 63 := by
    intro word
    have := word.isLt
    constructor
    · rw [toNat_ushiftRight, Nat.shiftRight_eq_div_pow]
    · rw [toNat_ushiftRight, BitVec.toNat_shiftLeft, Nat.shiftRight_eq_div_pow, Nat.shiftLeft_eq]
      omega
  obtain ⟨top, low⟩ := halves (core.uintrMisc + (core.cpu.uintrUif <<< 63))
  rcases tidy.uif with zero | one
  · rw [zero, show ((0 : BitVec 64) <<< 63) = 0 by decide, ofNat_eq_ofNat, BitVec.add_zero] at top low ⊢
    exact ⟨eq_of_toNat_eq (by rw [top]; simp; omega), eq_of_toNat_eq (by rw [low]; omega)⟩
  rw [one, show ((1 : BitVec 64) <<< 63) = 0x8000000000000000 by decide] at top low ⊢
  have sum : (core.uintrMisc + 0x8000000000000000).toNat = core.uintrMisc.toNat + 2 ^ 63 := by
    rw [BitVec.toNat_add_of_lt] <;> rw [show (0x8000000000000000 : BitVec 64).toNat = 2 ^ 63 by decide]
    omega
  rw [sum] at top low
  exact ⟨eq_of_toNat_eq (by rw [top]; simp; omega), eq_of_toNat_eq (by rw [low]; omega)⟩

/-! Fields are read back as they were stored. -/

theorem words_apart (above : 8 ≤ d.toNat) (below : d.toNat ≤ 2 ^ 64 - 8) : Apart (wordAt a) (wordAt (a + d)) := by
  intro j k hj hk same
  have := a.isLt
  have lanes := congrArg BitVec.toNat same
  simp only [wordAt, toNat_add, toNat_ofNat] at lanes
  omega

theorem apart_symm (apart : Apart (wordAt a) (wordAt b)) : Apart (wordAt b) (wordAt a) :=
  fun j k hj hk same => apart k j hk hj same.symm

theorem store_words_elsewhere (apart : ∀ x ∈ words, Apart (wordAt x.1) (wordAt b))
    (stored : storeWords writable words m = (m', done)) : ldq m' b = ldq m b := by
  induction words generalizing m with
  | nil =>
    cases stored
    rfl
  | cons word rest ih =>
    obtain ⟨a, v⟩ := word
    rw [storeWords] at stored
    split at stored
    · rw [ih (fun x member => apart x (.tail _ member)) stored]
      exact load_store_apart m v (apart (a, v) (.head _))
    · cases stored
      rfl

theorem next_field : a + BitVec.ofNat 64 (8 * (k + 1)) = a + 8 + BitVec.ofNat 64 (8 * k) := by
  apply eq_of_toNat_eq
  simp only [toNat_add, toNat_ofNat, ofNat_eq_ofNat]
  omega

theorem fields_offset {α : Type} {fields : List α} {x : BitVec 64 × α} (member : x ∈ fieldsFrom a fields) :
    ∃ k, k < fields.length ∧ x.1 = a + BitVec.ofNat 64 (8 * k) := by
  induction fields generalizing a with
  | nil => cases member
  | cons field rest ih =>
    rcases List.mem_cons.mp member with rfl | later
    · exact ⟨0, by simp, by simp⟩
    · obtain ⟨k, bound, address⟩ := ih later
      exact ⟨k + 1, by simpa using bound, by rw [address, next_field]⟩

theorem store_fields_read (short : 8 * values.length ≤ 2 ^ 63)
    (stored : storeWords writable (fieldsFrom a values) m = (m', true)) (here : values[k]? = some v) :
    ldq m' (a + BitVec.ofNat 64 (8 * k)) = v := by
  induction values generalizing a m k with
  | nil => cases here
  | cons first rest ih =>
    rw [fieldsFrom, storeWords] at stored
    split at stored
    · simp only [List.length_cons] at short
      cases k with
      | zero =>
        have same : first = v := by simpa using here
        have apart : ∀ x ∈ fieldsFrom (a + 8) rest, Apart (wordAt x.1) (wordAt a) := by
          intro x member
          obtain ⟨j, bound, address⟩ := fields_offset member
          rw [address, ← next_field]
          apply apart_symm
          apply words_apart <;> rw [toNat_ofNat] <;> omega
        rw [Nat.mul_zero, BitVec.add_zero, store_words_elsewhere apart stored, ← same]
        exact load_store_same m first (word_at_spread)
      | succ j =>
        rw [next_field]
        exact ih (by omega) stored (by simpa using here)
    · cases stored

theorem load_fields (same : puts.length = values.length)
    (held : ∀ k v, values[k]? = some v → ldq m (a + BitVec.ofNat 64 (8 * k)) = v)
    (loaded : loadWords readable m (fieldsFrom a puts) core = (core', true)) :
    core' = (puts.zip values).foldl (fun core field => field.1 core field.2) core := by
  induction puts generalizing values a core with
  | nil =>
    cases loaded
    rfl
  | cons put rest ih =>
    cases values with
    | nil => cases same
    | cons v values =>
      rw [fieldsFrom, loadWords] at loaded
      split at loaded
      · have first : ldq m a = v := by simpa using held 0 v rfl
        rw [first] at loaded
        rw [List.zip_cons_cons, List.foldl_cons]
        apply ih (by simpa using same) _ loaded
        intro k w here
        rw [← next_field]
        exact held (k + 1) w (by simpa using here)
      · cases loaded

theorem load_words_keep {P : Core → Prop} {fields : List (BitVec 64 × (Core → BitVec 64 → Core))}
    (holds : P core) (keep : ∀ f ∈ fields, ∀ core v, P core → P (f.2 core v)) :
    P (loadWords readable m fields core).1 := by
  induction fields generalizing core with
  | nil => exact holds
  | cons field rest ih =>
    obtain ⟨a, put⟩ := field
    rw [loadWords]
    split
    · exact ih (keep (a, put) (.head _) core _ holds) (fun f member => keep f (.tail _ member))
    · exact holds

/-! What the two instructions do when they complete. -/

theorem uintr_bit_iff : mask &&& xstateUintr ≠ 0 ↔ mask.getLsbD 14 = true := by
  have single : xstateUintr = BitVec.twoPow 64 14 := by decide
  constructor
  · intro nonzero
    by_contra clear
    apply nonzero
    apply BitVec.eq_of_getLsbD_eq
    intro i _
    rw [getLsbD_and, single, BitVec.getLsbD_twoPow, ofNat_eq_ofNat, getLsbD_zero]
    by_cases here : 14 = i
    · rw [← here, Bool.of_not_eq_true clear, Bool.false_and]
    · simp [here]
  · intro set zero
    have bit := congrArg (fun word : BitVec 64 => word.getLsbD 14) zero
    rw [getLsbD_and, set] at bit
    exact absurd bit (by decide)

section Instructions

variable {cfg : Config} {readable writable : Access} {core : Core} {m : Memory} {ptr rfbm inuse opt : BitVec 64}

/-- The area after an XSAVE with the component requested. -/
structure HasComponent (core : Core) (ptr : BitVec 64) (m : Memory) : Prop where
  words : ∀ k v, (doXsaveUintr core)[k]? = some v →
    ldq m (ptr + uintrOffset + BitVec.ofNat 64 (8 * k)) = v
  header : (ldq m (ptr + xstateBvOffset)).getLsbD 14 = true

theorem header_apart (bound : k < 6) (low : 0x200 ≤ d.toNat) (high : d.toNat ≤ 0x238) :
    Apart (wordAt (ptr + d)) (wordAt (ptr + uintrOffset + BitVec.ofNat 64 (8 * k))) := by
  have split : uintrOffset = d + BitVec.ofNat 64 (0xa90 - d.toNat) := by
    have offset : uintrOffset.toNat = 0xa90 := rfl
    apply eq_of_toNat_eq
    rw [offset, toNat_add, toNat_ofNat]
    omega
  rw [split, ← BitVec.add_assoc, BitVec.add_assoc (ptr + d), ← BitVec.ofNat_add]
  apply words_apart <;> rw [toNat_ofNat] <;> omega

theorem save_area_parts (saved : saveArea cs64 readable writable image core m ptr rfbm inuse opt = (m', true)) :
    ∃ m1 m2, storeRanges writable ptr image (otherStores cs64 rfbm opt) m = (m1, true) ∧
      storeWords writable (fieldsFrom (ptr + uintrOffset) (savedWords core opt)) m1 = (m2, true) ∧
      storeWords writable [(ptr + xstateBvOffset, newBv m2 ptr rfbm inuse)] m2 = (m', true) := by
  unfold saveArea at saved
  split at saved
  · cases saved
  rename_i m1 others
  split at saved
  · cases saved
  rename_i m2 words
  split at saved
  · exact ⟨m1, m2, others, words, saved⟩
  · cases saved

theorem xsave_area (done : (doXsave cfg readable writable image core m ptr rfbm inuse opt).fault = none) :
    cfg.osxsave = true ∧ ptr &&& 63 = 0 ∧
      saveArea cfg.cs64 readable writable image core m ptr (rfbm &&& cfg.xcr0) inuse
          (opt &&& (rfbm &&& cfg.xcr0)) =
        ((doXsave cfg readable writable image core m ptr rfbm inuse opt).memory, true) := by
  unfold doXsave at done ⊢
  by_cases enabled : cfg.osxsave = true
  · by_cases aligned : ptr &&& 63 = 0
    · simp only [enabled, aligned, Bool.not_true, Bool.false_eq_true, ne_eq, not_true_eq_false,
        ↓reduceIte] at done ⊢
      refine ⟨trivial, trivial, ?_⟩
      generalize saveArea _ _ _ _ _ _ _ _ _ _ = result at done ⊢
      obtain ⟨m', complete⟩ := result
      cases complete with
      | true => rfl
      | false => cases done
    · rw [if_neg (by simp [enabled]), if_pos aligned] at done
      cases done
  · rw [if_pos (by simp [enabled])] at done
    cases done

theorem xsave_parts (done : (doXsave cfg readable writable image core m ptr rfbm inuse opt).fault = none) :
    ∃ m1 m2, storeRanges writable ptr image
        (otherStores cfg.cs64 (rfbm &&& cfg.xcr0) (opt &&& (rfbm &&& cfg.xcr0))) m = (m1, true) ∧
      storeWords writable (fieldsFrom (ptr + uintrOffset) (savedWords core (opt &&& (rfbm &&& cfg.xcr0)))) m1 =
        (m2, true) ∧
      storeWords writable [(ptr + xstateBvOffset, newBv m2 ptr (rfbm &&& cfg.xcr0) inuse)] m2 =
        ((doXsave cfg readable writable image core m ptr rfbm inuse opt).memory, true) :=
  save_area_parts (xsave_area done).2.2

def OutsideHeader (r : Range) : Prop := r.offset + r.length ≤ 0x200 ∨ 0x240 ≤ r.offset

instance (r : Range) : Decidable (OutsideHeader r) := inferInstanceAs (Decidable (_ ∨ _))

theorem requested_outside (outside : ∀ r ∈ ranges, OutsideHeader r) :
    ∀ r ∈ requested mask component ranges, OutsideHeader r := by
  unfold requested
  split
  · exact outside
  · intro r member
    cases member

theorem other_stores_outside : ∀ r ∈ otherStores cs64 rfbm opt, OutsideHeader r := by
  simp only [otherStores, List.forall_mem_append]
  refine ⟨⟨⟨⟨⟨?_, ?_⟩, ?_⟩, ?_⟩, ?_⟩, ?_⟩ <;> apply requested_outside
  · decide
  · decide
  · revert cs64
    decide
  · decide
  · decide
  · decide

theorem store_ranges_header (outside : ∀ r ∈ ranges, OutsideHeader r)
    (stored : storeRanges writable ptr image ranges m = (m', done)) (low : 0x200 ≤ (a - ptr).toNat)
    (high : (a - ptr).toNat < 0x240) : m' a = m a := by
  induction ranges generalizing m with
  | nil =>
    cases stored
    rfl
  | cons r rest ih =>
    rw [storeRanges] at stored
    split at stored
    · rw [ih (fun r member => outside r (.tail _ member)) stored, storeRange, if_neg]
      have away := outside r (.head _)
      unfold OutsideHeader at away
      omega
    · cases stored
      rfl

theorem header_before_store (others : storeRanges writable ptr image (otherStores cfg.cs64 rfbm opt) m = (m1, true))
    (words : storeWords writable (fieldsFrom (ptr + uintrOffset) (savedWords core mask)) m1 = (m2, true))
    (low : 0x200 ≤ d.toNat) (high : d.toNat ≤ 0x238) : ldq m2 (ptr + d) = ldq m (ptr + d) := by
  have short : (savedWords core mask).length ≤ 6 := by
    unfold savedWords
    split
    · exact Nat.le_refl 6
    · exact Nat.zero_le 6
  have after_words : ldq m2 (ptr + d) = ldq m1 (ptr + d) := by
    apply store_words_elsewhere _ words
    intro x member
    obtain ⟨k, bound, address⟩ := fields_offset member
    rw [address]
    exact apart_symm (header_apart (by omega) low high)
  rw [after_words]
  apply load_word_congr
  intro k bound
  have distance : (wordAt (ptr + d) k - ptr).toNat = d.toNat + k := by
    rw [wordAt, show ptr + d + BitVec.ofNat 64 k - ptr = d + BitVec.ofNat 64 k by bv_omega,
      toNat_add, toNat_ofNat]
    omega
  exact store_ranges_header (other_stores_outside) others (by omega) (by omega)

theorem xsave_bv (done : (doXsave cfg readable writable image core m ptr rfbm inuse opt).fault = none) :
    ldq (doXsave cfg readable writable image core m ptr rfbm inuse opt).memory (ptr + xstateBvOffset) =
      newBv m ptr (rfbm &&& cfg.xcr0) inuse := by
  obtain ⟨m1, m2, others, words, header⟩ := xsave_parts done
  have one_word : storeWords writable (fieldsFrom (ptr + xstateBvOffset)
      [newBv m2 ptr (rfbm &&& cfg.xcr0) inuse]) m2 = _ := header
  have stored := store_fields_read (by simp) one_word (k := 0) rfl
  rw [Nat.mul_zero, BitVec.add_zero] at stored
  rw [stored, newBv, header_before_store others words (by decide) (by decide), newBv]

theorem xsave_keeps_header (done : (doXsave cfg readable writable image core m ptr rfbm inuse opt).fault = none)
    (low : 0x208 ≤ d.toNat) (high : d.toNat ≤ 0x238) :
    ldq (doXsave cfg readable writable image core m ptr rfbm inuse opt).memory (ptr + d) = ldq m (ptr + d) := by
  obtain ⟨m1, m2, others, words, header⟩ := xsave_parts done
  rw [← header_before_store others words (by omega) high]
  apply store_words_elsewhere _ header
  intro x member
  rw [List.mem_singleton.mp member, show ptr + d = ptr + xstateBvOffset + (d - xstateBvOffset) by bv_omega]
  have offset : xstateBvOffset.toNat = 0x200 := rfl
  apply words_apart <;> rw [BitVec.toNat_sub, offset] <;> omega

theorem xsave_saves (component : (rfbm &&& cfg.xcr0).getLsbD 14 = true) (optimised : opt.getLsbD 14 = true)
    (used : inuse.getLsbD 14 = true)
    (done : (doXsave cfg readable writable image core m ptr rfbm inuse opt).fault = none) :
    HasComponent core ptr (doXsave cfg readable writable image core m ptr rfbm inuse opt).memory := by
  obtain ⟨m1, m2, _, words, header⟩ := xsave_parts done
  have wanted : savedWords core (opt &&& (rfbm &&& cfg.xcr0)) = doXsaveUintr core := by
    rw [savedWords, if_pos]
    rw [uintr_bit_iff, getLsbD_and, optimised, component, Bool.and_true]
  rw [wanted] at words
  have length : (doXsaveUintr core).length = 6 := rfl
  constructor
  · intro k v here
    have bound : k < 6 := by
      rw [← length]
      exact (List.getElem?_eq_some_iff.mp here).1
    rw [← store_fields_read (by rw [length]; decide) words here]
    apply store_words_elsewhere _ header
    intro x member
    rw [List.mem_singleton.mp member]
    exact header_apart bound (by decide) (by decide)
  · have kept : (inuse &&& (rfbm &&& cfg.xcr0)).getLsbD 14 = true := by
      rw [getLsbD_and, used, component, Bool.and_true]
    rw [xsave_bv done, newBv, getLsbD_or, kept, Bool.or_true]

/-- XRSTOR ends in one of four ways: a fault before the component, nothing to do for it, its
    clearing, or its loads. -/
inductive XrstorOutcome (cfg : Config) (readable : Access) (core : Core) (m : Memory) (ptr rfbm : BitVec 64) :
    Restored → Prop where
  | faulted (fault : XFault) : XrstorOutcome cfg readable core m ptr rfbm ⟨core, some fault⟩
  | not_requested (clear : (rfbm &&& cfg.xcr0).getLsbD 14 = false) :
      XrstorOutcome cfg readable core m ptr rfbm ⟨core, none⟩
  | cleared (set : (rfbm &&& cfg.xcr0).getLsbD 14 = true)
      (header : (ldq m (ptr + xstateBvOffset)).getLsbD 14 = false) :
      XrstorOutcome cfg readable core m ptr rfbm ⟨clearUintrReg core, none⟩
  | loaded (set : (rfbm &&& cfg.xcr0).getLsbD 14 = true)
      (header : (ldq m (ptr + xstateBvOffset)).getLsbD 14 = true) (core' : Core) (complete : Bool)
      (loads : loadWords readable m (fieldsFrom (ptr + uintrOffset) doXrstorUintr) core = (core', complete)) :
      XrstorOutcome cfg readable core m ptr rfbm ⟨core', if complete then none else some .page⟩

theorem xrstor_outcome (cfg : Config) (readable : Access) (core : Core) (m : Memory) (ptr rfbm : BitVec 64) :
    XrstorOutcome cfg readable core m ptr rfbm (helperXrstor cfg readable core m ptr rfbm) := by
  unfold helperXrstor
  dsimp only
  split
  · exact .faulted _
  split
  · rename_i wanted
    split
    · rename_i present
      exact .loaded (uintr_bit_iff.mp wanted) (uintr_bit_iff.mp present) _ _ rfl
    rename_i absent
    exact .cleared (uintr_bit_iff.mp wanted)
      (Bool.of_not_eq_true fun set => absent (uintr_bit_iff.mpr set))
  · rename_i unwanted
    exact .not_requested (Bool.of_not_eq_true fun set => unwanted (uintr_bit_iff.mpr set))

theorem loaded_state (tidy : Tidy saved) (area : HasComponent saved ptr m)
    (loads : loadWords readable m (fieldsFrom (ptr + uintrOffset) doXrstorUintr) core = (core', true)) :
    uintrState core' = uintrState saved := by
  have restored := load_fields rfl area.words loads
  obtain ⟨uif, misc⟩ := misc_uif_parts tidy
  rw [restored]
  simp only [doXrstorUintr, doXsaveUintr, List.zip_cons_cons, List.zip_nil_left, List.foldl_cons,
    List.foldl_nil, uintrState, putMiscUif, uif, misc]

theorem xsave_core : (doXsave cfg readable writable image core m ptr rfbm inuse opt).core = core := by
  unfold doXsave
  split
  · rfl
  split
  · rfl
  · rfl

section Restores

variable (component : (rfbm &&& cfg.xcr0).getLsbD 14 = true)
  (done : (helperXrstor cfg readable core m ptr rfbm).fault = none)

include component done

theorem xrstor_restores (tidy : Tidy saved) (area : HasComponent saved ptr m) :
    uintrState (helperXrstor cfg readable core m ptr rfbm).core = uintrState saved := by
  have outcome := xrstor_outcome cfg readable core m ptr rfbm
  generalize helperXrstor cfg readable core m ptr rfbm = r at outcome done
  cases outcome with
  | faulted => cases done
  | not_requested clear =>
    rw [component] at clear
    cases clear
  | cleared _ header =>
    rw [area.header] at header
    cases header
  | loaded _ _ core' complete loads =>
    cases complete with
    | true => exact loaded_state tidy area loads
    | false => cases done

theorem xrstor_clears (absent : (ldq m (ptr + xstateBvOffset)).getLsbD 14 = false) :
    uintrState (helperXrstor cfg readable core m ptr rfbm).core = ⟨0, 0, 0, 0, 0, 0, 0⟩ := by
  have outcome := xrstor_outcome cfg readable core m ptr rfbm
  generalize helperXrstor cfg readable core m ptr rfbm = r at outcome done
  cases outcome with
  | faulted => cases done
  | not_requested clear =>
    rw [component] at clear
    cases clear
  | cleared => rfl
  | loaded _ header =>
    rw [absent] at header
    cases header

end Restores

theorem xrstor_leaves (clear : (rfbm &&& cfg.xcr0).getLsbD 14 = false) :
    (helperXrstor cfg readable core m ptr rfbm).core = core := by
  have outcome := xrstor_outcome cfg readable core m ptr rfbm
  generalize helperXrstor cfg readable core m ptr rfbm = r at outcome
  cases outcome with
  | faulted => rfl
  | not_requested => rfl
  | cleared set =>
    rw [clear] at set
    cases set
  | loaded set =>
    rw [clear] at set
    cases set

/-! XRSTOR accepts what XSAVE has made of an area with a clean header. -/

structure CleanHeader (cfg : Config) (ptr : BitVec 64) (m : Memory) : Prop where
  standard : cfg.xcr0.getLsbD 63 = false
  known : ldq m (ptr + xstateBvOffset) &&& ~~~cfg.xcr0 = 0
  xcomp_bv : ldq m (ptr + xcompBvOffset) = 0
  reserve0 : ldq m (ptr + reserve0Offset) = 0

theorem clean_after_xsave (clean : CleanHeader cfg ptr m)
    (done : (doXsave cfg readable writable image core m ptr rfbm inuse opt).fault = none) :
    CleanHeader cfg ptr (doXsave cfg readable writable image core m ptr rfbm inuse opt).memory := by
  refine ⟨clean.standard, ?_, ?_, ?_⟩
  · have known := clean.known
    rw [xsave_bv done, newBv]
    apply BitVec.eq_of_getLsbD_eq
    intro i bound
    have bit := congrArg (fun word : BitVec 64 => word.getLsbD i) known
    simp only [getLsbD_and, getLsbD_or, getLsbD_not, bound, decide_true, Bool.true_and,
      ofNat_eq_ofNat, getLsbD_zero] at bit ⊢
    revert bit
    cases (ldq m (ptr + xstateBvOffset)).getLsbD i <;> cases cfg.xcr0.getLsbD i <;> simp
  · rw [xsave_keeps_header done (by decide) (by decide)]
    exact clean.xcomp_bv
  · rw [xsave_keeps_header done (by decide) (by decide)]
    exact clean.reserve0

theorem load_words_complete (words : ∀ a, wordAllowed readable a = true) :
    (loadWords readable m fields core).2 = true := by
  induction fields generalizing core with
  | nil => rfl
  | cons field rest ih =>
    obtain ⟨a, put⟩ := field
    rw [loadWords, if_pos (words a)]
    exact ih

theorem xrstor_completes (clean : CleanHeader cfg ptr m) (enabled : cfg.osxsave = true)
    (aligned : ptr &&& 63 = 0) (anywhere : ∀ a, readable a = true) :
    (helperXrstor cfg readable core m ptr rfbm).fault = none := by
  have words : ∀ a, wordAllowed readable a = true := fun a => by simp [wordAllowed, anywhere]
  have ranges : ∀ r, rangeAllowed readable ptr r = true := fun r => by simp [rangeAllowed, anywhere]
  have standard : ¬ (ldq m (ptr + xstateBvOffset)).toInt < 0 := by
    have bit := congrArg (fun word : BitVec 64 => word.getLsbD 63) clean.known
    simp only [getLsbD_and, getLsbD_not, clean.standard] at bit
    have top : (ldq m (ptr + xstateBvOffset)).msb = false := by
      rw [BitVec.msb_eq_getLsbD_last]
      simpa using bit
    have small := BitVec.msb_eq_false_iff_two_mul_lt.mp top
    rw [BitVec.toInt_neg_iff]
    omega
  have checked : xrstorFault cfg readable m ptr (rfbm &&& cfg.xcr0) (ldq m (ptr + xstateBvOffset)) = none := by
    unfold xrstorFault
    simp only [enabled, aligned, words, standard, clean.known, clean.xcomp_bv, clean.reserve0, Bool.not_true,
      Bool.false_eq_true, ↓reduceIte, ne_eq, not_true_eq_false, Bool.and_self, or_self]
    rw [if_neg (by simp [ranges])]
  unfold helperXrstor
  dsimp only
  rw [checked]
  dsimp only
  split
  · split
    · exact if_pos (load_words_complete words)
    · rfl
  · rfl

end Instructions

/-! Runs of the user-interrupt registers. -/

structure Hart where
  core : Core
  upid : Upid
  memory : Memory

inductive Action where
  | wrmsr (writable : Access) (index : BitVec 32) (val : BitVec 64)
  | stui
  | clui
  | uiret (readable : Access)
  | accept (writable : Access)
  | xrstor (cfg : Config) (readable : Access) (ptr rfbm : BitVec 64)
  | elsewhere (after : Context) (upid : Upid)

def Hart.withCpu (s : Hart) (cpu : Cpu) : Hart := { s with core := { s.core with cpu } }

def act (s : Hart) : Action → Hart
  | .wrmsr writable index val =>
    let r := helperWrmsr writable s.core s.memory index val
    ⟨r.core, s.upid, r.memory⟩
  | .stui => s.withCpu (helperStui s.core.cpu)
  | .clui => s.withCpu (helperClui s.core.cpu)
  | .uiret readable =>
    match helperUiret readable s.core.cpu s.memory with
    | some cpu => s.withCpu cpu
    | none => s
  | .accept writable =>
    let r := doInterrupt64 writable s.core.cpu s.upid s.memory
    ⟨{ s.core with cpu := r.cpu }, r.upid, r.memory⟩
  | .xrstor cfg readable ptr rfbm => { s with core := (helperXrstor cfg readable s.core s.memory ptr rfbm).core }
  | .elsewhere after upid =>
    ⟨{ s.core with cpu := { s.core.cpu with
      cpl := after.cpl, rsp := after.rsp, eip := after.eip, eflags := after.eflags } }, upid, after.memory⟩

/-- A reset clears the registers. -/
def hart : Machine Hart Action where
  start s := s.core.cpu.uintrUif = 0 ∧ s.core.uintrMisc = 0
  next s a t := act s a = t

/-- The condition: no value with bit 63 is written to `MSR_IA32_UINTR_MISC`. -/
def Plain (_ : Hart) : Action → Prop
  | .wrmsr _ index val => index = msrUintrMisc → val.toNat < 2 ^ 63
  | _ => True

theorem tidy_of_cpu (tidy : Tidy core)
    (uif : cpu.uintrUif = core.cpu.uintrUif ∨ cpu.uintrUif = 0 ∨ cpu.uintrUif = 1) :
    Tidy { core with cpu } := by
  refine ⟨?_, tidy.misc⟩
  rcases uif with same | value
  · change cpu.uintrUif = 0 ∨ cpu.uintrUif = 1
    rw [same]
    exact tidy.uif
  · exact value

theorem rrnzero_uif (cpu : Cpu) (m : Memory) :
    (helperRrnzero writable cpu m).cpu.uintrUif = cpu.uintrUif ∨
      (helperRrnzero writable cpu m).cpu.uintrUif = 0 := by
  rcases rrnzero_outcome writable cpu m with ⟨_, left⟩ | ⟨_, _, _, uif, _⟩
  · rw [left]
    exact Or.inl rfl
  · exact Or.inr uif

theorem accept_uif : (doInterrupt64 writable cpu upid m).cpu.uintrUif = cpu.uintrUif ∨
      (doInterrupt64 writable cpu upid m).cpu.uintrUif = 0 := by
  unfold doInterrupt64
  split
  · exact Or.inl rfl
  split
  · exact Or.inl rfl
  dsimp only
  split
  · exact rrnzero_uif { cpu with uintrRr := upid.puir } m
  · exact Or.inl rfl

theorem uiret_uif (ret : helperUiret readable cpu m = some cpu') : cpu'.uintrUif = 1 := by
  simp only [helperUiret, Option.bind_eq_bind, Option.bind_eq_some_iff] at ret
  obtain ⟨_, _, _, _, _, _, same⟩ := ret
  cases same
  rfl

theorem wrmsr_tidy (tidy : Tidy core) (plain : index = msrUintrMisc → val.toNat < 2 ^ 63) :
    Tidy (helperWrmsr writable core m index val).core := by
  unfold helperWrmsr
  split
  · dsimp only
    split
    · apply tidy_of_cpu tidy
      rcases rrnzero_uif { core.cpu with uintrRr := val } m with same | zero
      · exact Or.inl same
      · exact Or.inr (Or.inl zero)
    · exact tidy_of_cpu tidy (Or.inl rfl)
  split
  · exact tidy_of_cpu tidy (Or.inl rfl)
  split
  · exact tidy_of_cpu tidy (Or.inl rfl)
  split
  · rename_i misc
    exact ⟨tidy.uif, plain misc⟩
  split
  · exact ⟨tidy.uif, tidy.misc⟩
  split
  · exact ⟨tidy.uif, tidy.misc⟩
  · exact tidy

theorem put_misc_uif_tidy (core : Core) (temp : BitVec 64) : Tidy (putMiscUif core temp) := by
  have bound := temp.isLt
  have top : (temp >>> 63).toNat = temp.toNat / 2 ^ 63 := by
    rw [toNat_ushiftRight, Nat.shiftRight_eq_div_pow]
  constructor
  · have either : temp.toNat / 2 ^ 63 = 0 ∨ temp.toNat / 2 ^ 63 = 1 := by omega
    rcases either with zero | one
    · exact Or.inl (eq_of_toNat_eq (top.trans zero))
    · exact Or.inr (eq_of_toNat_eq (top.trans one))
  change ((temp <<< 1) >>> 1).toNat < 2 ^ 63
  rw [toNat_ushiftRight, BitVec.toNat_shiftLeft, Nat.shiftRight_eq_div_pow, Nat.shiftLeft_eq]
  omega

theorem xrstor_tidy {rfbm : BitVec 64} (tidy : Tidy core) :
    Tidy (helperXrstor cfg readable core m ptr rfbm).core := by
  have outcome := xrstor_outcome cfg readable core m ptr rfbm
  generalize helperXrstor cfg readable core m ptr rfbm = r at outcome
  cases outcome with
  | faulted => exact tidy
  | not_requested => exact tidy
  | cleared => exact ⟨Or.inl rfl, (by decide : (0 : BitVec 64).toNat < 2 ^ 63)⟩
  | loaded _ _ core' complete loads =>
    have keep : ∀ f ∈ fieldsFrom (ptr + uintrOffset) doXrstorUintr, ∀ core v, Tidy core → Tidy (f.2 core v) := by
      intro f member core v tidy
      simp only [doXrstorUintr, fieldsFrom, List.mem_cons, List.not_mem_nil, or_false] at member
      rcases member with rfl | rfl | rfl | rfl | rfl | rfl
      · exact ⟨tidy.uif, tidy.misc⟩
      · exact ⟨tidy.uif, tidy.misc⟩
      · exact put_misc_uif_tidy core v
      · exact ⟨tidy.uif, tidy.misc⟩
      · exact ⟨tidy.uif, tidy.misc⟩
      · exact ⟨tidy.uif, tidy.misc⟩
    have kept : Tidy (loadWords readable m (fieldsFrom (ptr + uintrOffset) doXrstorUintr) core).1 :=
      load_words_keep tidy keep
    rw [loads] at kept
    exact kept

theorem act_tidy (tidy : Tidy s.core) (plain : Plain s a) : Tidy (act s a).core := by
  cases a with
  | wrmsr writable index val => exact wrmsr_tidy tidy plain
  | stui => exact tidy_of_cpu tidy (Or.inr (Or.inr rfl))
  | clui => exact tidy_of_cpu tidy (Or.inr (Or.inl rfl))
  | uiret readable =>
    simp only [act]
    split
    · rename_i cpu ret
      exact tidy_of_cpu tidy (Or.inr (Or.inr (uiret_uif ret)))
    · exact tidy
  | accept writable =>
    apply tidy_of_cpu tidy
    rcases accept_uif with same | zero
    · exact Or.inl same
    · exact Or.inr (Or.inl zero)
  | xrstor cfg readable ptr rfbm => exact xrstor_tidy tidy
  | elsewhere after upid => exact tidy_of_cpu tidy (Or.inl rfl)

theorem run_tidy (reach : Reachable (hart.guarded Plain) s) : Tidy s.core := by
  apply reachable_invariant (fun s => Tidy s.core) _ _ reach
  · rintro s ⟨uif, misc⟩
    exact ⟨Or.inl uif, by rw [misc]; decide⟩
  rintro s a t tidy ⟨plain, step⟩
  cases step
  exact act_tidy tidy plain

/-- In every run without bit 63 in misc: XRSTOR of a saved area gives the component back,
    and completes if the area is readable and its header was clean; without the header bit it
    clears the component; and where the component is not requested nothing happens to it. -/
theorem xsave_xrstor_preserve {s : Hart} (reach : Reachable (hart.guarded Plain) s) (cfg : Config)
    (readable writable : Access) (image : Nat → BitVec 8) (ptr : BitVec 64) :
    (∀ rfbm rfbm' core', (rfbm &&& cfg.xcr0) &&& xstateUintr ≠ 0 → (rfbm' &&& cfg.xcr0) &&& xstateUintr ≠ 0 →
      (helperXsave cfg readable writable image s.core s.memory ptr rfbm).fault = none →
      let saved := (helperXsave cfg readable writable image s.core s.memory ptr rfbm).memory
      let restored := helperXrstor cfg readable core' saved ptr rfbm'
      (restored.fault = none → uintrState restored.core = uintrState s.core) ∧
        (CleanHeader cfg ptr s.memory → (∀ a, readable a = true) → restored.fault = none)) ∧
    (∀ m rfbm, (rfbm &&& cfg.xcr0) &&& xstateUintr ≠ 0 → ldq m (ptr + xstateBvOffset) &&& xstateUintr = 0 →
      (helperXrstor cfg readable s.core m ptr rfbm).fault = none →
      uintrState (helperXrstor cfg readable s.core m ptr rfbm).core = ⟨0, 0, 0, 0, 0, 0, 0⟩) ∧
    (∀ m rfbm, (rfbm &&& cfg.xcr0) &&& xstateUintr = 0 →
      uintrState (helperXrstor cfg readable s.core m ptr rfbm).core = uintrState s.core) ∧
    ∀ m rfbm, uintrState (helperXsave cfg readable writable image s.core m ptr rfbm).core = uintrState s.core := by
  have always_used : (getXinuse cfg).getLsbD 14 = true := by
    unfold getXinuse
    split <;> decide
  refine ⟨?_, ?_, ?_, ?_⟩
  · intro rfbm rfbm' core' wanted wanted' done
    have area := xsave_saves (uintr_bit_iff.mp wanted) (by decide) always_used done
    obtain ⟨enabled, aligned, _⟩ := xsave_area done
    constructor
    · intro complete
      exact xrstor_restores (uintr_bit_iff.mp wanted') complete (run_tidy reach) area
    · intro clean anywhere
      exact xrstor_completes (clean_after_xsave clean done) enabled aligned anywhere
  · intro m rfbm wanted absent done
    apply xrstor_clears (uintr_bit_iff.mp wanted) done
    exact Bool.of_not_eq_true fun set => uintr_bit_iff.mpr set absent
  · intro m rfbm unwanted
    rw [xrstor_leaves]
    exact Bool.of_not_eq_true fun set => uintr_bit_iff.mpr set unwanted
  · intro m rfbm
    rw [helperXsave, xsave_core]

def uintrConfig : Config := ⟨true, true, false, 0x4003⟩

def resetHart : Hart where
  core := ⟨⟨0x8000, 0x400000, 0x202, 3, 0, 0, 0, 0⟩, 0, 0, 0⟩
  upid := ⟨0, 0, uintrUinv, 0, 0, 0⟩
  memory := fun _ => 0

def afterMisc (misc : BitVec 64) : Hart :=
  act (act resetHart (.wrmsr (fun _ => true) msrUintrMisc misc)) .stui

def otherCore : Core := ⟨⟨0x9000, 0x401000, 0x202, 3, 7, 7, 7, 0⟩, 7, 7, 7⟩

def savedAt (s : Hart) : Saved :=
  helperXsave uintrConfig (fun _ => true) (fun _ => true) (fun _ => 0) s.core s.memory 0x1000 0x4000

def restoredFrom (s : Hart) : Restored :=
  helperXrstor uintrConfig (fun _ => true) otherCore (savedAt s).memory 0x1000 0x4000

theorem small_misc_restored : (afterMisc 5).core.cpu.uintrUif = 1 ∧ (restoredFrom (afterMisc 5)).fault = none ∧
    uintrState (restoredFrom (afterMisc 5)).core = uintrState (afterMisc 5).core := by
  have start : Reachable (hart.guarded Plain) resetHart := reachable_start ⟨rfl, rfl⟩
  have plain : Plain resetHart (.wrmsr (fun _ => true) msrUintrMisc 5) := fun _ => by decide
  have written := reachable_next (a := .wrmsr (fun _ => true) msrUintrMisc 5) start ⟨plain, rfl⟩
  have reach : Reachable (hart.guarded Plain) (afterMisc 5) := reachable_next (a := .stui) written ⟨trivial, rfl⟩
  obtain ⟨state, complete⟩ := (xsave_xrstor_preserve reach uintrConfig (fun _ => true) (fun _ => true)
    (fun _ => 0) 0x1000).1 0x4000 0x4000 otherCore (by decide) (by decide) (by decide)
  have clean : CleanHeader uintrConfig 0x1000 (afterMisc 5).memory :=
    ⟨by decide, by decide, by decide, by decide⟩
  have done := complete clean (fun _ => rfl)
  exact ⟨rfl, done, state done⟩

/-- Bit 63 of misc and UIF cancel out in the sum. -/
theorem high_misc_loses_uif : Reachable hart (afterMisc 0x8000000000000005) ∧
    (savedAt (afterMisc 0x8000000000000005)).fault = none ∧
    (restoredFrom (afterMisc 0x8000000000000005)).fault = none ∧
    (afterMisc 0x8000000000000005).core.cpu.uintrUif = 1 ∧
    (restoredFrom (afterMisc 0x8000000000000005)).core.cpu.uintrUif = 0 ∧
    (restoredFrom (afterMisc 0x8000000000000005)).core.uintrMisc = 5 := by
  have start : Reachable hart resetHart := reachable_start ⟨rfl, rfl⟩
  have written := reachable_next (a := .wrmsr (fun _ => true) msrUintrMisc 0x8000000000000005) start rfl
  exact ⟨reachable_next (a := .stui) written rfl, by decide, by decide, rfl, by decide, by decide⟩

end RtosUintrXsave
