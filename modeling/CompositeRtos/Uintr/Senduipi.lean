import CompositeRtos.Uintr.TableAccess

/-!
SENDUIPI as an instruction: how it is decoded, which entry of the table it uses, and what it
posts. The decoder hands the raw ModRM byte to `helper_senduipi`, which knows two registers;
the entry is found with 32-bit arithmetic at a physical address.
-/
namespace RtosUintrSenduipi
open RtosUintrMachine RtosUintrMmu RtosUintrPageWalk RtosUintrTableAccess BitVec

def prefixRepz : BitVec 8 := 0x01
def prefixRepnz : BitVec 8 := 0x02
def prefixLock : BitVec 8 := 0x04
def prefixData : BitVec 8 := 0x08
def prefixAdr : BitVec 8 := 0x10
def prefixRex : BitVec 8 := 0x40

structure DisasContext where
  prefixes : BitVec 8
  rexB : BitVec 8

def prefixFlag (b : BitVec 8) : Option (BitVec 8) :=
  if b = 0xf3 then some prefixRepz
  else if b = 0xf2 then some prefixRepnz
  else if b = 0xf0 then some prefixLock
  else if b = 0x66 then some prefixData
  else if b = 0x67 then some prefixAdr
  else none

def isOverride (b : BitVec 8) : Bool :=
  b == 0x2e || b == 0x36 || b == 0x3e || b == 0x26 || b == 0x64 || b == 0x65

inductive Insn where
  | senduipi (s : DisasContext) (modrm : BitVec 8)
  | other

def decodeOpcode (s : DisasContext) : List (BitVec 8) → Option Insn
  | [] => none
  | b :: rest =>
    if b = 0x0f then
      match rest with
      | [] => none
      | b2 :: rest =>
        if b2 = 0xc7 ∧ s.prefixes &&& prefixRepz ≠ 0 then
          match rest with
          | [] => none
          | modrm :: _ => some (.senduipi s modrm)
        else some .other
    else some .other

def disasInsn (s : DisasContext) : List (BitVec 8) → Option Insn
  | [] => none
  | b :: rest =>
    match prefixFlag b with
    | some flag => disasInsn { s with prefixes := s.prefixes ||| flag } rest
    | none =>
      if isOverride b then disasInsn s rest
      else if b &&& 0xf0 = 0x40 then disasInsn ⟨s.prefixes ||| prefixRex, (b &&& 1) <<< 3⟩ rest
      else decodeOpcode s (b :: rest)

def execute (env : Sender) (junk : Junk) (code : List (BitVec 8)) : Option (Op (Option Ipi)) :=
  match disasInsn ⟨0, 0⟩ code with
  | some (.senduipi _ modrm) => some (senduipi env junk modrm)
  | _ => none

/-- The legal encodings: F3, a REX prefix or none, 0F C7, and a register operand with /6. -/
def modrmByte (rm : BitVec 3) : BitVec 8 := 0xf0 ||| rm.setWidth 8

def encoding (rex : Option (BitVec 4)) (rm : BitVec 3) : List (BitVec 8) :=
  [0xf3] ++ (rex.map fun bits => 0x40 ||| bits.setWidth 8).toList ++ [0x0f, 0xc7, modrmByte rm]

def rexB (rex : Option (BitVec 4)) : Bool := rex.any fun bits => bits.getLsbD 0

/-- `(modrm & 7) | REX_B(s)`, as for the register operands of all other instructions. -/
def encodedRegister (rex : Option (BitVec 4)) (rm : BitVec 3) : Fin 16 :=
  ⟨rm.toNat + if rexB rex then 8 else 0, by split <;> omega⟩

theorem opcode_decoded (s : DisasContext) (repz : s.prefixes &&& prefixRepz ≠ 0) (rm : BitVec 3)
    (more : List (BitVec 8)) :
    disasInsn s ([0x0f, 0xc7, modrmByte rm] ++ more) = some (.senduipi s (modrmByte rm)) := by
  have plain : prefixFlag 0x0f = none := by decide
  simp only [List.cons_append, disasInsn, plain]
  rw [if_neg (by decide), if_neg (by decide)]
  simp only [decodeOpcode, ↓reduceIte]
  exact if_pos ⟨trivial, repz⟩

theorem rex_decoded (bits : BitVec 4) (rest : List (BitVec 8)) : disasInsn s ((0x40 ||| bits.setWidth 8) :: rest) =
      disasInsn ⟨s.prefixes ||| prefixRex, ((0x40 ||| bits.setWidth 8) &&& 1) <<< 3⟩ rest := by
  have table : ∀ bits : BitVec 4, prefixFlag (0x40 ||| bits.setWidth 8) = none ∧
      isOverride (0x40 ||| bits.setWidth 8) = false ∧
      ((0x40 : BitVec 8) ||| bits.setWidth 8) &&& 0xf0 = 0x40 := by decide
  obtain ⟨plain, override, rex⟩ := table bits
  rw [disasInsn]
  simp only [plain, override, rex, Bool.false_eq_true, ↓reduceIte]

theorem legal_executes : execute env junk (encoding rex rm ++ more) = some (senduipi env junk (modrmByte rm)) := by
  have first : ∀ rest, disasInsn ⟨0, 0⟩ (0xf3 :: rest) = disasInsn ⟨0 ||| prefixRepz, 0⟩ rest := fun _ => rfl
  unfold execute encoding
  cases rex with
  | none =>
    have decoded := opcode_decoded ⟨0 ||| prefixRepz, 0⟩ (by decide) rm more
    rw [List.append_assoc]
    change (match disasInsn ⟨0, 0⟩ (0xf3 :: ([0x0f, 0xc7, modrmByte rm] ++ more)) with
      | some (.senduipi _ modrm) => some (senduipi env junk modrm)
      | _ => none) = _
    rw [first, decoded]
  | some bits =>
    have repz : ((0 ||| prefixRepz) ||| prefixRex) &&& prefixRepz ≠ 0 := by decide
    change (match disasInsn ⟨0, 0⟩ (0xf3 :: (0x40 ||| bits.setWidth 8) :: ([0x0f, 0xc7, modrmByte rm] ++ more)) with
      | some (.senduipi _ modrm) => some (senduipi env junk modrm)
      | _ => none) = _
    rw [first, rex_decoded, opcode_decoded _ repz]

/-! The entry. -/

def uittsz (env : Sender) : Nat := (env.uintrMisc.setWidth 32).toNat

def tableAddress (env : Sender) : BitVec 64 := env.uintrTt &&& ~~~0xf

def entryAddress (env : Sender) (i : BitVec 64) : BitVec 64 := tableAddress env + i <<< 4

def Enabled (env : Sender) : Prop := env.uintrTt.getLsbD 0 = true

def EntryValid (env : Sender) (m : Memory) (va : BitVec 64) : Prop :=
  ∃ pa, GoesTo env.mmu m .load .knosmap va pa ∧ (m pa).getLsbD 0 = true

/-- How SENDUIPI with operand `i` treats the table: it faults without any effect, or goes on
    with the 16 bytes at the virtual address of entry `i`. -/
structure RightEntry (env : Sender) (junk : Junk) (i : BitVec 64) (m : Memory)
    (result : EStateM.Result Stop Bus (Option Ipi)) : Prop where
  refused : uittsz env < i.toNat ∨ ¬ Enabled env ∨ ¬ EntryValid env m (entryAddress env i) →
    result = .error (.exception .gpf) ⟨m, []⟩
  used : i.toNat ≤ uittsz env → Enabled env → EntryValid env m (entryAddress env i) →
    ∃ t : Touch, t.va = entryAddress env i ∧ t.len = 16 ∧ t.access = .load ∧ Same m t.before ∧
      Respected env.mmu t ∧
      result = postUpid env.mmu junk (uitteOfWords (ldq t.before t.pa, ldq t.before (t.pa + 8))) ⟨t.before, [t]⟩

/-- When the code finds the entry: it reads the register that is encoded, an index beyond the
    table is beyond it in its low 32 bits too, and otherwise the table is enabled, bit 3 of
    its address is clear, and the entry is valid and lies in the first page of the table. -/
structure Found (env : Sender) (rex : Option (BitVec 4)) (rm : BitVec 3) (m : Memory) : Prop where
  register : (if modrmByte rm = 244 then env.regs 12 else env.regs 0) = env.regs (encodedRegister rex rm)
  beyond : uittsz env < (env.regs (encodedRegister rex rm)).toNat →
    uittsz env < ((env.regs (encodedRegister rex rm)).setWidth 32).toNat
  enabled : (env.regs (encodedRegister rex rm)).toNat ≤ uittsz env → Enabled env
  plain : (env.regs (encodedRegister rex rm)).toNat ≤ uittsz env → env.uintrTt.getLsbD 3 = false
  first_page : (env.regs (encodedRegister rex rm)).toNat ≤ uittsz env → ∀ k, k < 16 →
    wordAt (entryAddress env (env.regs (encodedRegister rex rm))) k >>> 12 = tableAddress env >>> 12
  valid : (env.regs (encodedRegister rex rm)).toNat ≤ uittsz env →
    EntryValid env m (entryAddress env (env.regs (encodedRegister rex rm)))

theorem base_of_plain (plain : env.uintrTt.getLsbD 3 = false) : uittBase env = tableAddress env := by
  apply eq_of_getLsbD_eq
  intro j bound
  have mask : (~~~(0xf : BitVec 64)).getLsbD j = decide (4 ≤ j) := by
    have table : ∀ k : Fin 64, (~~~(0xf : BitVec 64)).getLsbD k.val = decide (4 ≤ k.val) := by decide
    exact table ⟨j, bound⟩
  rw [uittBase, tableAddress, getLsbD_and, mask, getLsbD_shiftLeft, getLsbD_ushiftRight]
  by_cases low : j < 3
  · simp [low, show ¬ 4 ≤ j by omega]
  have index : 3 + (j - 3) = j := by omega
  rw [index]
  by_cases three : j = 3
  · subst three
    rw [plain]
    simp
  · simp [low, bound, show 4 ≤ j by omega]

theorem small_index {i : BitVec 64} (bound : i.toNat < 2 ^ 32) (near : (table + i <<< 4) >>> 12 = table >>> 12) :
    i.toNat < 256 := by
  have pages := congrArg BitVec.toNat near
  simp only [toNat_ushiftRight, Nat.shiftRight_eq_div_pow, toNat_add, toNat_shiftLeft,
    Nat.shiftLeft_eq] at pages
  omega

theorem offset_of_small {i : BitVec 64} (small : i.toNat < 256) : uitteOffset (i.setWidth 32) = i <<< 4 := by
  have low : i = BitVec.ofNat 64 i.toNat := by simp
  have table : ∀ k : Fin 256, uitteOffset ((BitVec.ofNat 64 k.val).setWidth 32) = BitVec.ofNat 64 k.val <<< 4 := by
    decide +kernel
  rw [low]
  exact table ⟨i.toNat, small⟩

section Entry

variable {env : Sender} {junk : Junk} {m : Memory}

theorem index_of_register (register : (if regIndex = 244 then env.regs 12 else env.regs 0) = i) :
    uitteIndex env regIndex = i.setWidth 32 := by
  rw [uitteIndex, register]

theorem beyond_refused (register : (if regIndex = 244 then env.regs 12 else env.regs 0) = i)
    (beyond : uittsz env < (i.setWidth 32).toNat) :
    senduipi env junk regIndex ⟨m, []⟩ = .error (.exception .gpf) ⟨m, []⟩ := by
  have outside : env.uintrMisc.setWidth 32 < uitteIndex env regIndex := by
    rw [index_of_register register]
    exact beyond
  rw [senduipi, RtosStateSpec.run_bind, fetchUitte]
  dsimp only
  rw [if_pos outside]
  rfl

variable (junk) in
theorem fetched_entry (paged : Paged env.mmu) (register : (if regIndex = 244 then env.regs 12 else env.regs 0) = i)
    (inside : i.toNat ≤ uittsz env) (plain : env.uintrTt.getLsbD 3 = false)
    (first_page : ∀ k, k < 16 → wordAt (entryAddress env i) k >>> 12 = tableAddress env >>> 12)
    (valid : EntryValid env m (entryAddress env i)) :
    ∃ t : Touch, t.va = entryAddress env i ∧ t.len = 16 ∧ t.access = .load ∧ Same m t.before ∧
      Respected env.mmu t ∧ fetchUitte env junk regIndex ⟨m, []⟩ =
        .ok (uitteOfWords (ldq t.before t.pa, ldq t.before (t.pa + 8))) ⟨t.before, [t]⟩ := by
  have size : uittsz env < 2 ^ 32 := (env.uintrMisc.setWidth 32).isLt
  have start : wordAt (entryAddress env i) 0 = entryAddress env i := by simp [wordAt]
  have near := first_page 0 (by omega)
  rw [start] at near
  have small := small_index (by omega) near
  have base := base_of_plain plain
  have place : entryAddress env i = uittBase env + uitteOffset (i.setWidth 32) := by
    rw [offset_of_small small, base]
    rfl
  obtain ⟨pa, goes, _⟩ := valid
  have at_base : GoesTo env.mmu m .load .knosmap (uittBase env) (onPage pa (uittBase env)) := by
    apply goes_to_moved paged _ (Or.inl rfl) goes
    rw [base]
    exact near.symm
  obtain ⟨m', run, same⟩ := get_hphys2_goes paged at_base
  have located : Located env.mmu (uittBase env) (onPage pa (uittBase env)) m' := by
    intro other goes'
    exact goes_to_unique (goes_to_kept paged same at_base) goes'
  have accepted : ¬ env.uintrMisc.setWidth 32 < uitteIndex env regIndex := by
    rw [index_of_register register]
    have low : (i.setWidth 32).toNat = i.toNat := by
      rw [toNat_setWidth]
      omega
    exact Nat.not_lt.mpr (by rw [low]; exact inside)
  refine ⟨⟨true, .load, .knosmap, uittBase env, uittBase env + uitteOffset (i.setWidth 32),
    onPage pa (uittBase env) + uitteOffset (i.setWidth 32), 16, m'⟩, place.symm, rfl, rfl, same, ?_, ?_⟩
  · apply (located_orderly paged _ (Or.inl rfl) located).respected
    refine ⟨⟨pa, ?_⟩, ?_⟩
    · rw [← place]
      exact goes_to_kept paged same goes
    · rw [← place, base]
      exact first_page
  rw [fetchUitte]
  dsimp only
  rw [if_neg accepted, RtosStateSpec.run_bind, walk, run, index_of_register register]
  rfl

end Entry

/-- One large page with a UITT of two entries at 0x4000, for vectors 5 and 9, and a UPID at
    0x5000. -/
def twoEntries : Memory := imageOf
  [(0x1000, 0x27), (0x1001, 0x20), (0x2000, 0xe7), (0x4000, 0x01), (0x4001, 0x05), (0x4009, 0x50), (0x4010, 0x01),
    (0x4011, 0x09), (0x4019, 0x50)]

def twoEntrySender (regs : Fin 16 → BitVec 64) : Sender where
  mmu := longMmu
  regs
  uintrMisc := 1
  uintrTt := 0x4001

def rcxSender : Sender := twoEntrySender fun r => if r = 1 then 1 else 0

/-- The vector's bit of PIR, and a notification if neither ON nor SN is set. -/
def exactPost (uitte : UittEntry) (upid : Upid) : Upid × Option Ipi :=
  let free := !upid.status.getLsbD 0 && !upid.status.getLsbD 1
  ({ upid with
      puir := upid.puir ||| BitVec.twoPow 64 uitte.userVec.toNat
      status := if free then upid.status ||| upidOn else upid.status },
    if free then some ⟨upid.ndst.extractLsb' 8 8, upid.nv⟩ else none)

/-- SENDUIPIs to one UPID, one after the other: each holds the lock of the emulator while it
    reads and writes the UPID. -/
def postAll : List UittEntry → Upid → Upid × List Ipi
  | [], upid => (upid, [])
  | uitte :: rest, upid =>
    let posted := helperSenduipi uitte upid
    let later := postAll rest posted.1
    (later.1, posted.2.toList ++ later.2)

theorem mask_test (status : BitVec 8) :
    status &&& (0x11 : BitVec 8) = 0 ↔ status.getLsbD 0 = false ∧ status.getLsbD 4 = false := by
  have table : ∀ status : BitVec 8,
      status &&& (0x11 : BitVec 8) = 0 ↔ status.getLsbD 0 = false ∧ status.getLsbD 4 = false := by decide +kernel
  exact table status

theorem dest_byte (ndst : BitVec 32) : (ndst >>> 8).setWidth 8 = ndst.extractLsb' 8 8 := rfl

theorem post_exact_iff (low : uitte.userVec.toNat ≤ 30) (upid : Upid) :
    helperSenduipi uitte upid = exactPost uitte upid ↔
      (upid.status.getLsbD 0 = false → upid.status.getLsbD 1 = upid.status.getLsbD 4) := by
  unfold helperSenduipi exactPost
  rw [shifted_one_low low]
  dsimp only
  by_cases notified : upid.status &&& (0x11 : BitVec 8) = 0
  · obtain ⟨on, four⟩ := (mask_test upid.status).mp notified
    rw [if_pos notified, on, four, dest_byte]
    cases sn : upid.status.getLsbD 1 <;> simp
  rw [if_neg notified]
  cases on : upid.status.getLsbD 0 with
  | true => simp
  | false =>
    have four : upid.status.getLsbD 4 = true :=
      Bool.of_not_eq_false fun clear => notified ((mask_test upid.status).mpr ⟨on, clear⟩)
    rw [four]
    cases sn : upid.status.getLsbD 1 <;> simp

theorem post_puir : (helperSenduipi uitte upid).1.puir = upid.puir ||| intOneShifted uitte.userVec.toNat := by
  unfold helperSenduipi
  dsimp only
  split <;> rfl

theorem post_when_on (on : upid.status.getLsbD 0 = true) :
    (helperSenduipi uitte upid).2 = none ∧ (helperSenduipi uitte upid).1.status.getLsbD 0 = true := by
  have held : ¬ upid.status &&& (0x11 : BitVec 8) = 0 := by
    rw [mask_test, on]
    simp
  unfold helperSenduipi
  dsimp only
  rw [if_neg held]
  exact ⟨rfl, on⟩

theorem post_notifies_once (uitte : UittEntry) (upid : Upid) :
    (helperSenduipi uitte upid).2 = none ∨ (helperSenduipi uitte upid).1.status.getLsbD 0 = true := by
  unfold helperSenduipi
  dsimp only
  split
  · right
    simp [upidOn]
  · exact Or.inl rfl

theorem all_quiet_when_on (entries : List UittEntry) (on : upid.status.getLsbD 0 = true) :
    (postAll entries upid).2 = [] := by
  induction entries generalizing upid with
  | nil => rfl
  | cons uitte rest ih =>
    obtain ⟨silent, still_on⟩ := post_when_on on
    rw [postAll]
    dsimp only
    rw [silent, ih still_on]
    rfl

theorem at_most_one_notification (entries : List UittEntry) (upid : Upid) :
    (postAll entries upid).2.length ≤ 1 := by
  induction entries generalizing upid with
  | nil => exact Nat.zero_le _
  | cons uitte rest ih =>
    rw [postAll]
    dsimp only
    rcases post_notifies_once uitte upid with silent | on
    · rw [silent]
      exact ih _
    · rw [all_quiet_when_on rest on, List.append_nil]
      cases (helperSenduipi uitte upid).2 <;> simp

theorem union_posted (low : ∀ e ∈ entries, e.userVec.toNat ≤ 30) (upid : Upid) (w : Nat) :
    (postAll entries upid).1.puir.getLsbD w =
      (upid.puir.getLsbD w || entries.any fun e => e.userVec.toNat == w) := by
  induction entries generalizing upid with
  | nil => simp [postAll]
  | cons uitte rest ih =>
    have first := low uitte (.head _)
    rw [postAll]
    dsimp only
    rw [ih (fun e member => low e (.tail _ member)), post_puir, shifted_one_low first,
      getLsbD_or, getLsbD_twoPow, List.any_cons, Bool.or_assoc]
    congr 2
    by_cases here : uitte.userVec.toNat = w
    · subst here
      simp
      omega
    · simp [here]

def emptyUpid : Upid := ⟨0, 0, uintrUinv, 0, 0x300, 0⟩

end RtosUintrSenduipi
