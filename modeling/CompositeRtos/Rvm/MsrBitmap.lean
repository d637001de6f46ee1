import Mathlib.Algebra.Group.Nat.Defs
import Mathlib.Logic.Function.Basic

/-!
The MSR bitmap that the VMCS points to. `mask` computes the byte and the bit of the
manual's layout, but it combines them with `&=`, and the page starts out as zeros: no call
ever sets a bit.
-/
namespace RtosRvmMsrBitmap
open BitVec

abbrev Page := Nat → BitVec 8

def Page.new : Page := fun _ => 0

def maskByte (msr : BitVec 32) (isWrite : Bool) : Nat :=
  (if msr ≥ 0xc0000000 then 1 <<< 10 else 0) + (if isWrite then 2 <<< 10 else 0) + (msr &&& 0x1fff).toNat / 8

def mask (page : Page) (msr : BitVec 32) (isWrite : Bool) : Page :=
  Function.update page (maskByte msr isWrite)
    (page (maskByte msr isWrite) &&& 1#8 <<< ((msr &&& 0x1fff).toNat % 8))

def inclusive (first last : BitVec 32) : List (BitVec 32) :=
  (List.range (last.toNat + 1 - first.toNat)).map fun k => first + BitVec.ofNat 32 k

def maskRange (page : Page) (first last : BitVec 32) (isWrite : Bool) : Page :=
  (inclusive first last).foldl (fun p msr => mask p msr isWrite) page

inductive Call where
  | mask (msr : BitVec 32) (isWrite : Bool)
  | maskRange (first last : BitVec 32) (isWrite : Bool)

def Call.run (page : Page) : Call → Page
  | .mask msr isWrite => RtosRvmMsrBitmap.mask page msr isWrite
  | .maskRange first last isWrite => RtosRvmMsrBitmap.maskRange page first last isWrite

def bitmap (calls : List Call) : Page := calls.foldl Call.run Page.new

def defaultCalls : List Call :=
  [.mask 0x277 false, .mask 0x2ff false,
   .mask 0x802 false, .mask 0x803 false, .mask 0x808 false, .mask 0x80a false, .mask 0x80d false, .mask 0x80f false,
   .maskRange 0x810 0x817 false, .maskRange 0x818 0x81f false, .maskRange 0x820 0x827 false,
   .mask 0x828 false, .mask 0x82f false, .mask 0x830 false, .maskRange 0x832 0x837 false,
   .mask 0x838 false, .mask 0x839 false, .mask 0x83e false,
   .mask 0x1b true, .maskRange 0x200 0x277 true, .mask 0x277 true, .mask 0x2ff true, .mask 0x38f true,
   .maskRange 0xc80 0xd8f true,
   .mask 0x808 true, .mask 0x80b true, .mask 0x80f true, .mask 0x828 true, .mask 0x82f true, .mask 0x830 true,
   .maskRange 0x832 0x837 true, .mask 0x838 true, .mask 0x839 true, .mask 0x83e true]

def Call.Names (msr : BitVec 32) (isWrite : Bool) : Call → Prop
  | .mask m w => m = msr ∧ w = isWrite
  | .maskRange first last w => first ≤ msr ∧ msr ≤ last ∧ w = isWrite

def Named (calls : List Call) (msr : BitVec 32) (isWrite : Bool) : Prop :=
  ∃ c ∈ calls, c.Names msr isWrite

def Mapped (msr : BitVec 32) : Prop := msr ≤ 0x1fff ∨ 0xc0000000 ≤ msr ∧ msr ≤ 0xc0001fff

instance (msr : BitVec 32) : Decidable (Mapped msr) := inferInstanceAs (Decidable (_ ∨ _))

def Call.Covered (c : Call) : Prop := ∀ msr isWrite, c.Names msr isWrite → Mapped msr

/-- The four bitmaps of 1 KByte in the order of the manual: read low, read high, write low,
    write high. -/
def sdmByte (msr : BitVec 32) (isWrite : Bool) : Nat :=
  (if isWrite then 2048 else 0) +
    if msr ≤ 0x1fff then msr.toNat / 8 else 1024 + (msr.toNat - 0xc0000000) / 8

def intercepted (page : Page) (msr : BitVec 32) (isWrite : Bool) : Bool :=
  (page (sdmByte msr isWrite)).getLsbD (msr.toNat % 8)

theorem low_bits (msr : BitVec 32) : (msr &&& 0x1fff).toNat = msr.toNat % 8192 := by
  rw [toNat_and, show (0x1fff : BitVec 32).toNat = 2 ^ 13 - 1 from rfl, Nat.and_two_pow_sub_one_eq_mod]

theorem mask_zeros : mask Page.new msr isWrite = Page.new := by
  rw [mask, show Page.new (maskByte msr isWrite) = 0#8 from rfl, zero_and]
  exact Function.update_eq_self _ Page.new

theorem mask_range_zeros : maskRange Page.new first last isWrite = Page.new := by
  unfold maskRange
  induction inclusive first last with
  | nil => rfl
  | cons msr rest ih =>
    rw [List.foldl_cons, mask_zeros]
    exact ih

theorem bitmap_zeros : bitmap calls = Page.new := by
  unfold bitmap
  induction calls with
  | nil => rfl
  | cons c rest ih =>
    have step : c.run Page.new = Page.new := by
      cases c with
      | mask msr isWrite => exact mask_zeros
      | maskRange first last isWrite => exact mask_range_zeros
    rw [List.foldl_cons, step]
    exact ih

theorem never_intercepted (calls : List Call) (msr : BitVec 32) (isWrite : Bool) :
    intercepted (bitmap calls) msr isWrite = false := by
  rw [bitmap_zeros]
  exact getLsbD_zero

/-- The bitmap is the one that the calls ask for only if they ask for nothing. -/
theorem bitmap_right_iff {calls : List Call} (covered : ∀ c ∈ calls, c.Covered) :
    (∀ msr isWrite, Mapped msr → (intercepted (bitmap calls) msr isWrite = true ↔ Named calls msr isWrite)) ↔
      ∀ msr isWrite, ¬ Named calls msr isWrite := by
  constructor
  · rintro right msr isWrite ⟨c, member, names⟩
    have set := (right msr isWrite (covered c member msr isWrite names)).mpr ⟨c, member, names⟩
    rw [never_intercepted] at set
    cases set
  intro nothing msr isWrite _
  rw [never_intercepted]
  simp [nothing msr isWrite]

/-- A range that ends before it starts names nothing. -/
theorem empty_range_right :
    intercepted (bitmap [.maskRange 0x200 0x1ff true]) 0x200 true = true ↔
      Named [.maskRange 0x200 0x1ff true] 0x200 true := by
  have nothing : ∀ msr isWrite, ¬ Named [.maskRange 0x200 0x1ff true] msr isWrite := by
    rintro msr isWrite ⟨c, member, names⟩
    rw [List.mem_singleton.mp member] at names
    obtain ⟨low, high, _⟩ := names
    simp only [BitVec.le_def, BitVec.ofNat_eq_ofNat, BitVec.toNat_ofNat] at low high
    omega
  have covered : ∀ c ∈ [Call.maskRange 0x200 0x1ff true], c.Covered := by
    intro c member msr isWrite names
    exact absurd ⟨c, member, names⟩ (nothing msr isWrite)
  exact (bitmap_right_iff covered).mpr nothing 0x200 true (by decide)

/-- The default bitmap lists the reads of `IA32_PAT` and does not intercept them. -/
theorem default_lets_pat_through :
    Named defaultCalls 0x277 false ∧ intercepted (bitmap defaultCalls) 0x277 false = false :=
  ⟨⟨.mask 0x277 false, List.mem_cons_self, rfl, rfl⟩, never_intercepted _ _ _⟩

end RtosRvmMsrBitmap
