import CompositeRtos.Nimbos.Stdio

/-!
What `fprintf` should print and when it does. A format is a list of items: a character, an
escaped percent sign, or a conversion together with its argument. Each item has its text in
the format, its arguments and its representation; the loop of `fprintf` is followed item by
item.
-/
namespace RtosNimbosFprintf
open RtosNumeral RtosNimbosStdio BitVec List

/-- A conversion and the value for it. An `int` or `unsigned` is the low half of its slot. -/
inductive Conversion where
  | d (slot : BitVec 64)
  | u (slot : BitVec 64)
  | x (slot : BitVec 64)
  | ld (value : BitVec 64)
  | lu (value : BitVec 64)
  | lx (value : BitVec 64)
  | p (value : BitVec 64)
  | s (bytes : List Byte)

inductive Item where
  | text (c : Byte) (plain : c ≠ percent)
  | percent
  | conv (conversion : Conversion)

def unsigned (base n : Nat) : List Byte := (numeral base n).map digit

def signed (v : Int) : List Byte := if v < 0 then minus :: unsigned 10 v.natAbs else unsigned 10 v.natAbs

/-- A pointer's representation is up to the implementation. Here it is all of its
    hexadecimal digits. -/
def pointer (value : BitVec 64) : List Byte :=
  0x30 :: 0x78 :: (List.range 16).map fun i => digit (value.toNat / 16 ^ (15 - i) % 16)

namespace Conversion

def format : Conversion → List Byte
  | .d _ => [percent, 0x64]
  | .u _ => [percent, 0x75]
  | .x _ => [percent, 0x78]
  | .ld _ => [percent, 0x6c, 0x64]
  | .lu _ => [percent, 0x6c, 0x75]
  | .lx _ => [percent, 0x6c, 0x78]
  | .p _ => [percent, 0x70]
  | .s _ => [percent, 0x73]

def arg : Conversion → Arg
  | .d v | .u v | .x v | .ld v | .lu v | .lx v | .p v => .word v
  | .s bytes => .text bytes

def render : Conversion → List Byte
  | .d slot => signed (slot.setWidth 32).toInt
  | .u slot => unsigned 10 (slot.setWidth 32).toNat
  | .x slot => unsigned 16 (slot.setWidth 32).toNat
  | .ld v => signed v.toInt
  | .lu v => unsigned 10 v.toNat
  | .lx v => unsigned 16 v.toNat
  | .p v => pointer v
  | .s bytes => bytes

end Conversion

namespace Item

def format : Item → List Byte
  | .text c _ => [c]
  | .percent => [RtosNimbosStdio.percent, RtosNimbosStdio.percent]
  | .conv c => c.format

def args : Item → List Arg
  | .conv c => [c.arg]
  | _ => []

def render : Item → List Byte
  | .text c _ => [c]
  | .percent => [RtosNimbosStdio.percent]
  | .conv c => c.render

end Item

def format (items : List Item) : List Byte := items.flatMap Item.format
def args (items : List Item) : List Arg := items.flatMap Item.args
def render (items : List Item) : List Byte := items.flatMap Item.render

/-- The call returns, the text goes to `f`, nothing goes to another descriptor, and no store
    misses its array. -/
def Right (kernel : Kernel) (f : Int) (items : List Item) (st : Stdio) : Prop :=
  ∃ st', fprintf kernel f (format items) (args items) st = some st' ∧ Sends f (render items) st st'

/-- Numbers go to the standard output whatever the stream is, `%u` and `%x` take an `int`,
    `%lx` prints a sign, the array for digits has 16 places, and `%s` stops at 200. -/
def Printable (f : Int) : Conversion → Prop
  | .d _ => f = stdout
  | .u slot => f = stdout ∧ (slot.setWidth 32).toNat < 2 ^ 31
  | .x slot => f = stdout ∧ (slot.setWidth 32).toNat < 2 ^ 31
  | .ld v => f = stdout ∧ -10 ^ 15 < v.toInt ∧ v.toInt < 10 ^ 16
  | .lu v => f = stdout ∧ v.toNat < 10 ^ 16
  | .lx v => f = stdout ∧ v.toNat < 2 ^ 63
  | .p _ => f = stdout
  | .s bytes => bytes.length ≤ 200

theorem format_cons : format (item :: items) = item.format ++ format items := rfl

theorem literal_text (plain : c ≠ percent) : literal (c :: s) = c :: literal s := by
  simp only [literal, takeWhile_cons, dropWhile_cons, decide_eq_true plain, if_true, List.cons_append]

theorem after_literal_text (plain : c ≠ percent) : afterLiteral (c :: s) = afterLiteral s := by
  simp only [afterLiteral, dropWhile_cons, decide_eq_true plain, if_true]

theorem literal_at_percent : literal (percent :: s) = List.replicate (percentPairs (percent :: s)) percent := rfl

theorem after_literal_at_percent :
    afterLiteral (percent :: s) = (percent :: s).drop (2 * percentPairs (percent :: s)) := rfl

theorem percent_pairs_text (plain : c ≠ percent) : percentPairs (c :: s) = 0 := by
  cases s with
  | nil => rfl
  | cons b rest => rw [percentPairs, if_neg fun both => plain both.1]

theorem percent_pairs_conversion (c : Conversion) (s : List Byte) : percentPairs (c.format ++ s) = 0 := by
  cases c <;> rfl

/-- Some items are passed with the text `printed`, and none of them takes an argument. -/
structure Passed (items rest : List Item) (printed : List Byte) : Prop where
  suffix : rest <:+ items
  args : args items = args rest
  render : render items = printed ++ render rest

theorem passed_nothing (items : List Item) : Passed items items [] := ⟨suffix_refl _, rfl, rfl⟩

theorem passed_cons (bare : item.args = []) (passed : Passed items rest printed) :
    Passed (item :: items) rest (item.render ++ printed) where
  suffix := passed.suffix.trans (suffix_cons _ _)
  args := by
    show item.args ++ RtosNimbosFprintf.args items = _
    rw [bare, nil_append, passed.args]
  render := by
    show item.render ++ RtosNimbosFprintf.render items = _
    rw [passed.render, List.append_assoc]

theorem percents_passed (items : List Item) :
    ∃ rest, Passed items rest (List.replicate (percentPairs (format items)) percent) ∧
      (format items).drop (2 * percentPairs (format items)) = format rest := by
  induction items with
  | nil => exact ⟨[], passed_nothing [], rfl⟩
  | cons item items ih =>
    have stop : percentPairs (format (item :: items)) = 0 →
        ∃ rest, Passed (item :: items) rest (List.replicate (percentPairs (format (item :: items))) percent) ∧
          (format (item :: items)).drop (2 * percentPairs (format (item :: items))) = format rest := by
      intro none
      rw [none]
      exact ⟨item :: items, passed_nothing _, rfl⟩
    cases item with
    | text c plain => exact stop (percent_pairs_text plain)
    | conv c => exact stop (percent_pairs_conversion c _)
    | percent =>
      obtain ⟨rest, passed, behind⟩ := ih
      have pairs : percentPairs (format (Item.percent :: items)) = percentPairs (format items) + 1 := rfl
      rw [pairs]
      refine ⟨rest, passed_cons rfl passed, ?_⟩
      rw [← behind, Nat.mul_succ, ← drop_drop, drop_drop, Nat.add_comm, ← drop_drop]
      rfl

theorem literal_passed (items : List Item) :
    ∃ rest, Passed items rest (literal (format items)) ∧ afterLiteral (format items) = format rest := by
  induction items with
  | nil => exact ⟨[], passed_nothing [], rfl⟩
  | cons item items ih =>
    have pairs : ∀ s, format (item :: items) = percent :: s →
        ∃ rest, Passed (item :: items) rest (literal (format (item :: items))) ∧
          afterLiteral (format (item :: items)) = format rest := by
      intro s shape
      rw [shape, literal_at_percent, after_literal_at_percent, ← shape]
      exact percents_passed (item :: items)
    cases item with
    | text c plain =>
      obtain ⟨rest, passed, behind⟩ := ih
      rw [format_cons, show (Item.text c plain).format = [c] from rfl, singleton_append,
        literal_text plain, after_literal_text plain]
      exact ⟨rest, passed_cons rfl passed, behind⟩
    | percent => exact pairs _ rfl
    | conv c => cases c <;> exact pairs _ rfl

section Rounds

def Conversion.effect (kernel : Kernel) (f : Int) (st : Stdio) : Conversion → Stdio
  | .d slot => printint kernel st ((slot.setWidth 32).signExtend 64) 10 decimal true
  | .u slot => printint kernel st ((slot.setWidth 32).signExtend 64) 10 decimal false
  | .x slot => printint kernel st ((slot.setWidth 32).signExtend 64) 16 hexadecimal true
  | .ld v => printint kernel st v 10 decimal true
  | .lu v => printint kernel st v 10 decimal false
  | .lx v => printint kernel st v 16 hexadecimal true
  | .p v => printptr kernel st v
  | .s bytes => (st.out kernel f (bytes.take 200)).2

variable (kernel : Kernel) (f : Int)

theorem convert_conversion (c : Conversion) (s : List Byte) (rest : List Arg) (st : Stdio) :
    ∃ letter tail, c.format = percent :: letter :: tail ∧
      convert kernel f letter (tail ++ s) (c.arg :: rest) st = some ⟨s, rest, c.effect kernel f st⟩ := by
  cases c <;> exact ⟨_, _, rfl, rfl⟩

theorem loop_conversion (c : Conversion) (s : List Byte) (rest : List Arg) (st : Stdio) :
    fprintfLoop kernel f (c.format ++ s) (c.arg :: rest) st =
      fprintfLoop kernel f s rest (c.effect kernel f (st.out kernel f []).2) := by
  obtain ⟨letter, tail, shape, converted⟩ := convert_conversion kernel f c s rest (st.out kernel f []).2
  have nothing : literal (c.format ++ s) = [] := by
    have pairs := percent_pairs_conversion c s
    rw [shape, List.cons_append] at pairs ⊢
    rw [literal_at_percent, pairs, List.replicate_zero]
  rw [shape, List.cons_append, List.cons_append] at nothing ⊢
  rw [fprintfLoop, if_neg (cons_ne_nil _ _)]
  simp only [nothing, ne_eq, not_true, dite_false]
  split
  · rename_i failed
    rw [nothing, converted] at failed
    cases failed
  rename_i result done
  rw [nothing, converted] at done
  cases done
  rfl

theorem loop_literal (printed : literal s ≠ []) (rest : List Arg) (st : Stdio) :
    fprintfLoop kernel f s rest st = fprintfLoop kernel f (afterLiteral s) rest (st.out kernel f (literal s)).2 := by
  have nonempty : s ≠ [] := by
    rintro rfl
    exact printed rfl
  rw [fprintfLoop, if_neg nonempty, dif_pos printed]

theorem fprintf_conversion (c : Conversion) (st : Stdio) :
    fprintf kernel f (format [.conv c]) (args [.conv c]) st = some (c.effect kernel f (st.out kernel f []).2) := by
  show fprintfLoop kernel f (c.format ++ []) [c.arg] st = _
  rw [loop_conversion, fprintfLoop]
  rfl

variable {kernel} (full : Full kernel)
include full

/-- If every conversion of a format prints its representation, `fprintf` prints the format's
    text. The induction is on the length of the format, since a round may take many items. -/
theorem loop_sends (items : List Item) (st : Stdio) (fresh : st.outside = false)
    (each : ∀ c, Item.conv c ∈ items → ∀ st : Stdio, st.outside = false → Sends f c.render st (c.effect kernel f st)) :
    ∃ st', fprintfLoop kernel f (format items) (args items) st = some st' ∧ Sends f (render items) st st' := by
  generalize size : (format items).length = n
  induction n using Nat.strong_induction_on generalizing items st with
  | _ n ih =>
    have by_literal : literal (format items) ≠ [] →
        ∃ st', fprintfLoop kernel f (format items) (args items) st = some st' ∧ Sends f (render items) st st' := by
      intro printed
      obtain ⟨rest, passed, behind⟩ := literal_passed items
      have first := out_sends full st f (literal (format items))
      have shorter := after_literal_shorter printed
      rw [behind, size] at shorter
      obtain ⟨st', result, sends⟩ := ih _ shorter rest (st.out kernel f (literal (format items))).2
        (first.inside.trans fresh) (fun c member => each c (passed.suffix.subset member)) rfl
      rw [loop_literal kernel f printed, behind, passed.args, passed.render]
      exact ⟨st', result, sends_trans first sends⟩
    cases items with
    | nil =>
      refine ⟨st, ?_, sends_nothing⟩
      rw [fprintfLoop]
      rfl
    | cons item items =>
      cases item with
      | text c plain =>
        apply by_literal
        rw [format_cons, show (Item.text c plain).format = [c] from rfl, singleton_append, literal_text plain]
        exact cons_ne_nil _ _
      | percent =>
        apply by_literal
        exact cons_ne_nil _ _
      | conv c =>
        have first := out_sends full st f []
        have second := each c ((.head _) ..) _ (first.inside.trans fresh)
        have shorter : (format items).length < n := by
          rw [← size, format_cons, length_append]
          have : 0 < (Item.conv c).format.length := by cases c <;> exact Nat.zero_lt_succ _
          omega
        obtain ⟨st', result, sends⟩ := ih _ shorter items (c.effect kernel f (st.out kernel f []).2)
          (second.inside.trans (first.inside.trans fresh))
          (fun c member => each c (.tail _ member)) rfl
        refine ⟨st', ?_, sends_trans (sends_trans first second) sends⟩
        rw [← result]
        exact loop_conversion kernel f c (format items) (args items) st

theorem right_conversion (c : Conversion) (st : Stdio) :
    Right kernel f [.conv c] st ↔
      Sends f c.render (st.out kernel f []).2 (c.effect kernel f (st.out kernel f []).2) := by
  have first := out_sends full st f []
  have text : render [.conv c] = c.render := append_nil _
  unfold Right
  rw [fprintf_conversion, text]
  constructor
  · rintro ⟨st', same, sends⟩
    cases same
    refine ⟨?_, fun g other => ?_, sends.inside.trans first.inside.symm⟩
    · rw [sends.sent, first.sent, append_nil]
    · rw [sends.others g other, first.others g other]
  · intro sends
    exact ⟨_, rfl, sends_trans first sends⟩

end Rounds

theorem unsigned_ne_nil : unsigned base n ≠ [] := by
  intro empty
  exact numeral_ne_nil (map_eq_nil_iff.mp empty)

theorem unsigned_length_le_iff (wide : 1 < base) (positive : 0 < k) (n : Nat) :
    (unsigned base n).length ≤ k ↔ n < base ^ k := by
  rw [unsigned, length_map]
  exact numeral_length_le_iff wide positive n

theorem unsigned_head : minus :: rest ≠ unsigned 16 n := by
  intro same
  have plain : ∀ d < 16, digit d ≠ minus := by decide
  have member : minus ∈ unsigned 16 n := by
    rw [← same]
    exact (.head _) ..
  obtain ⟨d, inside, equal⟩ := List.mem_map.mp member
  exact plain d (numeral_digit_lt (by decide) inside) equal

theorem int_cells_unsigned (value : BitVec 64) : intCells value 10 (by decide) false = unsigned 10 value.toNat := by
  rw [int_cells]
  rfl

theorem msb_clear_iff (v : BitVec (w + 1)) : v.msb = false ↔ v.toNat < 2 ^ w := by
  rw [msb_eq_decide, decide_eq_false_iff_not, Nat.not_le]
  rfl

theorem int_cells_signed (value : BitVec 64) : intCells value 10 (by decide) true = signed value.toInt := by
  have negative : value.msb = true ↔ value.toInt < 0 := by
    rw [msb_eq_toInt, decide_eq_true_iff]
  rw [int_cells, signed, magnitude, Bool.true_and]
  by_cases below : value.toInt < 0
  · have size : (-value).toNat = value.toInt.natAbs := by
      have word := value.isLt
      have high : ¬ value.toNat < 2 ^ 63 := by
        rw [← msb_clear_iff, negative.mpr below]
        decide
      have wrapped : value.toInt = value.toNat - ((2 ^ 64 : Nat) : Int) := by
        rw [toInt_eq_msb_cond, if_pos (negative.mpr below)]
      rw [wrapped] at below ⊢
      rw [toNat_neg]
      omega
    rw [if_pos (negative.mpr below), if_pos (negative.mpr below), if_pos below, size]
    rfl
  · have clear : ¬ value.msb = true := fun set => below (negative.mp set)
    have size : value.toNat = value.toInt.natAbs := by
      rw [toInt_eq_msb_cond, if_neg clear, Int.natAbs_natCast]
    rw [if_neg clear, if_neg clear, if_neg below, ← size]
    rfl

theorem int_cells_hex (clear : value.msb = false) : intCells value 16 (by decide) true = unsigned 16 value.toNat := by
  rw [int_cells, magnitude, clear]
  rfl

theorem int_cells_hex_negative (set : value.msb = true) (n : Nat) :
    intCells value 16 (by decide) true ≠ unsigned 16 n := by
  rw [int_cells, set]
  exact unsigned_head

theorem signed_length_le_iff (v : Int) : (signed v).length ≤ 16 ↔ -10 ^ 15 < v ∧ v < 10 ^ 16 := by
  unfold signed
  split
  · rw [length_cons, Nat.succ_le_succ_iff, unsigned_length_le_iff (by decide) (by decide)]
    omega
  · rw [unsigned_length_le_iff (by decide) (by decide)]
    omega

theorem sign_extend_toNat (w : BitVec 32) :
    (w.signExtend 64).toNat = if w.msb = true then w.toNat + (2 ^ 64 - 2 ^ 32) else w.toNat := by
  rw [toNat_signExtend, toNat_setWidth, Nat.mod_eq_of_lt (Nat.lt_trans w.isLt (by decide))]
  cases w.msb with
  | true => rfl
  | false => rfl

theorem sign_extend_toInt (w : BitVec 32) : (w.signExtend 64).toInt = w.toInt :=
  toInt_signExtend_of_le (by decide)

theorem sign_extend_msb (w : BitVec 32) : (w.signExtend 64).msb = w.msb := by
  rw [msb_eq_toInt, msb_eq_toInt, sign_extend_toInt]

theorem ptr_digits (j : Nat) (value : BitVec 64) (bound : j ≤ 16) :
    ptrDigits j value = (List.range j).map fun i => digit (value.toNat / 16 ^ (15 - i) % 16) := by
  induction j generalizing value with
  | zero => rfl
  | succ j ih =>
    have word := value.isLt
    have first : (value >>> 60).toNat = value.toNat / 16 ^ 15 % 16 := by
      rw [toNat_ushiftRight, Nat.shiftRight_eq_div_pow]
      omega
    rw [ptrDigits, ih _ (by omega), range_succ_eq_map, map_cons, List.map_map, first]
    congr 1
    apply map_congr_left
    intro i member
    have inside := mem_range.mp member
    have split : 16 ^ (15 - i) = 16 ^ (15 - (i + 1)) * 16 := by
      rw [← Nat.pow_succ]
      congr 1
      omega
    have whole : 2 ^ 64 = 16 ^ (i + 1) * 16 ^ (15 - i) := by
      rw [← Nat.pow_add, show i + 1 + (15 - i) = 16 by omega]
      decide
    show digit _ = digit _
    congr 1
    rw [toNat_shiftLeft, Nat.shiftLeft_eq, whole, Nat.mul_comm (16 ^ (i + 1)),
      Nat.mod_mul_right_div_self, Nat.pow_succ 16 i, Nat.mul_comm (16 ^ i), Nat.mod_mul_right_mod, split,
      show value.toNat * 2 ^ 4 = value.toNat * 16 from rfl, Nat.mul_div_mul_right _ _ (by decide)]

theorem printptr_pointer (value : BitVec 64) : 0x30 :: 0x78 :: ptrDigits 16 value = pointer value := by
  rw [ptr_digits 16 value (Nat.le_refl _)]
  rfl

section Correctness

variable {kernel : Kernel} (f : Int)

theorem sends_stdout_iff (printed : Sends stdout a st st') (nonempty : a ≠ []) :
    Sends f b st st' ↔ f = stdout ∧ b = a := by
  constructor
  · intro sends
    have same : f = stdout := by
      by_contra other
      have kept := sends.others stdout (Ne.symm other)
      rw [printed.sent] at kept
      exact nonempty (append_right_eq_self.mp kept)
    subst same
    exact ⟨rfl, append_cancel_left (sends.sent.symm.trans printed.sent)⟩
  · rintro ⟨rfl, rfl⟩
    exact printed

theorem int_cells_ne_nil (wide : 1 < base) : intCells value base wide sign ≠ [] := by
  rw [int_cells]
  intro empty
  exact unsigned_ne_nil (append_eq_nil_iff.mp empty).2

variable (full : Full kernel)
include full

theorem printint_sends_iff (fresh : st.outside = false) (value : BitVec 64) (wide : 1 < base) (sign : Bool)
    (text : List Byte) :
    Sends f text st (printint kernel st value base wide sign) ↔
      f = stdout ∧ text = intCells value base wide sign ∧ (intCells value base wide sign).length ≤ 16 := by
  rcases Nat.lt_or_ge 16 (intCells value base wide sign).length with long | short
  · constructor
    · intro sends
      have missed := printint_outside full st value wide sign long
      rw [sends.inside, fresh] at missed
      cases missed
    · rintro ⟨_, _, short⟩
      omega
  · rw [sends_stdout_iff f (printint_sends full st value wide sign short) (int_cells_ne_nil wide)]
    simp only [short, and_true]

theorem printint_hex_sends_iff (fresh : st.outside = false) (agree : value.msb = false → n = value.toNat) :
    Sends f (unsigned 16 n) st (printint kernel st value 16 (by decide) true) ↔ f = stdout ∧ value.msb = false := by
  rw [printint_sends_iff f full fresh]
  cases sign : value.msb with
  | true =>
    constructor
    · rintro ⟨_, same, _⟩
      exact absurd same.symm (int_cells_hex_negative sign n)
    · rintro ⟨_, clear⟩
      cases clear
  | false =>
    rw [int_cells_hex sign, unsigned_length_le_iff (by decide) (by decide), agree sign]
    exact ⟨fun right => ⟨right.1, rfl⟩, fun right => ⟨right.1, rfl, value.isLt⟩⟩

theorem effect_sends_iff (fresh : st.outside = false) (c : Conversion) :
    Sends f c.render st (c.effect kernel f st) ↔ Printable f c := by
  cases c with
  | d slot =>
    have bounds : -10 ^ 15 < (slot.setWidth 32).toInt ∧ (slot.setWidth 32).toInt < 10 ^ 16 := by
      have low := le_toInt (slot.setWidth 32)
      have high := toInt_lt (x := slot.setWidth 32)
      omega
    refine (printint_sends_iff f full fresh _ _ _ _).trans ?_
    rw [int_cells_signed, sign_extend_toInt, signed_length_le_iff]
    exact ⟨fun right => right.1, fun same => ⟨same, rfl, bounds⟩⟩
  | u slot =>
    refine (printint_sends_iff f full fresh _ _ _ _).trans ?_
    have word := (slot.setWidth 32).isLt
    have clear := msb_clear_iff (slot.setWidth 32)
    rw [int_cells_unsigned, sign_extend_toNat, unsigned_length_le_iff (by decide) (by decide), Printable, ← clear]
    cases (slot.setWidth 32).msb with
    | true =>
      -- The sign extension has twenty digits.
      simp only [if_true, Bool.true_eq_false, and_false, iff_false]
      omega
    | false => exact ⟨fun right => ⟨right.1, rfl⟩, fun right => ⟨right.1, rfl, Nat.lt_trans word (by decide)⟩⟩
  | x slot =>
    have agree : ((slot.setWidth 32).signExtend 64).msb = false →
        (slot.setWidth 32).toNat = ((slot.setWidth 32).signExtend 64).toNat := by
      intro clear
      rw [sign_extend_msb] at clear
      rw [sign_extend_toNat, clear]
      rfl
    refine (printint_hex_sends_iff f full fresh agree).trans ?_
    rw [sign_extend_msb, msb_clear_iff, Printable]
  | ld v =>
    refine (printint_sends_iff f full fresh _ _ _ _).trans ?_
    rw [int_cells_signed, signed_length_le_iff]
    exact ⟨fun right => ⟨right.1, right.2.2⟩, fun printable => ⟨printable.1, rfl, printable.2⟩⟩
  | lu v =>
    refine (printint_sends_iff f full fresh _ _ _ _).trans ?_
    rw [int_cells_unsigned, unsigned_length_le_iff (by decide) (by decide)]
    exact ⟨fun right => ⟨right.1, right.2.2⟩, fun printable => ⟨printable.1, rfl, printable.2⟩⟩
  | lx v =>
    refine (printint_hex_sends_iff f full fresh fun _ => rfl).trans ?_
    rw [msb_clear_iff, Printable]
  | p v =>
    have printed := printptr_sends full st v
    rw [printptr_pointer] at printed
    refine (sends_stdout_iff f printed (cons_ne_nil _ _)).trans ?_
    exact ⟨fun right => right.1, fun same => ⟨same, rfl⟩⟩
  | s bytes =>
    have printed := out_sends full st f (bytes.take 200)
    constructor
    · intro sends
      have same : bytes = bytes.take 200 := append_cancel_left (sends.sent.symm.trans printed.sent)
      show bytes.length ≤ 200
      rw [same, length_take]
      exact Nat.min_le_left _ _
    intro short
    rw [take_of_length_le short] at printed
    show Sends f bytes st (st.out kernel f (bytes.take 200)).2
    rw [take_of_length_le short]
    exact printed

end Correctness

/-- With every write accepted, `fprintf` is right for each format all of whose conversions
    are printable on the stream, and a conversion alone is right only if it is. -/
theorem fprintf_right_iff {kernel : Kernel} (full : Full kernel) (f : Int) (st : Stdio) (fresh : st.outside = false) :
    (∀ items, (∀ c, Item.conv c ∈ items → Printable f c) → Right kernel f items st) ∧
      ∀ c, Right kernel f [.conv c] st ↔ Printable f c := by
  constructor
  · intro items printable
    exact loop_sends f full items st fresh fun c member st inside =>
      (effect_sends_iff f full inside c).mpr (printable c member)
  intro c
  rw [right_conversion f full]
  exact effect_sends_iff f full ((out_sends full st f []).inside.trans fresh) c

def atStart : Stdio := ⟨[], [], false, cleared_room⟩
def acceptAll : Kernel := fun _ _ bytes => bytes.length

theorem escaped_number_and_string_right :
    Right acceptAll stdout
      [.text 0x61 (by decide), .percent, .conv (.d (-5)), .percent, .conv (.s [0x62, 0x63]), .text 0x0a (by decide)]
      atStart := by
  apply (fprintf_right_iff (fun _ _ _ => rfl) stdout atStart rfl).1
  intro c member
  simp only [List.mem_cons, List.not_mem_nil, or_false, reduceCtorEq, false_or, Item.conv.injEq] at member
  rcases member with rfl | rfl
  · rfl
  · exact show (2 : Nat) ≤ 200 by decide

/-- A number for the standard error goes to the standard output, `4294967295` in hexadecimal
    becomes `-1`, and `2147483648` is stored as twenty digits in 16 places. -/
theorem stderr_number_and_high_unsigned :
    ((fprintf acceptAll 2 [0x25, 0x64] [.word 5] atStart).map fun st => (st.sent 2, st.sent stdout)) =
        some ([], [0x35]) ∧
      ((fprintf acceptAll stdout [0x25, 0x78] [.word 0xffffffff] atStart).map fun st => st.sent stdout) =
        some [0x2d, 0x31] ∧
      ((fprintf acceptAll stdout [0x25, 0x75] [.word 0x80000000] atStart).map fun st => st.outside) = some true := by
  have full : Full acceptAll := fun _ _ _ => rfl
  refine ⟨?_, ?_, ?_⟩
  · have run := fprintf_conversion acceptAll 2 (.d 5) atStart
    have fresh : (atStart.out acceptAll 2 []).2.outside = false := rfl
    have printed := (effect_sends_iff stdout full fresh (.d 5)).mpr rfl
    refine (congrArg _ run).trans ?_
    show some ((Conversion.d 5).effect acceptAll stdout _ |>.sent 2, _) = _
    rw [printed.others 2 (by decide)]
    refine congrArg (fun text => some ([], text)) (printed.sent.trans ?_)
    decide
  · have run := fprintf_conversion acceptAll stdout (.x 0xffffffff) atStart
    have cells : intCells (((0xffffffff : BitVec 64).setWidth 32).signExtend 64) 16 (by decide) true =
        [0x2d, 0x31] := by
      rw [int_cells]
      decide
    have printed := printint_sends full atStart (((0xffffffff : BitVec 64).setWidth 32).signExtend 64)
      (show 1 < 16 by decide) true (by rw [cells]; decide)
    rw [cells] at printed
    exact (congrArg _ run).trans (congrArg some printed.sent)
  · have run := fprintf_conversion acceptAll stdout (.u 0x80000000) atStart
    refine (congrArg _ run).trans (congrArg some ?_)
    apply printint_outside full
    rw [int_cells_unsigned]
    decide

end RtosNimbosFprintf
