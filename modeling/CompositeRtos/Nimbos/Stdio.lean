import Mathlib.Algebra.Group.Nat.Defs
import CompositeRtos.Lib.Numeral

/-!
The output half of the C library for user programs: the buffer of the standard output, the
two functions that print numbers, and `fprintf`. A kernel is a function that gives the
result of each `write`. What a stream was sent is what its writes were accepted for,
followed for the standard output by what is still in the buffer.
-/
namespace RtosNimbosStdio
open RtosNumeral List

abbrev Byte := BitVec 8

def stdout : Int := 1
def lineWidth : Nat := 256
def newline : Byte := 0x0a
def minus : Byte := 0x2d
def percent : Byte := 0x25

structure Write where
  fd : Int
  bytes : List Byte
  result : Int

abbrev Kernel := Nat → Int → List Byte → Int

/-- The buffer up to `buffer_len`, the writes made so far, and whether a store has missed
    its local array. -/
structure Stdio where
  buffer : List Byte
  writes : List Write
  outside : Bool
  room : buffer.length < lineWidth

def Stdio.sent (st : Stdio) (fd : Int) : List Byte :=
  ((st.writes.filter fun w => w.fd = fd).flatMap fun w => w.bytes.take w.result.toNat) ++
    if fd = stdout then st.buffer else []

theorem cleared_room : ([] : List Byte).length < lineWidth := by decide

namespace Stdio

variable (kernel : Kernel)

def write (st : Stdio) (fd : Int) (bytes : List Byte) : Int × Stdio :=
  let r := kernel st.writes.length fd bytes
  (r, { st with writes := st.writes ++ [⟨fd, bytes, r⟩] })

def writeBuffer (st : Stdio) (bytes : List Byte) : Int × Stdio :=
  let r := kernel st.writes.length stdout bytes
  (r, ⟨[], st.writes ++ [⟨stdout, bytes, r⟩], st.outside, by decide⟩)

/-- The loop of `out`. The length that a result is compared with is that of the cleared
    buffer. -/
def outLoop (ret : Int) : List Byte → Stdio → Int × Stdio
  | [], st => (ret, st)
  | c :: rest, st =>
    if full : st.buffer.length + 1 = lineWidth ∨ c = newline then
      let (r, st) := st.writeBuffer kernel (st.buffer ++ [c])
      if r < 0 then (r, st)
      else if r < st.buffer.length then (ret + r, st)
      else outLoop (ret + r) rest st
    else
      outLoop ret rest { st with
        buffer := st.buffer ++ [c]
        room := by
          have := st.room
          rw [List.length_append, List.length_singleton]
          omega }

def out (st : Stdio) (f : Int) (bytes : List Byte) : Int × Stdio :=
  if f ≠ stdout then st.write kernel f bytes else outLoop kernel 0 bytes st

def putchar (st : Stdio) (c : Byte) : Int × Stdio := st.out kernel stdout [c]

def puts (st : Stdio) (bytes : List Byte) : Stdio :=
  let (r, st) := st.out kernel stdout bytes
  if r < 0 then st else (st.putchar kernel newline).2

end Stdio

def digits : List Byte :=
  [0x30, 0x31, 0x32, 0x33, 0x34, 0x35, 0x36, 0x37, 0x38, 0x39, 0x61, 0x62, 0x63, 0x64, 0x65, 0x66]

def digit (d : Nat) : Byte := digits.getD d 0

theorem decimal : 1 < 10 := by decide

theorem hexadecimal : 1 < 16 := by decide

/-- The loop of `printint`. The digits stored so far are those at the indices from `i + 1`
    to 15, so the next one goes to index `15 - cells.length`. -/
def digitLoop (base : Nat) (wide : 1 < base) (x : Nat) (cells : List Byte) : List Byte :=
  let cells := digit (x % base) :: cells
  if more : x / base ≠ 0 then
    have : x / base < x := Nat.div_lt_self (Nat.pos_of_ne_zero fun zero => more (by rw [zero, Nat.zero_div])) wide
    digitLoop base wide (x / base) cells
  else cells

def printintError : List Byte :=
  [0x70, 0x72, 0x69, 0x6e, 0x74, 0x69, 0x6e, 0x74, 0x20, 0x65, 0x72, 0x72, 0x6f, 0x72]

def intCells (value : BitVec 64) (base : Nat) (wide : 1 < base) (sign : Bool) : List Byte :=
  let negative := sign && value.msb
  let cells := digitLoop base wide (if negative then (-value).toNat else value.toNat) []
  if negative then minus :: cells else cells

/-- A seventeenth character goes below the array. -/
def printint (kernel : Kernel) (st : Stdio) (value : BitVec 64) (base : Nat) (wide : 1 < base) (sign : Bool) :
    Stdio :=
  let cells := intCells value base wide sign
  let st := { st with outside := st.outside || decide (16 < cells.length) }
  let st := if 16 < cells.length then st.puts kernel printintError else st
  (st.out kernel stdout cells).2

def ptrDigits : Nat → BitVec 64 → List Byte
  | 0, _ => []
  | j + 1, value => digit (value >>> 60).toNat :: ptrDigits j (value <<< 4)

/-- The array has room for 33 characters and 19 are stored. -/
def printptr (kernel : Kernel) (st : Stdio) (value : BitVec 64) : Stdio :=
  (st.out kernel stdout (0x30 :: 0x78 :: ptrDigits 16 value)).2

section Format

/-- A variadic argument: a word, of which an `int` is the low half, or a `char *`. -/
inductive Arg where
  | word (slot : BitVec 64)
  | text (bytes : List Byte)
  | null

def nullText : List Byte := [0x28, 0x6e, 0x75, 0x6c, 0x6c, 0x29]

def percentPairs : List Byte → Nat
  | a :: b :: rest => if a = percent ∧ b = percent then percentPairs rest + 1 else 0
  | _ => 0

/-- What one round of `fprintf` prints literally, and how much of the format it passes. -/
def literal (s : List Byte) : List Byte :=
  let plain := s.takeWhile (· ≠ percent)
  plain ++ List.replicate (percentPairs (s.dropWhile (· ≠ percent))) percent

def afterLiteral (s : List Byte) : List Byte :=
  let rest := s.dropWhile (· ≠ percent)
  rest.drop (2 * percentPairs rest)

/-- `va_arg(ap, int)` converted to `long long`, and what follows; none where the types do not
    match. -/
def vaInt : List Arg → Option (BitVec 64 × List Arg)
  | .word slot :: rest => some ((slot.setWidth 32).signExtend 64, rest)
  | _ => none

def vaLong : List Arg → Option (BitVec 64 × List Arg)
  | .word slot :: rest => some (slot, rest)
  | _ => none

def vaText : List Arg → Option (List Byte × List Arg)
  | .text bytes :: rest => some (bytes, rest)
  | .null :: rest => some (nullText, rest)
  | _ => none

/-- A round's conversion: the format behind it, the arguments left and the new state. -/
structure Converted where
  rest : List Byte
  args : List Arg
  state : Stdio

variable (kernel : Kernel) (f : Int)

def putchars (st : Stdio) (bytes : List Byte) : Stdio := bytes.foldl (fun st c => (st.putchar kernel c).2) st

def convertLong (s : List Byte) (args : List Arg) (st : Stdio) : Option Converted :=
  match s with
  | [] => some ⟨[], args, putchars kernel st [percent, 0x6c]⟩
  | c :: rest =>
    if c = 0x75 then (vaLong args).map fun a => ⟨rest, a.2, printint kernel st a.1 10 (by decide) false⟩
    else if c = 0x64 then (vaLong args).map fun a => ⟨rest, a.2, printint kernel st a.1 10 (by decide) true⟩
    else if c = 0x78 then (vaLong args).map fun a => ⟨rest, a.2, printint kernel st a.1 16 (by decide) true⟩
    else some ⟨rest, args, putchars kernel st [percent, 0x6c, c]⟩

def convert (c : Byte) (rest : List Byte) (args : List Arg) (st : Stdio) : Option Converted :=
  if c = 0x75 then (vaInt args).map fun a => ⟨rest, a.2, printint kernel st a.1 10 (by decide) false⟩
  else if c = 0x64 then (vaInt args).map fun a => ⟨rest, a.2, printint kernel st a.1 10 (by decide) true⟩
  else if c = 0x78 then (vaInt args).map fun a => ⟨rest, a.2, printint kernel st a.1 16 (by decide) true⟩
  else if c = 0x70 then (vaLong args).map fun a => ⟨rest, a.2, printptr kernel st a.1⟩
  else if c = 0x73 then (vaText args).map fun a => ⟨rest, a.2, (st.out kernel f (a.1.take 200)).2⟩
  else if c = 0x6c then convertLong kernel rest args st
  else some ⟨rest, args, putchars kernel st [percent, c]⟩

theorem after_literal_shorter (printed : literal s ≠ []) : (afterLiteral s).length < s.length := by
  have split : (s.takeWhile (· ≠ percent)).length + (s.dropWhile (· ≠ percent)).length = s.length := by
    rw [← length_append, takeWhile_append_dropWhile]
  have positive := length_pos_iff.mpr printed
  simp only [literal, length_append, length_replicate] at positive
  simp only [afterLiteral, length_drop]
  rcases Nat.eq_zero_or_pos (percentPairs (s.dropWhile (· ≠ percent))) with none | pairs
  · omega
  have nonempty : 0 < (s.dropWhile (· ≠ percent)).length := by
    apply length_pos_iff.mpr
    intro empty
    rw [empty] at pairs
    exact Nat.lt_irrefl 0 pairs
  omega

theorem convert_long_shorter (done : convertLong kernel s args st = some r) : r.rest.length ≤ s.length := by
  cases s with
  | nil =>
    cases done
    exact Nat.le_refl _
  | cons c rest =>
    have behind : r.rest = rest := by
      simp only [convertLong] at done
      split at done
      · obtain ⟨_, _, rfl⟩ := Option.map_eq_some_iff.mp done
        rfl
      split at done
      · obtain ⟨_, _, rfl⟩ := Option.map_eq_some_iff.mp done
        rfl
      split at done
      · obtain ⟨_, _, rfl⟩ := Option.map_eq_some_iff.mp done
        rfl
      · cases done
        rfl
    rw [behind]
    exact Nat.le_succ _

theorem convert_shorter (done : convert kernel f c rest args st = some r) : r.rest.length ≤ rest.length := by
  have plain : ∀ {A : Type} {a : Option A} {g : A → Converted}, a.map g = some r → (∀ x, (g x).rest = rest) →
      r.rest.length ≤ rest.length := by
    intro A a g mapped same
    obtain ⟨x, _, rfl⟩ := Option.map_eq_some_iff.mp mapped
    rw [same x]
  simp only [convert] at done
  split at done
  · exact plain done fun _ => rfl
  split at done
  · exact plain done fun _ => rfl
  split at done
  · exact plain done fun _ => rfl
  split at done
  · exact plain done fun _ => rfl
  split at done
  · exact plain done fun _ => rfl
  split at done
  · exact convert_long_shorter kernel done
  · cases done
    exact Nat.le_refl _

/-- The loop of `fprintf`. A round prints literal text, or else it is at a percent sign and
    carries out a conversion; a percent sign at the very end stops it. -/
def fprintfLoop (s : List Byte) (args : List Arg) (st : Stdio) : Option Stdio :=
  if s = [] then some st
  else
    let st := (st.out kernel f (literal s)).2
    if printed : literal s ≠ [] then
      have := after_literal_shorter printed
      fprintfLoop (afterLiteral s) args st
    else
      match s with
      | _ :: c :: rest =>
        match done : convert kernel f c rest args st with
        | none => none
        | some r =>
          have := convert_shorter kernel f done
          fprintfLoop r.rest r.args r.state
      | _ => some st
termination_by s.length

def fprintf (fmt : List Byte) (args : List Arg) (st : Stdio) : Option Stdio := fprintfLoop kernel f fmt args st

end Format

def Full (kernel : Kernel) : Prop := ∀ n fd bytes, kernel n fd bytes = (bytes.length : Int)

/-- The text goes to `f`, nothing goes anywhere else, and no store misses its array. -/
structure Sends (f : Int) (text : List Byte) (st st' : Stdio) : Prop where
  sent : st'.sent f = st.sent f ++ text
  others : ∀ g, g ≠ f → st'.sent g = st.sent g
  inside : st'.outside = st.outside

section Streams

theorem sends_nothing : Sends f [] st st := ⟨by rw [append_nil], fun _ _ => rfl, rfl⟩

theorem sends_trans (first : Sends f a st st') (second : Sends f b st' st'') : Sends f (a ++ b) st st'' where
  sent := by rw [second.sent, first.sent, List.append_assoc]
  others := fun g other => (second.others g other).trans (first.others g other)
  inside := second.inside.trans first.inside

theorem accepted_snoc (w : Write) (fd : Int) :
    (((writes ++ [w]).filter fun w => w.fd = fd).flatMap fun w => w.bytes.take w.result.toNat) =
      ((writes.filter fun w => w.fd = fd).flatMap fun w => w.bytes.take w.result.toNat) ++
        if w.fd = fd then w.bytes.take w.result.toNat else [] := by
  rw [filter_append, flatMap_append]
  congr 1
  by_cases same : w.fd = fd
  · simp [same]
  · simp [same]

variable {kernel : Kernel} (full : Full kernel)
include full

theorem write_sends (st : Stdio) (direct : f ≠ stdout) (bytes : List Byte) :
    Sends f bytes st (st.write kernel f bytes).2 := by
  have whole : bytes.take (kernel st.writes.length f bytes).toNat = bytes := by
    rw [full, Int.toNat_natCast, take_length]
  refine ⟨?_, ?_, rfl⟩
  · simp only [Stdio.sent, Stdio.write, accepted_snoc, if_true, whole, if_neg direct, append_nil]
  · intro g other
    simp only [Stdio.sent, Stdio.write, accepted_snoc, if_neg (Ne.symm other), append_nil]

theorem write_buffer_sends (st : Stdio) (c : Byte) :
    Sends stdout [c] st (st.writeBuffer kernel (st.buffer ++ [c])).2 := by
  have whole : (st.buffer ++ [c]).take (kernel st.writes.length stdout (st.buffer ++ [c])).toNat =
      st.buffer ++ [c] := by
    rw [full, Int.toNat_natCast, take_length]
  refine ⟨?_, ?_, rfl⟩
  · simp only [Stdio.sent, Stdio.writeBuffer, accepted_snoc, if_true, whole, append_nil, List.append_assoc]
  · intro g other
    simp only [Stdio.sent, Stdio.writeBuffer, accepted_snoc, if_neg (Ne.symm other), if_neg other, append_nil]

theorem out_loop_sends (bytes : List Byte) (positive : 0 ≤ ret) (st : Stdio) :
    Sends stdout bytes st (Stdio.outLoop kernel ret bytes st).2 ∧ 0 ≤ (Stdio.outLoop kernel ret bytes st).1 := by
  induction bytes generalizing ret st with
  | nil => exact ⟨sends_nothing, positive⟩
  | cons c rest ih =>
    rw [Stdio.outLoop]
    split
    · have result : (st.writeBuffer kernel (st.buffer ++ [c])).1 = (st.buffer ++ [c]).length := full _ _ _
      have flushed := write_buffer_sends full st c
      simp only [result]
      rw [if_neg (by omega), if_neg (by simp [Stdio.writeBuffer]; omega)]
      obtain ⟨later, good⟩ := ih (show 0 ≤ ret + ((st.buffer ++ [c]).length : Int) by omega)
        (st.writeBuffer kernel (st.buffer ++ [c])).2
      exact ⟨sends_trans flushed later, good⟩
    · rename_i short
      have room : (st.buffer ++ [c]).length < lineWidth := by
        have := st.room
        rw [length_append, length_singleton]
        omega
      have kept : Sends stdout [c] st { st with buffer := st.buffer ++ [c], room := room } := by
        refine ⟨?_, ?_, rfl⟩
        · simp only [Stdio.sent, if_true, List.append_assoc]
        · intro g other
          simp only [Stdio.sent, if_neg other]
      obtain ⟨later, good⟩ := ih positive { st with buffer := st.buffer ++ [c], room := room }
      exact ⟨sends_trans kept later, good⟩

theorem out_sends (st : Stdio) (f : Int) (bytes : List Byte) : Sends f bytes st (st.out kernel f bytes).2 := by
  unfold Stdio.out
  split
  · rename_i direct
    exact write_sends full st direct bytes
  rename_i buffered
  rw [not_not.mp buffered]
  exact (out_loop_sends full bytes (Int.le_refl 0) st).1

end Streams

theorem digit_loop_numeral (wide : 1 < base) :
    digitLoop base wide x cells = (numeral base x).map digit ++ cells := by
  induction x using Nat.strong_induction_on generalizing cells with
  | _ x ih =>
    rw [digitLoop, numeral_step wide x]
    by_cases more : x / base = 0
    · rw [dif_neg (not_not.mpr more), if_pos more]
      rfl
    have smaller : x / base < x := by
      apply Nat.div_lt_self _ wide
      apply Nat.pos_of_ne_zero
      rintro rfl
      exact more (Nat.zero_div _)
    rw [dif_pos more, if_neg more, ih _ smaller, map_append, List.append_assoc]
    rfl

def magnitude (value : BitVec 64) (sign : Bool) : Nat :=
  if sign && value.msb then (-value).toNat else value.toNat

theorem int_cells (value : BitVec 64) (wide : 1 < base) (sign : Bool) : intCells value base wide sign =
      (if (sign && value.msb) = true then [minus] else []) ++ (numeral base (magnitude value sign)).map digit := by
  simp only [intCells, magnitude, digit_loop_numeral, append_nil]
  cases sign && value.msb with
  | true => rfl
  | false => rfl

theorem printint_sends (full : Full kernel) (st : Stdio) (value : BitVec 64) (wide : 1 < base) (sign : Bool)
    (short : (intCells value base wide sign).length ≤ 16) :
    Sends stdout (intCells value base wide sign) st (printint kernel st value base wide sign) := by
  have bound : ¬ 16 < (intCells value base wide sign).length := by omega
  have same : printint kernel st value base wide sign = (st.out kernel stdout (intCells value base wide sign)).2 := by
    simp only [printint, if_neg bound, decide_eq_false bound, Bool.or_false]
  rw [same]
  exact out_sends full st stdout _

theorem printint_outside (full : Full kernel) (st : Stdio) (value : BitVec 64) (wide : 1 < base) (sign : Bool)
    (long : 16 < (intCells value base wide sign).length) :
    (printint kernel st value base wide sign).outside = true := by
  unfold printint
  simp only [if_pos long, decide_eq_true long, Bool.or_true]
  rw [(out_sends full _ stdout _).inside]
  unfold Stdio.puts
  simp only
  split
  · rw [(out_sends full _ stdout _).inside]
  · rw [Stdio.putchar, (out_sends full _ stdout _).inside, (out_sends full _ stdout _).inside]

theorem printptr_sends (full : Full kernel) (st : Stdio) (value : BitVec 64) :
    Sends stdout (0x30 :: 0x78 :: ptrDigits 16 value) st (printptr kernel st value) :=
  out_sends full st stdout _

end RtosNimbosStdio
