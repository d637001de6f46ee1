import Mathlib.Data.List.TakeDrop
import CompositeRtos.Lib.Utf8
import CompositeRtos.Nimbos.UserAccess

/-!
`sys_write` to the console in the build without forwarding (`syscall/fs.rs`). Every round
takes a chunk of the same length, the smaller of `CHUNK_SIZE` and the whole length, checks
it as UTF-8 on its own and prints it.
-/
namespace RtosConsoleWrite
open RtosStateSpec RtosUserAccess RtosUtf8 BitVec

def fdStdout : BitVec 64 := 1
def fdStderr : BitVec 64 := 2
def chunkSize : BitVec 64 := 256

/-- `print!("{}", core::str::from_utf8(bytes).unwrap())`. -/
def printUtf8 (bytes : List (BitVec 8)) : Kernel Unit := fun s =>
  if wellFormed bytes then .ok () { s with printed := s.printed ++ bytes } else .error .utf8Error s

def chunkLen (len : BitVec 64) : BitVec 64 := if chunkSize ≤ len then chunkSize else len

/-- The loop of `sys_write`, for at most the given number of rounds; `none` when they do not
    suffice. -/
def writeLoop (buf len : BitVec 64) : Nat → BitVec 64 → Kernel (Option (BitVec 64))
  | 0, _ => pure none
  | rounds + 1, count =>
    if count < len then do
      let chunk ← readArray 1 chunkSize (buf + count) (chunkLen len)
      printUtf8 (chunk.take (chunkLen len).toNat)
      writeLoop buf len rounds (count + chunkLen len)
    else pure (some count)

def sysWrite (fd buf len : BitVec 64) : Kernel (Option (BitVec 64)) :=
  if fd = fdStdout ∨ fd = fdStderr then writeLoop buf len (len.toNat + 1) 0 else throw .unsupportedFd

theorem chunk_len_value (len : BitVec 64) : (chunkLen len).toNat = min 256 len.toNat := by
  have chunk : chunkSize.toNat = 256 := rfl
  rw [chunkLen]
  split
  · rename_i long
    rw [le_def, chunk] at long
    omega
  rename_i short
  rw [le_def, chunk] at short
  omega

/-- The round at `count` has its bytes: they pass the check, are mapped and are UTF-8. -/
structure Ready (s : Access) (ptr len : BitVec 64) (chunk : List (BitVec 8)) : Prop where
  checked : uaccessOk ptr (chunkLen len) = true
  mapped : (addresses ptr (chunkLen len).toNat).mapM s.byteAt = some chunk
  utf8 : wellFormed chunk = true

def afterRound (s : Access) (ptr len : BitVec 64) (chunk : List (BitVec 8)) : Access :=
  { s with reads := s.reads ++ addresses ptr (chunkLen len).toNat, printed := s.printed ++ chunk }

theorem read_chunk_eq : readArray 1 chunkSize ptr (chunkLen len) =
      (require (uaccessOk ptr (chunkLen len)) >>= fun _ => readBytes ptr (chunkLen len).toNat) := by
  have short : chunkLen len ≤ chunkSize := by
    rw [le_def, chunk_len_value]
    exact Nat.min_le_left _ _
  have one : (1 : BitVec 64).toNat = 1 := rfl
  have all : chunkLen len * 1 = chunkLen len := BitVec.mul_one _
  rw [readArray, if_pos short, copyFromUser, all, one, Nat.mul_one]

theorem round_cases (buf : BitVec 64) (more : count < len) (rounds : Nat) (s : Access) :
    (∃ chunk, Ready s (buf + count) len chunk ∧ writeLoop buf len (rounds + 1) count s =
      writeLoop buf len rounds (count + chunkLen len) (afterRound s (buf + count) len chunk)) ∨
    ((∀ chunk, ¬ Ready s (buf + count) len chunk) ∧
      ∃ e t, writeLoop buf len (rounds + 1) count s = .error e t) := by
  cases check : uaccessOk (buf + count) (chunkLen len) with
  | false =>
    right
    refine ⟨?_, .assertion, s, ?_⟩
    · intro chunk ready
      cases check.symm.trans ready.checked
    · rw [writeLoop, if_pos more, read_chunk_eq, check, run_bind, run_bind, require_false]
  | true =>
    have opened : writeLoop buf len (rounds + 1) count s =
        (readBytes (buf + count) (chunkLen len).toNat >>= fun chunk => do
          printUtf8 (chunk.take (chunkLen len).toNat)
          writeLoop buf len rounds (count + chunkLen len)) s := by
      rw [writeLoop, if_pos more, read_chunk_eq, check]
      rfl
    rw [opened, run_bind]
    rcases read_bytes_cases (chunkLen len).toNat (buf + count) s with
      ⟨chunk, mapped, read⟩ | ⟨k, fault, _, unmapped, read⟩
    · have whole : chunk.take (chunkLen len).toNat = chunk := by
        have length : chunk.length = (chunkLen len).toNat := by rw [mapped_length mapped, addresses_length]
        exact List.take_of_length_le (Nat.le_of_eq length)
      rw [read]
      dsimp only
      rw [run_bind, whole]
      cases text : wellFormed chunk with
      | true =>
        left
        refine ⟨chunk, ⟨check, mapped, text⟩, ?_⟩
        rw [printUtf8, if_pos text]
        rfl
      | false =>
        right
        refine ⟨?_, .utf8Error, { s with reads := s.reads ++ addresses (buf + count) (chunkLen len).toNat }, ?_⟩
        · intro other ready
          cases mapped.symm.trans ready.mapped
          cases text.symm.trans ready.utf8
        · rw [printUtf8, if_neg (by simp [text])]
    · right
      rw [read]
      refine ⟨?_, _, _, rfl⟩
      intro chunk ready
      cases unmapped.symm.trans ready.mapped

/-- A buffer of `len` mapped bytes in user space, valid UTF-8 as a whole. -/
structure Text (s : Access) (buf len : BitVec 64) (bytes : List (BitVec 8)) : Prop where
  user : InUserSpace buf len.toNat
  mapped : (addresses buf len.toNat).mapM s.byteAt = some bytes
  utf8 : wellFormed bytes = true

theorem Text.small (text : Text s buf len bytes) : buf.toNat + len.toNat < 2 ^ 47 := by
  have size : userAspaceSize.toNat = 0x7ffffffff000 := rfl
  have base : userAspaceBase.toNat = 0 := rfl
  have inside := text.user.2.2
  omega

theorem count_lt_iff (small : j < 2 ^ 64) : BitVec.ofNat 64 j < len ↔ j < len.toNat := by
  rw [lt_def, toNat_ofNat, Nat.mod_eq_of_lt small]

theorem count_round (chunk : (chunkLen len).toNat = c) (j : Nat) :
    BitVec.ofNat 64 (c * j) + chunkLen len = BitVec.ofNat 64 (c * (j + 1)) := by
  subst chunk
  rw [Nat.mul_succ, ofNat_add, ofNat_toNat, setWidth_eq]

section

variable (text : Text s buf len bytes)
include text

theorem ready_iff (inside : j + (chunkLen len).toNat ≤ len.toNat)
    (first : wellFormed (bytes.take j) = true) :
    Ready s (buf + BitVec.ofNat 64 j) len chunk ↔ chunk = (bytes.drop j).take (chunkLen len).toNat ∧
      wellFormed (bytes.take (j + (chunkLen len).toNat)) = true := by
  have slice := mapped_slice text.mapped inside
  have cut : bytes.take (j + (chunkLen len).toNat) =
      bytes.take j ++ (bytes.drop j).take (chunkLen len).toNat := List.take_add
  rw [cut, well_formed_append_iff first]
  constructor
  · intro ready
    have same := slice.symm.trans ready.mapped
    cases same
    exact ⟨rfl, ready.utf8⟩
  rintro ⟨rfl, utf8⟩
  refine ⟨?_, slice, utf8⟩
  have size : userAspaceSize.toNat = 0x7ffffffff000 := rfl
  have base : userAspaceBase.toNat = 0 := rfl
  have small := text.small
  have nonzero : buf.toNat ≠ 0 := fun zero => text.user.1 (eq_of_toNat_eq zero)
  have start : (buf + BitVec.ofNat 64 j).toNat = buf.toNat + j := by
    rw [toNat_add, toNat_ofNat]
    omega
  have chunk := chunk_len_value len
  have inside' := text.user.2.2
  have user : InUserSpace (buf + BitVec.ofNat 64 j) (chunkLen len).toNat := by
    refine ⟨?_, ?_, ?_⟩
    · intro zero
      rw [zero] at start
      have none : (0 : BitVec 64).toNat = 0 := rfl
      omega
    · omega
    · omega
  have checked := (uaccess_ok_iff (by omega)).mpr user
  rwa [ofNat_toNat, setWidth_eq] at checked

theorem Text.with_state (memory : t.byteAt = s.byteAt) : Text t buf len bytes :=
  ⟨text.user, by rw [memory]; exact text.mapped, text.utf8⟩

theorem rounds_print (chunk : (chunkLen len).toNat = c) (positive : 0 < c)
    (even : len.toNat = c * total) (cuts : ∀ k, k ≤ total → wellFormed (bytes.take (c * k)) = true) :
    ∀ (s' : Access) (j rounds : Nat), s'.byteAt = s.byteAt → j + left = total → left < rounds →
      writeLoop buf len rounds (BitVec.ofNat 64 (c * j)) s' = .ok (some len)
        { s' with
          reads := s'.reads ++ addresses (buf + BitVec.ofNat 64 (c * j)) (c * left)
          printed := s'.printed ++ bytes.drop (c * j) } := by
  have small := text.small
  have length : bytes.length = len.toNat := by rw [mapped_length text.mapped, addresses_length]
  have whole : BitVec.ofNat 64 len.toNat = len := by rw [ofNat_toNat, setWidth_eq]
  induction left with
  | zero =>
    intro s' j rounds memory position enough
    cases rounds with
    | zero => omega
    | succ rounds =>
      have last : j = total := by omega
      have past : ¬ BitVec.ofNat 64 len.toNat < len := by
        rw [whole]
        exact BitVec.lt_irrefl len
      rw [last, ← even, writeLoop, if_neg past, List.drop_of_length_le (by omega), whole, Nat.mul_zero,
        addresses, List.append_nil, List.append_nil]
      rfl
  | succ left ih =>
    intro s' j rounds memory position enough
    cases rounds with
    | zero => omega
    | succ rounds =>
      have inside : c * j + c ≤ len.toNat := by
        rw [even, ← Nat.mul_succ]
        exact Nat.mul_le_mul_left c (by omega)
      have more : BitVec.ofNat 64 (c * j) < len := (count_lt_iff (by omega)).mpr (by omega)
      have next := count_round chunk j
      have here := cuts j (by omega)
      have there : wellFormed (bytes.take (c * j + c)) = true := by
        rw [← Nat.mul_succ]
        exact cuts (j + 1) (by omega)
      have ready := (ready_iff (text.with_state memory) (by rw [chunk]; exact inside) here).mpr
        ⟨rfl, by rw [chunk]; exact there⟩
      rcases round_cases buf more rounds s' with ⟨bytes', found, run⟩ | ⟨never, _⟩
      · cases found.mapped.symm.trans ready.mapped
        have later := ih (afterRound s' (buf + BitVec.ofNat 64 (c * j)) len
          ((bytes.drop (c * j)).take (chunkLen len).toNat)) (j + 1) rounds memory (by omega) (by omega)
        rw [run, next, later]
        simp only [afterRound, chunk]
        congr 2
        · rw [List.append_assoc, Nat.mul_succ, Nat.mul_succ, Nat.add_comm (c * left) c, addresses_append,
            BitVec.add_assoc, ← ofNat_add]
        · rw [List.append_assoc, Nat.mul_succ, ← List.drop_drop, List.take_append_drop]
      · exact absurd ready (never _)

theorem returned_cuts (chunk : (chunkLen len).toNat = 256)
    (even : 256 * total = len.toNat) :
    ∀ (s' : Access) (j : Nat), s'.byteAt = s.byteAt → j ≤ total → wellFormed (bytes.take (256 * j)) = true →
      writeLoop buf len rounds (BitVec.ofNat 64 (256 * j)) s' = .ok (some result) t →
      ∀ k, j ≤ k → k ≤ total → wellFormed (bytes.take (256 * k)) = true := by
  have small := text.small
  induction rounds with
  | zero =>
    intro s' j memory inside here returned
    cases returned
  | succ rounds ih =>
    intro s' j memory inside here returned k after before
    rcases Nat.eq_or_lt_of_le after with rfl | later
    · exact here
    have more : BitVec.ofNat 64 (256 * j) < len := (count_lt_iff (by omega)).mpr (by omega)
    have next := count_round chunk j
    rcases round_cases buf more rounds s' with ⟨bytes', found, run⟩ | ⟨_, e, u, failed⟩
    · have cut := ((ready_iff (text.with_state memory) (by omega) here).mp found).2
      rw [chunk, ← Nat.mul_succ] at cut
      rw [run, next] at returned
      exact ih (afterRound s' (buf + BitVec.ofNat 64 (256 * j)) len bytes') (j + 1) memory (by omega) cut
        returned k later before
    · cases failed.symm.trans returned

end

/-- The chunks do not get shorter at the end: unless they come out even, a run that returns
    has read the address behind the buffer. -/
theorem returned_reads (small : buf.toNat + len.toNat < 2 ^ 47) (chunk : (chunkLen len).toNat = 256) :
    ∀ (s' : Access) (j : Nat), 256 * j ≤ len.toNat + 256 →
      writeLoop buf len rounds (BitVec.ofNat 64 (256 * j)) s' = .ok (some result) t →
      ∃ addrs, t.reads = s'.reads ++ addrs ∧
        (256 * j ≤ len.toNat → len.toNat % 256 ≠ 0 → buf + len ∈ addrs) := by
  induction rounds with
  | zero =>
    intro s' j near returned
    cases returned
  | succ rounds ih =>
    intro s' j near returned
    by_cases more : BitVec.ofNat 64 (256 * j) < len
    · have less := (count_lt_iff (by omega)).mp more
      have next := count_round chunk j
      rcases round_cases buf more rounds s' with ⟨bytes', found, run⟩ | ⟨_, e, u, failed⟩
      · rw [run, next] at returned
        obtain ⟨addrs, read, behind⟩ := ih _ (j + 1) (by omega) returned
        refine ⟨addresses (buf + BitVec.ofNat 64 (256 * j)) 256 ++ addrs, ?_, ?_⟩
        · rw [read, afterRound, chunk, List.append_assoc]
        intro inside uneven
        rw [List.mem_append]
        rcases Nat.lt_or_ge len.toNat (256 * (j + 1)) with last | before
        · left
          refine mem_addresses_iff.mpr ⟨len.toNat - 256 * j, by omega, ?_⟩
          rw [BitVec.add_assoc, ← ofNat_add, Nat.add_sub_cancel' inside, ofNat_toNat,
            setWidth_eq]
        · exact Or.inr (behind before uneven)
      · cases failed.symm.trans returned
    · rw [writeLoop, if_neg more] at returned
      cases returned
      refine ⟨[], by simp, ?_⟩
      intro inside uneven
      rw [count_lt_iff (by omega)] at more
      omega

theorem behind_buffer (small : buf.toNat + len.toNat < 2 ^ 47) : buf + len ∉ addresses buf len.toNat := by
  rw [mem_addresses_iff]
  rintro ⟨k, less, same⟩
  have values := congrArg BitVec.toNat same
  rw [toNat_add, toNat_add, toNat_ofNat] at values
  omega

def Faithful (fd buf len : BitVec 64) (bytes : List (BitVec 8)) (s : Access) : Prop :=
  ∃ t, sysWrite fd buf len s = .ok (some len) t ∧ t.printed = s.printed ++ bytes ∧
    ∃ addrs, t.reads = s.reads ++ addrs ∧ ∀ a ∈ addrs, a ∈ addresses buf len.toNat

section Faithful
variable {fd buf len : BitVec 64} {bytes : List (BitVec 8)} {s : Access}

section

variable (console : fd = fdStdout ∨ fd = fdStderr)
include console

theorem console_loop : sysWrite fd buf len s = writeLoop buf len (len.toNat + 1) 0 s := by
  rw [sysWrite, if_pos console]

theorem even_chunks_faithful (text : Text s buf len bytes)
    (chunk : (chunkLen len).toNat = c) (positive : 0 < c) (even : len.toNat = c * total)
    (cuts : ∀ k, k ≤ total → wellFormed (bytes.take (c * k)) = true) : Faithful fd buf len bytes s := by
  have enough : total < len.toNat + 1 := by
    have := Nat.le_mul_of_pos_left total positive
    omega
  have run := rounds_print text chunk positive even cuts s 0 (len.toNat + 1) rfl (by omega) enough
  rw [Nat.mul_zero] at run
  refine ⟨_, (console_loop console).trans run, rfl, addresses buf len.toNat, ?_, fun _ member => member⟩
  rw [even, BitVec.add_zero]

theorem empty_faithful (text : Text s buf 0 bytes) :
    Faithful fd buf 0 bytes s := by
  have nothing : bytes = [] := by
    rw [← List.length_eq_zero_iff, mapped_length text.mapped, addresses_length]
    rfl
  refine ⟨s, ?_, ?_, [], ?_, ?_⟩
  · rw [console_loop console]
    rfl
  · rw [nothing, List.append_nil]
  · rw [List.append_nil]
  · intro a member
    cases member

theorem short_faithful (text : Text s buf len bytes)
    (short : len.toNat ≤ 256) : Faithful fd buf len bytes s := by
  have value := chunk_len_value len
  have length : bytes.length = len.toNat := by rw [mapped_length text.mapped, addresses_length]
  rcases Nat.eq_zero_or_pos len.toNat with zero | positive
  · have none : len = 0 := eq_of_toNat_eq zero
    subst none
    exact empty_faithful console text
  refine even_chunks_faithful console text rfl (by omega) (show len.toNat = (chunkLen len).toNat * 1 by omega) ?_
  intro k bound
  rcases Nat.le_one_iff_eq_zero_or_eq_one.mp bound with rfl | rfl
  · exact well_formed_nil
  · rw [List.take_of_length_le (by omega)]
    exact text.utf8

theorem long_faithful_cuts (text : Text s buf len bytes)
    (long : 256 < len.toNat) (faithful : Faithful fd buf len bytes s) :
    len.toNat % 256 = 0 ∧ ∀ k, 256 * k ≤ len.toNat → wellFormed (bytes.take (256 * k)) = true := by
  obtain ⟨t, returned, _, addrs, read, inside⟩ := faithful
  have value := chunk_len_value len
  have chunk : (chunkLen len).toNat = 256 := by omega
  rw [console_loop console] at returned
  have even : len.toNat % 256 = 0 := by
    by_contra uneven
    obtain ⟨addrs', read', behind⟩ := returned_reads text.small chunk s 0 (by omega) returned
    have same : addrs' = addrs := List.append_cancel_left (read'.symm.trans read)
    subst same
    exact behind_buffer text.small (inside _ (behind (by omega) uneven))
  refine ⟨even, ?_⟩
  intro k bound
  have total : 256 * (len.toNat / 256) = len.toNat := by omega
  exact returned_cuts text chunk total s 0 rfl (by omega) well_formed_nil returned k (by omega) (by omega)

end

end Faithful

def lettersAt (n : Nat) : Access where
  byteAt := fun a => if 0x1000 ≤ a ∧ a.toNat < 0x1000 + n then some 0x61 else none
  reads := []
  stores := []
  printed := []

theorem mapped_replicate : ∀ (vaddr : BitVec 64), (∀ k, k < n → f (vaddr + BitVec.ofNat 64 k) = some b) →
      (addresses vaddr n).mapM f = some (List.replicate n b) := by
  induction n with
  | zero =>
    intro vaddr all
    rfl
  | succ n ih =>
    intro vaddr all
    have here := all 0 (by omega)
    rw [BitVec.add_zero] at here
    have rest := ih (vaddr + 1) fun k less => by
      rw [next_offset]
      exact all (k + 1) (by omega)
    rw [addresses, List.mapM_cons, here]
    simp only [Option.bind_eq_bind, Option.bind_some, rest, Option.pure_def, List.replicate_succ]

theorem letters_utf8 : wellFormed (List.replicate n 0x61) = true := by
  induction n with
  | zero => rfl
  | succ n ih => exact ih

theorem letters_mapped (small : n < 2 ^ 47) (inside : j + m ≤ n) :
    (addresses (0x1000 + BitVec.ofNat 64 j) m).mapM (lettersAt n).byteAt = some (List.replicate m 0x61) := by
  apply mapped_replicate
  intro k less
  have value : (0x1000 + BitVec.ofNat 64 j + BitVec.ofNat 64 k : BitVec 64).toNat = 0x1000 + j + k := by
    have base : (0x1000 : BitVec 64).toNat = 0x1000 := rfl
    rw [toNat_add, toNat_add, toNat_ofNat, toNat_ofNat, base]
    omega
  have mapped : (0x1000 : BitVec 64) ≤ 0x1000 + BitVec.ofNat 64 j + BitVec.ofNat 64 k ∧
      (0x1000 + BitVec.ofNat 64 j + BitVec.ofNat 64 k : BitVec 64).toNat < 0x1000 + n := by
    rw [le_def, value]
    exact ⟨by show 0x1000 ≤ _; omega, by omega⟩
  exact if_pos mapped

theorem letters_text (small : n < 2 ^ 32) :
    Text (lettersAt n) 0x1000 (BitVec.ofNat 64 n) (List.replicate n 0x61) := by
  have word : (BitVec.ofNat 64 n).toNat = n := by
    rw [toNat_ofNat]
    omega
  have size : userAspaceSize.toNat = 0x7ffffffff000 := rfl
  have base : userAspaceBase.toNat = 0 := rfl
  have address : (0x1000 : BitVec 64).toNat = 0x1000 := rfl
  refine ⟨⟨by decide, ?_, ?_⟩, ?_, letters_utf8⟩
  · omega
  · omega
  have all := letters_mapped (n := n) (m := n) (j := 0) (by omega) (by omega)
  rw [word]
  rwa [BitVec.add_zero] at all

end RtosConsoleWrite
