import Mathlib.Algebra.Group.Nat.Defs
import Mathlib.Data.List.Basic
import Mathlib.Logic.Function.Basic
import CompositeRtos.Lib.StateSpec

/-!
Accesses of the kernel to user memory (`mm/uaccess.rs`). Addresses and sizes are `usize`,
so all arithmetic is modulo 2^64 as in the release build. The state records every user
address that is read, every store into the kernel buffer of the call (by its offset) and
what is printed, so that a run that panics says what it did up to then. A page fault in the
kernel is a panic too.
-/
namespace RtosUserAccess
open RtosStateSpec Function BitVec List Option

def userAspaceBase : BitVec 64 := 0
def userAspaceSize : BitVec 64 := 0x7ffffffff000

inductive Panic where
  | assertion
  | pageFault (vaddr : BitVec 64)
  | utf8Error
  | unsupportedFd
  deriving DecidableEq, Repr

structure Access where
  byteAt : BitVec 64 → Option (BitVec 8)
  reads : List (BitVec 64)
  stores : List (Nat × BitVec 8)
  printed : List (BitVec 8)

abbrev Kernel := EStateM Panic Access

def uaccessOk (vaddr size : BitVec 64) : Bool :=
  decide (vaddr ≠ 0 ∧ userAspaceBase ≤ vaddr ∧ vaddr - userAspaceBase ≤ userAspaceSize - size)

def require (check : Bool) : Kernel Unit := if check then pure () else throw .assertion

def readUser (vaddr : BitVec 64) : Kernel (BitVec 8) := fun s =>
  match s.byteAt vaddr with
  | some b => .ok b { s with reads := s.reads ++ [vaddr] }
  | none => .error (.pageFault vaddr) { s with reads := s.reads ++ [vaddr] }

def writeUser (vaddr : BitVec 64) (b : BitVec 8) : Kernel Unit := fun s =>
  match s.byteAt vaddr with
  | some _ => .ok () { s with byteAt := Function.update s.byteAt vaddr (some b) }
  | none => .error (.pageFault vaddr) s

def store (offset : Nat) (b : BitVec 8) : Kernel Unit := fun s =>
  .ok () { s with stores := s.stores ++ [(offset, b)] }

def readBytes : BitVec 64 → Nat → Kernel (List (BitVec 8))
  | _, 0 => pure []
  | vaddr, n + 1 => do
    let b ← readUser vaddr
    let rest ← readBytes (vaddr + 1) n
    pure (b :: rest)

def writeBytes : BitVec 64 → List (BitVec 8) → Kernel Unit
  | _, [] => pure ()
  | vaddr, b :: rest => do
    writeUser vaddr b
    writeBytes (vaddr + 1) rest

def copyFromUser (size : BitVec 64) (usrc len : BitVec 64) : Kernel (List (BitVec 8)) := do
  require (uaccessOk usrc (len * size))
  readBytes usrc (len.toNat * size.toNat)

/-- `copy_to_user`; `ksrc` are the bytes of the `len` elements at the kernel address. -/
def copyToUser (size : BitVec 64) (udst : BitVec 64) (ksrc : List (BitVec 8)) (len : BitVec 64) :
    Kernel Unit := do
  require (uaccessOk udst (len * size))
  writeBytes udst (ksrc.take (len.toNat * size.toNat))

/-- The loop of `copy_from_user_str`, with `room = max_len - len` rounds left. -/
def copyStrLoop : Nat → BitVec 64 → Nat → Kernel Nat
  | 0, _, len => pure len
  | room + 1, usrc, len => do
    require (decide (usrc < userAspaceBase + userAspaceSize))
    let c ← readUser usrc
    if c = 0 then pure len
    else
      store len c
      copyStrLoop room (usrc + 1) (len + 1)

def copyFromUserStr (usrc maxLen : BitVec 64) : Kernel Nat := do
  require (uaccessOk usrc 1)
  let len ← copyStrLoop maxLen.toNat usrc 0
  store len 0
  pure len

/-- `UserPtr::read_array::<N>`; the rest of the array is uninitialised. -/
def readArray (size : BitVec 64) (capacity : BitVec 64) (ptr maxLen : BitVec 64) : Kernel (List (BitVec 8)) :=
  copyFromUser size ptr (if maxLen ≤ capacity then maxLen else capacity)

def readStr (capacity ptr : BitVec 64) : Kernel Nat := copyFromUserStr ptr (capacity - 1)

def writeBuf (size : BitVec 64) (ptr : BitVec 64) (buf : List (BitVec 8)) (len : BitVec 64) : Kernel Unit :=
  copyToUser size ptr buf len

def InUserSpace (vaddr : BitVec 64) (bytes : Nat) : Prop :=
  vaddr ≠ 0 ∧ userAspaceBase.toNat ≤ vaddr.toNat ∧
    vaddr.toNat + bytes ≤ userAspaceBase.toNat + userAspaceSize.toNat

def Passes {α : Type} (program : Kernel α) (s : Access) : Prop :=
  ∀ t, program s ≠ .error .assertion t

theorem uaccess_ok_iff (fits : bytes ≤ userAspaceSize.toNat) :
    uaccessOk vaddr (BitVec.ofNat 64 bytes) = true ↔ InUserSpace vaddr bytes := by
  have size : userAspaceSize.toNat = 0x7ffffffff000 := rfl
  have base : userAspaceBase.toNat = 0 := rfl
  have bound := vaddr.isLt
  have word : (BitVec.ofNat 64 bytes).toNat = bytes := by
    rw [toNat_ofNat]
    omega
  have shifted : vaddr - userAspaceBase = vaddr := BitVec.sub_zero vaddr
  have room : (userAspaceSize - BitVec.ofNat 64 bytes).toNat = userAspaceSize.toNat - bytes := by
    rw [toNat_sub, word]
    omega
  simp only [uaccessOk, InUserSpace, decide_eq_true_eq, shifted, le_def, room]
  refine and_congr Iff.rfl (and_congr Iff.rfl ?_)
  omega

def addresses : BitVec 64 → Nat → List (BitVec 64)
  | _, 0 => []
  | vaddr, n + 1 => vaddr :: addresses (vaddr + 1) n

theorem next_offset : vaddr + 1 + BitVec.ofNat 64 k = vaddr + BitVec.ofNat 64 (k + 1) := by
  rw [BitVec.add_assoc, Nat.add_comm k 1, ofNat_add]
  rfl

theorem mapped_length {addrs : List (BitVec 64)} (mapped : addrs.mapM f = some bytes) :
    bytes.length = addrs.length := by
  induction addrs generalizing bytes with
  | nil =>
    cases mapped
    rfl
  | cons a rest ih =>
    rw [mapM_cons] at mapped
    obtain ⟨b, _, later⟩ := bind_eq_some_iff.mp mapped
    obtain ⟨bs, others, same⟩ := bind_eq_some_iff.mp later
    cases same
    rw [length_cons, length_cons, ih others]

theorem addresses_length : (addresses vaddr n).length = n := by
  induction n generalizing vaddr with
  | zero => rfl
  | succ n ih => rw [addresses, length_cons, ih]

theorem addresses_append :
    addresses vaddr (m + n) = addresses vaddr m ++ addresses (vaddr + BitVec.ofNat 64 m) n := by
  induction m generalizing vaddr with
  | zero =>
    rw [Nat.zero_add, addresses, nil_append, BitVec.add_zero]
  | succ m ih =>
    rw [show m + 1 + n = m + n + 1 by omega, addresses, addresses, List.cons_append, ih, next_offset]

theorem mem_addresses_iff : a ∈ addresses vaddr n ↔ ∃ k, k < n ∧ a = vaddr + BitVec.ofNat 64 k := by
  induction n generalizing vaddr with
  | zero => simp [addresses]
  | succ n ih =>
    rw [addresses, mem_cons, ih]
    constructor
    · rintro (rfl | ⟨k, less, rfl⟩)
      · exact ⟨0, by omega, (BitVec.add_zero a).symm⟩
      · exact ⟨k + 1, by omega, next_offset⟩
    rintro ⟨k, less, rfl⟩
    cases k with
    | zero => exact Or.inl (BitVec.add_zero vaddr)
    | succ k => exact Or.inr ⟨k, by omega, next_offset.symm⟩

theorem mapped_append_iff {a : List (BitVec 64)} :
    (a ++ b).mapM f = some bytes ↔ ∃ x y, a.mapM f = some x ∧ b.mapM f = some y ∧ bytes = x ++ y := by
  rw [mapM_append]
  constructor
  · intro mapped
    obtain ⟨x, first, later⟩ := bind_eq_some_iff.mp mapped
    obtain ⟨y, second, same⟩ := bind_eq_some_iff.mp later
    cases same
    exact ⟨x, y, first, second, rfl⟩
  · rintro ⟨x, y, first, second, rfl⟩
    simp [first, second]

theorem mapped_slice (mapped : (addresses vaddr n).mapM f = some bytes) (inside : m + c ≤ n) :
    (addresses (vaddr + BitVec.ofNat 64 m) c).mapM f = some ((bytes.drop m).take c) := by
  rw [show n = m + (c + (n - m - c)) by omega, addresses_append, addresses_append] at mapped
  obtain ⟨before, rest, first, later, rfl⟩ := mapped_append_iff.mp mapped
  obtain ⟨chunk, behind, second, _, rfl⟩ := mapped_append_iff.mp later
  have skipped : before.length = m := by rw [mapped_length first, addresses_length]
  have taken : chunk.length = c := by rw [mapped_length second, addresses_length]
  rw [drop_left' skipped, take_left' taken, second]

theorem read_bytes_cases (n : Nat) (vaddr : BitVec 64) (s : Access) :
    (∃ bytes, (addresses vaddr n).mapM s.byteAt = some bytes ∧
      readBytes vaddr n s = .ok bytes { s with reads := s.reads ++ addresses vaddr n }) ∨
    (∃ k fault, k ≤ n ∧ (addresses vaddr n).mapM s.byteAt = none ∧
      readBytes vaddr n s = .error (.pageFault fault) { s with reads := s.reads ++ addresses vaddr k }) := by
  induction n generalizing vaddr s with
  | zero =>
    left
    refine ⟨[], rfl, ?_⟩
    rw [addresses, append_nil]
    rfl
  | succ n ih =>
    cases here : s.byteAt vaddr with
    | none =>
      right
      have read : readUser vaddr s = .error (.pageFault vaddr) { s with reads := s.reads ++ [vaddr] } := by
        rw [readUser, here]
      refine ⟨1, vaddr, by omega, ?_, ?_⟩
      · simp [addresses, here]
      · rw [readBytes, run_bind, read]
        rfl
    | some b =>
      have read : readUser vaddr s = .ok b { s with reads := s.reads ++ [vaddr] } := by
        rw [readUser, here]
      rcases ih (vaddr + 1) { s with reads := s.reads ++ [vaddr] } with
        ⟨bytes, mapped, run⟩ | ⟨k, fault, within, unmapped, run⟩
      · left
        refine ⟨b :: bytes, ?_, ?_⟩
        · have later : (addresses (vaddr + 1) n).mapM s.byteAt = some bytes := mapped
          rw [addresses, mapM_cons, here]
          simp only [bind_eq_bind, bind_some, later, Option.pure_def]
        rw [readBytes, run_bind, read]
        dsimp only
        rw [run_bind, run, addresses, List.append_assoc]
        rfl
      · right
        refine ⟨k + 1, fault, by omega, ?_, ?_⟩
        · have later : (addresses (vaddr + 1) n).mapM s.byteAt = none := unmapped
          rw [addresses, mapM_cons, here]
          simp only [bind_eq_bind, bind_some, later, bind_none]
        rw [readBytes, run_bind, read]
        dsimp only
        rw [run_bind, run, addresses, List.append_assoc]
        rfl

theorem require_true : require true s = .ok () s := rfl

theorem require_false : require false s = .error .assertion s := rfl

theorem copy_from_passes_iff : Passes (copyFromUser size usrc len) s ↔ uaccessOk usrc (len * size) = true := by
  cases check : uaccessOk usrc (len * size) with
  | false =>
    simp only [Bool.false_eq_true, iff_false]
    intro passes
    apply passes s
    rw [copyFromUser, check, run_bind, require_false]
  | true =>
    simp only [iff_true]
    intro t
    rw [copyFromUser, check, run_bind, require_true]
    dsimp only
    rcases read_bytes_cases (len.toNat * size.toNat) usrc s with ⟨_, _, run⟩ | ⟨_, _, _, _, run⟩
    · rw [run]
      exact fun ends => nomatch ends
    · rw [run]
      exact fun ends => nomatch ends

def overwrite (byteAt : BitVec 64 → Option (BitVec 8)) (vaddr : BitVec 64) (bytes : List (BitVec 8)) :
    BitVec 64 → Option (BitVec 8) :=
  fun a => match bytes[(a - vaddr).toNat]? with
    | some b => some b
    | none => byteAt a

theorem overwrite_nil : overwrite byteAt vaddr [] = byteAt := by
  funext a
  simp [overwrite]

theorem overwrite_cons (short : rest.length < 2 ^ 64 - 1) :
    overwrite (update byteAt vaddr (some b)) (vaddr + 1) rest = overwrite byteAt vaddr (b :: rest) := by
  have one : (1 : BitVec 64).toNat = 1 := rfl
  funext a
  by_cases here : a = vaddr
  · subst here
    have first : (a - a).toNat = 0 := by
      rw [BitVec.sub_self]
      rfl
    have last : (a - (a + 1)).toNat = 2 ^ 64 - 1 := by
      have bound := a.isLt
      rw [toNat_sub, toNat_add, one]
      omega
    have outside : rest[2 ^ 64 - 1]? = none := List.getElem?_eq_none_iff.mpr (by omega)
    simp only [overwrite, first, last, outside, update_self, List.getElem?_cons_zero]
  · have next : (a - vaddr).toNat = (a - (vaddr + 1)).toNat + 1 := by
      have apart : a.toNat ≠ vaddr.toNat := fun same => here (eq_of_toNat_eq same)
      have bound := a.isLt
      have bound' := vaddr.isLt
      rw [toNat_sub, toNat_sub, toNat_add, one]
      omega
    simp only [overwrite, next, List.getElem?_cons_succ, update_of_ne here]

theorem overwrite_at (inside : k < bytes.length) (short : bytes.length < 2 ^ 64) :
    overwrite byteAt vaddr bytes (vaddr + BitVec.ofNat 64 k) = bytes[k]? := by
  have offset : (vaddr + BitVec.ofNat 64 k - vaddr).toNat = k := by
    rw [BitVec.add_comm, BitVec.add_sub_cancel, toNat_ofNat]
    omega
  simp only [overwrite, offset, List.getElem?_eq_getElem inside]

def Mapped (byteAt : BitVec 64 → Option (BitVec 8)) (vaddr : BitVec 64) (n : Nat) : Prop :=
  ∀ k, k < n → byteAt (vaddr + BitVec.ofNat 64 k) ≠ none

theorem mapped_succ_iff (here : byteAt vaddr = some old) :
    Mapped byteAt vaddr (n + 1) ↔ Mapped (update byteAt vaddr (some b)) (vaddr + 1) n := by
  have kept : ∀ a, update byteAt vaddr (some b) a ≠ none ↔ byteAt a ≠ none := by
    intro a
    by_cases same : a = vaddr
    · subst same
      simp [here]
    · rw [update_of_ne same]
  constructor
  · intro mapped k less
    rw [kept, next_offset]
    exact mapped (k + 1) (by omega)
  intro mapped k less
  cases k with
  | zero =>
    rw [BitVec.add_zero, here]
    exact some_ne_none old
  | succ k =>
    rw [← next_offset, ← kept]
    exact mapped k (by omega)

theorem write_bytes_cases (bytes : List (BitVec 8)) (vaddr : BitVec 64) (s : Access)
    (short : bytes.length < 2 ^ 64) :
    (Mapped s.byteAt vaddr bytes.length ∧
      writeBytes vaddr bytes s = .ok () { s with byteAt := overwrite s.byteAt vaddr bytes }) ∨
    (¬ Mapped s.byteAt vaddr bytes.length ∧
      ∃ fault t, writeBytes vaddr bytes s = .error (.pageFault fault) t) := by
  induction bytes generalizing vaddr s with
  | nil =>
    left
    refine ⟨fun k less => absurd less (Nat.not_lt_zero k), ?_⟩
    rw [overwrite_nil]
    rfl
  | cons b rest ih =>
    rw [length_cons] at short
    cases here : s.byteAt vaddr with
    | none =>
      right
      refine ⟨?_, vaddr, s, ?_⟩
      · intro mapped
        apply mapped 0 (by simp)
        rw [BitVec.add_zero, here]
      · rw [writeBytes, run_bind, writeUser, here]
    | some old =>
      have first : writeBytes vaddr (b :: rest) s =
          writeBytes (vaddr + 1) rest { s with byteAt := update s.byteAt vaddr (some b) } := by
        rw [writeBytes, run_bind, writeUser, here]
      rw [first, length_cons, mapped_succ_iff here]
      rcases ih (vaddr + 1) { s with byteAt := update s.byteAt vaddr (some b) } (by omega) with
        ⟨mapped, run⟩ | failed
      · left
        refine ⟨mapped, ?_⟩
        rw [run]
        simp only [overwrite_cons (show rest.length < 2 ^ 64 - 1 by omega)]
      · exact Or.inr failed

theorem write_bytes_passes (vaddr : BitVec 64) (s : Access) : Passes (writeBytes vaddr bytes) s := by
  induction bytes generalizing vaddr s with
  | nil =>
    intro t ends
    cases ends
  | cons b rest ih =>
    intro t ends
    rw [writeBytes, run_bind] at ends
    cases here : s.byteAt vaddr with
    | none =>
      rw [writeUser, here] at ends
      cases ends
    | some old =>
      rw [writeUser, here] at ends
      exact ih (vaddr + 1) _ t ends

theorem copy_to_passes_iff : Passes (copyToUser size udst ksrc len) s ↔ uaccessOk udst (len * size) = true := by
  cases check : uaccessOk udst (len * size) with
  | false =>
    simp only [Bool.false_eq_true, iff_false]
    intro passes
    apply passes s
    rw [copyToUser, check, run_bind, require_false]
  | true =>
    simp only [iff_true]
    intro t
    rw [copyToUser, check, run_bind, require_true]
    exact write_bytes_passes udst s t

theorem checked_range_iff (passed : uaccessOk vaddr (len * size) = true) :
    InUserSpace vaddr (len.toNat * size.toNat) ↔ len.toNat * size.toNat ≤ userAspaceSize.toNat := by
  constructor
  · rintro ⟨_, _, inside⟩
    have base : userAspaceBase.toNat = 0 := rfl
    omega
  intro fits
  have product : len * size = BitVec.ofNat 64 (len.toNat * size.toNat) := by
    rw [mul_def]
    rfl
  rw [product] at passed
  exact (uaccess_ok_iff fits).mp passed

def userEnd : Nat := userAspaceBase.toNat + userAspaceSize.toNat

/-- `chars` is the longest NUL-free string at `vaddr` of at most `room` bytes, and it ends in
    user space. -/
structure IsString (byteAt : BitVec 64 → Option (BitVec 8)) (vaddr : BitVec 64) (room : Nat)
    (chars : List (BitVec 8)) : Prop where
  short : chars.length ≤ room
  each : ∀ k c, chars[k]? = some c → vaddr.toNat + k < userEnd ∧
    byteAt (vaddr + BitVec.ofNat 64 k) = some c ∧ c ≠ 0
  ends : chars.length = room ∨ (vaddr.toNat + chars.length < userEnd ∧
    byteAt (vaddr + BitVec.ofNat 64 chars.length) = some 0)

def cellsFrom : Nat → List (BitVec 8) → List (Nat × BitVec 8)
  | _, [] => []
  | offset, c :: rest => (offset, c) :: cellsFrom (offset + 1) rest

section Strings
variable {vaddr : BitVec 64} {room : Nat} {c : BitVec 8} {chars rest : List (BitVec 8)}

theorem is_string_empty_room : IsString byteAt vaddr 0 [] :=
  ⟨Nat.le_refl 0, by intro k c found; simp at found, Or.inl rfl⟩

theorem next_address (inside : vaddr.toNat < userEnd) : (vaddr + 1).toNat = vaddr.toNat + 1 := by
  have limit : userEnd = 0x7ffffffff000 := rfl
  have one : (1 : BitVec 64).toNat = 1 := rfl
  rw [toNat_add, one]
  omega

theorem is_string_cons_iff (inside : vaddr.toNat < userEnd) (here : byteAt vaddr = some c) (char : c ≠ 0) :
    IsString byteAt vaddr (room + 1) (c :: rest) ↔ IsString byteAt (vaddr + 1) room rest := by
  have next := next_address inside
  constructor
  · intro h
    refine ⟨by have := h.short; simp at this; omega, ?_, ?_⟩
    · intro k d found
      obtain ⟨below, mapped, nonzero⟩ := h.each (k + 1) d (by simpa using found)
      exact ⟨by omega, by rw [next_offset]; exact mapped, nonzero⟩
    rcases h.ends with full | ⟨below, zero⟩
    · left
      simpa using full
    right
    rw [length_cons] at below zero
    exact ⟨by omega, by rw [next_offset]; exact zero⟩
  · intro h
    refine ⟨by have := h.short; simp; omega, ?_, ?_⟩
    · intro k d found
      cases k with
      | zero =>
        cases found
        exact ⟨by omega, by simpa using here, char⟩
      | succ k =>
        obtain ⟨below, mapped, nonzero⟩ := h.each k d (by simpa using found)
        exact ⟨by omega, by rw [← next_offset]; exact mapped, nonzero⟩
    · rcases h.ends with full | ⟨below, zero⟩
      · left
        simpa using full
      right
      rw [length_cons]
      exact ⟨by omega, by rw [← next_offset]; exact zero⟩

theorem is_string_head (h : IsString byteAt vaddr (room + 1) chars) :
    vaddr.toNat < userEnd ∧ ((chars = [] ∧ byteAt vaddr = some 0) ∨
      ∃ c rest, chars = c :: rest ∧ byteAt vaddr = some c ∧ c ≠ 0) := by
  cases chars with
  | nil =>
    rcases h.ends with full | ⟨below, zero⟩
    · simp at full
    · simp only [length_nil, Nat.add_zero] at below
      exact ⟨below, Or.inl ⟨rfl, by simpa using zero⟩⟩
  | cons c rest =>
    obtain ⟨below, mapped, nonzero⟩ := h.each 0 c rfl
    exact ⟨below, Or.inr ⟨c, rest, rfl, by simpa using mapped, nonzero⟩⟩

end Strings

/-- What the kernel did between two states: it read user addresses and stored into a
    window of its buffer. -/
structure Confined (low high : Nat) (s t : Access) : Prop where
  memory : t.byteAt = s.byteAt
  printed : t.printed = s.printed
  reads : ∃ addrs, t.reads = s.reads ++ addrs ∧ ∀ a ∈ addrs, a.toNat < userEnd
  stores : ∃ cells, t.stores = s.stores ++ cells ∧ ∀ cell ∈ cells, low ≤ cell.1 ∧ cell.1 < high

theorem confined_refl : Confined low high s s :=
  ⟨rfl, rfl, ⟨[], by simp⟩, ⟨[], by simp⟩⟩

theorem confined_trans (first : Confined low high s t) (later : Confined low high t u) : Confined low high s u := by
  obtain ⟨addrs, read, user⟩ := first.reads
  obtain ⟨addrs', read', user'⟩ := later.reads
  obtain ⟨cells, stored, within⟩ := first.stores
  obtain ⟨cells', stored', within'⟩ := later.stores
  refine ⟨later.memory.trans first.memory, later.printed.trans first.printed,
    ⟨addrs ++ addrs', by rw [read', read, List.append_assoc], ?_⟩,
    ⟨cells ++ cells', by rw [stored', stored, List.append_assoc], ?_⟩⟩
  · intro a member
    rcases mem_append.mp member with old | new
    · exact user a old
    · exact user' a new
  intro cell member
  rcases mem_append.mp member with old | new
  · exact within cell old
  · exact within' cell new

theorem confined_mono (h : Confined low high s t) (below : low' ≤ low) (above : high ≤ high') :
    Confined low' high' s t := by
  obtain ⟨cells, stored, within⟩ := h.stores
  refine ⟨h.memory, h.printed, h.reads, cells, stored, ?_⟩
  intro cell member
  have := within cell member
  omega

theorem confined_read (user : vaddr.toNat < userEnd) : Confined low high s { s with reads := s.reads ++ [vaddr] } :=
  ⟨rfl, rfl, ⟨[vaddr], rfl, by simpa using user⟩, [], by simp⟩

theorem confined_store (b : BitVec 8) (inside : low ≤ offset ∧ offset < high) :
    Confined low high s { s with stores := s.stores ++ [(offset, b)] } :=
  ⟨rfl, rfl, ⟨[], by simp⟩, [(offset, b)], rfl, by simpa using inside⟩

def stateAfter {α : Type} : EStateM.Result Panic Access α → Access
  | .ok _ t => t
  | .error _ t => t

inductive Round (room : Nat) (usrc : BitVec 64) (len : Nat) (s : Access) : EStateM.Result Panic Access Nat → Prop where
  | outside (beyond : ¬ usrc.toNat < userEnd) : Round room usrc len s (.error .assertion s)
  | unmapped (inside : usrc.toNat < userEnd) (here : s.byteAt usrc = none) :
      Round room usrc len s (.error (.pageFault usrc) { s with reads := s.reads ++ [usrc] })
  | ended (inside : usrc.toNat < userEnd) (here : s.byteAt usrc = some 0) :
      Round room usrc len s (.ok len { s with reads := s.reads ++ [usrc] })
  | stored {c : BitVec 8} (inside : usrc.toNat < userEnd) (here : s.byteAt usrc = some c) (char : c ≠ 0) :
      Round room usrc len s (copyStrLoop room (usrc + 1) (len + 1)
        { s with reads := s.reads ++ [usrc], stores := s.stores ++ [(len, c)] })

theorem copy_str_round (room : Nat) (usrc : BitVec 64) (len : Nat) (s : Access) :
    Round room usrc len s (copyStrLoop (room + 1) usrc len s) := by
  have compare : usrc < userAspaceBase + userAspaceSize ↔ usrc.toNat < userEnd := by
    rw [lt_def]
    rfl
  rw [copyStrLoop, run_bind]
  by_cases inside : usrc.toNat < userEnd
  · rw [decide_eq_true (compare.mpr inside), require_true]
    dsimp only
    rw [run_bind, readUser]
    cases here : s.byteAt usrc with
    | none => exact Round.unmapped inside here
    | some c =>
      dsimp only
      split
      · rename_i zero
        subst zero
        exact Round.ended inside here
      · rename_i char
        exact Round.stored inside here char
  · rw [decide_eq_false fun less => inside (compare.mp less), require_false]
    exact Round.outside inside

/-- The loop stays in user space and in its part of the buffer however it ends, and it
    returns just on a string that ends in user space, with that string stored. -/
theorem copy_str_loop_spec (usrc : BitVec 64) (len : Nat) (s : Access) :
    Confined len (len + room) s (stateAfter (copyStrLoop room usrc len s)) ∧
    (∀ n t, copyStrLoop room usrc len s = .ok n t → ∃ chars, IsString s.byteAt usrc room chars ∧
      n = len + chars.length ∧ t.stores = s.stores ++ cellsFrom len chars) ∧
    (∀ chars, IsString s.byteAt usrc room chars → ∃ n t, copyStrLoop room usrc len s = .ok n t) := by
  induction room generalizing usrc len s with
  | zero =>
    refine ⟨confined_refl, ?_, ?_⟩
    · intro n t run
      cases run
      exact ⟨[], is_string_empty_room, rfl, by simp [cellsFrom]⟩
    · intro chars _
      exact ⟨len, s, rfl⟩
  | succ room ih =>
    have round := copy_str_round room usrc len s
    generalize copyStrLoop (room + 1) usrc len s = result at round ⊢
    cases round with
    | outside beyond =>
      refine ⟨confined_refl, ?_, ?_⟩
      · intro n t ends
        cases ends
      · intro chars string
        exact absurd (is_string_head string).1 beyond
    | unmapped inside here =>
      refine ⟨confined_read inside, ?_, ?_⟩
      · intro n t ends
        cases ends
      intro chars string
      obtain ⟨_, ⟨_, zero⟩ | ⟨c, _, _, mapped, _⟩⟩ := is_string_head string
      · cases here.symm.trans zero
      · cases here.symm.trans mapped
    | ended inside here =>
      refine ⟨confined_read inside, ?_, fun _ _ => ⟨_, _, rfl⟩⟩
      intro n t ends
      cases ends
      refine ⟨[], ⟨by simp, by intro k d found; simp at found, Or.inr ⟨inside, by simpa using here⟩⟩, rfl, ?_⟩
      simp [cellsFrom]
    | @stored c inside here char =>
      obtain ⟨confined, returns, total⟩ := ih (usrc + 1) (len + 1)
        { s with reads := s.reads ++ [usrc], stores := s.stores ++ [(len, c)] }
      refine ⟨?_, ?_, ?_⟩
      · have read : Confined len (len + (room + 1)) s { s with reads := s.reads ++ [usrc] } :=
          confined_read inside
        have within : len ≤ len ∧ len < len + (room + 1) := by omega
        have above : len + 1 + room ≤ len + (room + 1) := by omega
        exact confined_trans (confined_trans read (confined_store c within))
          (confined_mono confined (Nat.le_succ len) above)
      · intro n t ends
        obtain ⟨rest, string, count, stores⟩ := returns n t ends
        refine ⟨c :: rest, (is_string_cons_iff inside here char).mpr string, ?_, ?_⟩
        · rw [count, length_cons]
          omega
        · rw [stores, cellsFrom, List.append_assoc]
          rfl
      · intro chars string
        obtain ⟨_, ⟨_, stop⟩ | ⟨d, rest, rfl, mapped, _⟩⟩ := is_string_head string
        · cases here.symm.trans stop
          exact absurd rfl char
        · cases here.symm.trans mapped
          exact total rest ((is_string_cons_iff inside here char).mp string)

theorem read_str_spec (nonempty : capacity ≠ 0) :
    Confined 0 capacity.toNat s (stateAfter (readStr capacity ptr s)) ∧
    (∀ n t, readStr capacity ptr s = .ok n t → ∃ chars, IsString s.byteAt ptr (capacity.toNat - 1) chars ∧
      n = chars.length ∧ t.stores = s.stores ++ cellsFrom 0 chars ++ [(n, 0)]) ∧
    (∀ chars, IsString s.byteAt ptr (capacity.toNat - 1) chars → InUserSpace ptr 1 →
      ∃ n t, readStr capacity ptr s = .ok n t) := by
  have positive : 0 < capacity.toNat := by
    have nonzero : capacity.toNat ≠ 0 := fun zero => nonempty (eq_of_toNat_eq zero)
    omega
  have room : (capacity - 1).toNat = capacity.toNat - 1 := by
    have one : (1 : BitVec 64).toNat = 1 := rfl
    have bound := capacity.isLt
    rw [toNat_sub, one]
    omega
  obtain ⟨confined, returns, total⟩ := copy_str_loop_spec ptr 0 s
  cases check : uaccessOk ptr 1 with
  | false =>
    have run : readStr capacity ptr s = .error .assertion s := by
      rw [readStr, copyFromUserStr, check, run_bind, require_false]
    rw [run]
    refine ⟨confined_refl, ?_, ?_⟩
    · intro n t ends
      cases ends
    intro chars _ user
    have passed := (uaccess_ok_iff (by decide)).mpr user
    rw [show BitVec.ofNat 64 1 = 1 from rfl, check] at passed
    cases passed
  | true =>
    have run : readStr capacity ptr s =
        (copyStrLoop (capacity.toNat - 1) ptr 0 >>= fun len => do store len 0; pure len) s := by
      rw [readStr, copyFromUserStr, check, run_bind, require_true, room]
    rw [run, run_bind]
    cases loop : copyStrLoop (capacity.toNat - 1) ptr 0 s with
    | ok n t =>
      rw [loop] at confined
      obtain ⟨chars, string, count, stores⟩ := returns n t loop
      have short := string.short
      refine ⟨?_, ?_, fun _ _ _ => ⟨_, _, rfl⟩⟩
      · exact confined_trans (confined_mono confined (by omega) (by omega))
          (confined_store 0 (by omega))
      intro n' t' ends
      cases ends
      refine ⟨chars, string, by omega, ?_⟩
      rw [stores]
    | error e t =>
      rw [loop] at confined
      refine ⟨confined_mono confined (by omega) (by omega), ?_, ?_⟩
      · intro n' t' ends
        cases ends
      intro chars string _
      obtain ⟨n, t', ends⟩ := total chars string
      cases loop.symm.trans ends

/-- Past the assertion of either copy the range is inside user space just when the number of
    bytes, as a product of integers, is at most the size of the user space. `read_str` reads
    user addresses only, stores inside its buffer only, and on a string that ends in user
    space it returns that string with a NUL behind it. -/
theorem user_pointer_checks (size vaddr len : BitVec 64) (ksrc : List (BitVec 8)) (s : Access)
    {capacity : BitVec 64} (nonempty : capacity ≠ 0) :
    (Passes (copyFromUser size vaddr len) s →
      (InUserSpace vaddr (len.toNat * size.toNat) ↔ len.toNat * size.toNat ≤ userAspaceSize.toNat)) ∧
    (Passes (copyToUser size vaddr ksrc len) s →
      (InUserSpace vaddr (len.toNat * size.toNat) ↔ len.toNat * size.toNat ≤ userAspaceSize.toNat)) ∧
    Confined 0 capacity.toNat s (stateAfter (readStr capacity vaddr s)) ∧
    (∀ n t, readStr capacity vaddr s = .ok n t → ∃ chars, IsString s.byteAt vaddr (capacity.toNat - 1) chars ∧
      n = chars.length ∧ t.stores = s.stores ++ cellsFrom 0 chars ++ [(n, 0)]) ∧
    (∀ chars, IsString s.byteAt vaddr (capacity.toNat - 1) chars → InUserSpace vaddr 1 →
      ∃ n t, readStr capacity vaddr s = .ok n t) := by
  refine ⟨?_, ?_, read_str_spec nonempty⟩
  · intro passes
    exact checked_range_iff (copy_from_passes_iff.mp passes)
  · intro passes
    exact checked_range_iff (copy_to_passes_iff.mp passes)

def oneByte : Access where
  byteAt := fun a => if a = 0x1000 then some 0x61 else none
  reads := []
  stores := []
  printed := []

theorem one_byte_copied :
    Passes (copyFromUser 1 0x1000 1) oneByte ∧ InUserSpace 0x1000 1 := by
  have passes : Passes (copyFromUser 1 0x1000 1) oneByte :=
    copy_from_passes_iff.mpr (by decide)
  have checks := user_pointer_checks 1 0x1000 1 [] oneByte (by decide : (2 : BitVec 64) ≠ 0)
  exact ⟨passes, (checks.1 passes).mpr (by decide)⟩

/-- `USER_ASPACE_SIZE - size` wraps for a size above the user space, and the assertion
    passes: a copy of 2^63 bytes, and one of 2^61 words whose byte count wraps to 0. -/
theorem oversized_copies_pass :
    Passes (copyFromUser 1 0x1000 0x8000000000000000) oneByte ∧
      ¬ InUserSpace 0x1000 ((0x8000000000000000 : BitVec 64).toNat * (1 : BitVec 64).toNat) ∧
    Passes (copyToUser 8 0x1000 [] 0x2000000000000000) oneByte ∧
      ¬ InUserSpace 0x1000 ((0x2000000000000000 : BitVec 64).toNat * (8 : BitVec 64).toNat) := by
  refine ⟨?_, ?_, ?_, ?_⟩
  · exact copy_from_passes_iff.mpr (by decide)
  · rintro ⟨_, _, inside⟩
    exact absurd inside (by decide)
  · exact copy_to_passes_iff.mpr (by decide)
  · rintro ⟨_, _, inside⟩
    exact absurd inside (by decide)

end RtosUserAccess
