import CompositeRtos.Lib.ByteMemory
import CompositeRtos.Nimbos.UserAccess
import CompositeRtos.Scf.DataPool

/-!
`sys_read` of the forwarding build (`scf/syscall.rs`) from the allocation of its chunk to
the copy into user memory, with `read_thread_fn` of the daemon (`libs/syscall.c`) at its
other end. The chunk is not initialised, and the copy takes all of it whatever the daemon
returned.
-/
namespace RtosScfForwardedRead
open RtosByteMemory RtosUserAccess RtosScfDataPool List Option

structure ReadWriteArgs where
  fd : BitVec 32
  bufOffset : Nat
  len : Nat
  deriving DecidableEq, Repr

/-- The shared pool: its allocator, its bytes, and the argument records in it. -/
structure Pool (H : Type) where
  buffer : SyscallDataBuffer H
  bytes : Nat → BitVec 8
  args : Nat → Option ReadWriteArgs

/-- What `read` of the host did for a buffer of `len` bytes: it stored as many bytes as it
    returned, none when it failed. -/
structure Reply (len : Nat) where
  ret : BitVec 32
  data : List (BitVec 8)
  count : (data.length : Int) = max ret.toInt 0
  fits : data.length ≤ len

/-- A request of `sys_read` on its way: its chunk, its argument record and the offset that
    the daemon gets. -/
structure Submitted where
  chunk : Nat
  args : Nat
  argsOffset : Nat
  deriving DecidableEq, Repr

section Read
variable {H : Type} (model : Heap H)

def submit (fd : BitVec 64) (len : Nat) (p : Pool H) : Option (Submitted × Pool H) :=
  if len < chunkSize then do
    let (chunk, buffer) ← p.buffer.allocArrayUninit model u8 len
    let bufOffset ← buffer.offsetOf chunk
    let (args, buffer) ← buffer.allocUninit model readWriteArgs
    let argsOffset ← buffer.offsetOf args
    some (⟨chunk, args, argsOffset⟩,
      { p with buffer, args := Function.update p.args args (some ⟨fd.setWidth 32, bufOffset, len⟩) })
  else none

/-- What the other tasks do to the pool while this one waits; its chunk and its record are
    its own. -/
def otherTasks (r : Submitted) (len : Nat) (p during : Pool H) : Pool H where
  buffer := { p.buffer with heap := during.buffer.heap }
  bytes a := if r.chunk ≤ a ∧ a < r.chunk + len then p.bytes a else during.bytes a
  args a := if a = r.args then p.args a else during.args a

def readThreadFn (argsOffset : Nat) (data : List (BitVec 8)) (p : Pool H) : Option (Pool H) := do
  let args ← p.args (p.buffer.baseVaddr + argsOffset)
  some { p with bytes := patch p.bytes (p.buffer.baseVaddr + args.bufOffset) data }

def loadFrom (bytes : Nat → BitVec 8) (start len : Nat) : List (BitVec 8) :=
  (List.range len).map fun i => bytes (start + i)

/-- From the return of `wait` to the end: `write_buf` takes `len` bytes of the chunk. -/
def collect (buf len : BitVec 64) (r : Submitted) (p : Pool H) (user : Access) : Option (Pool H × Access) :=
  match writeBuf 1 buf (loadFrom p.bytes r.chunk len.toNat) len user with
  | .error _ _ => none
  | .ok _ user => do
    let buffer ← p.buffer.dealloc model u8 r.chunk
    let buffer ← buffer.dealloc model readWriteArgs r.args
    some ({ p with buffer }, user)

def sysRead (fd buf len : BitVec 64) (reply : Reply len.toNat) (during p : Pool H) (user : Access) :
    Option (Pool H × Access × BitVec 64) := do
  let (r, p) ← submit model fd len.toNat p
  let p ← readThreadFn r.argsOffset reply.data (otherTasks r len.toNat p during)
  let (p, user) ← collect model buf len r p user
  some (p, user, reply.ret.signExtend 64)

def OnlyRead (user user' : Access) (buf : BitVec 64) (len : Nat) (data : List (BitVec 8)) : Prop :=
  (∀ i, i < data.length → user'.byteAt (buf + BitVec.ofNat 64 i) = data[i]?) ∧
    ∀ i, data.length ≤ i → i < len → user'.byteAt (buf + BitVec.ofNat 64 i) = user.byteAt (buf + BitVec.ofNat 64 i)

def chunkBytes (bytes : Nat → BitVec 8) (chunk len : Nat) (data : List (BitVec 8)) : List (BitVec 8) :=
  data ++ (loadFrom bytes chunk len).drop data.length

variable {model} {fd buf len : BitVec 64} {p p' during : Pool H} {user user' : Access}

theorem load_length (bytes : Nat → BitVec 8) (start n : Nat) : (loadFrom bytes start n).length = n := by
  simp [loadFrom]

theorem load_at (inside : i < n) : (loadFrom bytes start n)[i]? = some (bytes (start + i)) := by
  simp [loadFrom, inside]

theorem chunk_bytes_at (inside : i < n) :
    (chunkBytes bytes chunk n data)[i]? = some ((data[i]?).getD (bytes (chunk + i))) := by
  rcases Nat.lt_or_ge i data.length with stored | left
  · rw [chunkBytes, List.getElem?_append_left stored, List.getElem?_eq_getElem stored, getD_some]
  rw [chunkBytes, List.getElem?_append_right left, List.getElem?_drop,
    show data.length + (i - data.length) = i by omega, load_at inside,
    List.getElem?_eq_none_iff.mpr left, getD_none]

theorem chunk_bytes_length (bytes : Nat → BitVec 8) (chunk : Nat) (fits : data.length ≤ n) :
    (chunkBytes bytes chunk n data).length = n := by
  rw [chunkBytes, length_append, length_drop, load_length]
  omega

theorem load_stored (fits : data.length ≤ n) :
    loadFrom (patch bytes chunk data) chunk n = chunkBytes bytes chunk n data := by
  apply ext_getElem?
  intro i
  rcases Nat.lt_or_ge i n with inside | outside
  · rw [load_at inside, chunk_bytes_at inside, patch, if_pos (by omega), Nat.add_sub_cancel_left]
  · rw [List.getElem?_eq_none_iff.mpr (by rw [load_length]; exact outside),
      List.getElem?_eq_none_iff.mpr (by rw [chunk_bytes_length bytes chunk fits]; exact outside)]

theorem chunk_bytes_congr (same : ∀ a, chunk ≤ a → a < chunk + n → bytes' a = bytes a) :
    chunkBytes bytes' chunk n data = chunkBytes bytes chunk n data := by
  have loaded : loadFrom bytes' chunk n = loadFrom bytes chunk n := by
    apply map_congr_left
    intro i member
    have inside := mem_range.mp member
    exact same (chunk + i) (by omega) (by omega)
  rw [chunkBytes, chunkBytes, loaded]

theorem offset_of_some {b : SyscallDataBuffer H} (found : b.offsetOf ptr = some offset) :
    b.baseVaddr + offset = ptr := by
  simp only [SyscallDataBuffer.offsetOf] at found
  split at found
  · rename_i inside
    cases found
    exact Nat.add_sub_cancel' inside.1
  · cases found

theorem alloc_common_base {b b' : SyscallDataBuffer H} (run : b.allocCommon model l = some (ptr, b')) :
    b'.baseVaddr = b.baseVaddr := by
  obtain ⟨⟨_, heap⟩, _, same⟩ := map_eq_some_iff.mp run
  cases same
  rfl

theorem submit_spec (run : submit model fd n p = some (r, p')) :
    n < chunkSize ∧ p'.buffer.baseVaddr + r.argsOffset = r.args ∧
      (∃ args, p'.args r.args = some args ∧ p'.buffer.baseVaddr + args.bufOffset = r.chunk) ∧
      ∀ bytes, submit model fd n { p with bytes } = some (r, { p' with bytes }) := by
  simp only [submit] at run
  split at run
  · rename_i short
    obtain ⟨⟨chunk, buffer⟩, first, run⟩ := bind_eq_some_iff.mp run
    obtain ⟨bufOffset, second, run⟩ := bind_eq_some_iff.mp run
    obtain ⟨⟨args, buffer'⟩, third, run⟩ := bind_eq_some_iff.mp run
    obtain ⟨argsOffset, fourth, run⟩ := bind_eq_some_iff.mp run
    cases run
    have base : buffer'.baseVaddr = buffer.baseVaddr := alloc_common_base third
    refine ⟨short, offset_of_some fourth, ⟨_, Function.update_self _ _ _, ?_⟩, ?_⟩
    · rw [base]
      exact offset_of_some second
    · intro bytes
      simp only [submit, if_pos short, first, second, third, fourth, bind_eq_bind, bind_some]
  · cases run

theorem served_spec (p during : Pool H) (fits : data.length ≤ n)
    (record : p.buffer.baseVaddr + r.argsOffset = r.args) (found : p.args r.args = some args)
    (chunk : p.buffer.baseVaddr + args.bufOffset = r.chunk) :
    ∃ served, readThreadFn r.argsOffset data (otherTasks r n p during) =
        some { otherTasks r n p during with bytes := served } ∧
      loadFrom served r.chunk n = chunkBytes p.bytes r.chunk n data := by
  have loaded : (otherTasks r n p during).args (p.buffer.baseVaddr + r.argsOffset) = some args := by
    rw [record]
    simp only [otherTasks, if_pos]
    exact found
  refine ⟨patch (otherTasks r n p during).bytes r.chunk data, ?_, ?_⟩
  · rw [readThreadFn, show (otherTasks r n p during).buffer.baseVaddr = p.buffer.baseVaddr from rfl, loaded,
      bind_eq_bind, bind_some, chunk]
  rw [load_stored fits]
  apply chunk_bytes_congr
  intro a above below
  exact if_pos ⟨above, below⟩

theorem write_buf_eq (length : bytes.length = len.toNat) :
    writeBuf 1 buf bytes len = (require (uaccessOk buf len) >>= fun _ => writeBytes buf bytes) := by
  have one : (1 : BitVec 64).toNat = 1 := rfl
  have all : len * 1 = len := BitVec.mul_one len
  rw [writeBuf, copyToUser, all, one, Nat.mul_one, take_of_length_le (Nat.le_of_eq length)]

theorem collect_spec (run : collect model buf len r p user = some (q, user')) :
    Mapped user.byteAt buf len.toNat ∧ ∀ bytes, ∃ q', collect model buf len r { p with bytes } user =
      some (q', { user with byteAt := overwrite user.byteAt buf (loadFrom bytes r.chunk len.toNat) }) := by
  have short := len.isLt
  have length := load_length p.bytes r.chunk len.toNat
  simp only [collect] at run
  rw [write_buf_eq length, RtosStateSpec.run_bind] at run
  cases check : uaccessOk buf len with
  | false =>
    rw [check, require_false] at run
    cases run
  | true =>
    rw [check, require_true] at run
    dsimp only at run
    rcases write_bytes_cases (loadFrom p.bytes r.chunk len.toNat) buf user (by omega) with
      ⟨mapped, wrote⟩ | ⟨_, fault, t, wrote⟩
    · rw [wrote] at run
      rw [length] at mapped
      refine ⟨mapped, ?_⟩
      intro bytes
      obtain ⟨buffer, first, rest⟩ := bind_eq_some_iff.mp run
      obtain ⟨buffer', second, _⟩ := bind_eq_some_iff.mp rest
      have length' := load_length bytes r.chunk len.toNat
      rcases write_bytes_cases (loadFrom bytes r.chunk len.toNat) buf user (by omega) with
        ⟨_, wrote'⟩ | ⟨unmapped, _⟩
      · refine ⟨{ p with bytes, buffer := buffer' }, ?_⟩
        simp only [collect]
        rw [write_buf_eq length', RtosStateSpec.run_bind, check, require_true]
        dsimp only
        rw [wrote']
        simp only [first, second, bind_eq_bind, bind_some]
      · rw [length'] at unmapped
        exact absurd mapped unmapped
    · rw [wrote] at run
      cases run

theorem sys_read_any_pool (returned : sysRead model fd buf len reply during p user = some (q, user', ret)) :
    ret = reply.ret.signExtend 64 ∧ len.toNat < chunkSize ∧ Mapped user.byteAt buf len.toNat ∧
      ∃ chunk, ∀ bytes, ∃ q', sysRead model fd buf len reply during { p with bytes } user = some (q', { user with
          byteAt := overwrite user.byteAt buf (chunkBytes bytes chunk len.toNat reply.data) }, ret) := by
  obtain ⟨⟨r, p₁⟩, first, returned⟩ := bind_eq_some_iff.mp returned
  obtain ⟨p₂, second, returned⟩ := bind_eq_some_iff.mp returned
  obtain ⟨⟨p₃, user₃⟩, third, returned⟩ := bind_eq_some_iff.mp returned
  cases returned
  obtain ⟨short, record, ⟨args, found, chunk⟩, any⟩ := submit_spec first
  obtain ⟨served, run, _⟩ := served_spec p₁ during reply.fits record found chunk
  cases second.symm.trans run
  obtain ⟨mapped, copies⟩ := collect_spec third
  refine ⟨rfl, short, mapped, r.chunk, ?_⟩
  intro bytes
  obtain ⟨served', run', loaded⟩ := served_spec { p₁ with bytes } during reply.fits record found chunk
  obtain ⟨q', copied⟩ := copies served'
  have same : { otherTasks r len.toNat p₁ during with bytes := served' } =
      { otherTasks r len.toNat { p₁ with bytes } during with bytes := served' } := rfl
  refine ⟨q', ?_⟩
  rw [← loaded]
  simp only [sysRead, any bytes, run', bind_eq_bind, bind_some]
  simp only [← same, copied, bind_some]

theorem short_chunk {bytes : List (BitVec 8)} (length : bytes.length = n) (short : n < chunkSize) :
    bytes.length < 2 ^ 64 := by
  have chunk : chunkSize = 256 := rfl
  omega

theorem copied_byte {data : List (BitVec 8)} (fits : data.length ≤ n) (short : n < chunkSize) (inside : i < n) :
    overwrite byteAt buf (chunkBytes bytes chunk n data) (buf + BitVec.ofNat 64 i) =
      some ((data[i]?).getD (bytes (chunk + i))) := by
  have length := chunk_bytes_length bytes chunk fits
  rw [overwrite_at (by rw [length]; exact inside) (short_chunk length short), chunk_bytes_at inside]

/-- The call keeps to what was read, whatever the pool held before, just when the daemon
    filled the whole buffer; and just then the user memory afterwards is the same for all
    contents of the pool. -/
theorem read_confined_iff {reply : Reply len.toNat} {q : Pool H} {ret : BitVec 64}
    (returned : sysRead model fd buf len reply during p user = some (q, user', ret)) :
    ret = reply.ret.signExtend 64 ∧
    ((∀ bytes, ∃ q' after, sysRead model fd buf len reply during { p with bytes } user = some (q', after, ret) ∧
      OnlyRead user after buf len.toNat reply.data) ↔ reply.data.length = len.toNat) ∧
    ((∀ bytes₁ bytes₂ q₁ q₂ after₁ after₂ ret₁ ret₂,
      sysRead model fd buf len reply during { p with bytes := bytes₁ } user = some (q₁, after₁, ret₁) →
      sysRead model fd buf len reply during { p with bytes := bytes₂ } user = some (q₂, after₂, ret₂) →
      after₁.byteAt = after₂.byteAt) ↔ reply.data.length = len.toNat) := by
  obtain ⟨value, short, mapped, chunk, any⟩ := sys_read_any_pool returned
  have full : reply.data.length = len.toNat → ∀ bytes, chunkBytes bytes chunk len.toNat reply.data = reply.data := by
    intro filled bytes
    rw [chunkBytes, List.drop_of_length_le (by rw [load_length, filled]), List.append_nil]
  -- a byte that the daemon did not store comes from the pool
  have leaks : ¬ reply.data.length = len.toNat → ∀ bytes,
      overwrite user.byteAt buf (chunkBytes bytes chunk len.toNat reply.data)
        (buf + BitVec.ofNat 64 reply.data.length) = some (bytes (chunk + reply.data.length)) := by
    intro partly bytes
    have fits := reply.fits
    rw [copied_byte fits short (by omega), List.getElem?_eq_none_iff.mpr (Nat.le_refl _), Option.getD_none]
  refine ⟨value, ?_, ?_⟩
  · constructor
    · intro confined
      by_contra partly
      have fits := reply.fits
      obtain ⟨old, here⟩ := Option.ne_none_iff_exists'.mp (mapped reply.data.length (by omega))
      obtain ⟨q', after, run, _, kept⟩ := confined fun _ => old + 1
      obtain ⟨q'', run'⟩ := any fun _ => old + 1
      cases run.symm.trans run'
      have same := (leaks partly _).symm.trans (kept reply.data.length (Nat.le_refl _) (by omega))
      rw [here, Option.some.injEq] at same
      exact absurd same (by simp)
    · intro filled bytes
      obtain ⟨q', run⟩ := any bytes
      refine ⟨q', _, run, ?_, ?_⟩
      · intro i inside
        rw [full filled bytes]
        exact overwrite_at inside (short_chunk filled short)
      · intro i after inside
        omega
  · constructor
    · intro independent
      by_contra partly
      obtain ⟨_, run₁⟩ := any fun _ => 0
      obtain ⟨_, run₂⟩ := any fun _ => 1
      have same := congrFun (independent _ _ _ _ _ _ _ _ run₁ run₂) (buf + BitVec.ofNat 64 reply.data.length)
      cases (leaks partly _).symm.trans (same.trans (leaks partly _))
    intro filled bytes₁ bytes₂ q₁ q₂ after₁ after₂ ret₁ ret₂ run₁ run₂
    obtain ⟨_, run₁'⟩ := any bytes₁
    obtain ⟨_, run₂'⟩ := any bytes₂
    cases run₁.symm.trans run₁'
    cases run₂.symm.trans run₂'
    rw [full filled, full filled]

end Read

def twoBytes : Access where
  byteAt := fun a => if a = 0x1000 ∨ a = 0x1001 then some 0 else none
  reads := []
  stores := []
  printed := []

def usedPool : Pool (Finset Nat) := ⟨smallPool, fun _ => 0x53, fun _ => none⟩

def replyOf (data : List (BitVec 8)) (count : (data.length : Int) = max (BitVec.ofNat 32 data.length).toInt 0)
    (fits : data.length ≤ (2 : BitVec 64).toNat) : Reply (2 : BitVec 64).toNat :=
  ⟨BitVec.ofNat 32 data.length, data, count, fits⟩

def seen (reply : Reply (2 : BitVec 64).toNat) : Option (Option (BitVec 8) × Option (BitVec 8) × BitVec 64) :=
  (sysRead (firstFit 128) 0 0x1000 2 reply usedPool usedPool twoBytes).map
    fun (_, user, ret) => (user.byteAt 0x1000, user.byteAt 0x1001, ret)

theorem full_read_confined :
    ∃ q after, sysRead (firstFit 128) 0 0x1000 2 (replyOf [0x41, 0x42] (by decide) (by decide)) usedPool usedPool
        twoBytes = some (q, after, 2) ∧ OnlyRead twoBytes after 0x1000 2 [0x41, 0x42] := by
  have run : seen (replyOf [0x41, 0x42] (by decide) (by decide)) = some (some 0x41, some 0x42, 2) := by
    decide +kernel
  obtain ⟨⟨q, after, ret⟩, returned, same⟩ := Option.map_eq_some_iff.mp run
  have value : ret = 2 := by
    simp only [Prod.mk.injEq] at same
    exact same.2.2
  subst value
  exact (read_confined_iff returned).2.1.mpr rfl usedPool.bytes

/-- The daemon reads one byte of two: the second byte of the user buffer becomes the letter
    that another task left in the pool. -/
theorem short_read_leaks_pool :
    twoBytes.byteAt 0x1001 = some 0 ∧ usedPool.bytes 65 = 0x53 ∧
      seen (replyOf [0x41] (by decide) (by decide)) = some (some 0x41, some 0x53, 1) := by
  refine ⟨by decide, rfl, ?_⟩
  decide +kernel

end RtosScfForwardedRead
