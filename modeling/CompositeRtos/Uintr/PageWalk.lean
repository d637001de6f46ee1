import CompositeRtos.Lib.StateSpec
import CompositeRtos.Uintr.Mmu

/-!
What page tables map. It does not depend on the accessed and dirty flags that a walk sets
on its way, so it is a function of the tables with all these flags set, and `mmu_translate`
is shown to compute it, with and without nested paging. From it follows that translation
goes by whole pages, and that `get_hphys2` gives the address of an ordinary access wherever
that access is possible.
-/
namespace RtosUintrPageWalk
open RtosByteMemory RtosStateSpec RtosUintrMachine RtosX86 RtosUintrMmu BitVec

/-- The memory with all accessed and dirty flags set, wherever an entry can be. -/
def flat (m : Memory) : Memory := fun a => if a.toNat % 8 = 0 then m a ||| 0x60 else m a

def Same (m t : Memory) : Prop := flat m = flat t

def flags : BitVec 64 := 0x60

theorem same_trans (m t u : Memory) (first : Same m t) (second : Same t u) : Same m u := first.trans second

theorem flag_bit (only : marks ||| flags = flags) (high : 8 ≤ i) : marks.getLsbD i = false := by
  have bit := congrArg (fun w : BitVec 64 => w.getLsbD i) only
  simp only [getLsbD_or] at bit
  have clear : flags.getLsbD i = false := by
    by_cases bound : i < 64
    · have table : ∀ k : Fin 64, 8 ≤ k.val → flags.getLsbD k.val = false := by decide
      exact table ⟨i, bound⟩ high
    · exact getLsbD_of_ge _ _ (by omega)
  rw [clear, Bool.or_false] at bit
  exact bit

theorem ldq_flat {a : BitVec 64} (aligned : a.toNat % 8 = 0) : ldq (flat m) a = ldq m a ||| flags := by
  apply eq_of_getLsbD_eq
  intro i bound
  rw [getLsbD_or, ldq, ldq, load_word_bit _ _ bound, load_word_bit _ _ bound, flat]
  by_cases first : i / 8 = 0
  · rw [first, if_pos (by simp [wordAt, aligned]), getLsbD_or]
    have small : i < 8 := by omega
    rw [Nat.mod_eq_of_lt small]
    congr 1
  have odd : (wordAt a (i / 8)).toNat % 8 ≠ 0 := by
    simp only [wordAt, toNat_add, toNat_ofNat]
    omega
  rw [if_neg odd]
  have high : flags.getLsbD i = false := flag_bit BitVec.or_self (by omega)
  rw [high, Bool.or_false]

theorem same_marked (aligned : a.toNat % 8 = 0) (content : ldq m a = entry) (only : marks ||| flags = flags) :
    Same m (stl m a ((entry ||| marks).setWidth 32)) := by
  funext b
  by_cases inside : ∃ k, k < 4 ∧ wordAt a k = b
  · obtain ⟨k, bound, rfl⟩ := inside
    have stored : stl m a ((entry ||| marks).setWidth 32) (wordAt a k) =
        ((entry ||| marks).setWidth 32).extractLsb' (8 * k) 8 :=
      store_half_inside m _ (fun i j hi hj same => word_at_spread i j (by omega) (by omega) same) bound
    have held : m (wordAt a k) = entry.extractLsb' (8 * k) 8 := by
      rw [← content, ldq, load_word_byte (by omega)]
    unfold flat
    rw [stored, held]
    by_cases first : k = 0
    · subst first
      have here : (wordAt a 0).toNat % 8 = 0 := by simp [wordAt, aligned]
      rw [if_pos here, if_pos here]
      apply eq_of_getLsbD_eq
      intro i small
      have bit := congrArg (fun w : BitVec 64 => w.getLsbD i) only
      have flag : flags.getLsbD i = (0x60 : BitVec 8).getLsbD i := rfl
      simp only [getLsbD_or, flag] at bit
      simp only [getLsbD_or, getLsbD_extractLsb', getLsbD_setWidth]
      grind
    · have odd : (wordAt a k).toNat % 8 ≠ 0 := by
        simp only [wordAt, toNat_add, toNat_ofNat]
        omega
      rw [if_neg odd, if_neg odd]
      apply eq_of_getLsbD_eq
      intro i small
      have clear := flag_bit only (i := 8 * k + i) (by omega)
      simp only [getLsbD_extractLsb', getLsbD_setWidth, getLsbD_or, clear]
      grind
  · have outside : stl m a ((entry ||| marks).setWidth 32) b = m b :=
      store_half_outside m _ _ fun k bound same => inside ⟨k, bound, same⟩
    rw [flat, flat, outside]

abbrev Hphys := BitVec 64 → AccessType → Bool → Except Stop (BitVec 64)

def entryOf (hphys : Hphys) (tables : Memory) (gpa rsvd : BitVec 64) : Except Stop (BitVec 64 × BitVec 64) := do
  let addr ← hphys gpa .store false
  let entry := ldq tables addr
  if entry &&& pgPresentMask = 0 then .error (.fault 0)
  else if entry &&& rsvd ≠ 0 then .error (.fault (pgErrorRsvd ||| pgErrorP))
  else .ok (addr, entry)

/-- A level of tables: the lowest bit of its index, and whether an entry can map a page. -/
structure Level where
  shift : Nat
  mayMap : Bool

def descend (mmu : Mmu) (hphys : Hphys) (tables : Memory) (addr rsvd : BitVec 64) :
    List Level → BitVec 64 → BitVec 64 → Except Stop Leaf
  | [], _, _ => .error (.fault 0)
  | level :: rest, table, ptep => do
    let (a, entry) ← entryOf hphys tables (entryAddr mmu table addr level.shift)
      (if level.mayMap then rsvd else rsvd ||| pgPseMask)
    let ptep := ptep &&& (entry ^^^ pgNxMask)
    if rest.isEmpty ∨ (level.mayMap ∧ entry &&& pgPseMask ≠ 0) then .ok ⟨a, entry, ptep, level.shift, rsvd⟩
    else descend mmu hphys tables addr rsvd rest (entry &&& pgAddressMask) ptep

def directory : List Level := [⟨21, true⟩, ⟨12, true⟩]

def leafOf (mmu : Mmu) (hphys : Hphys) (tables : Memory) (addr cr3 : BitVec 64) (mode : PgMode) :
    Except Stop Leaf :=
  let rsvd := rsvdMask mmu mode
  if mode.lma then
    let levels := ⟨39, false⟩ :: ⟨30, true⟩ :: directory
    if mode.la57 then descend mmu hphys tables addr rsvd (⟨48, false⟩ :: levels) (cr3 &&& ~~~0xfff) ptepStart
    else descend mmu hphys tables addr rsvd levels (cr3 &&& pgAddressMask) ptepStart
  else do
    let rsvd := rsvd ||| pgHiUserMask
    let (_, pdpe) ← entryOf hphys tables (pdpteAddr mmu cr3 addr) (rsvd ||| pgNxMask)
    descend mmu hphys tables addr rsvd directory (pdpe &&& pgAddressMask) ptepStart

def pageOf (mmu : Mmu) (hphys : Hphys) (addr : BitVec 64) (access : AccessType) (idx : MmuIdx)
    (mode : PgMode) (leaf : Leaf) : Except Stop (BitVec 64) := do
  if leaf.pte &&& sizeRsvd leaf ≠ 0 then .error (.fault (pgErrorRsvd ||| pgErrorP))
  else
    let _ ← checkProtect mmu mode idx access (leaf.ptep ^^^ pgNxMask) leaf.pte
    hphys (inPage mmu leaf.pageBits leaf.pte addr) access true

def mapped (mmu : Mmu) (hphys : Hphys) (tables : Memory) (addr cr3 : BitVec 64) (access : AccessType)
    (idx : MmuIdx) (mode : PgMode) : Except Stop (BitVec 64) :=
  (leafOf mmu hphys tables addr cr3 mode >>= pageOf mmu hphys addr access idx mode).mapError
    (doFault access idx mode)

/-- A VMEXIT writes to the control block; everything else leaves the memory alone but for flags. -/
def Quiet : Stop → Prop
  | .vmexit _ _ => False
  | _ => True

abbrev Computes {α β : Type} (m : Memory) (walk : Walk α) (spec : Except Stop β) (post : α → β → Memory → Prop) :
    Prop :=
  Meets Same Quiet m walk spec post

/-- A translation of guest-physical addresses, page by page, and what it computes. -/
def Faithful (h : GetHphys) (p : Memory → Hphys) : Prop :=
  ∀ gpa access guest m, Computes m (h gpa access guest) (p (flat m) gpa access guest)
    fun r x _ => r.1 = x ∧ x.toNat % 4096 = gpa.toNat % 4096

/-- An entry as the walk has read it, and as it is in the tables with all flags set. -/
structure EntryRead (r b : BitVec 64 × BitVec 64) (m : Memory) : Prop where
  addr : r.1 = b.1
  aligned : r.1.toNat % 8 = 0
  content : ldq m r.1 = r.2
  entry : b.2 = r.2 ||| flags

theorem masked_entry {mask : BitVec 64} (clear : flags &&& mask = 0) : (e ||| flags) &&& mask = e &&& mask := by
  rw [and_or_distrib_right, clear]
  exact or_zero

theorem load_computes {α β : Type} {rest : BitVec 64 → Walk α} {spec : Except Stop β}
    {post : α → β → Memory → Prop} (later : Computes m (rest (ldq m a)) spec post) :
    Computes m (ldqPhys a >>= rest) spec post :=
  later

theorem flags_idem (e : BitVec 64) : e ||| flags = (e ||| flags) ||| flags := by
  rw [BitVec.or_assoc, BitVec.or_self]

theorem fault_if_computes {α β : Type} [Decidable c] [Decidable c'] {code : BitVec 32} {rest : Unit → Walk α}
    {spec : Except Stop β} {post : α → β → Memory → Prop} (together : c ↔ c')
    (later : Computes m (rest ()) spec post) :
    Computes m (faultIf c code >>= rest) (if c' then .error (.fault code) else spec) post := by
  unfold faultIf
  by_cases holds : c
  · rw [if_pos holds, if_pos (together.mp holds)]
    exact ⟨rfl, fun _ => rfl⟩
  · rw [if_neg holds, if_neg (fun h => holds (together.mpr h))]
    exact later

section Walks

variable {m : Memory}

theorem read_entry_computes (faithful : Faithful h p) {gpa rsvd : BitVec 64} (aligned : gpa.toNat % 8 = 0)
    (clear : flags &&& rsvd = 0) :
    Computes m (readEntry h gpa rsvd) (entryOf (p (flat m)) (flat m) gpa rsvd) EntryRead := by
  unfold readEntry entryOf
  apply meets_bind same_trans (faithful gpa .store false m)
  rintro ⟨addr, _⟩ x t same ⟨rfl, offset⟩
  have addr_aligned : addr.toNat % 8 = 0 := by
    dsimp only at offset
    omega
  have held : ldq (flat m) addr = ldq t addr ||| flags := by rw [same, ldq_flat addr_aligned]
  dsimp only
  rw [held, masked_entry (by decide), masked_entry clear]
  apply load_computes
  apply fault_if_computes Iff.rfl
  apply fault_if_computes Iff.rfl
  exact meets_pure rfl ⟨rfl, addr_aligned, rfl, rfl⟩

theorem marked_content (content : ldq m a = entry) (only : marks ||| flags = flags) :
    ldq (stl m a ((entry ||| marks).setWidth 32)) a = entry ||| marks := by
  apply eq_of_getLsbD_eq
  intro i bound
  rw [ldq, load_word_bit _ _ bound]
  by_cases low : i / 8 < 4
  · have stored : stl m a ((entry ||| marks).setWidth 32) (wordAt a (i / 8)) =
        ((entry ||| marks).setWidth 32).extractLsb' (8 * (i / 8)) 8 :=
      store_half_inside m _ (fun j k hj hk same => word_at_spread j k (by omega) (by omega) same) low
    have index : 8 * (i / 8) + i % 8 = i := by omega
    rw [stored, getLsbD_extractLsb', getLsbD_setWidth, index]
    simp [show i % 8 < 8 by omega, show i < 32 by omega]
  have outside : stl m a ((entry ||| marks).setWidth 32) (wordAt a (i / 8)) = m (wordAt a (i / 8)) := by
    apply store_half_outside
    intro k small same
    have := word_at_spread k (i / 8) (by omega) (by omega) same
    omega
  have held := load_word_bit m (wordAt a) bound
  rw [outside, ← held, getLsbD_or, flag_bit only (by omega), Bool.or_false, ← content, ldq]

theorem mark_accessed (aligned : addr.toNat % 8 = 0) (content : ldq m addr = entry) :
    ∃ e t, markAccessed addr entry m = .ok e t ∧ Same m t ∧ ldq t addr = e ∧ e ||| flags = entry ||| flags := by
  unfold markAccessed
  by_cases unset : entry &&& pgAccessedMask = 0
  · rw [if_pos unset]
    refine ⟨entry ||| pgAccessedMask, _, rfl, same_marked aligned content (by decide),
      marked_content content (by decide), ?_⟩
    rw [BitVec.or_assoc]
    congr 1
  · rw [if_neg unset]
    exact ⟨entry, m, rfl, rfl, content, rfl⟩

structure LeafRead (leaf found : Leaf) (m : Memory) : Prop where
  addr : leaf.addr = found.addr
  aligned : leaf.addr.toNat % 8 = 0
  content : ldq m leaf.addr = leaf.pte
  pte : found.pte = leaf.pte ||| flags
  rights : leaf.ptep &&& ptepStart = found.ptep &&& ptepStart
  pageBits : leaf.pageBits = found.pageBits
  rsvd : leaf.rsvd = found.rsvd
  size : leaf.pageBits = 12 ∨ leaf.pageBits = 21 ∨ leaf.pageBits = 30
  clear : flags &&& leaf.rsvd = 0

theorem rights_and (rights : ptep &&& ptepStart = ptep' &&& ptepStart) (same : e &&& ptepStart = e' &&& ptepStart) :
    (ptep &&& (e ^^^ pgNxMask)) &&& ptepStart = (ptep' &&& (e' ^^^ pgNxMask)) &&& ptepStart := by
  apply eq_of_getLsbD_eq
  intro i bound
  have left := congrArg (fun w : BitVec 64 => w.getLsbD i) rights
  have right := congrArg (fun w : BitVec 64 => w.getLsbD i) same
  simp only [getLsbD_and, getLsbD_xor] at left right ⊢
  generalize ptepStart.getLsbD i = relevant at left right ⊢
  cases relevant with
  | false => simp only [Bool.and_false]
  | true =>
    simp only [Bool.and_true] at left right ⊢
    rw [left, right]

theorem rights_step (rights : ptep &&& ptepStart = ptep' &&& ptepStart) (entry : e ||| flags = e' ||| flags) :
    (ptep &&& (e ^^^ pgNxMask)) &&& ptepStart = (ptep' &&& (e' ^^^ pgNxMask)) &&& ptepStart := by
  apply rights_and rights
  rw [← masked_entry (e := e) (by decide), entry, masked_entry (by decide)]

theorem rights_flip {ptep : BitVec 64} (rights : ptep &&& ptepStart = ptep' &&& ptepStart) :
    (ptep ^^^ pgNxMask) &&& ptepStart = (ptep' ^^^ pgNxMask) &&& ptepStart := by
  have flipped := rights_and (show allOnes 64 &&& ptepStart = _ from rfl) rights
  rwa [allOnes_and, allOnes_and] at flipped

theorem masked_aligned (x : BitVec 64) (low : mask.toNat % 2 ^ 3 = 0) : (x &&& mask).toNat % 8 = 0 := by
  have digits := Nat.and_mod_two_pow (a := x.toNat) (b := mask.toNat) (n := 3)
  rw [low, Nat.and_zero] at digits
  rw [toNat_and]
  exact digits

theorem entry_addr_aligned (aligned : table.toNat % 8 = 0) : (entryAddr mmu table addr shift).toNat % 8 = 0 := by
  rw [entryAddr, BitVec.and_comm]
  apply masked_aligned
  simp only [toNat_add, toNat_shiftLeft, Nat.shiftLeft_eq]
  omega

theorem frame_aligned : (e &&& pgAddressMask).toNat % 8 = 0 := masked_aligned e (by decide)

theorem lower_levels_compute (faithful : Faithful h p) (clear : flags &&& rsvd = 0)
    (same_table : pdpe &&& pgAddressMask = table) (rights : ptep &&& ptepStart = ptep' &&& ptepStart) :
    Computes m (lowerLevels mmu h addr pdpe ptep rsvd)
      (descend mmu (p (flat m)) (flat m) addr rsvd directory table ptep') LeafRead := by
  subst same_table
  unfold lowerLevels directory descend
  apply meets_bind same_trans (read_entry_computes faithful (entry_addr_aligned (frame_aligned)) clear)
  rintro ⟨pdeAddr, pde⟩ ⟨a, e⟩ t same ⟨rfl, aligned, content, rfl⟩
  have deeper := rights_step rights (flags_idem pde)
  dsimp only at aligned content ⊢
  apply meets_ite
  · rw [masked_entry (by decide)]
    simp
  · intro _
    exact meets_pure rfl ⟨rfl, aligned, content, rfl, deeper, rfl, rfl, Or.inr (Or.inl rfl), clear⟩
  intro _
  apply meets_step same_trans (mark_accessed aligned content)
  rintro pde' u same' ⟨_, entry⟩
  have frame : (pde ||| flags) &&& pgAddressMask = pde' &&& pgAddressMask := by
    rw [← entry, masked_entry (by decide)]
  rw [same, same', descend, frame]
  apply meets_bind same_trans (read_entry_computes faithful (entry_addr_aligned (frame_aligned)) clear)
  rintro ⟨pteAddr, pte⟩ ⟨a, e⟩ v _ ⟨rfl, aligned, content, rfl⟩
  dsimp only at aligned content ⊢
  have last : ([] : List Level).isEmpty = true ∨ true = true ∧ (pte ||| flags) &&& pgPseMask ≠ 0 := Or.inl rfl
  rw [if_pos last]
  exact meets_pure rfl ⟨rfl, aligned, content, rfl, rights_step deeper (flags_idem pte), rfl, rfl,
    Or.inl rfl, clear⟩

theorem clear_with_pse (clear : flags &&& rsvd = 0) : flags &&& (rsvd ||| pgPseMask) = 0 := by
  rw [and_or_distrib_left, clear]
  decide

theorem middle_levels_compute (faithful : Faithful h p) (clear : flags &&& rsvd = 0)
    (same_table : pml5e &&& pgAddressMask = table) (rights : ptep &&& ptepStart = ptep' &&& ptepStart) :
    Computes m (middleLevels mmu h addr pml5e ptep rsvd)
      (descend mmu (p (flat m)) (flat m) addr rsvd (⟨39, false⟩ :: ⟨30, true⟩ :: directory) table ptep')
      LeafRead := by
  subst same_table
  unfold middleLevels
  rw [descend]
  apply meets_bind same_trans (read_entry_computes faithful (entry_addr_aligned (frame_aligned)) (clear_with_pse clear))
  rintro ⟨pml4eAddr, pml4e⟩ ⟨a, e⟩ t same ⟨rfl, aligned, content, rfl⟩
  have inner : ¬ ((⟨30, true⟩ :: directory : List Level).isEmpty = true ∨
      false = true ∧ (pml4e ||| flags) &&& pgPseMask ≠ 0) := by simp
  dsimp only at aligned content ⊢
  rw [if_neg inner]
  apply meets_step same_trans (mark_accessed aligned content)
  rintro marked u same' ⟨_, entry⟩
  have frame : (pml4e ||| flags) &&& pgAddressMask = marked &&& pgAddressMask := by
    rw [← entry, masked_entry (by decide)]
  have rights4 := rights_step rights (entry.trans (flags_idem pml4e))
  rw [same, same', descend, frame]
  apply meets_bind same_trans (read_entry_computes faithful (entry_addr_aligned (frame_aligned)) clear)
  rintro ⟨pdpeAddr, pdpe⟩ ⟨a, e⟩ v same'' ⟨rfl, aligned, content, rfl⟩
  have rights3 := rights_step rights4 (flags_idem pdpe)
  dsimp only at aligned content ⊢
  apply meets_step same_trans (mark_accessed aligned content)
  rintro marked3 w same''' ⟨content, entry3⟩
  apply meets_ite
  · rw [masked_entry (by decide), ← masked_entry (e := marked3) (by decide), entry3, masked_entry (by decide)]
    simp [directory]
  · intro _
    exact meets_pure rfl ⟨rfl, aligned, content, entry3.symm, rights3, rfl, rfl, Or.inr (Or.inr rfl), clear⟩
  intro _
  rw [same'', same''']
  apply lower_levels_compute faithful clear _ rights3
  rw [← entry3, masked_entry (by decide)]

theorem rsvd_clear (mmu : Mmu) (mode : PgMode) : flags &&& rsvdMask mmu mode = 0 := by
  have frame : flags &&& pgAddressMask = 0 := by decide
  have nx : flags &&& (if mode.nxe then 0 else pgNxMask) = 0 := by cases mode.nxe <;> decide
  rw [rsvdMask, and_or_distrib_left, ← BitVec.and_assoc, frame, nx]
  simp

theorem top_table_computes (faithful : Faithful h p) (five : mode.la57 = true) :
    Computes m (topTable mmu h addr cr3 mode)
      (entryOf (p (flat m)) (flat m) (entryAddr mmu (cr3 &&& ~~~0xfff) addr 48) (rsvdMask mmu mode ||| pgPseMask))
      fun r b _ => r.1 &&& pgAddressMask = b.2 &&& pgAddressMask ∧
        r.2 &&& ptepStart = (ptepStart &&& (b.2 ^^^ pgNxMask)) &&& ptepStart := by
  unfold topTable
  rw [if_pos five, ← bind_pure (entryOf _ _ _ _)]
  apply meets_bind same_trans (read_entry_computes faithful (entry_addr_aligned (masked_aligned cr3 (by decide)))
      (clear_with_pse (rsvd_clear mmu mode)))
  rintro ⟨pml5eAddr, pml5e⟩ ⟨a, e⟩ t _ ⟨rfl, aligned, content, rfl⟩
  apply meets_step same_trans (mark_accessed aligned content)
  rintro marked u _ ⟨_, entry⟩
  refine meets_pure rfl ⟨?_, ?_⟩
  · dsimp only
    rw [masked_entry (by decide), ← masked_entry (e := marked) (by decide), entry, masked_entry (by decide)]
  have whole : (allOnes 64) &&& ptepStart = ptepStart &&& ptepStart := by decide
  have rights := rights_step whole (entry.trans (flags_idem pml5e))
  rw [allOnes_and] at rights
  exact rights

theorem long_levels_compute (faithful : Faithful h p) (long : mode.lma = true) :
    Computes m (longLevels mmu h addr cr3 mode) (leafOf mmu (p (flat m)) (flat m) addr cr3 mode) LeafRead := by
  have clear := rsvd_clear mmu mode
  unfold longLevels leafOf
  rw [if_pos long]
  cases five : mode.la57 with
  | false =>
    unfold topTable
    simp only [five, Bool.false_eq_true, ↓reduceIte]
    exact middle_levels_compute faithful clear rfl rfl
  | true =>
    simp only [↓reduceIte]
    rw [descend]
    apply meets_bind same_trans (top_table_computes faithful five)
    rintro ⟨pml5e, ptep⟩ ⟨a, e⟩ t same ⟨frame, rights⟩
    have inner : ¬ ((⟨39, false⟩ :: ⟨30, true⟩ :: directory : List Level).isEmpty = true ∨
        false = true ∧ e &&& pgPseMask ≠ 0) := by simp
    dsimp only at frame rights ⊢
    rw [if_neg inner, same]
    exact middle_levels_compute faithful clear frame rights

theorem pae_levels_compute (faithful : Faithful h p) (short : mode.lma = false) :
    Computes m (paeLevels mmu h addr cr3 mode) (leafOf mmu (p (flat m)) (flat m) addr cr3 mode) LeafRead := by
  have clear : flags &&& (rsvdMask mmu mode ||| pgHiUserMask) = 0 := by
    rw [and_or_distrib_left, rsvd_clear mmu mode]
    decide
  have clear_nx : flags &&& (rsvdMask mmu mode ||| pgHiUserMask ||| pgNxMask) = 0 := by
    rw [and_or_distrib_left, clear]
    decide
  have aligned : (pdpteAddr mmu cr3 addr).toNat % 8 = 0 := by
    have base : (cr3 &&& ~~~(0x1f : BitVec 64)).toNat % 8 = 0 := masked_aligned cr3 (by decide)
    have index : ((addr >>> 27) &&& 0x18).toNat % 8 = 0 := masked_aligned _ (by decide)
    rw [pdpteAddr, BitVec.and_comm]
    apply masked_aligned
    rw [toNat_add]
    omega
  unfold paeLevels leafOf
  rw [if_neg (by simp [short])]
  apply meets_bind same_trans (read_entry_computes faithful aligned clear_nx)
  rintro ⟨a, pdpe⟩ ⟨a', e⟩ t same ⟨_, _, _, rfl⟩
  dsimp only
  rw [same]
  apply lower_levels_compute faithful clear _ rfl
  rw [masked_entry (by decide)]

theorem find_leaf_computes (faithful : Faithful h p) (pae : mode.pae = true) :
    Computes m (findLeaf mmu h addr cr3 mode) (leafOf mmu (p (flat m)) (flat m) addr cr3 mode) LeafRead := by
  unfold findLeaf
  rw [if_pos pae]
  cases long : mode.lma with
  | true => exact long_levels_compute faithful long
  | false => exact pae_levels_compute faithful long

theorem size_rsvd_clear (clear : flags &&& leaf.rsvd = 0) : flags &&& sizeRsvd leaf = 0 := by
  have frame : flags &&& pgAddressMask = 0 := by decide
  unfold sizeRsvd
  split
  · exact clear
  rw [and_or_distrib_left, clear, BitVec.and_comm (pageMask leaf.pageBits), ← BitVec.and_assoc,
    ← BitVec.and_assoc, frame]
  simp

theorem part_of_rights (rights : q &&& ptepStart = q' &&& ptepStart) (part : ptepStart &&& mask = mask) :
    q &&& mask = q' &&& mask := by
  rw [← part, ← BitVec.and_assoc, rights, BitVec.and_assoc]

theorem check_protect_congr {idx : MmuIdx} {access : AccessType}
    (rights : ptep &&& ptepStart = ptep' &&& ptepStart) (keys : pte &&& pgPkruMask = pte' &&& pgPkruMask) :
    checkProtect mmu mode idx access ptep pte = checkProtect mmu mode idx access ptep' pte' := by
  have user : ptep &&& pgUserMask = ptep' &&& pgUserMask := part_of_rights rights (by decide)
  have rw_ : ptep &&& pgRwMask = ptep' &&& pgRwMask := part_of_rights rights (by decide)
  have nx : ptep &&& pgNxMask = ptep' &&& pgNxMask := part_of_rights rights (by decide)
  unfold checkProtect keyProt pageProt pkrProt
  rw [user, rw_, nx, keys]

theorem mark_page {leaf : Leaf} (aligned : leaf.addr.toNat % 8 = 0) (content : ldq m leaf.addr = leaf.pte) :
    ∃ e t, markPage access leaf m = .ok e t ∧ Same m t ∧ e ||| flags = leaf.pte ||| flags := by
  unfold markPage
  dsimp only
  by_cases marks : leaf.pte &&& pgAccessedMask = 0 ∨ access = .store ∧ leaf.pte &&& pgDirtyMask = 0
  · rw [if_pos marks]
    have only : pgAccessedMask ||| (if access = .store ∧ leaf.pte &&& pgDirtyMask = 0 then pgDirtyMask else 0) |||
        flags = flags := by
      split <;> decide
    rw [BitVec.or_assoc]
    refine ⟨_, _, rfl, same_marked aligned content only, ?_⟩
    rw [BitVec.or_assoc, only]
  · rw [if_neg marks]
    exact ⟨leaf.pte, m, rfl, rfl, rfl⟩

theorem in_page_congr {e : BitVec 64} (entry : e ||| flags = e' ||| flags) :
    inPage mmu bits e addr = inPage mmu bits e' addr := by
  have frame : flags &&& pgAddressMask = 0 := by decide
  have clear : flags &&& (mmu.a20Mask &&& (pgAddressMask &&& ~~~(pageMask bits))) = 0 := by
    rw [BitVec.and_comm mmu.a20Mask, ← BitVec.and_assoc, ← BitVec.and_assoc, frame]
    simp
  have same : e &&& (mmu.a20Mask &&& (pgAddressMask &&& ~~~(pageMask bits))) =
      e' &&& (mmu.a20Mask &&& (pgAddressMask &&& ~~~(pageMask bits))) := by
    rw [← masked_entry clear, entry, masked_entry clear]
  unfold inPage
  rw [BitVec.and_assoc, BitVec.and_assoc, same, BitVec.and_assoc, BitVec.and_assoc]

theorem in_page_or : inPage mmu bits pte addr =
      (pte &&& mmu.a20Mask &&& pgAddressMask &&& ~~~(pageMask bits)) ||| (addr &&& pageMask bits) := by
  apply add_eq_or_of_and_eq_zero
  apply eq_of_getLsbD_eq
  intro i bound
  simp only [getLsbD_and, getLsbD_not, getLsbD_zero]
  grind

theorem page_mask_bit (bound : i < 64) (inside : i < bits) : (pageMask bits).getLsbD i = true := by
  rw [pageMask, getLsbD_ofNat, Nat.testBit_two_pow_sub_one]
  simp [bound, inside]

theorem on_page_bit (bound : i < 64) : (onPage x a).getLsbD i = if i < 12 then a.getLsbD i else x.getLsbD i := by
  have table : ∀ k : Fin 64, (0xfff : BitVec 64).getLsbD k.val = decide (k.val < 12) := by decide
  have offset : (0xfff : BitVec 64).getLsbD i = decide (i < 12) := table ⟨i, bound⟩
  simp only [onPage, getLsbD_or, getLsbD_and, getLsbD_not, offset]
  by_cases low : i < 12 <;> simp [low, bound]

theorem on_page_same (x a : BitVec 64) : onPage x a >>> 12 = x >>> 12 := by
  apply eq_of_getLsbD_eq
  intro i bound
  rw [getLsbD_ushiftRight, getLsbD_ushiftRight]
  by_cases inside : 12 + i < 64
  · rw [on_page_bit inside, if_neg (by omega)]
  · rw [getLsbD_of_ge _ _ (by omega), getLsbD_of_ge _ _ (by omega)]

theorem on_page_value (x a : BitVec 64) : (onPage x a).toNat = x.toNat / 4096 * 4096 + a.toNat % 4096 := by
  have upper := congrArg BitVec.toNat (on_page_same x a)
  simp only [toNat_ushiftRight, Nat.shiftRight_eq_div_pow] at upper
  have lower : (onPage x a).toNat % 2 ^ 12 = a.toNat % 2 ^ 12 := by
    rw [onPage, toNat_or, Nat.or_mod_two_pow, toNat_and, toNat_and, Nat.and_mod_two_pow,
      Nat.and_mod_two_pow, show (~~~(0xfff : BitVec 64)).toNat % 2 ^ 12 = 0 by decide, Nat.and_zero, Nat.zero_or,
      show (0xfff : BitVec 64).toNat % 2 ^ 12 = 2 ^ 12 - 1 by decide, Nat.and_two_pow_sub_one_eq_mod, Nat.mod_mod]
  omega

theorem on_page_add {a : BitVec 64} (same : (a + d) >>> 12 = a >>> 12) : onPage x (a + d) = onPage x a + d := by
  have upper := congrArg BitVec.toNat same
  simp only [toNat_ushiftRight, Nat.shiftRight_eq_div_pow, toNat_add] at upper
  apply eq_of_toNat_eq
  rw [toNat_add, on_page_value, on_page_value, toNat_add]
  omega

theorem on_page_moved : onPage x (onPage y a) = onPage x a := by
  apply eq_of_getLsbD_eq
  intro i bound
  rw [on_page_bit bound, on_page_bit bound, on_page_bit bound]
  split <;> rfl

theorem page_bit {a b : BitVec 64} (same : a >>> 12 = b >>> 12) (high : ¬ i < 12) : a.getLsbD i = b.getLsbD i := by
  have upper := congrArg (fun w : BitVec 64 => w.getLsbD (i - 12)) same
  have index : 12 + (i - 12) = i := by omega
  simp only [getLsbD_ushiftRight, index] at upper
  exact upper

theorem on_page_self {a b : BitVec 64} (same : a >>> 12 = b >>> 12) : onPage b a = a := by
  apply eq_of_getLsbD_eq
  intro i bound
  rw [on_page_bit bound]
  split
  · rfl
  · rename_i high
    exact (page_bit same high).symm

theorem in_page_moved {addr other : BitVec 64} (size : 12 ≤ bits) (same : other >>> 12 = addr >>> 12) :
    inPage mmu bits pte other = onPage (inPage mmu bits pte addr) other := by
  apply eq_of_getLsbD_eq
  intro i bound
  rw [on_page_bit bound, in_page_or, in_page_or]
  simp only [getLsbD_and, getLsbD_or, getLsbD_not]
  split
  · rename_i low
    have inside : (pageMask bits).getLsbD i = true := page_mask_bit bound (by omega)
    rw [inside]
    simp
  · rename_i high
    rw [page_bit same high]

theorem in_page_offset {addr : BitVec 64} (size : bits = 12 ∨ bits = 21 ∨ bits = 30) :
    (inPage mmu bits pte addr).toNat % 4096 = addr.toNat % 4096 := by
  have frame : (pte &&& mmu.a20Mask &&& pgAddressMask &&& ~~~(pageMask bits)).toNat % 2 ^ 12 = 0 := by
    rw [BitVec.and_comm, ← BitVec.and_assoc, toNat_and, Nat.and_mod_two_pow]
    rw [show pgAddressMask.toNat % 2 ^ 12 = 0 by decide, Nat.and_zero]
  have offset : (addr &&& pageMask bits).toNat % 2 ^ 12 = addr.toNat % 2 ^ 12 := by
    rw [toNat_and, Nat.and_mod_two_pow]
    have mask : (pageMask bits).toNat % 2 ^ 12 = 2 ^ 12 - 1 := by
      rcases size with rfl | rfl | rfl <;> decide
    rw [mask, Nat.and_two_pow_sub_one_eq_mod, Nat.mod_mod]
  rw [inPage, toNat_add]
  omega

theorem access_page_computes (faithful : Faithful h p) {addr : BitVec 64} {mode : PgMode} {leaf found : Leaf}
    (read : LeafRead leaf found m) :
    Computes m (accessPage mmu h addr access idx mode leaf) (pageOf mmu (p (flat m)) addr access idx mode found)
      fun t x _ => t.xlat = x ∧ x.toNat % 4096 = addr.toNat % 4096 := by
  have reserved : found.pte &&& sizeRsvd found = leaf.pte &&& sizeRsvd leaf := by
    have same : sizeRsvd found = sizeRsvd leaf := by rw [sizeRsvd, sizeRsvd, read.pageBits, read.rsvd]
    rw [same, read.pte, masked_entry (size_rsvd_clear read.clear)]
  have protect : checkProtect mmu mode idx access (found.ptep ^^^ pgNxMask) found.pte =
      checkProtect mmu mode idx access (leaf.ptep ^^^ pgNxMask) leaf.pte := by
    apply check_protect_congr
    · exact (rights_flip read.rights).symm
    · rw [read.pte, masked_entry (by decide)]
  unfold accessPage pageOf
  apply fault_if_computes (by rw [reserved])
  rw [protect]
  cases checkProtect mmu mode idx access (leaf.ptep ^^^ pgNxMask) leaf.pte with
  | error stop => exact ⟨rfl, fun _ => rfl⟩
  | ok prot =>
    apply meets_step same_trans (mark_page read.aligned read.content)
    intro marked t same entry
    have target : inPage mmu found.pageBits found.pte addr = inPage mmu leaf.pageBits marked addr := by
      rw [← read.pageBits]
      apply in_page_congr
      rw [entry, read.pte, ← flags_idem]
    change Computes t _ (p (flat m) (inPage mmu found.pageBits found.pte addr) access true) _
    rw [same, target, ← bind_pure (p _ _ _ _)]
    apply meets_bind same_trans (faithful _ _ _ t)
    rintro ⟨xlat, next⟩ x u _ ⟨rfl, offset⟩
    exact meets_pure rfl ⟨rfl, offset.trans (in_page_offset read.size)⟩

theorem mmu_translate_computes (faithful : Faithful h p) (pae : mode.pae = true) :
    Computes m (mmuTranslate mmu h addr cr3 access idx mode)
      (mapped mmu (p (flat m)) (flat m) addr cr3 access idx mode)
      fun t x _ => t.xlat = x ∧ x.toNat % 4096 = addr.toNat % 4096 := by
  have body : Computes m (do
        let leaf ← findLeaf mmu h addr cr3 mode
        accessPage mmu h addr access idx mode leaf)
      (leafOf mmu (p (flat m)) (flat m) addr cr3 mode >>= pageOf mmu (p (flat m)) addr access idx mode)
      fun t x _ => t.xlat = x ∧ x.toNat % 4096 = addr.toNat % 4096 := by
    apply meets_bind same_trans (find_leaf_computes faithful pae)
    intro leaf found t same read
    rw [same]
    exact access_page_computes faithful read
  apply meets_adapt _ body
  intro stop calm
  cases stop with
  | fault code => trivial
  | vmexit info1 info2 => exact calm
  | exception e => exact calm

end Walks

/-! Nested translation. -/

def direct : Hphys := fun gpa _ _ => .ok gpa

def nptFault (gpa : BitVec 64) (guest : Bool) : Stop → Stop
  | .fault code => .vmexit (code.setWidth 64 ||| nptexit guest) gpa
  | stop => stop

def nested (mmu : Mmu) (tables : Memory) : Hphys := fun gpa access guest =>
  if mmu.npt then
    (mapped mmu direct tables gpa mmu.nestedCr3 access .user mmu.nestedPgMode).mapError (nptFault gpa guest)
  else .ok gpa

theorem direct_faithful : Faithful noHphys fun _ => direct :=
  fun _ _ _ _ => meets_pure rfl ⟨rfl, rfl⟩

theorem nested_faithful (pae : mmu.npt = true → mmu.nestedPgMode.pae = true) :
    Faithful (getHphys mmu) (nested mmu) := by
  intro gpa access guest m
  unfold getHphys nested
  cases npt : mmu.npt with
  | false => exact meets_pure rfl ⟨rfl, rfl⟩
  | true =>
    have walk : Computes m (mmuTranslate mmu noHphys gpa mmu.nestedCr3 access .user mmu.nestedPgMode)
        (mapped mmu direct (flat m) gpa mmu.nestedCr3 access .user mmu.nestedPgMode)
        fun t x _ => t.xlat = x ∧ x.toNat % 4096 = gpa.toNat % 4096 :=
      mmu_translate_computes direct_faithful (pae npt)
    simp only [↓reduceIte]
    unfold Computes Meets at walk ⊢
    dsimp only
    cases run : mmuTranslate mmu noHphys gpa mmu.nestedCr3 access .user mmu.nestedPgMode m with
    | ok t m' =>
      rw [run] at walk
      obtain ⟨same, x, found, rfl, offset⟩ := walk
      rw [found]
      exact ⟨same, _, rfl, rfl, offset⟩
    | error stop m' =>
      rw [run] at walk
      obtain ⟨failed, same⟩ := walk
      rw [failed]
      cases stop with
      | fault code => exact ⟨rfl, False.elim⟩
      | vmexit info1 info2 => exact ⟨rfl, same⟩
      | exception e => exact ⟨rfl, same⟩

/-! Pages. -/

def Milder (access other : AccessType) : Prop := access = other ∨ access = .load ∧ other = .store

/-- Translation by pages of 4K: what is known for one address of a page and an access, is
    known for the whole page and every milder access. -/
def PageWise (p : Hphys) : Prop :=
  ∀ ⦃gpa other : BitVec 64⦄ ⦃access access' : AccessType⦄ ⦃guest : Bool⦄ ⦃x : BitVec 64⦄,
    other >>> 12 = gpa >>> 12 → Milder access' access → p gpa access guest = .ok x →
      p other access' guest = .ok (onPage x other)

theorem index_moved {addr other : BitVec 64} (size : 12 ≤ shift) (same : other >>> 12 = addr >>> 12) :
    other >>> shift = addr >>> shift := by
  have split : shift = 12 + (shift - 12) := by omega
  rw [split, shiftRight_add, shiftRight_add, same]

section Pages

variable {p : Hphys} {tables : Memory} {addr other : BitVec 64}

theorem descend_moved {rsvd : BitVec 64} (same : other >>> 12 = addr >>> 12) (levels : List Level)
    (sizes : ∀ level ∈ levels, 12 ≤ level.shift) (table ptep : BitVec 64) :
    descend mmu p tables other rsvd levels table ptep = descend mmu p tables addr rsvd levels table ptep := by
  induction levels generalizing table ptep with
  | nil => rfl
  | cons level rest ih =>
    have index : entryAddr mmu table other level.shift = entryAddr mmu table addr level.shift := by
      rw [entryAddr, entryAddr, index_moved (sizes level (.head _)) same]
    have deeper := ih fun l member => sizes l (.tail _ member)
    simp only [descend, index, deeper]

theorem descend_size (sizes : ∀ level ∈ levels, 12 ≤ level.shift)
    (found : descend mmu p tables addr rsvd levels table ptep = .ok leaf) : 12 ≤ leaf.pageBits := by
  induction levels generalizing table ptep with
  | nil => cases found
  | cons level rest ih =>
    rw [descend] at found
    cases read : entryOf p tables (entryAddr mmu table addr level.shift)
        (if level.mayMap then rsvd else rsvd ||| pgPseMask) with
    | error stop =>
      rw [read] at found
      cases found
    | ok entry =>
      rw [read] at found
      dsimp only [bind, Except.bind] at found
      split at found
      · cases found
        exact sizes level (.head _)
      · exact ih (fun l member => sizes l (.tail _ member)) found

theorem leaf_moved {cr3 : BitVec 64} {mode : PgMode} (same : other >>> 12 = addr >>> 12) :
    leafOf mmu p tables other cr3 mode = leafOf mmu p tables addr cr3 mode := by
  unfold leafOf
  split
  · split
    · exact descend_moved same _ (by simp [directory]) _ _
    · exact descend_moved same _ (by simp [directory]) _ _
  have pointers : pdpteAddr mmu cr3 other = pdpteAddr mmu cr3 addr := by
    rw [pdpteAddr, pdpteAddr, index_moved (by omega) same]
  rw [pointers]
  dsimp only
  congr 1
  funext entry
  exact descend_moved same _ (by simp [directory]) _ _

theorem leaf_size (found : leafOf mmu p tables addr cr3 mode = .ok leaf) : 12 ≤ leaf.pageBits := by
  unfold leafOf at found
  split at found
  · split at found
    · exact descend_size (by simp [directory]) found
    · exact descend_size (by simp [directory]) found
  dsimp only [bind, Except.bind] at found
  split at found
  · cases found
  · exact descend_size (by simp [directory]) found

theorem pkr_prot_reads (writes : (pkrProt mode idx pkr pte).write = true) :
    (pkrProt mode idx pkr pte).read = true := by
  unfold pkrProt at writes ⊢
  dsimp only at writes ⊢
  split at writes
  · cases writes
  rename_i enabled
  rw [if_neg enabled]
  split <;> rfl

theorem key_prot_reads (writes : (keyProt mmu mode idx ptep pte).write = true) :
    (keyProt mmu mode idx ptep pte).read = true := by
  unfold keyProt at writes ⊢
  generalize (if ptep &&& pgUserMask ≠ 0 then (if mode.pke then mmu.pkru else 0)
    else (if mode.pks then mmu.pkrs else 0)) = pkr at writes ⊢
  by_cases unused : pkr = 0
  · rw [if_pos unused]
    rfl
  · rw [if_neg unused] at writes ⊢
    exact pkr_prot_reads writes

theorem page_prot_reads (writes : (pageProt mode idx ptep).write = true) : (pageProt mode idx ptep).read = true := by
  unfold pageProt at writes ⊢
  exact (Bool.and_eq_true_iff.mp writes).1

theorem check_protect_milder (milder : Milder access' access)
    (allowed : checkProtect mmu mode idx access ptep pte = .ok prot) :
    checkProtect mmu mode idx access' ptep pte = .ok prot := by
  rcases milder with rfl | ⟨rfl, rfl⟩
  · exact allowed
  unfold checkProtect at allowed ⊢
  split at allowed
  · cases allowed
  rename_i visible
  rw [if_neg visible]
  dsimp only at allowed ⊢
  split at allowed
  · cases allowed
  rename_i keys
  split at allowed
  · cases allowed
  rename_i both
  have key_write : (keyProt mmu mode idx ptep pte).write = true := Bool.of_not_eq_false keys
  have page_write : (pageProt mode idx ptep).write = true :=
    (Bool.and_eq_true_iff.mp (Bool.of_not_eq_false both)).1
  have key_read : (keyProt mmu mode idx ptep pte).allows .load = true := key_prot_reads key_write
  have both_read : ((pageProt mode idx ptep).and (keyProt mmu mode idx ptep pte)).allows .load = true :=
    Bool.and_eq_true_iff.mpr ⟨page_prot_reads page_write, key_read⟩
  rw [if_neg (by rw [key_read]; decide), if_neg (by rw [both_read]; decide)]
  exact allowed

theorem page_moved (pagewise : PageWise p) {access' : AccessType} {leaf : Leaf}
    (same : other >>> 12 = addr >>> 12) (milder : Milder access' access) (size : 12 ≤ leaf.pageBits)
    (found : pageOf mmu p addr access idx mode leaf = .ok x) :
    pageOf mmu p other access' idx mode leaf = .ok (onPage x other) := by
  unfold pageOf at found ⊢
  split at found
  · cases found
  rename_i whole
  rw [if_neg whole]
  cases rights : checkProtect mmu mode idx access (leaf.ptep ^^^ pgNxMask) leaf.pte with
  | error stop =>
    rw [rights] at found
    cases found
  | ok prot =>
    rw [rights] at found
    rw [check_protect_milder milder rights]
    have moved : inPage mmu leaf.pageBits leaf.pte other = onPage (inPage mmu leaf.pageBits leaf.pte addr) other :=
      in_page_moved size same
    have near : inPage mmu leaf.pageBits leaf.pte other >>> 12 = inPage mmu leaf.pageBits leaf.pte addr >>> 12 := by
      rw [moved]
      exact on_page_same _ _
    have there := pagewise near milder found
    rw [moved, on_page_moved, ← moved] at there
    exact there

theorem mapped_moved (pagewise : PageWise p) (same : other >>> 12 = addr >>> 12)
    (milder : Milder access' access) (found : mapped mmu p tables addr cr3 access idx mode = .ok x) :
    mapped mmu p tables other cr3 access' idx mode = .ok (onPage x other) := by
  unfold mapped at found ⊢
  rw [leaf_moved same]
  cases walked : leafOf mmu p tables addr cr3 mode with
  | error stop =>
    rw [walked] at found
    cases found
  | ok leaf =>
    rw [walked] at found
    change (pageOf mmu p addr access idx mode leaf).mapError _ = .ok x at found
    change (pageOf mmu p other access' idx mode leaf).mapError _ = .ok (onPage x other)
    cases page : pageOf mmu p addr access idx mode leaf with
    | error stop =>
      rw [page] at found
      cases found
    | ok y =>
      rw [page] at found
      cases found
      rw [page_moved pagewise same milder (leaf_size walked) page]
      rfl

end Pages

theorem direct_pagewise : PageWise direct := by
  intro gpa other access access' guest x same _ found
  cases found
  rw [on_page_self same]
  rfl

theorem nested_pagewise : PageWise (nested mmu tables) := by
  intro gpa other access access' guest x same milder found
  unfold nested at found ⊢
  cases npt : mmu.npt with
  | false =>
    rw [npt] at found
    have there : direct other access' guest = .ok (onPage x other) := direct_pagewise same milder found
    exact there
  | true =>
    simp only [npt, ↓reduceIte] at found ⊢
    cases walked : mapped mmu direct tables gpa mmu.nestedCr3 access .user mmu.nestedPgMode with
    | error stop =>
      rw [walked] at found
      cases found
    | ok y =>
      rw [walked] at found
      cases found
      rw [mapped_moved direct_pagewise same milder walked]
      rfl

/-! Ordinary accesses and `get_hphys2`. -/

/-- Paging with 64-bit entries, as in 64-bit mode. -/
structure Paged (mmu : Mmu) : Prop where
  paging : mmu.cr0 &&& cr0PgMask ≠ 0
  pae : (getPgMode mmu).pae = true
  nested_pae : mmu.npt = true → mmu.nestedPgMode.pae = true

def GoesTo (mmu : Mmu) (m : Memory) (access : AccessType) (idx : MmuIdx) (va pa : BitVec 64) : Prop :=
  ∃ t, handleMmuFault mmu va access idx m = .ok pa t

theorem on_page_of_offset (offset : x.toNat % 4096 = va.toNat % 4096) : onPage x va = x := by
  apply eq_of_getLsbD_eq
  intro i bound
  rw [on_page_bit bound]
  split
  · rename_i low
    have digits : (x.toNat % 2 ^ 12).testBit i = (va.toNat % 2 ^ 12).testBit i :=
      congrArg (fun n : Nat => n.testBit i) offset
    rw [Nat.testBit_mod_two_pow, Nat.testBit_mod_two_pow] at digits
    simp only [low, decide_true, Bool.true_and] at digits
    exact digits.symm
  · rfl

theorem canonical_moved {va other : BitVec 64} (same : other >>> 12 = va >>> 12) :
    canonical mode other = canonical mode va := by
  have shifted : ∀ n, 12 ≤ n → other.sshiftRight n = va.sshiftRight n := by
    intro n size
    apply eq_of_getLsbD_eq
    intro i bound
    rw [getLsbD_sshiftRight, getLsbD_sshiftRight, msb_eq_getLsbD_last,
      msb_eq_getLsbD_last, page_bit same (by omega), page_bit same (by omega)]
  unfold canonical
  rw [shifted _ (by split <;> omega)]

section Accesses

variable {mmu : Mmu} {m t : Memory} {access : AccessType} {idx : MmuIdx} {va pa : BitVec 64}

variable (m access idx va) in
theorem walk_computes (paged : Paged mmu) :
    Computes m (mmuTranslate mmu (getHphys mmu) va mmu.cr3 access idx (getPgMode mmu))
      (mapped mmu (nested mmu (flat m)) (flat m) va mmu.cr3 access idx (getPgMode mmu))
      fun t x _ => t.xlat = x ∧ x.toNat % 4096 = va.toNat % 4096 :=
  mmu_translate_computes (nested_faithful paged.nested_pae) paged.pae

theorem goes_to_iff (paged : Paged mmu) : GoesTo mmu m access idx va pa ↔
    ((getPgMode mmu).lma = true → canonical (getPgMode mmu) va = true) ∧
      mapped mmu (nested mmu (flat m)) (flat m) va mmu.cr3 access idx (getPgMode mmu) = .ok pa := by
  have walk := walk_computes m access idx va paged
  unfold GoesTo handleMmuFault
  rw [if_neg paged.paging]
  by_cases odd : (getPgMode mmu).lma = true ∧ canonical (getPgMode mmu) va = false
  · rw [if_pos odd]
    constructor
    · rintro ⟨_, run⟩
      cases run
    rintro ⟨extended, _⟩
    rw [extended odd.1] at odd
    cases odd.2
  rw [if_neg odd]
  have extended : (getPgMode mmu).lma = true → canonical (getPgMode mmu) va = true := by
    intro long
    exact Bool.of_not_eq_false fun wrong => odd ⟨long, wrong⟩
  unfold Computes Meets at walk
  unfold walkOrFault
  cases run : mmuTranslate mmu (getHphys mmu) va mmu.cr3 access idx (getPgMode mmu) m with
  | ok r m' =>
    rw [run] at walk
    obtain ⟨_, x, found, rfl, offset⟩ := walk
    dsimp only
    rw [found, on_page_of_offset offset]
    constructor
    · rintro ⟨_, ends⟩
      cases ends
      exact ⟨extended, rfl⟩
    rintro ⟨_, ends⟩
    cases ends
    exact ⟨m', rfl⟩
  | error stop m' =>
    rw [run] at walk
    rw [walk.1]
    constructor
    · rintro ⟨_, ends⟩
      cases stop <;> cases ends
    · rintro ⟨_, ends⟩
      cases ends

theorem goes_to_unique (goes : GoesTo mmu m access idx va pa) (goes' : GoesTo mmu m access idx va pa') :
    pa = pa' := by
  obtain ⟨_, run⟩ := goes
  obtain ⟨_, run'⟩ := goes'
  rw [run] at run'
  cases run'
  rfl

section

variable (paged : Paged mmu)
include paged

theorem goes_to_kept (kept : Same m t) (goes : GoesTo mmu m access idx va pa) : GoesTo mmu t access idx va pa := by
  rw [goes_to_iff paged, ← kept]
  exact (goes_to_iff paged).mp goes

theorem goes_to_moved {other : BitVec 64} (same : other >>> 12 = va >>> 12)
    (milder : Milder access' access) (goes : GoesTo mmu m access idx va pa) :
    GoesTo mmu m access' idx other (onPage pa other) := by
  obtain ⟨extended, found⟩ := (goes_to_iff paged).mp goes
  apply (goes_to_iff paged).mpr
  rw [canonical_moved same]
  exact ⟨extended, mapped_moved (nested_pagewise) same milder found⟩

theorem get_hphys2_goes (goes : GoesTo mmu m access .knosmap va pa) :
    ∃ t, getHphys2 mmu junk va access m = .ok pa t ∧ Same m t := by
  have walk := walk_computes m access .knosmap va paged
  rw [((goes_to_iff paged).mp goes).2] at walk
  obtain ⟨r, t, run, same, rfl, _⟩ := meets_ok walk
  refine ⟨t, ?_, same⟩
  rw [getHphys2, run]

theorem get_hphys2_stops (calm : Quiet stop) (run : getHphys2 mmu junk va access m = .error stop t) : Same m t := by
  have walk := walk_computes m access .knosmap va paged
  unfold Computes Meets at walk
  unfold getHphys2 at run
  split at run
  · cases run
  · cases run
  rename_i walked
  cases run
  rw [walked] at walk
  exact walk.2 calm

theorem get_hphys2_keeps (run : getHphys2 mmu junk va access m = .ok pa t) : Same m t := by
  have walk := walk_computes m access .knosmap va paged
  unfold Computes Meets at walk
  unfold getHphys2 at run
  split at run
  · rename_i walked
    cases run
    rw [walked] at walk
    exact walk.1
  · rename_i walked
    cases run
    rw [walked] at walk
    exact walk.2 trivial
  · cases run

/-- Where an intercepted page fault leaves its address. -/
def Control (mmu : Mmu) (a : BitVec 64) : Prop :=
  mmu.interceptPf = true ∧ ∃ k, k < 8 ∧ wordAt (mmu.vmVmcb + exitInfo2Offset) k = a

theorem handle_mmu_fault_stops (calm : Quiet stop)
    (run : handleMmuFault mmu va access idx m = .error stop t) (outside : ¬ Control mmu a) :
    flat t a = flat m a := by
  have walk := walk_computes m access idx va paged
  unfold handleMmuFault at run
  rw [if_neg paged.paging] at run
  split at run
  · cases run
    rfl
  unfold Computes Meets at walk
  unfold walkOrFault at run
  split at run
  · cases run
  · rename_i code m' walked
    cases run
    rw [walked] at walk
    have same : flat m = flat m' := walk.2 trivial
    rw [same]
    split
    · rename_i intercepted
      rw [flat, flat, stq, store_word_outside _ _ _ fun k bound at_a => outside ⟨intercepted, k, bound, at_a⟩]
    · rfl
  · rename_i m' _ walked
    cases run
    rw [walked] at walk
    have same : flat m = flat t := walk.2 calm
    rw [same]

theorem handle_mmu_fault_keeps (run : handleMmuFault mmu va access idx m = .ok pa t) :
    Same m t := by
  have walk := walk_computes m access idx va paged
  unfold handleMmuFault at run
  rw [if_neg paged.paging] at run
  split at run
  · cases run
  unfold Computes Meets at walk
  unfold walkOrFault at run
  split at run
  · rename_i walked
    cases run
    rw [walked] at walk
    exact walk.1
  · cases run
  · cases run

end

end Accesses

end RtosUintrPageWalk
