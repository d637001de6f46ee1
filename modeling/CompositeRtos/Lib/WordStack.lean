import CompositeRtos.Lib.ByteMemory

/-!
A stack of 64-bit words that grows downwards in a byte memory. `below sp a` is the
distance of a byte from the stack pointer; the words pushed below `sp` are found again at
their distances, and bytes at other distances stay as they were.
-/
namespace RtosWordStack
open RtosByteMemory BitVec

abbrev Bytes := BitVec 64 → BitVec 8

def cellsAt (a : BitVec 64) (k : Nat) : BitVec 64 := a + BitVec.ofNat 64 k

def below (sp a : BitVec 64) : Nat := (sp - a).toNat

def under (sp : BitVec 64) (n : Nat) : BitVec 64 := sp - BitVec.ofNat 64 n

def pushAll : List (BitVec 64) → BitVec 64 → Bytes → Bytes
  | [], _, m => m
  | v :: rest, sp, m => pushAll rest (under sp 8) (storeWord m (cellsAt (under sp 8)) v)

/-- The words of a list lie below `top`, the first one on top. -/
def Pushed (m : Bytes) (top : BitVec 64) (words : List (BitVec 64)) : Prop :=
  ∀ (k : Nat) (v : BitVec 64), words[k]? = some v → loadWord m (cellsAt (under top (8 * k + 8))) = v

theorem cells_spread : Spread (cellsAt a) := by
  intro j k hj hk same
  have lanes := congrArg BitVec.toNat ((BitVec.add_right_inj a).mp same)
  simp only [toNat_ofNat] at lanes
  omega

theorem under_under (sp : BitVec 64) (n k : Nat) : under (under sp n) k = under sp (n + k) := by
  apply eq_of_toNat_eq
  simp only [under, toNat_sub, toNat_ofNat]
  omega

theorem under_add (sp : BitVec 64) (inside : k ≤ n) : under sp n + BitVec.ofNat 64 k = under sp (n - k) := by
  apply eq_of_toNat_eq
  have := sp.isLt
  simp only [under, toNat_add, toNat_sub, toNat_ofNat]
  omega

theorem below_cell (sp : BitVec 64) (inside : k < n) (small : n < 2 ^ 64) :
    below sp (cellsAt (under sp n) k) = n - k := by
  have bound := sp.isLt
  simp only [below, cellsAt, under, toNat_sub, toNat_add, toNat_ofNat]
  omega

theorem below_under (far : n ≤ below sp a) : below (under sp n) a = below sp a - n := by
  have := sp.isLt
  have := a.isLt
  simp only [below, under, toNat_sub, toNat_ofNat] at far ⊢
  omega

theorem below_above (small : k < 2 ^ 64) : below sp (cellsAt sp k) = (2 ^ 64 - k) % 2 ^ 64 := by
  have bound := sp.isLt
  simp only [below, cellsAt, toNat_sub, toNat_add, toNat_ofNat]
  omega

theorem store_elsewhere (m : Bytes) (sp v : BitVec 64) (elsewhere : below sp a = 0 ∨ 8 < below sp a) :
    storeWord m (cellsAt (under sp 8)) v a = m a := by
  apply store_word_outside
  intro k bound same
  have distance := below_cell sp (n := 8) bound (by omega)
  rw [same] at distance
  omega

theorem push_all_elsewhere (words : List (BitVec 64)) (sp : BitVec 64) (m : Bytes)
    (small : 8 * words.length < 2 ^ 64) (elsewhere : below sp a = 0 ∨ 8 * words.length < below sp a) :
    pushAll words sp m a = m a := by
  induction words generalizing sp m with
  | nil => rfl
  | cons v rest ih =>
    simp only [List.length_cons] at small elsewhere
    rw [pushAll, ih (under sp 8) _ (by omega), store_elsewhere m sp v (by omega)]
    rcases elsewhere with zero | far
    · right
      have := a.isLt
      simp only [below, under, toNat_sub, toNat_ofNat] at zero ⊢
      omega
    · rw [below_under (by omega)]
      omega

theorem push_all_append : pushAll (first ++ second) sp m =
      pushAll second (under sp (8 * first.length)) (pushAll first sp m) := by
  induction first generalizing sp m with
  | nil => simp [pushAll, under]
  | cons v rest ih =>
    simp only [List.cons_append, pushAll, ih, under_under, List.length_cons]
    rw [show 8 + 8 * rest.length = 8 * (rest.length + 1) by omega]

theorem push_all_pushed (words : List (BitVec 64)) (top : BitVec 64) (m : Bytes)
    (small : 8 * words.length < 2 ^ 64) : Pushed (pushAll words top m) top words := by
  induction words generalizing top m with
  | nil => exact fun k v found => by simp at found
  | cons w rest ih =>
    simp only [List.length_cons] at small
    intro k v found
    cases k with
    | zero =>
      cases found
      have same : loadWord (pushAll (w :: rest) top m) (cellsAt (under top 8)) =
          loadWord (storeWord m (cellsAt (under top 8)) w) (cellsAt (under top 8)) := by
        apply load_word_congr
        intro j bound
        rw [pushAll]
        apply push_all_elsewhere _ _ _ (by omega)
        rw [below_above (by omega)]
        omega
      rw [Nat.mul_zero, Nat.zero_add, same]
      exact load_store_same m w (cells_spread)
    | succ k =>
      have tail := ih (under top 8) (storeWord m (cellsAt (under top 8)) w) (by omega) k v found
      rw [under_under] at tail
      rw [pushAll, show 8 * (k + 1) + 8 = 8 + (8 * k + 8) by omega]
      exact tail

theorem pushed_congr (small : 8 * words.length < 2 ^ 64) (pushed : Pushed m top words)
    (same : ∀ a, 0 < below top a → below top a ≤ 8 * words.length → m' a = m a) : Pushed m' top words := by
  intro k v found
  have inside := (List.getElem?_eq_some_iff.mp found).1
  rw [← pushed k v found]
  apply load_word_congr
  intro j bound
  have distance := below_cell top (n := 8 * k + 8) (k := j) (by omega) (by omega)
  exact same _ (by omega) (by omega)

theorem pushed_under (pushed : Pushed m top words) (more : List (BitVec 64)) (far : 8 * words.length ≤ n)
    (small : n + 8 * more.length < 2 ^ 64) : Pushed (pushAll more (under top n) m) top words := by
  apply pushed_congr (by omega) pushed
  intro a above inside
  apply push_all_elsewhere more _ m (by omega)
  have := top.isLt
  have := a.isLt
  simp only [below, under, toNat_sub, toNat_ofNat] at above inside ⊢
  omega

end RtosWordStack
