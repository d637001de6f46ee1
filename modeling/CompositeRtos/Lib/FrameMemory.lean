import CompositeRtos.Lib.ByteMemory
import CompositeRtos.Lib.RadixWalk

/-!
Physical memory in frames of 4096 bytes. A frame used as a table holds 512 words of 64
bits. Storing one entry pokes the table view at one place, and what happens to other
frames is not seen in a table.
-/
namespace RtosFrameMemory
open RtosByteMemory RtosRadixWalk

abbrev Bytes := Nat → BitVec 8

instance entry_count : NeZero 512 := ⟨by decide⟩

def entryCells (f : Nat) (i : Fin 512) (k : Nat) : Nat := 4096 * f + 8 * i.val + k

def tableView (mem : Bytes) (f : Nat) (i : Fin 512) : BitVec 64 := loadWord mem (entryCells f i)

def storeEntry (mem : Bytes) (f : Nat) (i : Fin 512) (e : BitVec 64) : Bytes :=
  storeWord mem (entryCells f i) e

def wipe (mem : Bytes) (f : Nat) : Bytes := fun a => if a / 4096 = f then 0 else mem a

def SameFrame (mem mem' : Bytes) (f : Nat) : Prop := ∀ a, a / 4096 = f → mem' a = mem a

theorem entry_cells_inside (f : Nat) (i : Fin 512) (bound : k < 8) : entryCells f i k / 4096 = f := by
  have := i.isLt
  unfold entryCells
  omega

theorem entry_cells_spread : Spread (entryCells f i) := by
  intro j k _ _ same
  unfold entryCells at same
  omega

theorem entry_cells_apart (ne : ¬ (g = f ∧ j = i)) : Apart (entryCells f i) (entryCells g j) := by
  intro k l hk hl same
  have := i.isLt
  have := j.isLt
  apply ne
  rw [Fin.ext_iff]
  unfold entryCells at same
  omega

theorem view_store : tableView (storeEntry mem f i e) = poke (tableView mem) f i e := by
  funext g j
  unfold poke
  split
  · rename_i here
    obtain ⟨same_table, same_index⟩ := here
    subst same_table same_index
    exact load_store_same mem e (entry_cells_spread)
  · rename_i elsewhere
    exact load_store_apart mem e (entry_cells_apart elsewhere)

theorem view_same (same : SameFrame mem mem' f) : tableView mem' f i = tableView mem f i := by
  apply load_word_congr
  intro k bound
  exact same _ (entry_cells_inside f i bound)

theorem same_frame_refl : SameFrame mem mem f := by
  intro a _
  rfl

theorem same_frame_trans (first : SameFrame mem mem' f) (second : SameFrame mem' mem'' f) :
    SameFrame mem mem'' f := by
  intro a inside
  rw [second a inside, first a inside]

theorem store_elsewhere (mem : Bytes) (ne : g ≠ f) (i : Fin 512) (e : BitVec 64) :
    SameFrame mem (storeEntry mem f i e) g := by
  intro a inside
  apply store_word_outside
  intro k bound same
  have := entry_cells_inside f i bound
  rw [same] at this
  omega

theorem wipe_elsewhere (ne : g ≠ f) : SameFrame mem (wipe mem f) g := by
  intro a inside
  have outside : a / 4096 ≠ f := by omega
  simp only [wipe, if_neg outside]

theorem view_wiped : tableView (wipe mem f) f i = 0 := by
  have zero : tableView (wipe mem f) f i = loadWord (fun _ => 0) (entryCells f i) := by
    apply load_word_congr
    intro k bound
    simp only [wipe, if_pos (entry_cells_inside f i bound)]
  rw [zero, loadWord]
  decide

theorem index_value (va : BitVec 64) (shift : Nat) :
    (Fin.ofNat 512 (va >>> shift).toNat).val = va.toNat / 2 ^ shift % 512 := by
  rw [BitVec.toNat_ushiftRight, Nat.shiftRight_eq_div_pow]
  rfl

end RtosFrameMemory
