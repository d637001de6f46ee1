import CompositeRtos.Nimbos.MemorySet
import CompositeRtos.Nimbos.PageTree

/-!
What loading a program does to memory, stage by stage. A stage compares memory with the
memory `before` the load: the tree below the new root only grew, the pages mapped so far
were unused before and are used now, and as long as no mapped page lies under the shared
root entry every frame that was in use before is unchanged, apart from the new root.
-/
namespace RtosNimbosLoadStage
open RtosFrameMemory RtosRadixWalk RtosOrderedMap RtosNimbosFrames RtosNimbosPageTable
open RtosNimbosPageTree RtosNimbosMemorySet

def sharedIndex : Fin 512 := 511

structure Stage (before : Ram) (root : Nat) (ram : Ram) (pt : PageTable) (mapped : VirtAddr → Prop) :
    Prop where
  at_root : pt.rootPaddr = startPaddr root
  tree : Tree ram root
  shrinks : ∀ f, ram.Available f → before.Available f
  walks : ∀ q f, q.length ≤ 3 → walk child before.view root q = some f →
    walk child ram.view root q = some f
  back : ∀ q f, q.length ≤ 3 → walk child ram.view root q = some f →
    walk child before.view root q = some f ∨ before.Available f
  leaves : ∀ q j, q.length = 3 → leaf before root q j ≠ 0 → leaf ram root q j ≠ 0
  canonical : ∀ va, mapped va → Canonical va
  entered : ∀ va, mapped va → leaf before root (upperIndices va) (p1Index va) = 0 ∧
    leaf ram root (upperIndices va) (p1Index va) ≠ 0
  kept : (∀ va, mapped va → p4Index va ≠ sharedIndex) →
    ∀ f, ¬ before.Available f → f ≠ root → SameFrame before.bytes ram.bytes f

def Held (before : Ram) (root : Nat) (ram : Ram) (f : Nat) : Prop :=
  before.Available f ∧ ¬ ram.Available f ∧ ¬ Reached child ram.view root 3 f

def Holds (before : Ram) (root : Nat) (ram ram' : Ram) : Prop :=
  ∀ f, Held before root ram f → Held before root ram' f

theorem holds_refl (before : Ram) (root : Nat) (ram : Ram) : Holds before root ram ram :=
  fun _ h => h

theorem holds_trans (first : Holds before root ram ram₁) (second : Holds before root ram₁ ram₂) :
    Holds before root ram ram₂ := fun f h => second f (first f h)

theorem stage_start (tree : Tree before root) (at_root : pt.rootPaddr = startPaddr root) :
    Stage before root before pt fun _ => False where
  at_root := at_root
  tree := tree
  shrinks := fun _ h => h
  walks := fun _ _ _ h => h
  back := fun _ _ _ h => Or.inl h
  leaves := fun _ _ _ h => h
  canonical := fun _ none_mapped => none_mapped.elim
  entered := fun _ none_mapped => none_mapped.elim
  kept := fun _ f _ _ => same_frame_refl

theorem stage_congr (stage : Stage before root ram pt mapped) (same : ∀ va, mapped' va ↔ mapped va) :
    Stage before root ram pt mapped' := by
  have equal : mapped' = mapped := funext fun va => propext (same va)
  rw [equal]
  exact stage

section Steps

variable {before : Ram} {root : Nat} {ram : Ram}

section

variable (stage : Stage before root ram pt mapped)
include stage

theorem stage_aside (ram' : Ram)
    (same : ∀ f, ¬ ram.Available f → ¬ Held before root ram f → SameFrame ram.bytes ram'.bytes f)
    (shrinks : ∀ f, ram'.Available f → ram.Available f) :
    Stage before root ram' pt mapped ∧ Holds before root ram ram' := by
  have kept : ∀ f, Reached child ram.view root 3 f → SameFrame ram.bytes ram'.bytes f := by
    intro f reached
    exact same f (stage.tree.live f reached).1 fun held => held.2.2 reached
  have walks := fun {q : List (Fin 512)} (len : q.length ≤ 3) => walks_outside kept len
  constructor
  · refine ⟨stage.at_root, ?_, ?_, ?_, ?_, ?_, stage.canonical, ?_, ?_⟩
    · exact tree_outside kept stage.tree fun f reached still => (stage.tree.live f reached).1 (shrinks f still)
    · exact fun f still => stage.shrinks f (shrinks f still)
    · intro q f len reached
      rw [walks len]
      exact stage.walks q f len reached
    · intro q f len reached
      rw [walks len] at reached
      exact stage.back q f len reached
    · intro q j len used
      rw [leaves_outside kept j len]
      exact stage.leaves q j len used
    · intro va inside
      rw [leaves_outside kept _ (upper_length va)]
      exact stage.entered va inside
    · intro below f used other
      apply same_frame_trans (stage.kept below f used other)
      exact same f (fun still => used (stage.shrinks f still)) fun held => used held.1
  · rintro f ⟨free_before, taken, unreached⟩
    refine ⟨free_before, fun still => taken (shrinks f still), ?_⟩
    rintro ⟨q, len, reached⟩
    rw [walks len] at reached
    exact unreached ⟨q, len, reached⟩

theorem stage_take (made : ram.allocZero = some (f, ram')) :
    Stage before root ram' pt mapped ∧ Holds before root ram ram' ∧ Held before root ram' f := by
  have taken := taken_beside stage.tree made
  obtain ⟨stage', holds⟩ := stage_aside stage ram'
    (fun g used _ => taken.elsewhere g fun same => used (same ▸ taken.available)) taken.shrinks
  exact ⟨stage', holds, stage.shrinks f taken.available, taken.used, taken.fresh⟩

theorem stage_copy (held : Held before root ram f) (inside : pgoff + data.length ≤ 4096) :
    Stage before root (ram.copy ((startPaddr f).toNat + pgoff) data) pt mapped ∧
      Holds before root ram (ram.copy ((startPaddr f).toNat + pgoff) data) := by
  apply stage_aside stage (ram.copy ((startPaddr f).toNat + pgoff) data) _ fun g still => still
  intro g _ other
  exact copy_elsewhere ram (Ram.available_small held.1) inside fun same => other (same ▸ held)

theorem stage_map
    (empty_root : ∀ i, i ≠ sharedIndex → before.view root i = 0) (canonical : Canonical va)
    (some_flag : flags ≠ MemFlags.empty) (run : pt.map ram va pa flags = .ok (pt', ram')) :
    Stage before root ram' pt' (fun v => mapped v ∨ v = va) ∧ Holds before root ram ram' := by
  have outcome := map_spec stage.tree stage.at_root va pa flags
  rw [run] at outcome
  cases outcome with
  | entered free grown leaves =>
    have used : Pte.newPage (alignDown pa) flags false ≠ 0 := new_page_used _ some_flag
    have grows : ∀ q j, q.length = 3 → leaf ram root q j ≠ 0 → leaf ram' root q j ≠ 0 := by
      intro q j len nonzero
      rw [leaves q j len]
      split
      · exact used
      · exact nonzero
    constructor
    · refine ⟨grown.kept_root.trans stage.at_root, grown.tree, ?_, ?_, ?_, ?_, ?_, ?_, ?_⟩
      · exact fun f still => stage.shrinks f (grown.shrinks f still)
      · exact fun q f len reached => grown.walks q f len (stage.walks q f len reached)
      · intro q f len reached
        rcases grown.back q f len reached with old | made
        · exact stage.back q f len old
        · exact Or.inr (stage.shrinks f made.2)
      · exact fun q j len nonzero => grows q j len (stage.leaves q j len nonzero)
      · rintro v (earlier | here)
        · exact stage.canonical v earlier
        · rw [here]
          exact canonical
      · rintro v (earlier | here)
        · obtain ⟨zero, nonzero⟩ := stage.entered v earlier
          exact ⟨zero, grows _ _ (upper_length v) nonzero⟩
        subst here
        constructor
        · by_contra nonzero
          exact stage.leaves _ _ (upper_length v) nonzero free
        · rw [leaves _ _ (upper_length v), if_pos ⟨rfl, rfl⟩]
          exact used
      · intro below f busy other
        apply same_frame_trans (stage.kept (fun v inside => below v (Or.inl inside)) f busy other)
        apply grown.kept f (fun still => busy (stage.shrinks f still))
        intro q ahead reached
        have len : q.length ≤ 3 := Nat.le_trans ahead.length_le (Nat.le_of_eq (upper_length va))
        rcases stage.back q f len reached with old | made
        · cases q with
          | nil => exact other (Option.some.inj old).symm
          | cons i rest =>
            have first : i = p4Index va := (List.cons_prefix_cons.mp ahead).1
            have zero : before.view root i = 0 := by
              apply empty_root
              rw [first]
              exact below va (Or.inr rfl)
            rw [walk, zero, child_zero] at old
            cases old
        · exact busy made
    · rintro f ⟨free_before, taken, unreached⟩
      refine ⟨free_before, fun still => taken (grown.shrinks f still), ?_⟩
      rintro ⟨q, len, reached⟩
      rcases grown.back q f len reached with old | made
      · exact unreached ⟨q, len, old⟩
      · exact taken made.2

end

def Framed (before : Ram) (root : Nat) (ram : Ram) (area : MapArea) : Prop :=
  ∃ frames, area.mapper = .framed frames ∧ ∀ e ∈ frames.entries, Held before root ram e.2

def SameArea (area area' : MapArea) : Prop :=
  area'.start = area.start ∧ area'.size = area.size ∧ area'.flags = area.flags

theorem same_area_trans (first : SameArea a b) (second : SameArea b c) : SameArea a c :=
  ⟨second.1.trans first.1, second.2.1.trans first.2.1, second.2.2.trans first.2.2⟩

theorem framed_holds (framed : Framed before root ram area) (holds : Holds before root ram ram') :
    Framed before root ram' area := by
  obtain ⟨frames, shape, held⟩ := framed
  exact ⟨frames, shape, fun e member => holds _ (held e member)⟩

theorem area_map_stage (stage : Stage before root ram pt mapped) (framed : Framed before root ram area)
    (run : area.map ram va = .ok (paddr, area', ram')) :
    Stage before root ram' pt mapped ∧ Holds before root ram ram' ∧ Framed before root ram' area' ∧
      SameArea area area' ∧ ∃ f, paddr = startPaddr f ∧ Held before root ram' f := by
  obtain ⟨frames, shape, held⟩ := framed
  simp only [MapArea.map, shape] at run
  split at run
  · cases run
  split at run
  · rename_i frame found
    cases run
    have member := OrderedMap.lookup_some found
    exact ⟨stage, holds_refl _ _ _, ⟨frames, shape, held⟩, ⟨rfl, rfl, rfl⟩, frame, rfl, held _ member⟩
  split at run
  · cases run
  rename_i frame ram₁ made
  cases run
  obtain ⟨stage', holds, taken⟩ := stage_take stage made
  refine ⟨stage', holds, ⟨_, rfl, ?_⟩, ⟨rfl, rfl, rfl⟩, frame, rfl, taken⟩
  intro e member
  rcases (OrderedMap.mem_insert _ _ _ _).mp member with new | old
  · rw [new]
    exact taken
  · exact holds _ (held e old.1)

theorem write_loop_stage (stage : Stage before root ram pt mapped) (framed : Framed before root ram area)
    (run : area.writeLoop ram start data fuel = .ok (area', ram')) :
    Stage before root ram' pt mapped ∧ Holds before root ram ram' ∧ Framed before root ram' area' ∧
      SameArea area area' := by
  induction fuel generalizing area ram start data with
  | zero =>
    cases run
    exact ⟨stage, holds_refl _ _ _, framed, ⟨rfl, rfl, rfl⟩⟩
  | succ fuel ih =>
    rw [MapArea.writeLoop] at run
    split at run
    · simp only at run
      split at run
      · cases run
      rename_i va _
      split at run
      · cases run
      rename_i paddr area₁ ram₁ taken
      obtain ⟨stage₁, holds₁, framed₁, same₁, f, place, held⟩ := area_map_stage stage framed taken
      subst place
      have room : (start - alignDown start).toNat +
          (data.take (min (4096 - (start - alignDown start).toNat) data.length)).length ≤ 4096 := by
        have rounded := align_down_toNat start
        have gap : (start - alignDown start).toNat < 4096 := by
          rw [BitVec.toNat_sub]
          omega
        rw [List.length_take]
        omega
      obtain ⟨stage₂, holds₂⟩ := stage_copy stage₁ held room
      obtain ⟨stage₃, holds₃, framed₃, same₃⟩ := ih stage₂ (framed_holds framed₁ holds₂) run
      exact ⟨stage₃, holds_trans holds₁ (holds_trans holds₂ holds₃), framed₃, same_area_trans same₁ same₃⟩
    · cases run
      exact ⟨stage, holds_refl _ _ _, framed, ⟨rfl, rfl, rfl⟩⟩

theorem write_data_stage (stage : Stage before root ram pt mapped) (framed : Framed before root ram area)
    (run : area.writeData ram offset data = .ok (area', ram')) :
    area.size > 0 ∧ Stage before root ram' pt mapped ∧ Framed before root ram' area' ∧ SameArea area area' := by
  unfold MapArea.writeData at run
  split at run
  · cases run
  rename_i inside
  split at run
  · cases run
  obtain ⟨stage', _, framed', same⟩ := write_loop_stage stage framed run
  refine ⟨?_, stage', framed', same⟩
  rw [not_not, BitVec.lt_def] at inside
  rw [gt_iff_lt, BitVec.lt_def]
  exact Nat.lt_of_le_of_lt (Nat.zero_le offset.toNat) inside

end Steps

end RtosNimbosLoadStage
