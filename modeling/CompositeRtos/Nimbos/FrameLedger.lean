import CompositeRtos.Lib.Ledger
import CompositeRtos.Nimbos.PageTree

/-!
Who has the frames. A step of one owner takes free frames, gives frames back and writes only
to frames it has or takes: to everybody else's frames nothing happens. Page tables and map
areas are described by such effects.
-/
namespace RtosNimbosFrameLedger
open RtosLedger RtosFrameMemory RtosNimbosFrames RtosNimbosPageTable

def pool (ram : Ram) : Pool Nat := ⟨ram.Issued, ram.Available, ram.availableSpace⟩

structure Effect (ram : Ram) (old : Multiset Nat) (ram' : Ram) (new : Multiset Nat) : Prop where
  exchange : Exchange (pool ram) old (pool ram') new
  kept : ∀ f, ram.Issued f → f ∉ old → SameFrame ram.bytes ram'.bytes f

theorem sane_of_holds (owns : Holds (pool ram) items) (member : f ∈ items) : ram.Sane :=
  Ram.sane_of_issued (owns.issued f member)

section Effects

variable {ram ram' ram'' : Ram} {f : Nat}

theorem effect_refl (owns : Holds (pool ram) old) : Effect ram old ram old :=
  ⟨exchange_refl owns, fun f _ _ => same_frame_refl⟩

theorem effect_trans (first : Effect ram old ram' new) (second : Effect ram' new ram'' final) :
    Effect ram old ram'' final := by
  refine ⟨exchange_trans first.exchange second.exchange, ?_⟩
  intro f issued outside
  obtain ⟨issued', outside'⟩ := (first.exchange.others f).mpr ⟨issued, outside⟩
  exact same_frame_trans (first.kept f issued outside) (second.kept f issued' outside')

theorem effect_frame (step : Effect ram old ram' new) (owns : Holds (pool ram) (old + rest)) :
    Effect ram (old + rest) ram' (new + rest) := by
  refine ⟨exchange_frame step.exchange owns, ?_⟩
  intro f issued outside
  exact step.kept f issued fun member => outside (Multiset.mem_add.mpr (Or.inl member))

theorem effect_frame_left (step : Effect ram old ram' new) (owns : Holds (pool ram) (rest + old)) :
    Effect ram (rest + old) ram' (rest + new) := by
  rw [add_comm] at owns
  rw [add_comm rest, add_comm rest]
  exact effect_frame step owns

theorem effect_beside (step : Effect ram old ram' new) (owns : Holds (pool ram) (old + rest)) :
    ∀ f ∈ rest, SameFrame ram.bytes ram'.bytes f ∧ ¬ ram'.Available f := by
  intro f member
  obtain ⟨_, _, apart⟩ := Multiset.nodup_add.mp owns.nodup
  have issued := owns.issued f (Multiset.mem_add.mpr (Or.inr member))
  have outside : f ∉ old := fun inside => Multiset.disjoint_left.mp apart inside member
  obtain ⟨issued', _⟩ := (step.exchange.others f).mpr ⟨issued, outside⟩
  exact ⟨step.kept f issued outside, Ram.issued_unavailable issued'⟩

theorem effect_taken (owns : Holds (pool ram) old) (available : ram.Available f)
    (issued : ∀ u, ram'.Issued u ↔ ram.Issued u ∨ u = f) (shrinks : ∀ u, ram'.Available u → ram.Available u)
    (space : ram.availableSpace = ram'.availableSpace + 1)
    (elsewhere : ∀ g, g ≠ f → SameFrame ram.bytes ram'.bytes g) : Effect ram old ram' (f ::ₘ old) := by
  have unissued : ¬ ram.Issued f := fun h => Ram.issued_unavailable h available
  refine ⟨exchange_take owns available unissued issued shrinks space, ?_⟩
  intro g busy _
  apply elsewhere g
  rintro rfl
  exact unissued busy

theorem effect_alloc (owns : Holds (pool ram) old) (sane : ram.Sane) (made : ram.alloc = some (f, ram')) :
    Effect ram old ram' (f ::ₘ old) := by
  obtain ⟨available, same, others, _⟩ := Ram.alloc_some made
  obtain ⟨issued, space⟩ := Ram.alloc_issued sane made
  apply effect_taken owns available issued (fun u still => ((others u).mp still).1) space
  intro g _
  rw [same]
  exact same_frame_refl

theorem effect_alloc_zero (owns : Holds (pool ram) old) (sane : ram.Sane)
    (made : ram.allocZero = some (f, ram')) : Effect ram old ram' (f ::ₘ old) := by
  obtain ⟨available, wiped, others, _⟩ := Ram.alloc_zero_some made
  obtain ⟨issued, space⟩ := Ram.alloc_zero_issued sane made
  apply effect_taken owns available issued (fun u still => ((others u).mp still).1) space
  intro g other
  rw [wiped]
  exact wipe_elsewhere other

theorem effect_free (owns : Holds (pool ram) (f ::ₘ old)) :
    ∃ ram', ram.free f = .ok ram' ∧ ram'.bytes = ram.bytes ∧ Effect ram (f ::ₘ old) ram' old := by
  obtain ⟨ram', run, issued, space⟩ := Ram.free_issued (owns.issued f (Multiset.mem_cons_self f old))
  obtain ⟨same, others⟩ := Ram.free_ok run
  refine ⟨ram', run, same, exchange_give owns issued (fun u => (others u).mp) space, ?_⟩
  intro g _ _
  rw [same]
  exact same_frame_refl

theorem effect_free_all {frames : List Nat} (owns : Holds (pool ram) (↑frames + old)) :
    ∃ ram', frames.foldlM (fun ram f => ram.free f) ram = .ok ram' ∧ Effect ram (↑frames + old) ram' old := by
  induction frames generalizing ram with
  | nil =>
    rw [Multiset.coe_nil, zero_add] at owns ⊢
    exact ⟨ram, rfl, effect_refl owns⟩
  | cons f rest ih =>
    rw [← Multiset.cons_coe, Multiset.cons_add] at owns ⊢
    obtain ⟨ram₁, freed, _, step⟩ := effect_free owns
    obtain ⟨ram', run, steps⟩ := ih step.exchange.holds
    refine ⟨ram', ?_, effect_trans step steps⟩
    rw [List.foldlM_cons, freed]
    exact run

theorem effect_write (owns : Holds (pool ram) old) (same : ram'.frames = ram.frames)
    (elsewhere : ∀ g, ram.Issued g → g ∉ old → SameFrame ram.bytes ram'.bytes g) : Effect ram old ram' old := by
  have pools : pool ram' = pool ram := by
    unfold pool Ram.availableSpace
    congr 1
    · funext u
      rw [Ram.Issued, Ram.Issued, same]
    · funext u
      rw [Ram.Available, Ram.Available, same]
    · rw [same]
  refine ⟨?_, elsewhere⟩
  rw [pools]
  exact exchange_refl owns

/-- What a step may do that only takes frames and writes only to tables and to frames it
    takes. -/
structure Growth (ram : Ram) (tables : List Nat) (ram' : Ram) (tables' : List Nat) : Prop where
  issued : ∀ f, ram.Issued f → ram'.Issued f
  fresh : ∀ f ∈ tables', f ∈ tables ∨ ¬ ram.Issued f
  kept : ∀ f, ram.Issued f → f ∉ tables → SameFrame ram.bytes ram'.bytes f

theorem growth_refl : Growth ram tables ram tables where
  issued := fun _ h => h
  fresh := fun _ member => Or.inl member
  kept := fun f _ _ => same_frame_refl

theorem growth_trans (first : Growth ram tables ram' tables') (second : Growth ram' tables' ram'' tables'') :
    Growth ram tables ram'' tables'' where
  issued := fun f h => second.issued f (first.issued f h)
  fresh := by
    intro f member
    rcases second.fresh f member with before | new
    · exact first.fresh f before
    · exact Or.inr fun h => new (first.issued f h)
  kept := by
    intro f busy outside
    apply same_frame_trans (first.kept f busy outside)
    apply second.kept f (first.issued f busy)
    intro member
    rcases first.fresh f member with before | new
    · exact outside before
    · exact new busy

theorem growth_of_take (step : Effect ram 0 ram' new) (tables : List Nat) : Growth ram tables ram' tables where
  issued := fun f h => ((step.exchange.others f).mpr ⟨h, Multiset.notMem_zero f⟩).1
  fresh := fun _ member => Or.inl member
  kept := fun f h _ => step.kept f h (Multiset.notMem_zero f)

theorem growth_of_tables {tables tables' : List Nat} (step : Effect ram ↑tables ram' ↑tables')
    (grows : ∀ f ∈ tables, f ∈ tables') : Growth ram tables ram' tables' where
  issued := by
    intro f h
    by_cases member : f ∈ tables
    · exact step.exchange.holds.issued f (grows f member)
    · exact ((step.exchange.others f).mpr ⟨h, member⟩).1
  fresh := by
    intro f member
    rcases step.exchange.fresh f member with before | free
    · exact Or.inl before
    · exact Or.inr fun h => Ram.issued_unavailable h free
  kept := fun f h outside => step.kept f h outside

end Effects

section Tables

variable {pt pt' : PageTable}

section

variable (owns : Holds (pool ram) ↑pt.intrmTables)
include owns

theorem next_table_exchange (sane : ram.Sane)
    (run : pt.nextTableMutOrCreate ram table i = .ok (next, pt', ram')) :
    Exchange (pool ram) ↑pt.intrmTables (pool ram') ↑pt'.intrmTables ∧ ram'.Sane ∧
      pt'.intrmTables.length ≤ pt.intrmTables.length + 1 := by
  unfold PageTable.nextTableMutOrCreate at run
  simp only at run
  split at run
  · unfold PageTable.allocIntrmTable at run
    cases made : ram.allocZero with
    | none => simp [made] at run
    | some result =>
      obtain ⟨g, ram₁⟩ := result
      simp only [made] at run
      cases run
      have step := (effect_alloc_zero owns sane made).exchange
      have tables : (↑(pt.intrmTables ++ [g]) : Multiset Nat) = g ::ₘ ↑pt.intrmTables := by
        rw [← Multiset.coe_add, add_comm]
        rfl
      refine ⟨?_, ?_, by simp⟩
      · rw [tables]
        exact step
      · exact Ram.sane_of_issued (step.holds.issued g (Multiset.mem_cons_self g _))
  · split at run
    · cases run
    · cases run
      exact ⟨exchange_refl owns, sane, Nat.le_succ _⟩

theorem descend_or_create_exchange (sane : ram.Sane)
    (run : pt.descendOrCreate ram table path = .ok (last, pt', ram')) :
    Exchange (pool ram) ↑pt.intrmTables (pool ram') ↑pt'.intrmTables ∧
      pt'.intrmTables.length ≤ pt.intrmTables.length + path.length := by
  induction path generalizing pt ram table with
  | nil =>
    cases run
    exact ⟨exchange_refl owns, Nat.le_refl _⟩
  | cons i rest ih =>
    rw [PageTable.descendOrCreate] at run
    split at run
    · cases run
    · rename_i pt₁ ram₁ step
      cases run
      obtain ⟨exchange, _, few⟩ := next_table_exchange owns sane step
      exact ⟨exchange, by simp only [List.length_cons]; omega⟩
    rename_i next pt₁ ram₁ step
    obtain ⟨exchange, sane₁, few⟩ := next_table_exchange owns sane step
    obtain ⟨onward, few'⟩ := ih exchange.holds sane₁ run
    exact ⟨exchange_trans exchange onward, by simp only [List.length_cons]; omega⟩

theorem map_exchange (sane : ram.Sane)
    (run : pt.map ram va pa flags = .ok (pt', ram')) :
    Exchange (pool ram) ↑pt.intrmTables (pool ram') ↑pt'.intrmTables ∧
      pt'.intrmTables.length ≤ pt.intrmTables.length + 3 := by
  unfold PageTable.map at run
  split at run
  · cases run
  · cases run
  rename_i p1 pt₁ ram₁ descent
  split at run
  · cases run
  · cases run
    exact descend_or_create_exchange owns sane descent

end

theorem unmap_frames (run : pt.unmap ram va = .ok ram') : ram'.frames = ram.frames := by
  unfold PageTable.unmap at run
  split at run
  · cases run
  · cases run
  split at run
  · cases run
  · cases run
    rfl

end Tables

end RtosNimbosFrameLedger
