import Mathlib.Data.Finset.Card

/-!
A fixed set divided among owners. `Moved` says that one owner hands part of its share to
another one; a division stays a division under such a move, and only the two shares
change size.
-/
namespace RtosShares

variable {κ α : Type}

structure Shares (own : κ → Finset α) (total : Finset α) : Prop where
  apart : ∀ k l, k ≠ l → Disjoint (own k) (own l)
  cover : ∀ x, x ∈ total ↔ ∃ k, x ∈ own k

theorem share_subset (h : Shares own total) (k : κ) : own k ⊆ total :=
  fun x inside => (h.cover x).mpr ⟨k, inside⟩

variable [DecidableEq α]

structure Moved (own own' : κ → Finset α) (k l : κ) (part : Finset α) : Prop where
  distinct : k ≠ l
  within : part ⊆ own k
  giver : own' k = own k \ part
  taker : own' l = own l ∪ part
  others : ∀ m, m ≠ k → m ≠ l → own' m = own m

variable {total part : Finset α} {k l : κ}

theorem moved_mem (moved : Moved own own' k l part) (m : κ) (x : α) :
    x ∈ own' m ↔ (x ∈ own m ∧ (m = k → x ∉ part)) ∨ (m = l ∧ x ∈ part) := by
  by_cases giver : m = k
  · subst giver
    have := moved.distinct
    simp [moved.giver, this]
  by_cases taker : m = l
  · subst taker
    simp [moved.taker, giver]
  · simp [moved.others m giver taker, giver, taker]

theorem shares_moved (h : Shares own total) (moved : Moved own own' k l part) :
    Shares own' total := by
  refine ⟨?_, ?_⟩
  · intro m n differ
    rw [Finset.disjoint_left]
    intro x inM inN
    have sole : ∀ {m n}, x ∈ own m → x ∈ own n → m = n := by
      intro m n inM inN
      by_contra differ
      exact Finset.disjoint_left.mp (h.apart m n differ) inM inN
    rcases (moved_mem moved m x).mp inM with ⟨oldM, keptM⟩ | ⟨rfl, partM⟩ <;>
    rcases (moved_mem moved n x).mp inN with ⟨oldN, keptN⟩ | ⟨rfl, partN⟩
    · exact differ (sole oldM oldN)
    · exact keptM (sole oldM (moved.within partN)) partN
    · exact keptN (sole oldN (moved.within partM)) partM
    · exact differ rfl
  · intro x
    rw [h.cover]
    constructor
    · rintro ⟨m, inM⟩
      by_cases inPart : x ∈ part
      · exact ⟨l, (moved_mem moved l x).mpr (Or.inr ⟨rfl, inPart⟩)⟩
      · exact ⟨m, (moved_mem moved m x).mpr (Or.inl ⟨inM, fun _ => inPart⟩)⟩
    rintro ⟨m, inM⟩
    rcases (moved_mem moved m x).mp inM with ⟨old, _⟩ | ⟨_, inPart⟩
    · exact ⟨m, old⟩
    · exact ⟨k, moved.within inPart⟩

theorem taker_card (h : Shares own total) (moved : Moved own own' k l part) :
    (own' l).card = (own l).card + part.card := by
  rw [moved.taker]
  apply Finset.card_union_of_disjoint
  exact (h.apart k l moved.distinct).symm.mono_right moved.within

theorem two_shares_card (h : Shares own total) (distinct : k ≠ l)
    (empty : ∀ m, m ≠ k → m ≠ l → own m = ∅) : total.card = (own k).card + (own l).card := by
  have whole : total = own k ∪ own l := by
    ext x
    rw [h.cover, Finset.mem_union]
    constructor
    · rintro ⟨m, inside⟩
      by_cases first : m = k
      · exact Or.inl (first ▸ inside)
      by_cases second : m = l
      · exact Or.inr (second ▸ inside)
      · rw [empty m first second] at inside
        simp at inside
    · rintro (inside | inside)
      · exact ⟨k, inside⟩
      · exact ⟨l, inside⟩
  rw [whole]
  exact Finset.card_union_of_disjoint (h.apart k l distinct)

end RtosShares
