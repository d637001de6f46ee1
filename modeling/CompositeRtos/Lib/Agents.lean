import Mathlib.Data.Fintype.Card
import Mathlib.Data.Finset.Card
import Mathlib.Logic.Function.Basic

/-!
Finitely many agents that take steps one at a time. `passed` counts the agents past a
point. A step of one agent changes the count by that agent alone, so a shared counter
that each agent increments once, when it passes the point, is this count.
-/
namespace RtosAgents
open Function

variable {ι A : Type} [Fintype ι] (past : A → Bool)

def passed (agents : ι → A) : Nat := (Finset.univ.filter fun i => past (agents i) = true).card

theorem passed_none {agents : ι → A} (none_past : ∀ i, past (agents i) = false) : passed past agents = 0 := by
  rw [passed, Finset.card_eq_zero, Finset.filter_eq_empty_iff]
  intro i _
  rw [none_past i]
  exact Bool.false_ne_true

theorem passed_lt {agents : ι → A} (behind : past (agents i) = false) : passed past agents < Fintype.card ι := by
  apply Finset.card_lt_card
  rw [Finset.ssubset_univ_iff]
  intro everyone
  have member := Finset.mem_univ i
  rw [← everyone, Finset.mem_filter, behind] at member
  exact Bool.false_ne_true member.2

theorem all_passed (count : Fintype.card ι ≤ passed past agents) (i : ι) : past (agents i) = true := by
  cases behind : past (agents i) with
  | true => rfl
  | false =>
    have fewer := passed_lt past behind
    omega

theorem passed_all {agents : ι → A} (all_past : ∀ i, past (agents i) = true) :
    passed past agents = Fintype.card ι := by
  rw [passed, Finset.filter_true_of_mem fun i _ => all_past i]
  exact Finset.card_univ

theorem passed_mono {past : A → Bool} (implies : ∀ a, past a = true → past' a = true) (agents : ι → A) :
    passed past agents ≤ passed past' agents := by
  apply Finset.card_le_card
  intro i member
  rw [Finset.mem_filter] at member ⊢
  exact ⟨member.1, implies _ member.2⟩

variable [DecidableEq ι]

theorem passed_same {agents : ι → A} (same : past a = past (agents i)) :
    passed past (update agents i a) = passed past agents := by
  unfold passed
  congr 1
  apply Finset.filter_congr
  intro j _
  by_cases here : j = i
  · subst here
    rw [update_self, same]
  · rw [update_of_ne here]

theorem passed_cross {agents : ι → A} (behind : past (agents i) = false) (ahead : past a = true) :
    passed past (update agents i a) = passed past agents + 1 := by
  have grown : (Finset.univ.filter fun j => past (update agents i a j) = true) =
      insert i (Finset.univ.filter fun j => past (agents j) = true) := by
    ext j
    simp only [Finset.mem_filter, Finset.mem_univ, true_and, Finset.mem_insert]
    by_cases here : j = i
    · subst here
      simp [ahead]
    · simp [here]
  rw [passed, grown, Finset.card_insert_of_notMem, passed]
  simp [behind]

end RtosAgents
