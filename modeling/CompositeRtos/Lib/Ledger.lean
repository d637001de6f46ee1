import Mathlib.Algebra.BigOperators.Group.List.Basic
import Mathlib.Algebra.Order.Group.Multiset
import Mathlib.Data.Multiset.UnionInter

/-!
Items handed out by a pool and the holders that have them. `Exchange` is what a step of one
holder may do: it takes free items and gives items back, and nobody else's items are
touched. Exchanges compose, they extend to whatever the holder has besides, and when all
holders together have exactly the issued items before an exchange they do after it.
-/
namespace RtosLedger

variable {α : Type}

structure Pool (α : Type) where
  issued : α → Prop
  free : α → Prop
  space : Nat

/-- The items of a holder: each is held once and issued. -/
structure Holds (p : Pool α) (items : Multiset α) : Prop where
  nodup : items.Nodup
  issued : ∀ x ∈ items, p.issued x

structure Exchange (p : Pool α) (old : Multiset α) (p' : Pool α) (new : Multiset α) : Prop where
  holds : Holds p' new
  others : ∀ x, p'.issued x ∧ x ∉ new ↔ p.issued x ∧ x ∉ old
  fresh : ∀ x ∈ new, x ∈ old ∨ p.free x
  released : ∀ x, p'.free x → p.free x ∨ x ∈ old
  balance : p'.space + Multiset.card new = p.space + Multiset.card old

variable {p p' p'' : Pool α} {x : α}

theorem mem_total {β : Type} {l : List β} {items : β → Multiset α} {b : β} (member : b ∈ l) (inside : x ∈ items b) :
    x ∈ (l.map items).sum := by
  induction l with
  | nil => cases member
  | cons first rest ih =>
    rw [List.map_cons, List.sum_cons, Multiset.mem_add]
    rcases List.mem_cons.mp member with rfl | later
    · exact Or.inl inside
    · exact Or.inr (ih later)

theorem holds_zero (p : Pool α) : Holds p 0 :=
  ⟨Multiset.nodup_zero, fun x member => absurd member (Multiset.notMem_zero x)⟩

theorem holds_part (h : Holds p (old + rest)) : Holds p old :=
  ⟨(Multiset.nodup_add.mp h.nodup).1, fun x member => h.issued x (Multiset.mem_add.mpr (Or.inl member))⟩

theorem exchange_refl (h : Holds p old) : Exchange p old p old where
  holds := h
  others := fun _ => Iff.rfl
  fresh := fun _ member => Or.inl member
  released := fun _ free => Or.inl free
  balance := rfl

theorem exchange_trans (first : Exchange p old p' new) (second : Exchange p' new p'' final) :
    Exchange p old p'' final where
  holds := second.holds
  others := fun x => (second.others x).trans (first.others x)
  fresh := by
    intro x member
    rcases second.fresh x member with held | free
    · exact first.fresh x held
    · exact (first.released x free).symm
  released := by
    intro x free
    rcases second.released x free with free | held
    · exact first.released x free
    · exact (first.fresh x held).symm
  balance := second.balance.trans first.balance

theorem exchange_frame (step : Exchange p old p' new) (h : Holds p (old + rest)) :
    Exchange p (old + rest) p' (new + rest) := by
  obtain ⟨_, rest_once, apart⟩ := Multiset.nodup_add.mp h.nodup
  have kept : ∀ x ∈ rest, p'.issued x ∧ x ∉ new := by
    intro x member
    apply (step.others x).mpr
    exact ⟨h.issued x (Multiset.mem_add.mpr (Or.inr member)),
      fun held => Multiset.disjoint_left.mp apart held member⟩
  refine ⟨⟨?_, ?_⟩, ?_, ?_, ?_, ?_⟩
  · rw [Multiset.nodup_add]
    refine ⟨step.holds.nodup, rest_once, ?_⟩
    rw [Multiset.disjoint_left]
    exact fun held member => (kept _ member).2 held
  · intro x member
    rcases Multiset.mem_add.mp member with held | besides
    · exact step.holds.issued x held
    · exact (kept x besides).1
  · intro x
    simp only [Multiset.mem_add, not_or]
    rw [← and_assoc, step.others x, and_assoc]
  · intro x member
    rcases Multiset.mem_add.mp member with held | besides
    · exact (step.fresh x held).imp_left fun held => Multiset.mem_add.mpr (Or.inl held)
    · exact Or.inl (Multiset.mem_add.mpr (Or.inr besides))
  · intro x free
    exact (step.released x free).imp_right fun held => Multiset.mem_add.mpr (Or.inl held)
  · rw [Multiset.card_add, Multiset.card_add]
    have := step.balance
    omega

theorem exchange_take (h : Holds p old) (free : p.free x) (unissued : ¬ p.issued x)
    (issued : ∀ y, p'.issued y ↔ p.issued y ∨ y = x) (shrinks : ∀ y, p'.free y → p.free y)
    (space : p.space = p'.space + 1) : Exchange p old p' (x ::ₘ old) := by
  have new : x ∉ old := fun member => unissued (h.issued x member)
  refine ⟨⟨Multiset.nodup_cons.mpr ⟨new, h.nodup⟩, ?_⟩, ?_, ?_, ?_, ?_⟩
  · intro y member
    rcases Multiset.mem_cons.mp member with rfl | held
    · exact (issued y).mpr (Or.inr rfl)
    · exact (issued y).mpr (Or.inl (h.issued y held))
  · intro y
    rw [issued, Multiset.mem_cons]
    constructor
    · rintro ⟨before | here, other⟩
      · exact ⟨before, fun held => other (Or.inr held)⟩
      · exact absurd (Or.inl here) other
    rintro ⟨before, other⟩
    refine ⟨Or.inl before, ?_⟩
    rintro (rfl | held)
    · exact unissued before
    · exact other held
  · intro y member
    rcases Multiset.mem_cons.mp member with rfl | held
    · exact Or.inr free
    · exact Or.inl held
  · exact fun y still => Or.inl (shrinks y still)
  · rw [Multiset.card_cons, space]
    omega

theorem exchange_give (h : Holds p (x ::ₘ old)) (issued : ∀ y, p'.issued y ↔ p.issued y ∧ y ≠ x)
    (grows : ∀ y, p'.free y → p.free y ∨ y = x) (space : p'.space = p.space + 1) :
    Exchange p (x ::ₘ old) p' old := by
  obtain ⟨once, old_once⟩ := Multiset.nodup_cons.mp h.nodup
  refine ⟨⟨old_once, ?_⟩, ?_, ?_, ?_, ?_⟩
  · intro y member
    refine (issued y).mpr ⟨h.issued y (Multiset.mem_cons_of_mem member), ?_⟩
    rintro rfl
    exact once member
  · intro y
    rw [issued, Multiset.mem_cons, not_or, and_assoc]
  · exact fun y member => Or.inl (Multiset.mem_cons_of_mem member)
  · intro y free
    rcases grows y free with before | rfl
    · exact Or.inl before
    · exact Or.inr (Multiset.mem_cons_self y old)
  · rw [Multiset.card_cons, space]
    omega

/-- All holders together have exactly the issued items. -/
structure Complete (p : Pool α) (all : Multiset α) : Prop where
  nodup : all.Nodup
  exact : ∀ x, x ∈ all ↔ p.issued x

theorem complete_holds (h : Complete p (old + rest)) : Holds p (old + rest) :=
  ⟨h.nodup, fun x => (h.exact x).mp⟩

theorem complete_exchange (h : Complete p (old + rest)) (step : Exchange p old p' new) :
    Complete p' (new + rest) := by
  have whole := exchange_frame step (complete_holds h)
  refine ⟨whole.holds.nodup, ?_⟩
  intro x
  refine ⟨whole.holds.issued x, ?_⟩
  intro issued
  by_contra missing
  obtain ⟨before, outside⟩ := (whole.others x).mp ⟨issued, missing⟩
  exact outside ((h.exact x).mpr before)

end RtosLedger
