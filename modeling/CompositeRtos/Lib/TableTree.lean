import CompositeRtos.Lib.RadixWalk

/-!
Trees of tables in memory with an invariant on their entries. The tables reached from a
root are pairwise different and in use, and each entry above the last level is one that
its depth allows. The contents of a tree are its cells: the entry at each index list, empty
where a table is missing. A single empty table is a tree. Three kinds of change are
covered: changes elsewhere, linking an empty table, and storing an entry that does not
change any walk. A copy of the root alone is the root of a second tree, with the same
contents and the same tables below.
-/
namespace RtosTableTree
open RtosRadixWalk Option

/-- How entries are read: the table an entry points to, the empty entry, and the entries
    that a table at a given depth may hold. -/
structure Shape (F E : Type) where
  child : E → Option F
  empty : E
  allowed : Nat → E → Prop
  empty_child : child empty = none
  empty_allowed : ∀ depth, allowed depth empty

variable {F I E : Type} (S : Shape F E)

structure Tree (view : F → I → E) (root : F) (n : Nat) (used : F → Prop) : Prop where
  separated : Separated S.child view root n
  live : ∀ f, Reached S.child view root n f → used f
  formed : ∀ p f i, p.length < n → walk S.child view root p = some f → S.allowed p.length (view f i)

def cell (view : F → I → E) (root : F) (p : List I) (i : I) : E :=
  ((walk S.child view root p).map fun f => view f i).getD S.empty

variable {S} {view view' : F → I → E} {root : F} {n : Nat} {used used' : F → Prop}

theorem cell_of_walk (h : walk S.child view root p = some f) (i : I) : cell S view root p i = view f i := by
  simp only [cell, h, map_some, getD_some]

theorem cell_of_none (h : walk S.child view root p = none) : cell S view root p i = S.empty := by
  simp only [cell, h, map_none, getD_none]

theorem cell_allowed (tree : Tree S view root n used) (short : p.length < n) :
    S.allowed p.length (cell S view root p i) := by
  cases ends : walk S.child view root p with
  | none =>
    rw [cell_of_none ends]
    exact S.empty_allowed _
  | some f =>
    rw [cell_of_walk ends]
    exact tree.formed p f i short ends

section Fresh

variable (empty_root : ∀ i, view root i = S.empty)

include empty_root

theorem fresh_walk (reached : walk S.child view root p = some f) : p = [] ∧ f = root := by
  cases p with
  | nil => exact ⟨rfl, (Option.some.inj reached).symm⟩
  | cons i rest =>
    rw [walk, empty_root, S.empty_child] at reached
    cases reached

theorem fresh_tree (used_root : used root) : Tree S view root n used := by
  refine ⟨?_, ?_, ?_⟩
  · intro p q f _ _ first second
    rw [(fresh_walk empty_root first).1, (fresh_walk empty_root second).1]
  · rintro f ⟨p, _, reached⟩
    rw [(fresh_walk empty_root reached).2]
    exact used_root
  intro p f i _ reached
  rw [(fresh_walk empty_root reached).2, empty_root]
  exact S.empty_allowed _

theorem fresh_cell (p : List I) (i : I) : cell S view root p i = S.empty := by
  cases reached : walk S.child view root p with
  | none => exact cell_of_none reached
  | some f => rw [cell_of_walk reached, (fresh_walk empty_root reached).2, empty_root]

end Fresh

section Outside

variable (same : ∀ f, Reached S.child view root n f → ∀ i, view' f i = view f i)

include same

theorem walks_outside (short : q.length ≤ n) : walk S.child view' root q = walk S.child view root q :=
  walk_outside same (Nat.le_succ_of_le short)

theorem reached_outside (f : F) : Reached S.child view' root n f ↔ Reached S.child view root n f := by
  constructor
  · rintro ⟨q, short, reached⟩
    rw [walks_outside same short] at reached
    exact ⟨q, short, reached⟩
  rintro ⟨q, short, reached⟩
  rw [← walks_outside same short] at reached
  exact ⟨q, short, reached⟩

theorem cells_outside (short : q.length ≤ n) (j : I) : cell S view' root q j = cell S view root q j := by
  cases ends : walk S.child view root q with
  | none =>
    rw [cell_of_none ends, cell_of_none]
    rw [walks_outside same short, ends]
  | some f =>
    have ends' : walk S.child view' root q = some f := by
      rw [walks_outside same short, ends]
    rw [cell_of_walk ends, cell_of_walk ends', same f ⟨q, short, ends⟩]

theorem tree_outside (tree : Tree S view root n used)
    (still_used : ∀ f, Reached S.child view root n f → used' f) : Tree S view' root n used' := by
  refine ⟨separated_congr (fun q short => walks_outside same short) tree.separated, ?_, ?_⟩
  · intro f reached
    exact still_used f ((reached_outside same f).mp reached)
  intro q f i short reached
  rw [walks_outside same (Nat.le_of_lt short)] at reached
  rw [same f ⟨q, Nat.le_of_lt short, reached⟩]
  exact tree.formed q f i short reached

end Outside

section Copy

variable {g : F} (tree : Tree S view root n used) (fresh : ¬ Reached S.child view root n g)
  (copied : ∀ i, view' g i = view root i) (elsewhere : ∀ h i, h ≠ g → view' h i = view h i)

include fresh copied elsewhere

theorem copied_walk (short : (i :: rest).length ≤ n) :
    walk S.child view' g (i :: rest) = walk S.child view root (i :: rest) := by
  have other : ∀ h, Reached S.child view root n h → h ≠ g := fun h reached same => fresh (same ▸ reached)
  have beside : walk S.child view' root (i :: rest) = walk S.child view root (i :: rest) :=
    walks_outside (fun h reached j => elsewhere h j (other h reached)) short
  have at_root : view' root i = view root i :=
    elsewhere root i (other root ⟨[], Nat.zero_le n, rfl⟩)
  rw [← beside, walk, walk, copied, at_root]

theorem copied_cell (p : List I) (short : p.length ≤ n) (j : I) : cell S view' g p j = cell S view root p j := by
  cases p with
  | nil =>
    rw [cell_of_walk (f := g) rfl, cell_of_walk (f := root) rfl, copied]
  | cons i rest =>
    have same := copied_walk (S := S) fresh copied elsewhere short
    cases ends : walk S.child view root (i :: rest) with
    | none => rw [cell_of_none (same.trans ends), cell_of_none ends]
    | some h =>
      rw [cell_of_walk (same.trans ends), cell_of_walk ends]
      exact elsewhere h j fun is_copy => fresh (is_copy ▸ ⟨_, short, ends⟩)

include tree

theorem copied_tree (used_g : used' g) (still_used : ∀ f, Reached S.child view root n f → used' f) :
    Tree S view' g n used' := by
  have below : ∀ i rest h, (i :: rest).length ≤ n → walk S.child view' g (i :: rest) = some h →
      walk S.child view root (i :: rest) = some h := by
    intro i rest h short ends
    rw [← ends]
    exact (copied_walk fresh copied elsewhere short).symm
  refine ⟨?_, ?_, ?_⟩
  · intro p q h p_short q_short first second
    cases p with
    | nil =>
      cases first
      cases q with
      | nil => rfl
      | cons i rest => exact absurd ⟨_, q_short, below i rest g q_short second⟩ fresh
    | cons i rest =>
      have first' := below i rest h p_short first
      cases q with
      | nil =>
        cases second
        exact absurd ⟨_, p_short, first'⟩ fresh
      | cons i' rest' => exact tree.separated _ _ h p_short q_short first' (below i' rest' h q_short second)
  · rintro h ⟨q, short, ends⟩
    cases q with
    | nil =>
      cases ends
      exact used_g
    | cons i rest => exact still_used h ⟨_, short, below i rest h short ends⟩
  · intro q h j short ends
    have content := copied_cell (S := S) fresh copied elsewhere q (Nat.le_of_lt short) j
    rw [cell_of_walk ends] at content
    rw [content]
    exact cell_allowed tree short

end Copy

section Link

variable [DecidableEq F] [DecidableEq I] {p : List I} {f g : F} {i : I} {e : E}

/-- Table `g` is emptied and linked from entry `i` of table `f`. -/
structure Linked (S : Shape F E) (view view' : F → I → E) (f : F) (i : I) (e : E) (g : F) : Prop where
  here : view' f i = e
  emptied : ∀ j, view' g j = S.empty
  elsewhere : ∀ h j, h ≠ g → ¬ (h = f ∧ j = i) → view' h j = view h j

variable (tree : Tree S view root n used) (short : p.length < n)
  (at_f : walk S.child view root p = some f) (vacant : S.child (view f i) = none)
  (points : S.child e = some g) (fresh : ¬ Reached S.child view root n g)
  (linked : Linked S view view' f i e g)

include tree short at_f vacant points fresh linked

theorem linked_walk (q_short : q.length ≤ n) : walk S.child view' root q =
    if q = p ++ [i] then some g else walk S.child view root q := by
  have other : f ≠ g := fun same => fresh (same ▸ ⟨p, Nat.le_of_lt short, at_f⟩)
  let emptied : F → I → E := fun h j => if h = g then S.empty else view h j
  have aside : ∀ h, Reached S.child view root n h → ∀ j, emptied h j = view h j := by
    intro h reached j
    have apart : h ≠ g := fun same => fresh (same ▸ reached)
    exact if_neg apart
  have poked : view' = poke emptied f i e := by
    funext h j
    unfold poke
    split
    · rename_i here
      rw [here.1, here.2, linked.here]
    rename_i away
    by_cases at_g : h = g
    · rw [at_g, linked.emptied]
      exact (if_pos rfl).symm
    · rw [linked.elsewhere h j at_g away]
      exact (if_neg at_g).symm
  have tree' : Tree S emptied root n used := tree_outside aside tree tree.live
  have at_f' : walk S.child emptied root p = some f := by
    rw [walks_outside aside (Nat.le_of_lt short), at_f]
  rw [poked, walk_link tree'.separated short at_f' _ points _ _ q_short, walks_outside aside q_short]
  · rw [show emptied f i = view f i from if_neg other, vacant]
  · rw [reached_outside aside]
    exact fresh
  · intro j
    rw [show emptied g j = S.empty from if_pos rfl, S.empty_child]

theorem linked_cell (q_short : q.length ≤ n) (j : I) : cell S view' root q j =
    if q = p ∧ j = i then e else cell S view root q j := by
  have walks := linked_walk tree short at_f vacant points fresh linked q_short
  by_cases new : q = p ++ [i]
  · rw [if_pos new] at walks
    have other : ¬ (q = p ∧ j = i) := by
      rintro ⟨same, _⟩
      rw [new] at same
      simp at same
    have missing : walk S.child view root q = none := by
      rw [new, walk_snoc at_f, vacant]
    rw [if_neg other, cell_of_walk walks, linked.emptied, cell_of_none missing]
  · rw [if_neg new] at walks
    cases ends : walk S.child view root q with
    | none =>
      have other : ¬ (q = p ∧ j = i) := by
        rintro ⟨same, _⟩
        rw [same, at_f] at ends
        cases ends
      rw [if_neg other, cell_of_none (walks.trans ends), cell_of_none ends]
    | some h =>
      rw [cell_of_walk (walks.trans ends), cell_of_walk ends]
      by_cases here : h = f ∧ j = i
      · have same_path : q = p := by
          apply tree.separated q p f q_short (Nat.le_of_lt short) _ at_f
          rw [ends, here.1]
        rw [if_pos ⟨same_path, here.2⟩, here.1, here.2, linked.here]
      have other : ¬ (q = p ∧ j = i) := by
        rintro ⟨same, index⟩
        apply here
        rw [same, at_f] at ends
        exact ⟨(Option.some.inj ends).symm, index⟩
      have not_g : h ≠ g := fun same => fresh (same ▸ ⟨q, q_short, ends⟩)
      rw [if_neg other, linked.elsewhere h j not_g here]

theorem linked_reached (reached : Reached S.child view' root n h) : h = g ∨ Reached S.child view root n h := by
  obtain ⟨q, q_short, ends⟩ := reached
  rw [linked_walk tree short at_f vacant points fresh linked q_short] at ends
  split at ends
  · exact Or.inl (some.inj ends).symm
  · exact Or.inr ⟨q, q_short, ends⟩

theorem linked_tree (fits : S.allowed p.length e) (used_g : used' g)
    (still_used : ∀ h, Reached S.child view root n h → used' h) : Tree S view' root n used' := by
  have walks := fun {q : List I} (q_short : q.length ≤ n) =>
    linked_walk tree short at_f vacant points fresh linked q_short
  refine ⟨?_, ?_, ?_⟩
  · intro q q' h len len' ends ends'
    rw [walks len] at ends
    rw [walks len'] at ends'
    split at ends
    · cases ends
      split at ends'
      · rename_i first second
        rw [first, second]
      · exact absurd ⟨q', len', ends'⟩ fresh
    split at ends'
    · cases ends'
      exact absurd ⟨q, len, ends⟩ fresh
    · exact tree.separated q q' h len len' ends ends'
  · intro h reached
    rcases linked_reached tree short at_f vacant points fresh linked reached with new | old
    · rw [new]
      exact used_g
    · exact still_used h old
  · intro q h j len ends
    have content := linked_cell tree short at_f vacant points fresh linked (Nat.le_of_lt len) j
    rw [cell_of_walk ends] at content
    rw [content]
    split
    · rename_i here
      rw [here.1]
      exact fits
    · exact cell_allowed tree len

end Link

section Store

variable [DecidableEq F] [DecidableEq I] {p : List I} {f : F} {i : I} {e : E}

variable (tree : Tree S view root n used) (short : p.length ≤ n)
  (at_f : walk S.child view root p = some f)
  (quiet : p.length = n ∨ S.child (view f i) = none ∧ S.child e = none)

include tree short at_f quiet

omit short in
theorem stored_walk (q_short : q.length ≤ n) : walk S.child (poke view f i e) root q = walk S.child view root q := by
  rcases quiet with last | childless
  · exact walk_poke_last tree.separated last at_f q_short
  · exact walk_poke_childless i e childless.1 childless.2 root q

theorem stored_cell (q_short : q.length ≤ n) (j : I) :
    cell S (poke view f i e) root q j = if q = p ∧ j = i then e else cell S view root q j := by
  have walks := stored_walk tree at_f quiet q_short
  cases ends : walk S.child view root q with
  | none =>
    have other : ¬ (q = p ∧ j = i) := by
      rintro ⟨same, _⟩
      rw [same, at_f] at ends
      cases ends
    rw [if_neg other, cell_of_none (walks.trans ends), cell_of_none ends]
  | some h =>
    have same_table : h = f ↔ q = p := by
      constructor
      · intro same
        subst same
        exact tree.separated q p h q_short short ends at_f
      intro same
      subst same
      exact Option.some.inj (ends.symm.trans at_f)
    rw [cell_of_walk (walks.trans ends), cell_of_walk ends]
    simp only [poke, same_table]

theorem stored_tree (fits : p.length < n → S.allowed p.length e) :
    Tree S (poke view f i e) root n used := by
  refine ⟨separated_congr (fun q len => stored_walk tree at_f quiet len) tree.separated, ?_, ?_⟩
  · rintro h ⟨q, len, ends⟩
    rw [stored_walk tree at_f quiet len] at ends
    exact tree.live h ⟨q, len, ends⟩
  intro q h j len ends
  have content := stored_cell (e := e) tree short at_f quiet (Nat.le_of_lt len) j
  rw [cell_of_walk ends] at content
  rw [stored_walk tree at_f quiet (Nat.le_of_lt len)] at ends
  rw [content]
  split
  · rename_i here
    rw [here.1] at len ⊢
    exact fits len
  · rw [cell_of_walk ends]
    exact tree.formed q h j len ends

end Store

end RtosTableTree
