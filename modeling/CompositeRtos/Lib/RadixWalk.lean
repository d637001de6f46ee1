import Mathlib.Data.List.Basic

/-!
Radix trees stored in memory. A table is named by a frame `F`, `view f i` is the entry
of table `f` at index `i`, and `child` says which table an entry points to, if any. The
tables of a tree of depth `n` are the ends of the walks along at most `n` indices. When
these ends are pairwise different, one store into a table is seen by the walks through
that entry and by no other walk, whatever else shares the memory.
-/
namespace RtosRadixWalk

variable {F I E : Type} (child : E → Option F)

def walk (view : F → I → E) : F → List I → Option F
  | f, [] => some f
  | f, i :: rest => (child (view f i)).bind fun g => walk view g rest

def Separated (view : F → I → E) (root : F) (n : Nat) : Prop :=
  ∀ p q f, p.length ≤ n → q.length ≤ n →
    walk child view root p = some f → walk child view root q = some f → p = q

def Reached (view : F → I → E) (root : F) (n : Nat) (f : F) : Prop :=
  ∃ p : List I, p.length ≤ n ∧ walk child view root p = some f

def poke [DecidableEq F] [DecidableEq I] (view : F → I → E) (f : F) (i : I) (e : E) : F → I → E :=
  fun g j => if g = f ∧ j = i then e else view g j

variable {child}

theorem walk_append : walk child view root (p ++ q) = (walk child view root p).bind fun f => walk child view f q := by
  induction p generalizing root with
  | nil => rfl
  | cons i rest ih =>
    simp only [List.cons_append, walk]
    cases child (view root i) with
    | none => rfl
    | some g => exact ih

theorem walk_snoc (h : walk child view root p = some f) (i : I) :
    walk child view root (p ++ [i]) = child (view f i) := by
  rw [walk_append, h]
  simp [walk]

theorem walk_below_childless (h : walk child view root p = some f) (none_there : child (view f i) = none)
    (rest : List I) : walk child view root (p ++ i :: rest) = none := by
  rw [walk_append, h]
  simp [walk, none_there]

theorem walk_same
    (same : ∀ p j rest f, q = p ++ j :: rest → walk child view root p = some f → child (view' f j) = child (view f j)) :
    walk child view' root q = walk child view root q := by
  induction q generalizing root with
  | nil => rfl
  | cons i rest ih =>
    have here := same [] i rest root rfl rfl
    simp only [walk, here]
    cases next : child (view root i) with
    | none => rfl
    | some g =>
      apply ih
      intro p j tail f shape reached
      apply same (i :: p) j tail f
      · rw [shape, List.cons_append]
      · simp only [walk, next, Option.bind_some]
        exact reached

theorem walk_outside (same : ∀ f, Reached child view root n f → ∀ i, view' f i = view f i)
    (short : q.length ≤ n + 1) : walk child view' root q = walk child view root q := by
  apply walk_same
  intro p j rest f shape reached
  have len : p.length ≤ n := by
    have := congrArg List.length shape
    simp at this
    omega
  rw [same f ⟨p, len, reached⟩ j]

theorem separated_congr (same : ∀ q : List I, q.length ≤ n → walk child view' root q = walk child view root q)
    (h : Separated child view root n) : Separated child view' root n := by
  intro p q f hp hq reached reached'
  rw [same p hp] at reached
  rw [same q hq] at reached'
  exact h p q f hp hq reached reached'

section Poke

variable [DecidableEq F] [DecidableEq I] {root f : F} {n : Nat} {p : List I}

theorem poke_here (view : F → I → E) (f : F) (i : I) (e : E) : poke view f i e f i = e := by
  simp [poke]

theorem poke_other_table (view : F → I → E) (ne : g ≠ f) (i : I) (e : E) (j : I) :
    poke view f i e g j = view g j := by
  simp [poke, ne]

theorem walk_poke_aside (apart : Separated child view root n) (short : p.length ≤ n)
    (at_f : walk child view root p = some f) (q_short : q.length ≤ n + 1) (aside : ∀ rest, q ≠ p ++ i :: rest) :
    walk child (poke view f i e) root q = walk child view root q := by
  apply walk_same
  intro p' j rest g shape reached
  have len : p'.length ≤ n := by
    have := congrArg List.length shape
    simp at this
    omega
  by_cases hit : g = f ∧ j = i
  · obtain ⟨same_table, same_index⟩ := hit
    subst same_table same_index
    have same_path := apart p' p g len short reached at_f
    subst same_path
    exact absurd shape (aside rest)
  · simp only [poke, if_neg hit]

theorem walk_poke_last (apart : Separated child view root n) (last : p.length = n)
    (at_f : walk child view root p = some f) (short : q.length ≤ n) :
    walk child (poke view f i e) root q = walk child view root q := by
  apply walk_poke_aside apart (by omega) at_f (by omega)
  intro rest shape
  have := congrArg List.length shape
  simp at this
  omega

theorem walk_poke_childless (i : I) (e : E) (old_child : child (view f i) = none)
    (new_child : child e = none) (root : F) (q : List I) :
    walk child (poke view f i e) root q = walk child view root q := by
  apply walk_same
  intro p j rest g _ _
  by_cases hit : g = f ∧ j = i
  · obtain ⟨same_table, same_index⟩ := hit
    subst same_table same_index
    rw [poke_here, new_child, old_child]
  · simp only [poke, if_neg hit]

/-- Linking an empty table `g` from outside the tree adds the walk that ends in `g` and
    changes no other walk. -/
theorem walk_link (apart : Separated child view root n) (short : p.length < n)
    (at_f : walk child view root p = some f) (old_child : child (view f i) = none)
    (new_child : child e = some g) (fresh : ¬ Reached child view root n g)
    (empty : ∀ j, child (view g j) = none) (q_short : q.length ≤ n) :
    walk child (poke view f i e) root q =
      if q = p ++ [i] then some g else walk child view root q := by
  have at_f' : walk child (poke view f i e) root p = some f := by
    rw [walk_poke_aside apart (by omega) at_f (by omega), at_f]
    intro rest shape
    have := congrArg List.length shape
    simp at this
  have other : g ≠ f := by
    intro same
    subst same
    exact fresh ⟨p, by omega, at_f⟩
  by_cases through : ∃ rest, q = p ++ i :: rest
  · obtain ⟨rest, shape⟩ := through
    subst shape
    cases rest with
    | nil => rw [if_pos rfl, walk_snoc at_f', poke_here, new_child]
    | cons j tail =>
      have longer : p ++ i :: j :: tail ≠ p ++ [i] := by simp
      rw [if_neg longer, walk_below_childless at_f old_child, walk_append, at_f']
      simp [walk, poke_here, new_child, poke_other_table view other, empty]
  · have aside : ∀ rest, q ≠ p ++ i :: rest := by
      intro rest shape
      exact through ⟨rest, shape⟩
    rw [if_neg (aside []), walk_poke_aside apart (by omega) at_f (by omega) aside]

end Poke

end RtosRadixWalk
