import Mathlib.Logic.Basic

/-!
Labelled transition systems and their finite runs. A statement about every interleaving
of a set of atomic steps is a statement about every run of such a system. Keeping only
the steps that meet a side condition gives a system again, so a property that holds
under a condition on each step needs no induction rule of its own.
-/
namespace RtosTransition

structure Machine (State Action : Type) where
  start : State → Prop
  next : State → Action → State → Prop

variable {State Action : Type}

inductive Run (M : Machine State Action) : State → List Action → State → Prop where
  | nil {s : State} : Run M s [] s
  | snoc {s t u : State} {path : List Action} {a : Action}
      (before : Run M s path t) (last : M.next t a u) : Run M s (path ++ [a]) u

def Reachable (M : Machine State Action) (s : State) : Prop :=
  ∃ first path, M.start first ∧ Run M first path s

/-- The runs all of whose steps meet a side condition. -/
def Machine.guarded (M : Machine State Action) (ok : State → Action → Prop) : Machine State Action where
  start := M.start
  next s a t := ok s a ∧ M.next s a t

theorem reachable_start {M : Machine State Action} {s : State} (h : M.start s) : Reachable M s :=
  ⟨s, [], h, Run.nil⟩

theorem reachable_next {M : Machine State Action} {s t : State} {a : Action}
    (h : Reachable M s) (step : M.next s a t) : Reachable M t := by
  obtain ⟨first, path, start, run⟩ := h
  exact ⟨first, path ++ [a], start, Run.snoc run step⟩

theorem run_preserves {M : Machine State Action} (inv : State → Prop)
    (keep : ∀ s a t, inv s → M.next s a t → inv t) (run : Run M s path t) (first : inv s) : inv t := by
  induction run with
  | nil => exact first
  | snoc before last ih => exact keep _ _ _ ih last

theorem reachable_invariant {M : Machine State Action} (inv : State → Prop) (base : ∀ s, M.start s → inv s)
    (keep : ∀ s a t, inv s → M.next s a t → inv t) (h : Reachable M s) : inv s := by
  obtain ⟨first, path, start, run⟩ := h
  exact run_preserves inv keep run (base first start)

theorem guarded_reachable {M : Machine State Action} (h : Reachable (M.guarded ok) s) : Reachable M s := by
  apply reachable_invariant (Reachable M) _ _ h
  · intro s start
    exact reachable_start start
  · intro s a t before step
    exact reachable_next before step.2

/-- Every step of `M` is a step of `N` as seen through `view`, or is not seen at all. -/
theorem reachable_view {View Event : Type} {M : Machine State Action} {N : Machine View Event} {s : State}
    (view : State → View) (base : ∀ s, M.start s → N.start (view s))
    (keep : ∀ s a t, Reachable M s → M.next s a t → view t = view s ∨ ∃ e, N.next (view s) e (view t))
    (h : Reachable M s) : Reachable N (view s) := by
  obtain ⟨first, path, start, run⟩ := h
  induction run with
  | nil => exact reachable_start (base _ start)
  | snoc before last ih =>
    rcases keep _ _ _ ⟨_, _, start, before⟩ last with same | ⟨e, step⟩
    · rw [same]
      exact ih
    · exact reachable_next ih step

theorem run_cons {M : Machine State Action} {s t u : State} {a : Action} {path : List Action}
    (first : M.next s a t) (run : Run M t path u) : Run M s (a :: path) u := by
  induction run with
  | nil => exact Run.snoc Run.nil first
  | snoc before last ih => exact Run.snoc ih last

theorem run_follow {M : Machine State Action} (allowed : ∀ s a t, step s a = some t → M.next s a t)
    {path : List Action} (run : path.foldlM step s = some t) : Run M s path t := by
  induction path generalizing s with
  | nil =>
    cases run
    exact Run.nil
  | cons a rest ih =>
    rw [List.foldlM_cons] at run
    cases first : step s a with
    | none => simp [first] at run
    | some u =>
      rw [first] at run
      exact run_cons (allowed s a u first) (ih run)

theorem reachable_run (h : Reachable M s) (run : Run M s path t) : Reachable M t := by
  induction run with
  | nil => exact h
  | snoc before last ih => exact reachable_next ih last

theorem reachable_follow {M : Machine State Action} (allowed : ∀ s a t, step s a = some t → M.next s a t)
    {path : List Action} (h : Reachable M s) (run : path.foldlM step s = some t) : Reachable M t :=
  reachable_run h (run_follow allowed run)

/-- How a computation may end: with an error of a given kind, or with a result as stated. -/
def Ends {Error Value : Type} (fails : Error → Prop) (post : Value → Prop) : Except Error Value → Prop
  | .error e => fails e
  | .ok v => post v

theorem ends_mono {Error Value : Type} {fails fails' : Error → Prop} {post post' : Value → Prop}
    {result : Except Error Value} (h : Ends fails post result) (worse : ∀ e, fails e → fails' e)
    (weaker : ∀ v, post v → post' v) : Ends fails' post' result := by
  cases result with
  | error e => exact worse e h
  | ok v => exact weaker v h

theorem ok_of_to_option {Error Value : Type} {result : Except Error Value} {v : Value}
    (h : result.toOption = some v) : result = .ok v := by
  cases result with
  | error e => cases h
  | ok u =>
    cases h
    rfl

end RtosTransition
