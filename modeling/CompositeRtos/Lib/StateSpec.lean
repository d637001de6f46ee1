import Mathlib.Logic.Basic

/-!
Programs with a state and exceptions against specifications without a state. The state
before and after a program are related by `kept`, the part of it that the specification
reads is the same in related states, and the program ends as the specification says. A
failure keeps the state too, unless it is one that is not `quiet`.
-/
namespace RtosStateSpec

variable {ε σ α β γ δ : Type}

theorem run_bind (program : EStateM ε σ α) (rest : α → EStateM ε σ γ) (s : σ) :
    (program >>= rest) s = match program s with
      | .ok a t => rest a t
      | .error e t => .error e t :=
  rfl

/-- From `s`, `program` ends as `spec`, with `post` between the two results and the state
    after the program. -/
def Meets (kept : σ → σ → Prop) (quiet : ε → Prop) (s : σ) (program : EStateM ε σ α) (spec : Except ε β)
    (post : α → β → σ → Prop) : Prop :=
  match program s with
  | .ok a t => kept s t ∧ ∃ b, spec = .ok b ∧ post a b t
  | .error e t => spec = .error e ∧ (quiet e → kept s t)

theorem meets_pure (same : kept s s) (holds : post a b s) : Meets kept quiet s (pure a) (.ok b) post :=
  ⟨same, b, rfl, holds⟩

theorem meets_bind (trans : ∀ s t u, kept s t → kept t u → kept s u) (first : Meets kept quiet s program spec mid)
    (later : ∀ a b t, kept s t → mid a b t → Meets kept quiet t (rest a) (specRest b) post) :
    Meets kept quiet s (program >>= rest) (spec >>= specRest) post := by
  unfold Meets at first
  unfold Meets
  rw [run_bind]
  cases run : program s with
  | error e t =>
    rw [run] at first
    obtain ⟨rfl, same⟩ := first
    exact ⟨rfl, same⟩
  | ok a t =>
    rw [run] at first
    obtain ⟨same, b, rfl, holds⟩ := first
    have after := later a b t same holds
    unfold Meets at after
    dsimp only
    cases next : rest a t with
    | ok c u =>
      rw [next] at after
      exact ⟨trans _ _ _ same after.1, after.2⟩
    | error e u =>
      rw [next] at after
      exact ⟨after.1, fun calm => trans _ _ _ same (after.2 calm)⟩

theorem meets_step {spec : Except ε δ} {mid : α → σ → Prop} (trans : ∀ s t u, kept s t → kept t u → kept s u)
    (first : ∃ a t, program s = .ok a t ∧ kept s t ∧ mid a t)
    (later : ∀ a t, kept s t → mid a t → Meets kept quiet t (rest a) spec post) :
    Meets kept quiet s (program >>= rest) spec post := by
  obtain ⟨a, t, run, same, holds⟩ := first
  have silent : Meets kept quiet s program (.ok ()) fun a (_ : Unit) t => mid a t := by
    unfold Meets
    rw [run]
    exact ⟨same, (), rfl, holds⟩
  exact meets_bind trans silent fun a _ t => later a t

theorem meets_ite [Decidable c] [Decidable c'] (together : c ↔ c')
    (then_ : c → Meets kept quiet s yes specYes post) (else_ : ¬ c → Meets kept quiet s no specNo post) :
    Meets kept quiet s (if c then yes else no) (if c' then specYes else specNo) post := by
  by_cases holds : c
  · rw [if_pos holds, if_pos (together.mp holds)]
    exact then_ holds
  · rw [if_neg holds, if_neg (fun h => holds (together.mpr h))]
    exact else_ holds

theorem meets_adapt (calm : ∀ e, quiet (f e) → quiet e) (meets : Meets kept quiet s program spec post) :
    Meets kept quiet s (EStateM.adaptExcept f program) (spec.mapError f) post := by
  unfold Meets at meets ⊢
  rw [EStateM.adaptExcept]
  cases run : program s with
  | ok a t =>
    rw [run] at meets
    obtain ⟨same, b, rfl, holds⟩ := meets
    exact ⟨same, b, rfl, holds⟩
  | error e t =>
    rw [run] at meets
    obtain ⟨rfl, same⟩ := meets
    exact ⟨rfl, fun quiet_f => same (calm e quiet_f)⟩

theorem meets_ok (meets : Meets kept quiet s program (.ok b) post) :
    ∃ a t, program s = .ok a t ∧ kept s t ∧ post a b t := by
  unfold Meets at meets
  split at meets
  · rename_i a t run
    obtain ⟨same, _, ends, holds⟩ := meets
    cases ends
    exact ⟨a, t, run, same, holds⟩
  · cases meets.1

end RtosStateSpec
