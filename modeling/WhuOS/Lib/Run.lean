/-!
# WhuOS.Lib.Run

Runs of a partial step function. `step s a` is the state after action `a`, or `none` when `a`
cannot be taken in `s`.

* `run step s as`       — the state after the actions `as`, executable.
* `RunOk step ok s as`  — every action of the run meets `ok` in the state it starts from.
* `run_inv`             — what one step keeps, a run keeps: the rule every safety theorem uses.
-/

namespace WhuOS
namespace Lib

variable {σ α : Type}

/-- Take the actions in order; `none` as soon as one of them cannot be taken. -/
def run (step : σ → α → Option σ) : σ → List α → Option σ
  | s, [] => some s
  | s, a :: as =>
    match step s a with
    | some s' => run step s' as
    | none => none

/-- Every action meets `ok` in the state it starts from. -/
def RunOk (step : σ → α → Option σ) (ok : σ → α → Prop) : σ → List α → Prop
  | _, [] => True
  | s, a :: as =>
    ok s a ∧
      match step s a with
      | some s' => RunOk step ok s' as
      | none => True

instance RunOk.decidable {step : σ → α → Option σ} {ok : σ → α → Prop}
    [∀ s a, Decidable (ok s a)] : ∀ s as, Decidable (RunOk step ok s as)
  | _, [] => isTrue trivial
  | s, a :: as =>
    have : Decidable (match step s a with
        | some s' => RunOk step ok s' as
        | none => True) :=
      match step s a with
      | some s' => RunOk.decidable s' as
      | none => isTrue trivial
    inferInstanceAs (Decidable (_ ∧ _))

variable {step : σ → α → Option σ}

theorem run_cons {s s'' : σ} {a : α} {as : List α}
    (h : run step s (a :: as) = some s'') :
    ∃ s', step s a = some s' ∧ run step s' as = some s'' := by
  simp only [run] at h
  split at h
  · rename_i s' hs; exact ⟨s', hs, h⟩
  · cases h

theorem run_append :
    ∀ (as : List α) {bs : List α} {s s' s'' : σ}, run step s as = some s' →
      run step s' bs = some s'' → run step s (as ++ bs) = some s'' := by
  intro as
  induction as with
  | nil => intro bs s s' s'' h1 h2; simp only [run] at h1; cases h1; exact h2
  | cons a as ih =>
    intro bs s s' s'' h1 h2
    obtain ⟨s1, hs, hr⟩ := run_cons h1
    simp only [List.cons_append, run, hs]
    exact ih hr h2

/-- The invariant rule: a property that every step meeting `ok` keeps holds after every run
whose steps meet `ok`. -/
theorem run_inv {ok : σ → α → Prop} {I : σ → Prop}
    (hstep : ∀ s a s', I s → ok s a → step s a = some s' → I s') :
    ∀ (as : List α) {s s' : σ}, I s → RunOk step ok s as → run step s as = some s' → I s' := by
  intro as
  induction as with
  | nil => intro s s' hi _ h; simp only [run] at h; cases h; exact hi
  | cons a as ih =>
    intro s s' hi hok h
    obtain ⟨s1, hs, hr⟩ := run_cons h
    have hok' : RunOk step ok s1 as := by have := hok.2; rwa [hs] at this
    exact ih (hstep s a s1 hi hok.1 hs) hok' hr

theorem runOk_true : ∀ (as : List α) (s : σ),
    RunOk step (fun _ _ => True) s as := by
  intro as
  induction as with
  | nil => intro s; trivial
  | cons a as ih =>
    intro s
    refine ⟨trivial, ?_⟩
    cases step s a with
    | none => trivial
    | some s' => exact ih s'

/-- A run is evaluated to the state it ends in. -/
theorem exists_of_any {P : σ → Prop} [DecidablePred P] {o : Option σ}
    (h : o.any (fun s => decide (P s)) = true) : ∃ s, o = some s ∧ P s := by
  cases o with
  | none => cases h
  | some s => exact ⟨s, rfl, of_decide_eq_true h⟩

end Lib
end WhuOS
