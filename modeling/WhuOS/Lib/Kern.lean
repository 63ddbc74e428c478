/-!
# WhuOS.Lib.Kern

Kernel code as state passing: a computation returns a value and a new state, or stops for good.
The state at the stop is kept, so that what was done before a panic can be talked about.

* `Stop`     — a panic with its message, a fault, or waiting forever.
* `wp x Q E` — `x` returns in a state with `Q`, or stops in one with `E`. `E` says which stops a
  result allows: none, those for lack of memory, or any.
* `wp_bind`, `wp_conseq`, `wp_forFrom` — sequence, consequence and the loop invariant.
* `mapState` — runs on two states that differ in what the code does not look at.
* `Keeps`, `Preserves`, `Stays` — what a part leaves alone, an invariant of it when it returns, and
  one that holds even when it stops.
-/

namespace WhuOS

/-- How kernel code ends without returning. -/
inductive Stop where
  /-- `panic(msg)`, or an `assert` that fails with `msg`. -/
  | panic (msg : String)
  /-- An access through a null or unmapped pointer. -/
  | fault
  /-- A loop, or a wait for a lock, that never ends. -/
  | hang
  deriving DecidableEq

/-- Kernel code over the state `σ`. -/
abbrev Kern (σ : Type) := EStateM Stop σ

namespace Kern

variable {σ α β : Type}

/-- `panic(msg)`. -/
def panic (msg : String) : Kern σ α := throw (.panic msg)

/-- `assert(cond, msg)`. -/
def assert (cond : Bool) (msg : String) : Kern σ Unit := if cond then pure () else panic msg

/-- The call returns, with a result that `p` accepts. -/
def returns (p : α → Bool) : EStateM.Result Stop σ α → Bool
  | .ok a _ => p a
  | .error _ _ => false

theorem exists_of_returns {p : α → Bool} {r : EStateM.Result Stop σ α} (h : returns p r = true) :
    ∃ a s, r = .ok a s ∧ p a = true := by
  cases r with
  | ok a s => exact ⟨a, s, rfl, h⟩
  | error e s => cases h

@[simp] theorem pure_run (a : α) (s : σ) : (pure a : Kern σ α) s = .ok a s := rfl

@[simp] theorem throw_run (e : Stop) (s : σ) : (throw e : Kern σ α) s = .error e s := rfl

@[simp] theorem panic_run (m : String) (s : σ) : (panic m : Kern σ α) s = .error (.panic m) s := rfl

@[simp] theorem get_run (s : σ) : (get : Kern σ σ) s = .ok s s := rfl

@[simp] theorem set_run (s s' : σ) : (set s' : Kern σ PUnit) s = .ok ⟨⟩ s' := rfl

@[simp] theorem modify_run (f : σ → σ) (s : σ) : (modify f : Kern σ PUnit) s = .ok ⟨⟩ (f s) := rfl

@[simp] theorem assert_true (m : String) : (assert true m : Kern σ Unit) = pure () := rfl

@[simp] theorem assert_false (m : String) : (assert false m : Kern σ Unit) = panic m := rfl

theorem bind_run (x : Kern σ α) (f : α → Kern σ β) (s : σ) :
    (x >>= f) s = match x s with
      | .ok a s' => f a s'
      | .error e s' => .error e s' := by
  show EStateM.bind x f s = _
  unfold EStateM.bind
  cases x s <;> rfl

variable {x : Kern σ α}

/-- The first part returns. -/
theorem bind_of_ok {f : α → Kern σ β} {s s' : σ} {a : α} (h : x s = .ok a s') :
    (x >>= f) s = f a s' := by
  rw [bind_run, h]

/-- The first part stops. -/
theorem bind_of_error {f : α → Kern σ β} {s s' : σ} {e : Stop}
    (h : x s = .error e s') : (x >>= f) s = .error e s' := by
  rw [bind_run, h]

/-- A sequence returns iff both parts do. -/
theorem bind_ok {f : α → Kern σ β} {s s'' : σ} {b : β} :
    (x >>= f) s = .ok b s'' ↔ ∃ a s', x s = .ok a s' ∧ f a s' = .ok b s'' := by
  rw [bind_run]
  constructor
  · intro h
    split at h
    · rename_i a s' hx; exact ⟨a, s', hx, h⟩
    · cases h
  · rintro ⟨a, s', hx, hf⟩; rw [hx]; exact hf

/-! ## Pre- and postconditions -/

/-- `x` returns with `Q` or stops with `E`. -/
def wp (x : Kern σ α) (Q : α → σ → Prop) (E : Stop → σ → Prop) (s : σ) : Prop :=
  match x s with
  | .ok a s' => Q a s'
  | .error e s' => E e s'

section Wp

variable {Q : α → σ → Prop} {E : Stop → σ → Prop} {s : σ}

@[simp] theorem wp_pure (a : α) : wp (pure a : Kern σ α) Q E s ↔ Q a s := Iff.rfl

@[simp] theorem wp_throw (e : Stop) : wp (throw e : Kern σ α) Q E s ↔ E e s := Iff.rfl

@[simp] theorem wp_panic (m : String) : wp (panic m : Kern σ α) Q E s ↔ E (.panic m) s := Iff.rfl

@[simp] theorem wp_get {Q : σ → σ → Prop} : wp (get : Kern σ σ) Q E s ↔ Q s s := Iff.rfl

@[simp] theorem wp_set {Q : PUnit → σ → Prop} (s' : σ) :
    wp (set s' : Kern σ PUnit) Q E s ↔ Q ⟨⟩ s' := Iff.rfl

@[simp] theorem wp_modify {Q : PUnit → σ → Prop} (f : σ → σ) :
    wp (modify f : Kern σ PUnit) Q E s ↔ Q ⟨⟩ (f s) := Iff.rfl

@[simp] theorem wp_bind {Q : β → σ → Prop} (x : Kern σ α) (f : α → Kern σ β) :
    wp (x >>= f) Q E s ↔ wp x (fun a s' => wp (f a) Q E s') E s := by
  simp only [wp, bind_run]
  cases x s <;> rfl

@[simp] theorem wp_assert {Q : Unit → σ → Prop} (c : Bool) (m : String) :
    wp (assert c m : Kern σ Unit) Q E s ↔ if c then Q () s else E (.panic m) s := by
  cases c <;> simp

variable {x : Kern σ α} {s' : σ}

theorem wp_conseq {Q' : α → σ → Prop} {E' : Stop → σ → Prop} (h : wp x Q E s)
    (hQ : ∀ a s', Q a s' → Q' a s') (hE : ∀ e s', E e s' → E' e s') : wp x Q' E' s := by
  unfold wp at h ⊢
  split at h
  · exact hQ _ _ h
  · exact hE _ _ h

/-- Two results about one computation. -/
theorem wp_and {Q' : α → σ → Prop} {E' : Stop → σ → Prop} (h : wp x Q E s)
    (h' : wp x Q' E' s) :
    wp x (fun a s' => Q a s' ∧ Q' a s') (fun e s' => E e s' ∧ E' e s') s := by
  unfold wp at h h' ⊢
  split at h
  · rename_i hx; rw [hx] at h'; exact ⟨h, h'⟩
  · rename_i hx; rw [hx] at h'; exact ⟨h, h'⟩

theorem wp_ok {a : α} (h : wp x Q E s) (hx : x s = .ok a s') : Q a s' := by
  unfold wp at h; rwa [hx] at h

theorem wp_of_ok {a : α} (hx : x s = .ok a s') (h : Q a s') :
    wp x Q E s := by
  unfold wp; rwa [hx]

theorem wp_of_error {e : Stop} (hx : x s = .error e s') (h : E e s') :
    wp x Q E s := by
  unfold wp; rwa [hx]

/-- What cannot stop returns. -/
theorem wp_returns (h : wp x Q E s) (hE : ∀ e s', ¬ E e s') :
    ∃ a s', x s = .ok a s' ∧ Q a s' := by
  unfold wp at h
  split at h
  · rename_i a s' hx; exact ⟨a, s', hx, h⟩
  · exact absurd h (hE _ _)

end Wp

/-- The state at the end, returned or stopped. -/
def after (x : Kern σ α) (s : σ) : σ :=
  match x s with
  | .ok _ s' => s'
  | .error _ s' => s'

theorem after_iff {P : σ → Prop} {s : σ} :
    P (after x s) ↔ wp x (fun _ s' => P s') (fun _ s' => P s') s := by
  unfold after wp
  cases x s <;> rfl

/-! ## Changes of the state that code does not notice -/

/-- A result with the state changed by `T`. -/
def mapState (T : σ → σ) : EStateM.Result Stop σ α → EStateM.Result Stop σ α
  | .ok a s => .ok a (T s)
  | .error e s => .error e (T s)

/-- If both parts of a sequence run in the same way on the changed state, then so does the whole. -/
theorem bind_mapState {T : σ → σ} {f : α → Kern σ β} {s : σ}
    (hx : x (T s) = mapState T (x s))
    (hf : ∀ a s', x s = .ok a s' → f a (T s') = mapState T (f a s')) :
    (x >>= f) (T s) = mapState T ((x >>= f) s) := by
  rw [bind_run, bind_run, hx]
  cases hr : x s with
  | ok a s' => exact hf a s' hr
  | error e s' => rfl

/-! ## Partial correctness -/

/-- If `x` returns, it does so with `Q`. -/
abbrev wlp (x : Kern σ α) (Q : α → σ → Prop) (s : σ) : Prop := wp x Q (fun _ _ => True) s

theorem wlp_true (x : Kern σ α) (s : σ) : wlp x (fun _ _ => True) s := by
  unfold wlp wp
  split <;> trivial

theorem wlp_conseq {Q Q' : α → σ → Prop} {s : σ} (h : wlp x Q s)
    (hQ : ∀ a s', Q a s' → Q' a s') : wlp x Q' s := wp_conseq h hQ fun _ _ h => h

theorem wlp_and {Q Q' : α → σ → Prop} {s : σ} (h : wlp x Q s) (h' : wlp x Q' s) :
    wlp x (fun a s' => Q a s' ∧ Q' a s') s :=
  wp_conseq (wp_and h h') (fun _ _ h => h) fun _ _ _ => trivial

theorem wlp_bind {f : α → Kern σ β} {Q : α → σ → Prop} {R : β → σ → Prop} {s : σ}
    (h : wlp x Q s) (hf : ∀ a s', Q a s' → wlp (f a) R s') : wlp (x >>= f) R s := by
  simp only [wp_bind]
  exact wlp_conseq h hf

theorem wlp_ite {c : Prop} [Decidable c] {y : Kern σ α} {Q : α → σ → Prop} {s : σ}
    (hx : c → wlp x Q s) (hy : ¬ c → wlp y Q s) : wlp (if c then x else y) Q s := by
  split
  · exact hx ‹c›
  · exact hy ‹¬ c›

variable {γ : Type}

/-- `x` leaves `f` of the state alone. -/
def Keeps (f : σ → γ) (x : Kern σ α) : Prop := ∀ s, wlp x (fun _ s' => f s' = f s) s

namespace Keeps

variable {f : σ → γ}

variable {x : Kern σ α}

theorem of_ok {s s' : σ} {a : α} (h : Keeps f x) (hx : x s = .ok a s') :
    f s' = f s := by
  have := h s
  rwa [wlp, wp, hx] at this

theorem pure (a : α) : Keeps f (Pure.pure a : Kern σ α) := fun _ => rfl

theorem get : Keeps f (MonadState.get : Kern σ σ) := fun _ => rfl

theorem throw (e : Stop) : Keeps f (MonadExcept.throw e : Kern σ α) := fun _ => trivial

theorem panic (m : String) : Keeps f (Kern.panic m : Kern σ α) := fun _ => trivial

theorem assert (c : Bool) (m : String) : Keeps f (Kern.assert c m : Kern σ Unit) := by
  cases c with
  | true => exact pure ()
  | false => exact panic m

theorem bind {g : α → Kern σ β} (hx : Keeps f x) (hg : ∀ a, Keeps f (g a)) :
    Keeps f (x >>= g) := fun s =>
  wlp_bind (hx s) fun a s' h => wlp_conseq (hg a s') fun _ _ h' => h'.trans h

/-- In a state whose `f` is known, what keeps it goes by. -/
theorem seq {g : α → Kern σ β} {v : γ} {Q : β → σ → Prop} (hx : Keeps f x)
    (hg : ∀ a s, f s = v → wlp (g a) Q s) (s : σ) (hs : f s = v) : wlp (x >>= g) Q s :=
  wlp_bind (hx s) fun a s' h => hg a s' (h.trans hs)

theorem ite {c : Prop} [Decidable c] {y : Kern σ α} (hx : Keeps f x) (hy : Keeps f y) :
    Keeps f (if c then x else y) := by
  split
  · exact hx
  · exact hy

end Keeps

/-! ## Counting loops -/

/-- `for (j = i; j < i + k; j++) f(j)`. -/
def forFrom (f : Nat → Kern σ Unit) : Nat → Nat → Kern σ Unit
  | _, 0 => pure ()
  | i, k + 1 => do
    f i
    forFrom f (i + 1) k

/-- The loop invariant: `I j` holds before the pass with index `j`. -/
theorem wp_forFrom {f : Nat → Kern σ Unit} {I : Nat → σ → Prop} {E : Stop → σ → Prop} :
    ∀ (k i : Nat) {s : σ},
      (∀ j s, i ≤ j → j < i + k → I j s → wp (f j) (fun _ s' => I (j + 1) s') E s) → I i s →
      wp (forFrom f i k) (fun _ s' => I (i + k) s') E s := by
  intro k
  induction k with
  | zero => intro i s _ hi; exact hi
  | succ k ih =>
    intro i s hstep hi
    simp only [forFrom, wp_bind]
    refine wp_conseq (hstep i s (Nat.le_refl i) (by omega) hi) ?_ (fun _ _ h => h)
    intro _ s' hi'
    have := ih (i + 1) (fun j s hj hlt => hstep j s (by omega) (by omega)) hi'
    rwa [show i + 1 + k = i + (k + 1) by omega] at this

theorem Keeps.forFrom {f : σ → γ} {g : Nat → Kern σ Unit} (hg : ∀ i, Keeps f (g i)) :
    ∀ k i, Keeps f (Kern.forFrom g i k) := by
  intro k
  induction k with
  | zero => intro i; exact .pure _
  | succ k ih => intro i; exact .bind (hg i) fun _ => ih (i + 1)

/-! ## Invariants -/

/-- If `I` holds at the start and `x` returns, then `I` holds. -/
def Preserves (I : σ → Prop) (x : Kern σ α) : Prop := ∀ s, I s → wlp x (fun _ s' => I s') s

namespace Preserves

variable {I : σ → Prop}

variable {x : Kern σ α}

theorem pure (a : α) : Preserves I (Pure.pure a : Kern σ α) := fun _ h => h

theorem get : Preserves I (MonadState.get : Kern σ σ) := fun _ h => h

theorem throw (e : Stop) : Preserves I (MonadExcept.throw e : Kern σ α) := fun _ _ => trivial

theorem panic (m : String) : Preserves I (Kern.panic m : Kern σ α) := fun _ _ => trivial

theorem assert (c : Bool) (m : String) : Preserves I (Kern.assert c m : Kern σ Unit) := by
  cases c with
  | true => exact pure ()
  | false => exact panic m

theorem bind {g : α → Kern σ β} (hx : Preserves I x) (hg : ∀ a, Preserves I (g a)) :
    Preserves I (x >>= g) := fun s h => wlp_bind (hx s h) fun a s' h' => hg a s' h'

theorem ite {c : Prop} [Decidable c] {y : Kern σ α} (hx : Preserves I x) (hy : Preserves I y) :
    Preserves I (if c then x else y) := by
  split
  · exact hx
  · exact hy

theorem forFrom {g : Nat → Kern σ Unit} (hg : ∀ i, Preserves I (g i)) :
    ∀ k i, Preserves I (Kern.forFrom g i k) := by
  intro k
  induction k with
  | zero => intro i; exact .pure _
  | succ k ih => intro i; exact .bind (hg i) fun _ => ih (i + 1)

end Preserves

/-! ## Invariants of code that may stop -/

/-- `I` holds at the end of `x`, returned or stopped, if it holds at the start. -/
def Stays (I : σ → Prop) (x : Kern σ α) : Prop :=
  ∀ s, I s → wp x (fun _ s' => I s') (fun _ s' => I s') s

namespace Stays

variable {I : σ → Prop}

theorem pure (a : α) : Stays I (Pure.pure a : Kern σ α) := fun _ h => h

theorem get : Stays I (MonadState.get : Kern σ σ) := fun _ h => h

theorem throw (e : Stop) : Stays I (MonadExcept.throw e : Kern σ α) := fun _ h => h

theorem panic (m : String) : Stays I (Kern.panic m : Kern σ α) := fun _ h => h

theorem bind {x : Kern σ α} {g : α → Kern σ β} (hx : Stays I x) (hg : ∀ a, Stays I (g a)) :
    Stays I (x >>= g) := fun s h =>
  (wp_bind x g).mpr (wp_conseq (hx s h) (fun a s' h' => hg a s' h') fun _ _ h' => h')

theorem ite {c : Prop} [Decidable c] {x y : Kern σ α} (hx : Stays I x) (hy : Stays I y) :
    Stays I (if c then x else y) := by
  split
  · exact hx
  · exact hy

theorem forFrom {g : Nat → Kern σ Unit} (hg : ∀ i, Stays I (g i)) :
    ∀ k i, Stays I (Kern.forFrom g i k) := by
  intro k
  induction k with
  | zero => intro i; exact .pure _
  | succ k ih => intro i; exact .bind (hg i) fun _ => ih (i + 1)

end Stays

end Kern
end WhuOS
