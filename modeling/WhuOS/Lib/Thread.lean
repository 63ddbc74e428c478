import WhuOS.Lib.Run
import WhuOS.Lib.Update

/-!
# WhuOS.Lib.Thread

Kernel threads that share memory, with spinlocks, sleeping and a device.

* `Thread S Λ α`  — the code of a thread: accesses to memory `S`, spinlocks `Λ`, and loops that
  wait. What the code reads from places that are not modelled is left open (`any`).
* `Sys`, `step`   — threads `P`, of which one takes a step at a time.
* `Calm s p`      — `p` does not wait for the device with a spinlock held, and sleeps only with
  the one that it passes to the scheduler.
* `Safe t H Q`    — a thread with code `t` and spinlocks `H` stays calm and ends with `Q`, as long as
  the tests of its code come out false. `safe_bind` composes it; `calm_of_run` is the rule for a
  whole system.
-/

namespace WhuOS
namespace Lib

/-- Where a thread stands in `while (c) sleep(chan, l)`; `own` is the lock of the thread itself. -/
inductive AwaitPc where
  /-- Holds `l`, about to test `c`. -/
  | test
  /-- `c` held: calls `sleep`, which takes `own`. -/
  | lockOwn
  /-- Gives up `l`. -/
  | unlock
  /-- Calls the scheduler, which asserts that one spinlock is held. -/
  | sched
  | asleep
  /-- The scheduler has switched back, with `own` held. -/
  | woken
  /-- Takes `l` again. -/
  | relock
  deriving DecidableEq

/-- Where a thread stands in `while (busy) { release(l); acquire(l); }`. -/
inductive PollPc where
  | test
  | unlock
  /-- No lock is held: an interrupt can come. -/
  | window
  deriving DecidableEq

inductive Thread (S Λ α : Type) : Type where
  | ret (a : α)
  /-- One access to memory: what it writes, and how the code goes on from what was there. -/
  | mem (f : S → S) (k : S → Thread S Λ α)
  | test (c : S → Bool) (k : Bool → Thread S Λ α)
  /-- A value that the model leaves open. -/
  | any (k : Nat → Thread S Λ α)
  | acquire (l : Λ) (k : Thread S Λ α)
  | release (l : Λ) (k : Thread S Λ α)
  | await (pc : AwaitPc) (own l : Λ) (c : S → Bool) (k : Thread S Λ α)
  /-- How often the loop is passed is up to the device. -/
  | poll (pc : PollPc) (l : Λ) (k : Thread S Λ α)
  /-- A call of the device driver. -/
  | io (k : Thread S Λ α)
  | panic

namespace Thread

variable {S Λ α β : Type}

protected def bind (x : Thread S Λ α) (g : α → Thread S Λ β) : Thread S Λ β :=
  match x with
  | ret a => g a
  | mem f k => mem f fun s => (k s).bind g
  | test c k => test c fun b => (k b).bind g
  | any k => any fun n => (k n).bind g
  | acquire l k => acquire l (k.bind g)
  | release l k => release l (k.bind g)
  | await pc own l c k => await pc own l c (k.bind g)
  | poll pc l k => poll pc l (k.bind g)
  | io k => io (k.bind g)
  | panic => panic

instance : Monad (Thread S Λ) where
  pure := ret
  bind := Thread.bind

/-! ## Safe code -/

/-- The spinlocks held in `while (c) sleep(chan, l)`. -/
def awaitHeld (own l : Λ) : AwaitPc → List Λ
  | .test | .lockOwn => [l]
  | .unlock => [own, l]
  | .sched | .woken => [own]
  | .asleep | .relock => []

def pollHeld (l : Λ) : PollPc → List Λ
  | .test | .unlock => [l]
  | .window => []

variable [DecidableEq Λ]

def Safe : Thread S Λ α → List Λ → (α → List Λ → Prop) → Prop
  | ret a, H, Q => Q a H
  | mem _ k, H, Q => ∀ s, (k s).Safe H Q
  | test _ k, H, Q => (k false).Safe H Q
  | any k, H, Q => ∀ n, (k n).Safe H Q
  | acquire l k, H, Q => l ∉ H → k.Safe (l :: H) Q
  | release l k, H, Q => l ∈ H → k.Safe (H.erase l) Q
  | await pc own l _ k, H, Q => H = awaitHeld own l pc ∧ own ≠ l ∧ k.Safe [l] Q
  | poll pc l k, H, Q => H = pollHeld l pc ∧ k.Safe [l] Q
  | io k, H, Q => H = [] ∧ k.Safe [] Q
  | panic, _, _ => True

theorem safe_bind {g : α → Thread S Λ β} {Q : β → List Λ → Prop} :
    ∀ (x : Thread S Λ α) (H : List Λ), (x >>= g).Safe H Q ↔ x.Safe H fun a H' => (g a).Safe H' Q := by
  intro x
  show ∀ H, (x.bind g).Safe H Q ↔ _
  induction x with
  | ret a => intro H; exact Iff.rfl
  | mem f k ih => intro H; exact forall_congr' fun s => ih s H
  | test c k ih => intro H; exact ih false H
  | any k ih => intro H; exact forall_congr' fun n => ih n H
  | acquire l k ih => intro H; exact imp_congr Iff.rfl (ih _)
  | release l k ih => intro H; exact imp_congr Iff.rfl (ih _)
  | await pc own l c k ih => intro H; exact and_congr Iff.rfl (and_congr Iff.rfl (ih _))
  | poll pc l k ih => intro H; exact and_congr Iff.rfl (ih _)
  | io k ih => intro H; exact and_congr Iff.rfl (ih _)
  | panic => intro H; exact Iff.rfl

theorem Safe.conseq {Q Q' : α → List Λ → Prop} (hQ : ∀ a H, Q a H → Q' a H) :
    ∀ {x : Thread S Λ α} {H : List Λ}, x.Safe H Q → x.Safe H Q' := by
  intro x
  induction x with
  | ret a => intro H h; exact hQ a H h
  | mem f k ih => intro H h s; exact ih s (h s)
  | test c k ih => intro H h; exact ih false h
  | any k ih => intro H h n; exact ih n (h n)
  | acquire l k ih => intro H h hl; exact ih (h hl)
  | release l k ih => intro H h hl; exact ih (h hl)
  | await pc own l c k ih => intro H h; exact ⟨h.1, h.2.1, ih h.2.2⟩
  | poll pc l k ih => intro H h; exact ⟨h.1, ih h.2⟩
  | io k ih => intro H h; exact ⟨h.1, ih h.2⟩
  | panic => intro H h; trivial

/-- With the spinlocks `H`, the next step of the code is allowed to wait. -/
def CalmWith : Thread S Λ α → List Λ → Prop
  | io _, H => H = []
  | poll .window _ _, H => H = []
  | await .lockOwn _ l _ _, H => H = [l]
  | await .sched own _ _ _, H => H = [own] ∧ H.length = 1
  | _, _ => True

instance : ∀ (t : Thread S Λ α) (H : List Λ), Decidable (t.CalmWith H)
  | io _, H => inferInstanceAs (Decidable (H = []))
  | poll .window _ _, H => inferInstanceAs (Decidable (H = []))
  | poll .test _ _, _ | poll .unlock _ _, _ => isTrue trivial
  | await .lockOwn _ l _ _, H => inferInstanceAs (Decidable (H = [l]))
  | await .sched own _ _ _, H => inferInstanceAs (Decidable (H = [own] ∧ H.length = 1))
  | await .test _ _ _ _, _ | await .unlock _ _ _ _, _ | await .asleep _ _ _ _, _
  | await .woken _ _ _ _, _ | await .relock _ _ _ _, _ => isTrue trivial
  | ret _, _ | mem _ _, _ | test _ _, _ | any _, _ | acquire _ _, _ | release _ _, _ | panic, _ =>
    isTrue trivial

theorem Safe.calmWith {x : Thread S Λ α} {H : List Λ} {Q : α → List Λ → Prop} (h : x.Safe H Q) :
    x.CalmWith H := by
  cases x with
  | io k => exact h.1
  | poll pc l k =>
    cases pc with
    | window => exact h.1
    | test | unlock => trivial
  | await pc own l c k =>
    cases pc with
    | lockOwn => exact h.1
    | sched => exact ⟨h.1, by rw [h.1]; rfl⟩
    | test | unlock | asleep | woken | relock => trivial
  | ret | mem | test | any | acquire | release | panic => trivial

/-- Code that starts and ends without a spinlock. -/
def Clean (x : Thread S Λ α) : Prop := x.Safe [] fun _ H => H = []

namespace Clean

theorem pure (a : α) : Clean (Pure.pure a : Thread S Λ α) := rfl

theorem panic : Clean (Thread.panic : Thread S Λ α) := trivial

theorem bind {x : Thread S Λ α} {g : α → Thread S Λ β} (hx : Clean x) (hg : ∀ a, Clean (g a)) :
    Clean (x >>= g) :=
  (safe_bind x []).mpr (Safe.conseq (fun a H h => by subst h; exact hg a) hx)

theorem ite {c : Prop} [Decidable c] {x y : Thread S Λ α} (hx : Clean x) (hy : Clean y) :
    Clean (if c then x else y) := by
  split
  · exact hx
  · exact hy

end Clean
end Thread

/-! ## Systems of threads -/

structure Sys (S Λ P : Type) where
  mem : S
  spin : Λ → Bool
  held : P → List Λ
  thread : P → Thread S Λ Unit

namespace Sys

open Thread

variable {S Λ P : Type} [DecidableEq Λ] [DecidableEq P]

def goto (s : Sys S Λ P) (p : P) (t : Thread S Λ Unit) : Sys S Λ P :=
  { s with thread := upd s.thread p t }

/-- `spinlock_acquire`: spins while another thread has the lock, panics if this one has. -/
def lock (s : Sys S Λ P) (p : P) (l : Λ) (k : Thread S Λ Unit) : Option (Sys S Λ P) :=
  if l ∈ s.held p then some (s.goto p .panic)
  else if s.spin l then none
  else some ({ s with spin := upd s.spin l true, held := upd s.held p (l :: s.held p) }.goto p k)

/-- `spinlock_release`: panics if this thread does not have the lock. -/
def unlock (s : Sys S Λ P) (p : P) (l : Λ) (k : Thread S Λ Unit) : Option (Sys S Λ P) :=
  if l ∈ s.held p then
    some ({ s with spin := upd s.spin l false, held := upd s.held p ((s.held p).erase l) }.goto p k)
  else some (s.goto p .panic)

/-- A step of the loop `while (c) sleep(chan, l)`. The number of spinlocks held is `noff`. That a
sleeper is not woken too early plays no role here, so it may go on at any time. -/
def awaitStep (s : Sys S Λ P) (p : P) (own l : Λ) (c : S → Bool) (k : Thread S Λ Unit) :
    AwaitPc → Option (Sys S Λ P)
  | .test => some (s.goto p (if c s.mem then .await .lockOwn own l c k else k))
  | .lockOwn => s.lock p own (.await .unlock own l c k)
  | .unlock => s.unlock p l (.await .sched own l c k)
  | .sched =>
    if (s.held p).length = 1 then s.unlock p own (.await .asleep own l c k)
    else some (s.goto p .panic)
  | .asleep => s.lock p own (.await .woken own l c k)
  | .woken => s.unlock p own (.await .relock own l c k)
  | .relock => s.lock p l (.await .test own l c k)

/-- A step of thread `p`; `a` is the open value, if there is one. -/
def stepThread (s : Sys S Λ P) (p : P) (a : Nat) : Option (Sys S Λ P) :=
  match s.thread p with
  | .ret _ => none
  | .mem f k => some ({ s with mem := f s.mem }.goto p (k s.mem))
  | .test c k => some (s.goto p (k (c s.mem)))
  | .any k => some (s.goto p (k a))
  | .acquire l k => s.lock p l k
  | .release l k => s.unlock p l k
  | .await pc own l c k => s.awaitStep p own l c k pc
  | .poll .test l k => some (s.goto p (if a = 0 then k else .poll .unlock l k))
  | .poll .unlock l k => s.unlock p l (.poll .window l k)
  | .poll .window l k => s.lock p l (.poll .test l k)
  | .io k => some (s.goto p k)
  | .panic => none

/-- `start p op`: a thread that has nothing to do begins operation `op`. -/
inductive Act (P Op : Type) where
  | start (p : P) (op : Op)
  | step (p : P) (a : Nat)

def step {Op : Type} (code : P → Op → Thread S Λ Unit) (s : Sys S Λ P) : Act P Op → Option (Sys S Λ P)
  | .start p op =>
    match s.thread p, s.held p with
    | .ret _, [] => some (s.goto p (code p op))
    | _, _ => none
  | .step p a => s.stepThread p a

/-- The test that `p` is about to make comes out false. -/
def testFails (s : Sys S Λ P) (p : P) : Bool :=
  match s.thread p with
  | .test c _ => !c s.mem
  | _ => true

def ActOk {Op : Type} (s : Sys S Λ P) : Act P Op → Prop
  | .start _ _ => True
  | .step p _ => s.testFails p = true

instance {Op : Type} (s : Sys S Λ P) : ∀ a : Act P Op, Decidable (s.ActOk a)
  | .start _ _ => isTrue trivial
  | .step p _ => inferInstanceAs (Decidable (s.testFails p = true))

/-- `p` calls the device with no spinlock held, and with interrupts on waits for it; it calls `sleep`
with no lock but the one that it passes, and the scheduler with its own. -/
def Calm (s : Sys S Λ P) (p : P) : Prop := (s.thread p).CalmWith (s.held p)

instance (s : Sys S Λ P) (p : P) : Decidable (s.Calm p) :=
  inferInstanceAs (Decidable ((s.thread p).CalmWith (s.held p)))

def SafeAt (s : Sys S Λ P) (p : P) : Prop := (s.thread p).Safe (s.held p) fun _ H => H = []

omit [DecidableEq P] in
theorem SafeAt.calm {s : Sys S Λ P} {p : P} (h : s.SafeAt p) : s.Calm p := Safe.calmWith h

omit [DecidableEq P] in
/-- What `p` does leaves the code and the locks of another thread alone. -/
theorem SafeAt.frame {s s' : Sys S Λ P} {q : P} (h : s.SafeAt q) (ht : s'.thread q = s.thread q)
    (hh : s'.held q = s.held q) : s'.SafeAt q := by
  unfold SafeAt
  rw [ht, hh]
  exact h

theorem safeAt_goto {s : Sys S Λ P} {p : P} {t : Thread S Λ Unit}
    (h : t.Safe (s.held p) fun _ H => H = []) : (s.goto p t).SafeAt p := by
  unfold SafeAt goto
  simp only [upd_same]
  exact h

theorem safeAt_lock {s s' : Sys S Λ P} {p : P} {l : Λ} {k : Thread S Λ Unit}
    (h : s.lock p l k = some s') (hk : l ∉ s.held p → k.Safe (l :: s.held p) fun _ H => H = []) :
    s'.SafeAt p := by
  unfold lock at h
  split at h
  · cases h; exact safeAt_goto trivial
  · rename_i hl
    split at h
    · cases h
    · cases h
      refine safeAt_goto ?_
      simp only [upd_same]
      exact hk hl

theorem safeAt_unlock {s s' : Sys S Λ P} {p : P} {l : Λ} {k : Thread S Λ Unit}
    (h : s.unlock p l k = some s')
    (hk : l ∈ s.held p → k.Safe ((s.held p).erase l) fun _ H => H = []) : s'.SafeAt p := by
  unfold unlock at h
  split at h
  · rename_i hl
    cases h
    refine safeAt_goto ?_
    simp only [upd_same]
    exact hk hl
  · cases h; exact safeAt_goto trivial

theorem safeAt_await {s s' : Sys S Λ P} {p : P} {own l : Λ} {c : S → Bool} {k : Thread S Λ Unit}
    {pc : AwaitPc} (hheld : s.held p = awaitHeld own l pc) (hne : own ≠ l)
    (hk : k.Safe [l] fun _ H => H = []) (h : s.awaitStep p own l c k pc = some s') : s'.SafeAt p := by
  cases pc with
  | test =>
    cases h
    refine safeAt_goto ?_
    rw [hheld]
    split
    · exact ⟨rfl, hne, hk⟩
    · exact hk
  | lockOwn => exact safeAt_lock h fun _ => ⟨by rw [hheld]; rfl, hne, hk⟩
  | unlock =>
    refine safeAt_unlock h fun _ => ⟨?_, hne, hk⟩
    rw [hheld, awaitHeld, List.erase_cons_tail (by simpa using hne), List.erase_cons_head]
    rfl
  | sched =>
    simp only [awaitStep] at h
    split at h
    · refine safeAt_unlock h fun _ => ⟨?_, hne, hk⟩
      rw [hheld, awaitHeld, List.erase_cons_head]
      rfl
    · cases h; exact safeAt_goto trivial
  | asleep => exact safeAt_lock h fun _ => ⟨by rw [hheld]; rfl, hne, hk⟩
  | woken =>
    refine safeAt_unlock h fun _ => ⟨?_, hne, hk⟩
    rw [hheld, awaitHeld, List.erase_cons_head]
    rfl
  | relock => exact safeAt_lock h fun _ => ⟨by rw [hheld]; rfl, hne, hk⟩

/-- A step of a safe thread whose test fails leaves it safe. -/
theorem safeAt_stepThread {s s' : Sys S Λ P} {p : P} {a : Nat} (hs : s.SafeAt p)
    (hok : s.testFails p = true) (h : s.stepThread p a = some s') : s'.SafeAt p := by
  unfold SafeAt at hs
  unfold stepThread at h
  cases ht : s.thread p with
  | ret => rw [ht] at h; cases h
  | panic => rw [ht] at h; cases h
  | mem f k => rw [ht] at h hs; cases h; exact safeAt_goto (hs _)
  | test c k =>
    rw [ht] at h hs
    cases h
    have hc : c s.mem = false := by simpa [testFails, ht] using hok
    rw [hc]
    exact safeAt_goto hs
  | any k => rw [ht] at h hs; cases h; exact safeAt_goto (hs a)
  | acquire l k => rw [ht] at h hs; exact safeAt_lock h hs
  | release l k => rw [ht] at h hs; exact safeAt_unlock h hs
  | await pc own l c k => rw [ht] at h hs; exact safeAt_await hs.1 hs.2.1 hs.2.2 h
  | poll pc l k =>
    rw [ht] at h hs
    obtain ⟨hheld, hk⟩ := hs
    cases pc with
    | test =>
      cases h
      refine safeAt_goto ?_
      rw [hheld]
      split
      · exact hk
      · exact ⟨rfl, hk⟩
    | unlock =>
      refine safeAt_unlock h fun _ => ⟨?_, hk⟩
      rw [hheld, pollHeld, List.erase_cons_head]
      rfl
    | window => exact safeAt_lock h fun _ => ⟨by rw [hheld]; rfl, hk⟩
  | io k =>
    rw [ht] at h hs
    cases h
    refine safeAt_goto ?_
    rw [hs.1]
    exact hs.2

/-- Only the thread that takes a step changes its code and its locks. -/
theorem stepThread_other {s s' : Sys S Λ P} {p q : P} {a : Nat} (hq : q ≠ p)
    (h : s.stepThread p a = some s') : s'.thread q = s.thread q ∧ s'.held q = s.held q := by
  have hgoto : ∀ (s : Sys S Λ P) t, (s.goto p t).thread q = s.thread q := fun s t => upd_of_ne hq
  have hlock : ∀ {l k}, s.lock p l k = some s' → s'.thread q = s.thread q ∧ s'.held q = s.held q := by
    intro l k h
    unfold lock at h
    split at h
    · cases h; exact ⟨hgoto _ _, rfl⟩
    · split at h
      · cases h
      · cases h; exact ⟨hgoto _ _, upd_of_ne hq⟩
  have hunlock : ∀ {l k}, s.unlock p l k = some s' →
      s'.thread q = s.thread q ∧ s'.held q = s.held q := by
    intro l k h
    unfold unlock at h
    split at h
    · cases h; exact ⟨hgoto _ _, upd_of_ne hq⟩
    · cases h; exact ⟨hgoto _ _, rfl⟩
  unfold stepThread at h
  cases ht : s.thread p with
  | ret => rw [ht] at h; cases h
  | panic => rw [ht] at h; cases h
  | mem f k => rw [ht] at h; cases h; exact ⟨hgoto _ _, rfl⟩
  | test c k => rw [ht] at h; cases h; exact ⟨hgoto _ _, rfl⟩
  | any k => rw [ht] at h; cases h; exact ⟨hgoto _ _, rfl⟩
  | acquire l k => rw [ht] at h; exact hlock h
  | release l k => rw [ht] at h; exact hunlock h
  | await pc own l c k =>
    rw [ht] at h
    cases pc with
    | test => cases h; exact ⟨hgoto _ _, rfl⟩
    | lockOwn | asleep | relock => exact hlock h
    | unlock | woken => exact hunlock h
    | sched =>
      simp only [awaitStep] at h
      split at h
      · exact hunlock h
      · cases h; exact ⟨hgoto _ _, rfl⟩
  | poll pc l k =>
    rw [ht] at h
    cases pc with
    | test => cases h; exact ⟨hgoto _ _, rfl⟩
    | unlock => exact hunlock h
    | window => exact hlock h
  | io k => rw [ht] at h; cases h; exact ⟨hgoto _ _, rfl⟩

variable {Op : Type} {code : P → Op → Thread S Λ Unit}

theorem safe_step (hcode : ∀ p op, Clean (code p op)) {s s' : Sys S Λ P} {a : Act P Op}
    (hs : ∀ p, s.SafeAt p) (hok : s.ActOk a) (h : s.step code a = some s') : ∀ p, s'.SafeAt p := by
  intro q
  cases a with
  | start p op =>
    simp only [step] at h
    split at h
    · rename_i ht hh
      cases h
      by_cases hq : q = p
      · subst hq
        refine safeAt_goto ?_
        rw [hh]
        exact hcode q op
      · exact (hs q).frame (upd_of_ne hq) rfl
    · cases h
  | step p a =>
    by_cases hq : q = p
    · subst hq; exact safeAt_stepThread (hs q) hok h
    · obtain ⟨ht, hh⟩ := stepThread_other hq h
      exact (hs q).frame ht hh

/-- If all operations are safe, then in every run in which no test comes out true every thread is
calm all the time. -/
theorem calm_of_run (hcode : ∀ p op, Clean (code p op)) {s s' : Sys S Λ P} (hs : ∀ p, s.SafeAt p)
    (as : List (Act P Op)) (hok : RunOk (step code) ActOk s as) (h : run (step code) s as = some s') :
    ∀ p, s'.Calm p := fun p =>
  (run_inv (I := fun s : Sys S Λ P => ∀ p, s.SafeAt p) (fun _ _ _ hs ho h => safe_step hcode hs ho h) as hs hok h
    p).calm

end Sys
end Lib
end WhuOS
