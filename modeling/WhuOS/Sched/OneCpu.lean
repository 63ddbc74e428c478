import WhuOS.Sched.Smp

/-!
# WhuOS.Sched.OneCpu

A process runs on one CPU at a time.

The state of a process and the `proc` of a CPU are set by different threads with a `swtch` in
between, but always under `p->lk`, which the one takes and the other gives up. `Inv` says for every
place of a thread or a scheduler which locks its CPU holds (`lock`), and for every process whether a
CPU has it: one that executes its thread, one that is about to switch to it, or one that has just
come back from it.
-/

namespace WhuOS
namespace Sched
namespace Smp

open Lib

variable {C K : Type}

/-- `c->proc` at a place of the CPU. -/
def procOf : Mode → Option Slot
  | .thread p | .sched (.back p) => some p
  | _ => none

/-- The process that a CPU has: `c->proc`, or the one that it is about to switch to. -/
def has : Mode → Option Slot
  | .thread p | .sched (.back p) | .sched (.switch p) => some p
  | _ => none

def loopHeld : Loop → List (Lk K)
  | .scan _ => []
  | .test i | .switch i | .back i | .unlock i => [.proc i]

def heldBy (s : State C K) (c : C) : List (Lk K) :=
  match s.mode c with
  | .sched l => loopHeld l
  | .thread p => heldIn p (s.pc p) (s.yield p)

/-- The state of a process at a place of its thread. -/
def stateAt : Pc K → Yield → PState
  | _, .sched => .runnable
  | .sleepSched _, _ => .sleeping
  | .exitSched, _ => .zombie
  | _, _ => .running

/-- The thread is switched away. -/
def off : Pc K → Yield → Bool
  | _, .away => true
  | .asleep _, .no | .dead, .no => true
  | _, _ => false

/-- What a slot keeps by itself. -/
def Local (p : Slot) (st : PState) (chan : Option (Chan K)) (pc : Pc K) (y : Yield) : Prop :=
  (y ≠ .no → held p pc = []) ∧ (y = .away → st = .runnable ∨ st = .running) ∧
  match pc with
  | .asleep w => y = .no ∧ st ≠ .zombie ∧ st ≠ .unused ∧ chan = some (w.chan p)
  | .dead => y = .no ∧ (st = .zombie ∨ st = .unused)
  | .sleepSched w => chan = some (w.chan p)
  | .sleepLock w | .sleepUnlock w | .sleepRelease w | .sleepRelock w => w ≠ .wait
  | .waitChildTest i | .waitChildUnlock i | .waitReaped i => i ≠ p
  | _ => True

structure Inv (s : State C K) : Prop where
  proc : ∀ c, s.proc c = procOf (s.mode c)
  one : ∀ c c' p, has (s.mode c) = some p → has (s.mode c') = some p → c = c'
  lock : ∀ l c, s.lk l = some c ↔ l ∈ heldBy s c
  on : ∀ c p, s.mode c = .thread p →
    s.state p = stateAt (s.pc p) (s.yield p) ∧ off (s.pc p) (s.yield p) = false
  switch : ∀ c p, s.mode c = .sched (.switch p) → s.state p = .running
  back : ∀ c p, s.mode c = .sched (.back p) → s.state p ≠ .running ∧ s.state p ≠ .unused
  running : ∀ p, s.state p = .running → ∃ c, s.mode c = .thread p ∨ s.mode c = .sched (.switch p)
  away : ∀ p, (∀ c, s.mode c ≠ .thread p) → off (s.pc p) (s.yield p) = true
  loc : ∀ p, Local p (s.state p) (s.sleepSpace p) (s.pc p) (s.yield p)

def Idle (s : State C K) (q : Slot) : Prop := ∀ c, has (s.mode c) ≠ some q

/-- A thread that is not `RUNNING` any more holds its lock until it is switched away. -/
theorem mem_heldIn_of_stateAt {p : Slot} {pc : Pc K} {y : Yield} (h : stateAt pc y ≠ .running)
    (hy : y ≠ .no → held p pc = []) : .proc p ∈ heldIn p pc y := by
  cases y with
  | sched => simp [heldIn]
  | no => cases pc <;> simp [stateAt, heldIn, held] at *
  | lock => cases pc <;> simp [stateAt, held] at *
  | set => simp [heldIn]
  | away => cases pc <;> simp [stateAt, held] at *
  | unlock => simp [heldIn]

namespace Inv

variable {s s' : State C K} {c : C} {p q : Slot}

theorem held_thread (hm : s.mode c = .thread p) : heldBy s c = heldIn p (s.pc p) (s.yield p) := by
  simp only [heldBy, hm]

theorem idle (h : Inv s) (hst : s.state q ≠ .running)
    (hl : ∀ c, s.lk (.proc q) = some c → has (s.mode c) ≠ some q) : Idle s q := by
  intro c hc
  refine hl c ((h.lock _ c).mpr ?_) hc
  cases hm : s.mode c with
  | thread r =>
    rw [hm] at hc
    obtain rfl : r = q := by simpa [has] using hc
    rw [held_thread hm]
    exact mem_heldIn_of_stateAt (by rw [← (h.on c r hm).1]; exact hst) (h.loc r).1
  | sched l =>
    rw [hm] at hc
    cases l with
    | back r => simp only [has, Option.some.injEq] at hc; simp [heldBy, hm, loopHeld, hc]
    | switch r => simp only [has, Option.some.injEq] at hc; simp [heldBy, hm, loopHeld, hc]
    | scan i => simp [has] at hc
    | test i => simp [has] at hc
    | unlock i => simp [has] at hc

/-- What one slot is before and after a step of another thread. -/
def Undisturbed (s s' : State C K) (q : Slot) : Prop :=
  (s'.pc q = s.pc q ∧ s'.yield q = s.yield q ∧ s'.state q = s.state q ∧
    s'.sleepSpace q = s.sleepSpace q) ∨
  Idle s q ∧ off (s'.pc q) (s'.yield q) = true ∧ s'.state q ≠ .running ∧
    Local q (s'.state q) (s'.sleepSpace q) (s'.pc q) (s'.yield q)

variable [DecidableEq C] [DecidableEq K]

omit [DecidableEq K] in
/-- The thread of `p` makes a step on its CPU; of the other slots only idle ones change. -/
theorem move (h : Inv s) (hm : s.mode c = .thread p) (hmode : s'.mode = s.mode)
    (hproc : s'.proc = s.proc)
    (hlk : ∀ l c', s'.lk l = some c' ↔
      if c' = c then l ∈ heldIn p (s'.pc p) (s'.yield p) else s.lk l = some c')
    (hon : s'.state p = stateAt (s'.pc p) (s'.yield p) ∧ off (s'.pc p) (s'.yield p) = false)
    (hloc : Local p (s'.state p) (s'.sleepSpace p) (s'.pc p) (s'.yield p))
    (hoth : ∀ q, q ≠ p → Undisturbed s s' q) : Inv s' := by
  have hcp : has (s.mode c) = some p := by rw [hm]; rfl
  refine ⟨fun c' => ?_, ?_, fun l c' => ?_, fun c' q hq => ?_, fun c' q hq => ?_, fun c' q hq => ?_,
    fun q hq => ?_, fun q hq => ?_, fun q => ?_⟩
  · rw [hmode, hproc]; exact h.proc c'
  · rw [hmode]; exact h.one
  · rw [hlk]
    by_cases hc : c' = c
    · subst hc; simp [heldBy, hmode, hm]
    · rw [if_neg hc, h.lock]
      simp only [heldBy, hmode]
      cases hm' : s.mode c' with
      | sched l => exact Iff.rfl
      | thread q =>
        have hq : q ≠ p := by
          rintro rfl
          exact hc (h.one c' c q (by rw [hm']; rfl) hcp)
        rcases hoth q hq with ⟨h1, h2, -⟩ | ⟨hi, -⟩
        · simp only [h1, h2]
        · exact absurd (by rw [hm']; rfl) (hi c')
  · rw [hmode] at hq
    by_cases hqp : q = p
    · subst hqp; exact hon
    · rcases hoth q hqp with ⟨h1, h2, h3, -⟩ | ⟨hi, -⟩
      · rw [h1, h2, h3]; exact h.on c' q hq
      · exact absurd (by rw [hq]; rfl) (hi c')
  · rw [hmode] at hq
    by_cases hqp : q = p
    · subst hqp
      rw [h.one c' c q (by rw [hq]; rfl) hcp, hm] at hq
      cases hq
    · rcases hoth q hqp with ⟨-, -, h3, -⟩ | ⟨hi, -⟩
      · rw [h3]; exact h.switch c' q hq
      · exact absurd (by rw [hq]; rfl) (hi c')
  · rw [hmode] at hq
    by_cases hqp : q = p
    · subst hqp
      rw [h.one c' c q (by rw [hq]; rfl) hcp, hm] at hq
      cases hq
    · rcases hoth q hqp with ⟨-, -, h3, -⟩ | ⟨hi, -⟩
      · rw [h3]; exact h.back c' q hq
      · exact absurd (by rw [hq]; rfl) (hi c')
  · rw [hmode]
    by_cases hqp : q = p
    · subst hqp; exact ⟨c, .inl hm⟩
    · rcases hoth q hqp with ⟨-, -, h3, -⟩ | ⟨-, -, hn, -⟩
      · rw [h3] at hq; exact h.running q hq
      · exact absurd hq hn
  · rw [hmode] at hq
    have hqp : q ≠ p := by rintro rfl; exact hq c hm
    rcases hoth q hqp with ⟨h1, h2, -⟩ | ⟨-, ho, -⟩
    · rw [h1, h2]; exact h.away q hq
    · exact ho
  · by_cases hqp : q = p
    · subst hqp; exact hloc
    · rcases hoth q hqp with ⟨h1, h2, h3, h4⟩ | ⟨-, -, -, hl⟩
      · rw [h1, h2, h3, h4]; exact h.loc q
      · exact hl

/-! ### The locks of a thread -/

variable {H : List (Lk K)} {l0 : Lk K} {pc : Pc K} {y : Yield} {l : Loop}

omit [DecidableEq K] in
theorem lock_stay (h : Inv s) (hm : s.mode c = .thread p) (hlk : s'.lk = s.lk)
    (hH : ∀ l, l ∈ H ↔ l ∈ heldIn p (s.pc p) (s.yield p)) (l : Lk K) (c' : C) :
    s'.lk l = some c' ↔ if c' = c then l ∈ H else s.lk l = some c' := by
  rw [hlk]
  split
  · rename_i hc; rw [hc, hH, ← held_thread hm]; exact h.lock l c
  · rfl

theorem lock_acquire (h : Inv s) (hm : s.mode c = .thread p)
    (hfree : s.lk l0 = none) (hlk : s'.lk = upd s.lk l0 (some c))
    (hH : ∀ l, l ∈ H ↔ l = l0 ∨ l ∈ heldIn p (s.pc p) (s.yield p)) (l : Lk K) (c' : C) :
    s'.lk l = some c' ↔ if c' = c then l ∈ H else s.lk l = some c' := by
  rw [hlk, upd_apply]
  by_cases hl : l = l0
  · subst hl
    rw [if_pos rfl, hH, hfree]
    by_cases hc : c' = c
    · simp [hc]
    · simp [hc, Ne.symm hc]
  · rw [if_neg hl, hH]
    by_cases hc : c' = c
    · simp only [hc, hl, false_or, if_true, ← held_thread hm]; exact h.lock l c
    · simp [hc]

theorem lock_release (h : Inv s) (hm : s.mode c = .thread p)
    (hheld : l0 ∈ heldIn p (s.pc p) (s.yield p)) (hlk : s'.lk = upd s.lk l0 none)
    (hH : ∀ l, l ∈ H ↔ l ≠ l0 ∧ l ∈ heldIn p (s.pc p) (s.yield p)) (l : Lk K) (c' : C) :
    s'.lk l = some c' ↔ if c' = c then l ∈ H else s.lk l = some c' := by
  have hl0 : s.lk l0 = some c := (h.lock l0 c).mpr (by rw [held_thread hm]; exact hheld)
  rw [hlk, upd_apply]
  by_cases hl : l = l0
  · subst hl
    rw [if_pos rfl, hH, hl0]
    by_cases hc : c' = c
    · simp [hc]
    · simp [hc, Ne.symm hc]
  · rw [if_neg hl, hH]
    by_cases hc : c' = c
    · simp only [hc, hl, not_false_eq_true, ne_eq, true_and, if_true, ← held_thread hm]
      exact h.lock l c
    · simp [hc]

/-! ### Steps of a thread that leave every process in its state -/

/-- Only the places of threads, locks and what `Inv` does not see differ. -/
structure Same (s s' : State C K) (p : Slot) (pc : Pc K) : Prop where
  mode : s'.mode = s.mode
  proc : s'.proc = s.proc
  state : s'.state = s.state
  sleepSpace : ∀ q, q ≠ p → s'.sleepSpace q = s.sleepSpace q
  yield : s'.yield = s.yield
  pc : s'.pc = upd s.pc p pc

omit [DecidableEq C] [DecidableEq K] in
theorem same_woken :
    Same s ({ s with sleepSpace := upd s.sleepSpace p none }.setPc p pc) p pc :=
  ⟨rfl, rfl, rfl, fun _ hq => upd_of_ne hq, rfl, rfl⟩

/-- The process runs at this place. -/
def Plain (pc : Pc K) : Prop := stateAt pc .no = .running ∧ off pc .no = false

omit [DecidableEq K] in
theorem quiet (h : Inv s) (hm : s.mode c = .thread p) (hy : s.yield p = .no)
    (hs : Same s s' p pc) (hold : stateAt (s.pc p) .no = .running) (hnew : Plain pc)
    (hloc : Local p .running (s'.sleepSpace p) pc .no)
    (hlk : ∀ l c', s'.lk l = some c' ↔ if c' = c then l ∈ held p pc else s.lk l = some c') :
    Inv s' := by
  have hst : s.state p = .running := by rw [(h.on c p hm).1, hy, hold]
  have hpc : s'.pc p = pc := by rw [hs.pc, upd_same]
  have hy' : s'.yield p = .no := by rw [hs.yield, hy]
  refine h.move hm hs.mode hs.proc ?_ ?_ ?_ fun q hq => .inl ⟨?_, ?_, ?_, hs.sleepSpace q hq⟩
  · intro l c'; rw [hpc, hy']; exact hlk l c'
  · rw [hpc, hy', hs.state, hst]; exact ⟨hnew.1.symm, hnew.2⟩
  · rw [hpc, hy', hs.state, hst]; exact hloc
  · rw [hs.pc, upd_of_ne hq]
  · rw [hs.yield]
  · rw [hs.state]

omit [DecidableEq K] in
theorem stay (h : Inv s) (hm : s.mode c = .thread p) (hy : s.yield p = .no)
    (hs : Same s s' p pc) (hlk : s'.lk = s.lk) (hold : stateAt (s.pc p) .no = .running)
    (hnew : Plain pc) (hloc : Local p .running (s'.sleepSpace p) pc .no)
    (hH : ∀ l, l ∈ held p pc ↔ l ∈ held p (s.pc p)) : Inv s' :=
  h.quiet hm hy hs hold hnew hloc (h.lock_stay hm hlk (by rw [hy]; exact hH))

theorem acquire (h : Inv s) (hm : s.mode c = .thread p)
    (hy : s.yield p = .no) (hs : (s.acquire c l0).map (·.setPc p pc) = some s')
    (hold : stateAt (s.pc p) .no = .running) (hnew : Plain pc)
    (hloc : s.lk l0 = none → Local p .running (s.sleepSpace p) pc .no)
    (hH : ∀ l, l ∈ held p pc ↔ l = l0 ∨ l ∈ held p (s.pc p)) : Inv s' := by
  simp only [State.acquire] at hs
  split at hs
  · rename_i hfree
    cases hs
    exact h.quiet hm hy ⟨rfl, rfl, rfl, fun _ _ => rfl, rfl, rfl⟩ hold hnew (hloc hfree)
      (h.lock_acquire hm hfree rfl (by rw [hy]; exact hH))
  · cases hs

theorem release (h : Inv s) (hm : s.mode c = .thread p)
    (hy : s.yield p = .no) (hs : Same s s' p pc) (hlk : s'.lk = upd s.lk l0 none)
    (hold : stateAt (s.pc p) .no = .running) (hnew : Plain pc)
    (hloc : Local p .running (s'.sleepSpace p) pc .no) (hheld : l0 ∈ held p (s.pc p))
    (hH : ∀ l, l ∈ held p pc ↔ l ≠ l0 ∧ l ∈ held p (s.pc p)) : Inv s' :=
  h.quiet hm hy hs hold hnew hloc
    (h.lock_release hm (by rw [hy]; exact hheld) hlk (by rw [hy]; exact hH))

/-! ### Steps that change the state of a process -/

omit [DecidableEq K] in
theorem setOwn (h : Inv s) (hm : s.mode c = .thread p) (hmode : s'.mode = s.mode)
    (hproc : s'.proc = s.proc) (hlk : s'.lk = s.lk)
    (hoth : ∀ q, q ≠ p → s'.pc q = s.pc q ∧ s'.yield q = s.yield q ∧ s'.state q = s.state q ∧
      s'.sleepSpace q = s.sleepSpace q)
    (hon : s'.state p = stateAt (s'.pc p) (s'.yield p) ∧ off (s'.pc p) (s'.yield p) = false)
    (hloc : Local p (s'.state p) (s'.sleepSpace p) (s'.pc p) (s'.yield p))
    (hH : ∀ l, l ∈ heldIn p (s'.pc p) (s'.yield p) ↔ l ∈ heldIn p (s.pc p) (s.yield p)) : Inv s' :=
  h.move hm hmode hproc (h.lock_stay hm hlk hH) hon hloc fun q hq => .inl (hoth q hq)

omit [DecidableEq K] in
theorem setOther (h : Inv s) (hm : s.mode c = .thread p) (hy : s.yield p = .no) (pc : Pc K)
    (hmode : s'.mode = s.mode) (hproc : s'.proc = s.proc) (hlk : s'.lk = s.lk) (hqp : q ≠ p)
    (hsame : ∀ r, r ≠ q → s'.pc r = upd s.pc p pc r ∧ s'.yield r = s.yield r ∧
      s'.state r = s.state r ∧ s'.sleepSpace r = s.sleepSpace r)
    (hold : stateAt (s.pc p) .no = .running) (hnew : Plain pc)
    (hpc : ∀ st ch, Local p st ch pc .no) (hH : ∀ l, l ∈ held p pc ↔ l ∈ held p (s.pc p))
    (hq : Idle s q ∧ off (s'.pc q) (s'.yield q) = true ∧ s'.state q ≠ .running ∧
      Local q (s'.state q) (s'.sleepSpace q) (s'.pc q) (s'.yield q)) : Inv s' := by
  obtain ⟨h1, h2, h3, h4⟩ := hsame p (Ne.symm hqp)
  rw [upd_same] at h1
  have hst : s.state p = .running := by rw [(h.on c p hm).1, hy, hold]
  refine h.move hm hmode hproc (h.lock_stay hm hlk ?_) ?_ ?_ fun r hr => ?_
  · rw [h1, h2, hy]; exact hH
  · rw [h1, h2, h3, hst, hy]; exact ⟨hnew.1.symm, hnew.2⟩
  · rw [h1, h2, hy]; exact hpc _ _
  · by_cases hrq : r = q
    · subst hrq; exact .inr hq
    · obtain ⟨g1, g2, g3, g4⟩ := hsame r hrq
      rw [upd_of_ne hr] at g1
      exact .inl ⟨g1, g2, g3, g4⟩

omit [DecidableEq C] [DecidableEq K] in
theorem idle_of_held (h : Inv s) (hm : s.mode c = .thread p) (hqp : q ≠ p)
    (hl : .proc q ∈ heldIn p (s.pc p) (s.yield p)) (hst : s.state q ≠ .running) : Idle s q := by
  refine h.idle hst fun c' hc' hhas => ?_
  have : s.lk (.proc q) = some c := (h.lock _ c).mpr (by rw [held_thread hm]; exact hl)
  rw [this] at hc'
  cases hc'
  rw [hm] at hhas
  exact hqp (Option.some.inj hhas).symm

omit [DecidableEq C] [DecidableEq K] in
theorem asleep_of_idle (h : Inv s) (hi : Idle s q) (hst : s.state q = .sleeping) :
    s.yield q = .no ∧ ∃ w, s.pc q = .asleep w ∧ s.sleepSpace q = some (w.chan q) := by
  have hoff := h.away q fun c hc => hi c (by rw [hc]; rfl)
  obtain ⟨h1, h2, h3⟩ := h.loc q
  cases hy : s.yield q with
  | away => rw [hst] at h2; rcases h2 hy with h | h <;> cases h
  | no =>
    rw [hy] at hoff
    cases hp : s.pc q with
    | asleep w => rw [hp] at h3; exact ⟨rfl, w, rfl, h3.2.2.2⟩
    | dead => rw [hp, hst] at h3; rcases h3.2 with h | h <;> cases h
    | _ => rw [hp] at hoff; cases hoff
  | _ => rw [hy] at hoff; cases hp : s.pc q <;> rw [hp] at hoff <;> cases hoff

omit [DecidableEq C] [DecidableEq K] in
theorem woken_ok (h : Inv s) (hi : Idle s q) (hst : s.state q = .sleeping) :
    off (s.pc q) (s.yield q) = true ∧
      Local q .runnable (s.sleepSpace q) (s.pc q) (s.yield q) := by
  obtain ⟨hy, w, hp, hc⟩ := h.asleep_of_idle hi hst
  rw [hy, hp, hc]
  exact ⟨rfl, by simp [Local]⟩

omit [DecidableEq C] in
theorem wakeIf_cases (s : State C K) (q : Slot) (chan : Chan K) :
    (s.state q = .sleeping ∧ s.sleepSpace q = some chan ∧
      wakeIf s q chan = s.setState q .runnable) ∨
    ¬ (s.state q = .sleeping ∧ s.sleepSpace q = some chan) ∧ wakeIf s q chan = s := by
  unfold wakeIf
  split
  · rename_i h; exact .inl ⟨h.1, h.2, rfl⟩
  · rename_i h; exact .inr ⟨h, rfl⟩

theorem wake (h : Inv s) (hm : s.mode c = .thread p) (hy : s.yield p = .no)
    {chan : Chan K} (hl : .proc q ∈ held p (s.pc p)) (hold : stateAt (s.pc p) .no = .running)
    (hnew : Plain pc) (hpc : ∀ st ch, Local p st ch pc .no)
    (hH : ∀ l, l ∈ held p pc ↔ l ∈ held p (s.pc p)) : Inv ((wakeIf s q chan).setPc p pc) := by
  rcases wakeIf_cases s q chan with ⟨hst, -, he⟩ | ⟨-, he⟩
  · rw [he]
    have hqp : q ≠ p := by
      rintro rfl
      rw [(h.on c q hm).1, hy, hold] at hst; cases hst
    have hi := h.idle_of_held hm hqp (by rw [hy]; exact hl) (by rw [hst]; simp)
    obtain ⟨ho, hloc⟩ := h.woken_ok hi hst
    refine h.setOther hm hy pc rfl rfl rfl hqp (fun r hr => ⟨rfl, rfl, ?_, rfl⟩) hold hnew
      hpc hH ⟨hi, ?_, ?_, ?_⟩
    · simp [State.setPc, State.setState, hr]
    · simpa [State.setPc, State.setState, hqp] using ho
    · simp [State.setPc, State.setState]
    · simpa [State.setPc, State.setState, hqp] using hloc
  · rw [he]
    exact h.stay hm hy ⟨rfl, rfl, rfl, fun _ _ => rfl, rfl, rfl⟩ rfl hold hnew (hpc _ _) hH

omit [DecidableEq K] in
theorem leave (h : Inv s) (hm : s.mode c = .thread p)
    (hmode : s'.mode = upd s.mode c (.sched (.back p))) (hproc : s'.proc = s.proc)
    (hlk : s'.lk = s.lk) (hstate : s'.state = s.state) (hspace : s'.sleepSpace = s.sleepSpace)
    (hoth : ∀ q, q ≠ p → s'.pc q = s.pc q ∧ s'.yield q = s.yield q)
    (hH : ∀ l, l ∈ heldIn p (s.pc p) (s.yield p) ↔ l = .proc p)
    (hst : s.state p ≠ .running ∧ s.state p ≠ .unused) (hoff : off (s'.pc p) (s'.yield p) = true)
    (hloc : Local p (s.state p) (s.sleepSpace p) (s'.pc p) (s'.yield p)) : Inv s' := by
  have hcp : has (s.mode c) = some p := by rw [hm]; rfl
  have hhas : ∀ c', has (s'.mode c') = has (s.mode c') := by
    intro c'
    rw [hmode, upd_apply]
    split
    · rename_i hc; rw [hc, hcp]; rfl
    · rfl
  have hmode' : ∀ {c' q}, s'.mode c' = .thread q → c' ≠ c ∧ s.mode c' = .thread q := by
    intro c' q hq
    rw [hmode, upd_apply] at hq
    split at hq
    · cases hq
    · rename_i hc; exact ⟨hc, hq⟩
  have hne : ∀ {c' q}, c' ≠ c → has (s.mode c') = some q → q ≠ p := by
    rintro c' q hc hq rfl
    exact hc (h.one c' c q hq hcp)
  refine ⟨fun c' => ?_, fun c1 c2 q h1 h2 => ?_, fun l c' => ?_, fun c' q hq => ?_,
    fun c' q hq => ?_, fun c' q hq => ?_, fun q hq => ?_, fun q hq => ?_, fun q => ?_⟩
  · rw [hproc, h.proc c', hmode, upd_apply]
    split
    · rename_i hc; rw [hc, hm]; rfl
    · rfl
  · rw [hhas] at h1 h2; exact h.one c1 c2 q h1 h2
  · rw [hlk, h.lock]
    simp only [heldBy, hmode, upd_apply]
    by_cases hc : c' = c
    · subst hc; simp only [hm, if_true, hH, loopHeld, List.mem_singleton]
    · rw [if_neg hc]
      cases hm' : s.mode c' with
      | sched l => exact Iff.rfl
      | thread q =>
        obtain ⟨h1, h2⟩ := hoth q (hne hc (by rw [hm']; rfl))
        simp only [h1, h2]
  · obtain ⟨hc, hq'⟩ := hmode' hq
    obtain ⟨h1, h2⟩ := hoth q (hne hc (by rw [hq']; rfl))
    rw [hstate, h1, h2]; exact h.on c' q hq'
  · rw [hmode, upd_apply] at hq
    split at hq
    · cases hq
    · rw [hstate]; exact h.switch c' q hq
  · rw [hmode, upd_apply] at hq
    rw [hstate]
    split at hq
    · cases hq; exact hst
    · exact h.back c' q hq
  · rw [hstate] at hq
    have hqp : q ≠ p := by rintro rfl; exact hst.1 hq
    obtain ⟨c', hc'⟩ := h.running q hq
    refine ⟨c', ?_⟩
    rw [hmode, upd_apply, if_neg]
    · exact hc'
    · rintro rfl
      rw [hm] at hc'
      rcases hc' with hc' | hc'
      · cases hc'; exact hqp rfl
      · cases hc'
  · by_cases hqp : q = p
    · subst hqp; exact hoff
    · obtain ⟨h1, h2⟩ := hoth q hqp
      rw [h1, h2]
      refine h.away q fun c' hc' => ?_
      refine hq c' ?_
      rw [hmode, upd_apply, if_neg]
      · exact hc'
      · rintro rfl; rw [hm] at hc'; cases hc'; exact hqp rfl
  · rw [hstate, hspace]
    by_cases hqp : q = p
    · subst hqp; exact hloc
    · obtain ⟨h1, h2⟩ := hoth q hqp
      rw [h1, h2]; exact h.loc q

/-! ### The code of a thread -/

omit [DecidableEq K] in
theorem lk_ne_of_ne_wait {w : Sleep K} (h : w ≠ .wait) : w.lk p ≠ .proc p := by
  cases w with
  | lock k => simp [Sleep.lk]
  | other n m => simp [Sleep.lk]
  | wait => exact absurd rfl h

omit [DecidableEq K] in
/-- Inside `proc_yield` the place in the code does not matter: the thread holds nothing but its own
lock there. -/
theorem at_yield {st : PState} {ch : Option (Chan K)}
    (h : Local p st ch pc y) (hy : y ≠ .no) :
    (∀ z, z ≠ .away → off pc z = false) ∧
      ∀ z, stateAt pc z = if z = .sched then .runnable else .running := by
  obtain ⟨h1, -, h3⟩ := h
  have hnil := h1 hy
  cases pc with
  | asleep w => exact absurd h3.1 hy
  | dead => exact absurd h3.1 hy
  | sleepSched w => cases hnil
  | exitSched => cases hnil
  | _ =>
    refine ⟨fun z hz => ?_, fun z => ?_⟩
    · cases z <;> first | rfl | exact absurd rfl hz
    · cases z <;> rfl

omit [DecidableEq K] in
theorem local_yield {st st' : PState} {ch : Option (Chan K)} {y' : Yield}
    (h : Local p st ch pc y) (hy : y ≠ .no) (hst : y' = .away → st' = .runnable ∨ st' = .running) :
    Local p st' ch pc y' := by
  obtain ⟨h1, -, h3⟩ := h
  refine ⟨fun _ => h1 hy, hst, ?_⟩
  cases pc with
  | asleep w => exact absurd h3.1 hy
  | dead => exact absurd h3.1 hy
  | _ => exact h3

theorem goYield (h : Inv s) (hm : s.mode c = .thread p) (hy : s.yield p ≠ .no)
    (hs : goYield s c p (s.yield p) = some s') : Inv s' := by
  obtain ⟨hst, -⟩ := h.on c p hm
  have hloc := h.loc p
  have hnil := hloc.1 hy
  obtain ⟨hoff, hat⟩ := at_yield hloc hy
  have hL : ∀ {y' : Yield} {st' : PState}, (y' = .away → st' = .runnable ∨ st' = .running) →
      Local p st' (s.sleepSpace p) (s.pc p) y' := fun hst' => local_yield hloc hy hst'
  rw [hat] at hst
  cases hyv : s.yield p with
  | no => exact absurd hyv hy
  | away => rw [hyv] at hs; cases hs
  | lock =>
    rw [hyv] at hs hst
    simp only [Smp.goYield, State.acquire] at hs
    split at hs
    · rename_i hfree
      cases hs
      refine h.move hm rfl rfl (h.lock_acquire hm hfree rfl ?_) ?_ ?_ fun q hq => .inl ?_
      · simp [State.setYield, heldIn, hyv, hnil]
      · simp [State.setYield, hoff, hat, hst]
      · simp only [State.setYield, upd_same]; exact hL (by simp)
      · simp [State.setYield, hq]
    · cases hs
  | set =>
    rw [hyv] at hs
    cases hs
    refine h.setOwn hm rfl rfl rfl (fun q hq => ?_) ?_ ?_ ?_
    · simp [State.setYield, State.setState, hq]
    · simp [State.setYield, State.setState, hoff, hat]
    · simp only [State.setYield, State.setState, upd_same]; exact hL (by simp)
    · simp [State.setYield, State.setState, heldIn, hyv]
  | sched =>
    rw [hyv] at hs hst
    cases hs
    refine h.leave hm rfl rfl rfl rfl rfl (fun q hq => ?_) ?_ ?_ ?_ ?_
    · simp [toSched, State.setMode, State.setYield, hq]
    · simp [heldIn, hyv]
    · simp [hst]
    · simp [toSched, State.setMode, State.setYield, off]
    · simp only [toSched, State.setMode, State.setYield, upd_same]
      exact hL (fun _ => .inl hst)
  | unlock =>
    rw [hyv] at hs hst
    cases hs
    have hown : .proc p ∈ heldIn p (s.pc p) (s.yield p) := by simp [heldIn, hyv]
    refine h.move hm rfl rfl (h.lock_release hm hown rfl ?_) ?_ ?_ fun q hq => .inl ?_
    · simp [State.release, State.setYield, heldIn, hyv, hnil]
    · simp [State.release, State.setYield, hoff, hat, hst]
    · simp only [State.release, State.setYield, upd_same]; exact hL (by simp)
    · simp [State.release, State.setYield, hq]

omit [DecidableEq C] [DecidableEq K] in
theorem other_ne (h : Inv s) (hm : s.mode c = .thread p) (hy : s.yield p = .no)
    (hold : stateAt (s.pc p) .no = .running) (hst : s.state q ≠ .running) : q ≠ p := by
  rintro rfl
  exact hst (by rw [(h.on c q hm).1, hy, hold])

omit [DecidableEq K] in
theorem next (h : Inv s) (hm : s.mode c = .thread p) (hy : s.yield p = .no)
    (hold : stateAt (s.pc p) .no = .running) (hnew : Plain pc)
    (hloc : Local p .running (s.sleepSpace p) pc .no)
    (hH : ∀ l, l ∈ held p pc ↔ l ∈ held p (s.pc p)) : Inv (s.setPc p pc) :=
  h.stay hm hy ⟨rfl, rfl, rfl, fun _ _ => rfl, rfl, rfl⟩ rfl hold hnew hloc hH

theorem unlock (h : Inv s) (hm : s.mode c = .thread p) (hy : s.yield p = .no)
    (hold : stateAt (s.pc p) .no = .running) (hnew : Plain pc)
    (hloc : Local p .running (s.sleepSpace p) pc .no) (hheld : l0 ∈ held p (s.pc p))
    (hH : ∀ l, l ∈ held p pc ↔ l ≠ l0 ∧ l ∈ held p (s.pc p)) :
    Inv ((s.release l0).setPc p pc) :=
  h.release hm hy ⟨rfl, rfl, rfl, fun _ _ => rfl, rfl, rfl⟩ rfl hold hnew hloc hheld hH

theorem goSleep (h : Inv s) (hm : s.mode c = .thread p) (hy : s.yield p = .no) (w : Sleep K)
    (hpc : s.pc p = .sleepLock w ∨ s.pc p = .sleepUnlock w ∨ s.pc p = .sleepSet w ∨
      s.pc p = .sleepSched w ∨ s.pc p = .woken w ∨ s.pc p = .sleepRelease w ∨
      s.pc p = .sleepRelock w)
    (hs : goThread s c p (s.pc p) = some s') : Inv s' := by
  have hloc := (h.loc p).2.2
  obtain ⟨hst, -⟩ := h.on c p hm
  rcases hpc with hpc | hpc | hpc | hpc | hpc | hpc | hpc <;> rw [hpc] at hs hloc hst
  · refine h.acquire hm hy hs (by rw [hpc]; rfl) ⟨rfl, rfl⟩ (fun _ => by simp [Local]; exact hloc) ?_
    simp [held, hpc]
  · cases hs
    have hne := lk_ne_of_ne_wait (p := p) hloc
    refine h.unlock hm hy (by rw [hpc]; rfl) ⟨rfl, rfl⟩ (by simp [Local]) (by simp [held, hpc]) ?_
    intro l
    simp only [held, hpc, List.mem_cons, List.not_mem_nil, or_false]
    constructor
    · rintro rfl; exact ⟨hne.symm, .inl rfl⟩
    · rintro ⟨h1, h2⟩; exact h2.resolve_right h1
  · cases hs
    refine h.setOwn hm rfl rfl rfl (fun q hq => ?_) ?_ ?_ ?_
    · simp [State.setPc, State.setState, hq]
    · simp [State.setPc, State.setState, hy, stateAt, off]
    · simp [State.setPc, State.setState, hy, Local]
    · simp [State.setPc, State.setState, hy, heldIn, held, hpc]
  · cases hs
    rw [hy] at hst
    refine h.leave hm rfl rfl rfl rfl rfl (fun q hq => ?_) ?_ ?_ ?_ ?_
    · simp [toSched, State.setMode, State.setPc, hq]
    · simp [heldIn, held, hy, hpc]
    · rw [hst]; simp [stateAt]
    · simp [toSched, State.setMode, State.setPc, hy, off]
    · simp only [toSched, State.setMode, State.setPc, upd_same, hy, hst]
      simpa [Local, stateAt] using hloc
  · cases hs
    by_cases hw : w = Sleep.wait
    · subst hw
      exact h.stay hm hy same_woken rfl (by rw [hpc]; rfl) ⟨rfl, rfl⟩ (by simp [Local, Sleep.ret])
        (by simp [held, hpc, Sleep.ret])
    · rw [if_neg hw]
      exact h.stay hm hy same_woken rfl (by rw [hpc]; rfl) ⟨rfl, rfl⟩ (by simpa [Local] using hw)
        (by simp [held, hpc])
  · cases hs
    refine h.unlock hm hy (by rw [hpc]; rfl) ⟨rfl, rfl⟩ (by simpa [Local] using hloc)
      (by simp [held, hpc]) (by simp [held, hpc])
  · cases w with
    | lock k =>
      exact h.acquire hm hy hs (by rw [hpc]; rfl) ⟨rfl, rfl⟩ (fun _ => by simp [Local, Sleep.ret])
        (by simp [held, hpc, Sleep.ret, Sleep.lk])
    | other n m =>
      exact h.acquire hm hy hs (by rw [hpc]; rfl) ⟨rfl, rfl⟩ (fun _ => by simp [Local, Sleep.ret])
        (by simp [held, hpc, Sleep.ret, Sleep.lk])
    | wait => exact absurd rfl hloc

omit [DecidableEq K] in
theorem wakeLk_ne (w : Wake K) (i : Slot) : w.lk ≠ .proc i := by
  cases w <;> simp [Wake.lk]

theorem goWake (h : Inv s) (hm : s.mode c = .thread p) (hy : s.yield p = .no) (w : Wake K)
    (hpc : (∃ i, s.pc p = .wakeLock w i) ∨ (∃ i, s.pc p = .wakeTest w i) ∨
      ∃ i, s.pc p = .wakeUnlock w i)
    (hs : goThread s c p (s.pc p) = some s') : Inv s' := by
  rcases hpc with ⟨i, hpc⟩ | ⟨i, hpc⟩ | ⟨i, hpc⟩ <;> rw [hpc] at hs
  · simp only [goThread] at hs
    split at hs
    · split at hs
      · cases hs
        exact h.next hm hy (by rw [hpc]; rfl) ⟨rfl, rfl⟩ (by simp [Local]) (by simp [held, hpc])
      · exact h.acquire hm hy hs (by rw [hpc]; rfl) ⟨rfl, rfl⟩ (fun _ => by simp [Local])
          (by simp [held, hpc])
    · cases hs
      cases w with
      | lock k =>
        exact h.next hm hy (by rw [hpc]; rfl) ⟨rfl, rfl⟩ (by simp [Local, Wake.ret])
          (by simp [held, hpc, Wake.ret, Wake.lk])
      | other n m =>
        exact h.next hm hy (by rw [hpc]; rfl) ⟨rfl, rfl⟩ (by simp [Local, Wake.ret])
          (by simp [held, hpc, Wake.ret, Wake.lk])
  · cases hs
    exact h.wake hm hy (by simp [held, hpc]) (by rw [hpc]; rfl) ⟨rfl, rfl⟩
      (fun _ _ => by simp [Local]) (by simp [held, hpc])
  · cases hs
    refine h.unlock hm hy (by rw [hpc]; rfl) ⟨rfl, rfl⟩ (by simp [Local]) (by simp [held, hpc]) ?_
    intro l
    simp only [held, hpc, List.mem_cons, List.not_mem_nil, or_false]
    constructor
    · rintro rfl; exact ⟨wakeLk_ne w i, .inr rfl⟩
    · rintro ⟨h1, h2⟩; exact h2.resolve_left h1

theorem goFork (h : Inv s) (hm : s.mode c = .thread p) (hy : s.yield p = .no)
    (hpc : (∃ i, s.pc p = .forkLock i) ∨ (∃ i, s.pc p = .forkTest i) ∨
      (∃ i, s.pc p = .forkSkip i) ∨ ∃ i, s.pc p = .forkUnlock i)
    (hs : goThread s c p (s.pc p) = some s') : Inv s' := by
  rcases hpc with ⟨i, hpc⟩ | ⟨i, hpc⟩ | ⟨i, hpc⟩ | ⟨i, hpc⟩ <;> rw [hpc] at hs
  · simp only [goThread] at hs
    split at hs
    · exact h.acquire hm hy hs (by rw [hpc]; rfl) ⟨rfl, rfl⟩ (fun _ => by simp [Local])
        (by simp [held, hpc])
    · cases hs
      exact h.next hm hy (by rw [hpc]; rfl) ⟨rfl, rfl⟩ (by simp [Local]) (by simp [held, hpc])
  · simp only [goThread] at hs
    split at hs
    · rename_i hu
      cases hs
      have hne := h.other_ne hm hy (by rw [hpc]; rfl) (q := i) (by rw [hu]; simp)
      have hi := h.idle_of_held hm hne (by simp [heldIn, held, hy, hpc]) (by rw [hu]; simp)
      refine h.setOther hm hy (.forkUnlock i) rfl rfl rfl hne (fun r hr => ?_)
        (by rw [hpc]; rfl) ⟨rfl, rfl⟩ (fun _ _ => by simp [Local]) (by simp [held, hpc])
        ⟨hi, ?_, ?_, ?_⟩
      · simp [newChild, State.setPc, hr, upd_apply]
      · simp [newChild, State.setPc, off]
      · simp [newChild, State.setPc]
      · simp [newChild, State.setPc, hne, Local, held]
    · cases hs
      exact h.next hm hy (by rw [hpc]; rfl) ⟨rfl, rfl⟩ (by simp [Local]) (by simp [held, hpc])
  · cases hs
    exact h.unlock hm hy (by rw [hpc]; rfl) ⟨rfl, rfl⟩ (by simp [Local]) (by simp [held, hpc])
      (by simp [held, hpc])
  · cases hs
    exact h.unlock hm hy (by rw [hpc]; rfl) ⟨rfl, rfl⟩ (by simp [Local]) (by simp [held, hpc])
      (by simp [held, hpc])

omit [DecidableEq C] [DecidableEq K] in
theorem dead_of_idle (h : Inv s) (hi : Idle s q) (hst : s.state q = .zombie ∨ s.state q = .unused) :
    s.yield q = .no ∧ s.pc q = .dead := by
  have hoff := h.away q fun c hc => hi c (by rw [hc]; rfl)
  obtain ⟨h1, h2, h3⟩ := h.loc q
  cases hy : s.yield q with
  | away =>
    have := h2 hy
    rcases hst with hst | hst <;> rw [hst] at this <;> rcases this with h | h <;> cases h
  | no =>
    rw [hy] at hoff
    cases hp : s.pc q with
    | asleep w =>
      rw [hp] at h3
      rcases hst with hst | hst
      · exact absurd hst h3.2.1
      · exact absurd hst h3.2.2.1
    | dead => exact ⟨rfl, rfl⟩
    | _ => rw [hp] at hoff; cases hoff
  | _ => rw [hy] at hoff; cases hp : s.pc q <;> rw [hp] at hoff <;> cases hoff

omit [DecidableEq K] in
theorem free (h : Inv s) (hm : s.mode c = .thread p) (hy : s.yield p = .no) {i : Slot}
    (hst : s.state i = .zombie ∨ s.state i = .unused) (hl : .proc i ∈ held p (s.pc p))
    (hold : stateAt (s.pc p) .no = .running) (hnew : Plain pc)
    (hpc : i ≠ p → ∀ st ch, Local p st ch pc .no)
    (hH : ∀ l, l ∈ held p pc ↔ l ∈ held p (s.pc p)) : Inv ((freeSlot s i).setPc p pc) := by
  have hrun : s.state i ≠ .running := by rcases hst with hst | hst <;> rw [hst] <;> simp
  have hne := h.other_ne hm hy hold hrun
  have hi := h.idle_of_held hm hne (by rw [hy]; exact hl) hrun
  obtain ⟨hyi, hpi⟩ := h.dead_of_idle hi hst
  refine h.setOther hm hy pc rfl rfl rfl hne (fun r hr => ?_) hold hnew (hpc hne) hH
    ⟨hi, ?_, ?_, ?_⟩
  · simp [freeSlot, State.setPc, hr]
  · simp [freeSlot, State.setPc, hne, hyi, hpi, off]
  · simp [freeSlot, State.setPc]
  · simp [freeSlot, State.setPc, hne, hyi, hpi, Local]

theorem goWait (h : Inv s) (hm : s.mode c = .thread p) (hy : s.yield p = .no)
    (hpc : s.pc p = .waitLock ∨ (∃ i k, s.pc p = .waitScan i k) ∨ (∃ i, s.pc p = .waitChildLock i) ∨
      (∃ i, s.pc p = .waitChildTest i) ∨ (∃ i, s.pc p = .waitChildUnlock i) ∨
      (∃ i, s.pc p = .waitReaped i) ∨ s.pc p = .waitUnlock)
    (hs : goThread s c p (s.pc p) = some s') : Inv s' := by
  have hloc := (h.loc p).2.2
  have hchild : ∀ i : Slot, i ≠ p → ∀ l : Lk K,
      l = .proc p ↔ l ≠ .proc i ∧ (l = .proc i ∨ l = .proc p) := by
    intro i hi l
    constructor
    · rintro rfl; exact ⟨by simpa using hi.symm, .inr rfl⟩
    · rintro ⟨h1, h2⟩; exact h2.resolve_left h1
  rcases hpc with hpc | ⟨i, k, hpc⟩ | ⟨i, hpc⟩ | ⟨i, hpc⟩ | ⟨i, hpc⟩ | ⟨i, hpc⟩ | hpc <;>
    rw [hpc] at hs hloc
  · exact h.acquire hm hy hs (by rw [hpc]; rfl) ⟨rfl, rfl⟩ (fun _ => by simp [Local])
      (by simp [held, hpc])
  · have hnext : ∀ pc : Pc K, Plain pc → Local p .running (s.sleepSpace p) pc .no →
        held p pc = [.proc p] → Inv (s.setPc p pc) := fun pc h1 h2 h3 =>
      h.next hm hy (by rw [hpc]; rfl) h1 h2 (by rw [h3, hpc]; exact fun _ => Iff.rfl)
    simp only [goThread] at hs
    split at hs
    · split at hs
      · cases hs; exact hnext _ ⟨rfl, rfl⟩ (by simp [Local]) rfl
      · cases hs; exact hnext _ ⟨rfl, rfl⟩ (by simp [Local]) rfl
    · split at hs
      · cases hs; exact hnext _ ⟨rfl, rfl⟩ (by simp [Local]) rfl
      · cases hs; exact hnext _ ⟨rfl, rfl⟩ (by simp [Local]) rfl
  · -- the lock of the child is another one, since that of `p` is taken
    have hown : s.lk (.proc p) = some c :=
      (h.lock _ c).mpr (by rw [held_thread hm]; simp [heldIn, held, hy, hpc])
    refine h.acquire hm hy hs (by rw [hpc]; rfl) ⟨rfl, rfl⟩ (fun hfree => ?_) (by simp [held, hpc])
    simp only [Local, ne_eq, not_true_eq_false, false_implies, reduceCtorEq, true_and]
    rintro rfl
    rw [hown] at hfree; cases hfree
  · simp only [goThread] at hs
    split at hs
    · rename_i hz
      cases hs
      exact h.free hm hy (.inl hz) (by simp [held, hpc]) (by rw [hpc]; rfl) ⟨rfl, rfl⟩
        (fun hne _ _ => by simpa [Local] using hne) (by simp [held, hpc])
    · cases hs
      exact h.next hm hy (by rw [hpc]; rfl) ⟨rfl, rfl⟩ (by simpa [Local] using hloc)
        (by simp [held, hpc])
  · cases hs
    refine h.unlock hm hy (by rw [hpc]; rfl) ⟨rfl, rfl⟩ (by simp [Local]) (by simp [held, hpc]) ?_
    simp only [held, hpc, List.mem_cons, List.not_mem_nil, or_false]
    exact hchild i hloc
  · cases hs
    refine h.unlock hm hy (by rw [hpc]; rfl) ⟨rfl, rfl⟩ (by simp [Local]) (by simp [held, hpc]) ?_
    simp only [held, hpc, List.mem_cons, List.not_mem_nil, or_false]
    exact hchild i hloc
  · cases hs
    exact h.unlock hm hy (by rw [hpc]; rfl) ⟨rfl, rfl⟩ (by simp [Local]) (by simp [held, hpc])
      (by simp [held, hpc])

theorem goExit (h : Inv s) (hm : s.mode c = .thread p) (hy : s.yield p = .no)
    (hpc : (∃ i, s.pc p = .exitScan i) ∨ (∃ i, s.pc p = .exitGive i) ∨ s.pc p = .exitParent ∨
      (∃ q, s.pc p = .exitWakeLock q) ∨ (∃ q, s.pc p = .exitWakeTest q) ∨
      (∃ q, s.pc p = .exitWakeUnlock q) ∨ s.pc p = .exitLock ∨ s.pc p = .exitSet ∨
      s.pc p = .exitSched)
    (hs : goThread s c p (s.pc p) = some s') : Inv s' := by
  obtain ⟨hst, -⟩ := h.on c p hm
  rcases hpc with ⟨i, hpc⟩ | ⟨i, hpc⟩ | hpc | ⟨q, hpc⟩ | ⟨q, hpc⟩ | ⟨q, hpc⟩ | hpc | hpc | hpc <;>
    rw [hpc] at hs hst
  · have hnext : ∀ pc : Pc K, Plain pc → Local p .running (s.sleepSpace p) pc .no →
        held p pc = [] → Inv (s.setPc p pc) := fun pc h1 h2 h3 =>
      h.next hm hy (by rw [hpc]; rfl) h1 h2 (by rw [h3, hpc]; exact fun _ => Iff.rfl)
    simp only [goThread] at hs
    split at hs
    · split at hs
      · cases hs; exact hnext _ ⟨rfl, rfl⟩ (by simp [Local]) rfl
      · cases hs; exact hnext _ ⟨rfl, rfl⟩ (by simp [Local]) rfl
    · cases hs; exact hnext _ ⟨rfl, rfl⟩ (by simp [Local]) rfl
  · cases hs
    exact h.stay hm hy ⟨rfl, rfl, rfl, fun _ _ => rfl, rfl, rfl⟩ rfl (by rw [hpc]; rfl) ⟨rfl, rfl⟩
      (by simp [Local]) (by simp [held, hpc])
  · simp only [goThread] at hs
    split at hs
    · cases hs
      exact h.next hm hy (by rw [hpc]; rfl) ⟨rfl, rfl⟩ (by simp [Local]) (by simp [held, hpc])
    · cases hs
  · exact h.acquire hm hy hs (by rw [hpc]; rfl) ⟨rfl, rfl⟩ (fun _ => by simp [Local])
      (by simp [held, hpc])
  · cases hs
    exact h.wake hm hy (by simp [held, hpc]) (by rw [hpc]; rfl) ⟨rfl, rfl⟩
      (fun _ _ => by simp [Local]) (by simp [held, hpc])
  · cases hs
    exact h.unlock hm hy (by rw [hpc]; rfl) ⟨rfl, rfl⟩ (by simp [Local]) (by simp [held, hpc])
      (by simp [held, hpc])
  · exact h.acquire hm hy hs (by rw [hpc]; rfl) ⟨rfl, rfl⟩ (fun _ => by simp [Local])
      (by simp [held, hpc])
  · cases hs
    refine h.setOwn hm rfl rfl rfl (fun q hq => ?_) ?_ ?_ ?_
    · simp [State.setPc, State.setState, hq]
    · simp [State.setPc, State.setState, hy, stateAt, off]
    · simp [State.setPc, State.setState, hy, Local]
    · simp [State.setPc, State.setState, hy, heldIn, held, hpc]
  · cases hs
    rw [hy] at hst
    refine h.leave hm rfl rfl rfl rfl rfl (fun q hq => ?_) ?_ ?_ ?_ ?_
    · simp [toSched, State.setMode, State.setPc, hq]
    · simp [heldIn, held, hy, hpc]
    · rw [hst]; simp [stateAt]
    · simp [toSched, State.setMode, State.setPc, hy, off]
    · simp only [toSched, State.setMode, State.setPc, upd_same, hy, hst]
      simp [Local, stateAt]

theorem goSleeplock (h : Inv s) (hm : s.mode c = .thread p) (hy : s.yield p = .no) (k : K)
    (hpc : s.pc p = .acqLock k ∨ s.pc p = .acqTest k ∨ s.pc p = .acqUnlock k ∨
      s.pc p = .relLock k ∨ s.pc p = .relClear k ∨ s.pc p = .relUnlock k)
    (hs : goThread s c p (s.pc p) = some s') : Inv s' := by
  rcases hpc with hpc | hpc | hpc | hpc | hpc | hpc <;> rw [hpc] at hs
  · exact h.acquire hm hy hs (by rw [hpc]; rfl) ⟨rfl, rfl⟩ (fun _ => by simp [Local])
      (by simp [held, hpc])
  · simp only [goThread] at hs
    split at hs
    · cases hs
      exact h.next hm hy (by rw [hpc]; rfl) ⟨rfl, rfl⟩ (by simp [Local])
        (by simp [held, hpc, Sleep.lk])
    · cases hs
      exact h.stay hm hy ⟨rfl, rfl, rfl, fun _ _ => rfl, rfl, rfl⟩ rfl (by rw [hpc]; rfl)
        ⟨rfl, rfl⟩ (by simp [Local]) (by simp [held, hpc])
  · cases hs
    exact h.release hm hy ⟨rfl, rfl, rfl, fun _ _ => rfl, rfl, rfl⟩ rfl (by rw [hpc]; rfl)
      ⟨rfl, rfl⟩ (by simp [Local]) (by simp [held, hpc]) (by simp [held, hpc])
  · exact h.acquire hm hy hs (by rw [hpc]; rfl) ⟨rfl, rfl⟩ (fun _ => by simp [Local])
      (by simp [held, hpc])
  · cases hs
    exact h.stay hm hy ⟨rfl, rfl, rfl, fun _ _ => rfl, rfl, rfl⟩ rfl (by rw [hpc]; rfl)
      ⟨rfl, rfl⟩ (by simp [Local]) (by simp [held, hpc, Wake.lk])
  · cases hs
    exact h.unlock hm hy (by rw [hpc]; rfl) ⟨rfl, rfl⟩ (by simp [Local]) (by simp [held, hpc])
      (by simp [held, hpc])

theorem goThread (h : Inv s) (hm : s.mode c = .thread p) (hy : s.yield p = .no)
    (hs : goThread s c p (s.pc p) = some s') : Inv s' := by
  cases hpc : s.pc p with
  | user => rw [hpc] at hs; cases hs
  | inSection n => rw [hpc] at hs; cases hs
  | asleep w => rw [hpc] at hs; cases hs
  | dead => rw [hpc] at hs; cases hs
  | acqLock k | acqTest k | acqUnlock k | relLock k | relClear k | relUnlock k =>
    exact h.goSleeplock hm hy k (by simp [hpc]) hs
  | sleepLock w | sleepUnlock w | sleepSet w | sleepSched w | woken w | sleepRelease w
  | sleepRelock w => exact h.goSleep hm hy w (by simp [hpc]) hs
  | wakeLock w i | wakeTest w i | wakeUnlock w i => exact h.goWake hm hy w (by simp [hpc]) hs
  | forkLock i | forkTest i | forkSkip i | forkUnlock i => exact h.goFork hm hy (by simp [hpc]) hs
  | waitLock | waitScan i k | waitChildLock i | waitChildTest i | waitChildUnlock i | waitReaped i
  | waitUnlock => exact h.goWait hm hy (by simp [hpc]) hs
  | exitScan i | exitGive i | exitParent | exitWakeLock q | exitWakeTest q | exitWakeUnlock q
  | exitLock | exitSet | exitSched => exact h.goExit hm hy (by simp [hpc]) hs

/-! ### The schedulers -/

omit [DecidableEq K] in
theorem loop (h : Inv s) {l' : Loop} (hm : s.mode c = .sched l) (hl : ∀ i, l ≠ .switch i)
    (hmode : s'.mode = upd s.mode c (.sched l')) (hproc : s'.proc = upd s.proc c none)
    (hnone : has (.sched l') = none)
    (hlk : ∀ l0 c', s'.lk l0 = some c' ↔
      if c' = c then l0 ∈ (loopHeld l' : List (Lk K)) else s.lk l0 = some c')
    (hsame : s'.state = s.state ∧ s'.sleepSpace = s.sleepSpace ∧ s'.pc = s.pc ∧
      s'.yield = s.yield) : Inv s' := by
  obtain ⟨h1, h2, h3, h4⟩ := hsame
  have hold : ∀ {c' m}, s'.mode c' = m → m ≠ .sched l' → s.mode c' = m := by
    intro c' m hc hne
    rw [hmode, upd_apply] at hc
    split at hc
    · exact absurd hc.symm hne
    · exact hc
  have hthread : ∀ {c' q}, s.mode c' = .thread q → s'.mode c' = .thread q := by
    intro c' q hc
    rw [hmode, upd_of_ne]
    · exact hc
    · rintro rfl; rw [hm] at hc; cases hc
  have hprocOf : procOf (.sched l') = none := by
    cases l' with
    | back i => cases hnone
    | _ => rfl
  have hsome : ∀ {c' q}, has (s'.mode c') = some q → has (s.mode c') = some q := by
    intro c' q hc
    rw [hold rfl (m := s'.mode c') (by intro he; rw [he, hnone] at hc; cases hc)]
    exact hc
  refine ⟨fun c' => ?_, fun c1 c2 q g1 g2 => h.one c1 c2 q (hsome g1) (hsome g2), fun l0 c' => ?_,
    fun c' q hq => ?_, fun c' q hq => ?_, fun c' q hq => ?_, fun q hq => ?_, fun q hq => ?_,
    fun q => ?_⟩
  · rw [hproc, hmode, upd_apply, upd_apply]
    split
    · exact hprocOf.symm
    · exact h.proc c'
  · rw [hlk]
    simp only [heldBy, hmode, upd_apply]
    by_cases hc : c' = c
    · simp [hc]
    · simp only [hc, if_false, h.lock, heldBy, h3, h4]
  · rw [h1, h3, h4]; exact h.on c' q (hold hq (by simp))
  · rw [h1]
    exact h.switch c' q (hold hq (by intro he; rw [← he] at hnone; cases hnone))
  · rw [h1]
    exact h.back c' q (hold hq (by intro he; rw [← he] at hnone; cases hnone))
  · rw [h1] at hq
    obtain ⟨c', hc'⟩ := h.running q hq
    refine ⟨c', ?_⟩
    rw [hmode, upd_of_ne]
    · exact hc'
    · rintro rfl
      rw [hm] at hc'
      rcases hc' with hc' | hc'
      · cases hc'
      · exact hl q (by simpa using hc')
  · rw [h3, h4]; exact h.away q fun c' hc' => hq c' (hthread hc')
  · rw [h1, h2, h3, h4]; exact h.loc q

omit [DecidableEq C] [DecidableEq K] in
theorem held_sched (hm : s.mode c = .sched l) : heldBy s c = loopHeld l := by
  simp only [heldBy, hm]

omit [DecidableEq K] in
theorem take (h : Inv s) (hm : s.mode c = .sched (.test p)) (hst : s.state p = .runnable) :
    Inv ((s.setState p .running).setMode c (.sched (.switch p))) := by
  have hlk : s.lk (.proc p) = some c := (h.lock _ c).mpr (by rw [held_sched hm]; simp [loopHeld])
  have hidle : Idle s p := h.idle (by rw [hst]; simp) fun c' hc' => by
    rw [hlk] at hc'
    cases hc'
    rw [hm]; simp [has]
  have hoff := h.away p fun c' hc' => hidle c' (by rw [hc']; rfl)
  simp only [State.setState, State.setMode]
  refine ⟨fun c' => ?_, fun c1 c2 q g1 g2 => ?_, fun l0 c' => ?_, fun c' q hq => ?_,
    fun c' q hq => ?_, fun c' q hq => ?_, fun q hq => ?_, fun q hq => ?_, fun q => ?_⟩
  · simp only [upd_apply]
    split
    · rename_i hc; rw [hc, h.proc, hm]; rfl
    · exact h.proc c'
  · simp only [upd_apply] at g1 g2
    split at g1
    · split at g2
      · rename_i e1 e2; rw [e1, e2]
      · cases g1; exact absurd g2 (hidle c2)
    · split at g2
      · cases g2; exact absurd g1 (hidle c1)
      · exact h.one c1 c2 q g1 g2
  · simp only [heldBy, upd_apply, h.lock]
    by_cases hc : c' = c
    · simp [hc, hm, loopHeld]
    · simp [hc]
  · simp only [upd_apply] at hq ⊢
    split at hq
    · cases hq
    · rw [if_neg]
      · exact h.on c' q hq
      · rintro rfl; exact hidle c' (by rw [hq]; rfl)
  · simp only [upd_apply] at hq ⊢
    split at hq
    · cases hq; rw [if_pos rfl]
    · rw [if_neg]
      · exact h.switch c' q hq
      · rintro rfl; exact hidle c' (by rw [hq]; rfl)
  · simp only [upd_apply] at hq ⊢
    split at hq
    · cases hq
    · rw [if_neg]
      · exact h.back c' q hq
      · rintro rfl; exact hidle c' (by rw [hq]; rfl)
  · simp only [upd_apply] at hq ⊢
    by_cases hqp : q = p
    · exact ⟨c, .inr (by rw [if_pos rfl, hqp])⟩
    · rw [if_neg hqp] at hq
      obtain ⟨c', hc'⟩ := h.running q hq
      refine ⟨c', ?_⟩
      rw [if_neg]
      · exact hc'
      · rintro rfl; rw [hm] at hc'; rcases hc' with hc' | hc' <;> cases hc'
  · simp only [upd_apply] at hq ⊢
    refine h.away q fun c' hc' => hq c' ?_
    rw [if_neg]
    · exact hc'
    · rintro rfl; rw [hm] at hc'; cases hc'
  · simp only [upd_apply]
    by_cases hqp : q = p
    · subst hqp
      rw [if_pos rfl]
      obtain ⟨l1, l2, l3⟩ := h.loc q
      refine ⟨l1, fun _ => .inr rfl, ?_⟩
      cases hp : s.pc q with
      | asleep w => rw [hp] at l3; exact ⟨l3.1, by simp, by simp, l3.2.2.2⟩
      | dead => rw [hp, hst] at l3; rcases l3.2 with g | g <;> cases g
      | _ => rw [hp] at l3; exact l3
    · rw [if_neg hqp]; exact h.loc q

omit [DecidableEq K] in
theorem enter (h : Inv s) (hm : s.mode c = .sched (.switch p))
    (hmode : s'.mode = upd s.mode c (.thread p)) (hproc : s'.proc = upd s.proc c (some p))
    (hlk : s'.lk = s.lk) (hstate : s'.state = s.state) (hspace : s'.sleepSpace = s.sleepSpace)
    (hpc : s'.pc = upd s.pc p pc) (hyield : s'.yield = upd s.yield p y)
    (hH : ∀ l : Lk K, l ∈ heldIn p pc y ↔ l = .proc p)
    (hon : stateAt pc y = .running ∧ off pc y = false)
    (hloc : Local p .running (s.sleepSpace p) pc y) : Inv s' := by
  have hst := h.switch c p hm
  have hcp : has (s.mode c) = some p := by rw [hm]; rfl
  have hhas : ∀ c', has (s'.mode c') = has (s.mode c') := by
    intro c'
    rw [hmode, upd_apply]
    split
    · rename_i hc; rw [hc, hcp]; rfl
    · rfl
  have hne : ∀ {c' q}, c' ≠ c → has (s.mode c') = some q → q ≠ p := by
    rintro c' q hc hq rfl
    exact hc (h.one c' c q hq hcp)
  refine ⟨fun c' => ?_, fun c1 c2 q g1 g2 => ?_, fun l0 c' => ?_, fun c' q hq => ?_,
    fun c' q hq => ?_, fun c' q hq => ?_, fun q hq => ?_, fun q hq => ?_, fun q => ?_⟩
  · rw [hproc, hmode, upd_apply, upd_apply]
    split
    · rfl
    · exact h.proc c'
  · rw [hhas] at g1 g2; exact h.one c1 c2 q g1 g2
  · rw [hlk, h.lock]
    simp only [heldBy, hmode, upd_apply]
    by_cases hc : c' = c
    · subst hc; simp [hm, loopHeld, hpc, hyield, hH]
    · rw [if_neg hc]
      cases hm' : s.mode c' with
      | sched l => exact Iff.rfl
      | thread q =>
        have hqp := hne hc (q := q) (by rw [hm']; rfl)
        simp [hpc, hyield, hqp]
  · rw [hmode, upd_apply] at hq
    split at hq
    · cases hq; rw [hstate, hpc, hyield, upd_same, upd_same, hst]; exact ⟨hon.1.symm, hon.2⟩
    · rename_i hc
      have hqp := hne hc (q := q) (by rw [hq]; rfl)
      rw [hstate, hpc, hyield, upd_of_ne hqp, upd_of_ne hqp]
      exact h.on c' q hq
  · rw [hmode, upd_apply] at hq
    split at hq
    · cases hq
    · rw [hstate]; exact h.switch c' q hq
  · rw [hmode, upd_apply] at hq
    split at hq
    · cases hq
    · rw [hstate]; exact h.back c' q hq
  · rw [hstate] at hq
    obtain ⟨c', hc'⟩ := h.running q hq
    refine ⟨c', ?_⟩
    rw [hmode, upd_apply]
    split
    · rename_i hc
      rw [hc, hm] at hc'
      rcases hc' with hc' | hc'
      · cases hc'
      · cases hc'; exact .inl rfl
    · exact hc'
  · have hqp : q ≠ p := by rintro rfl; exact hq c (by rw [hmode, upd_same])
    rw [hpc, hyield, upd_of_ne hqp, upd_of_ne hqp]
    refine h.away q fun c' hc' => hq c' ?_
    rw [hmode, upd_of_ne]
    · exact hc'
    · rintro rfl; rw [hm] at hc'; cases hc'
  · rw [hstate, hspace, hpc, hyield]
    by_cases hqp : q = p
    · subst hqp; rw [upd_same, upd_same, hst]; exact hloc
    · rw [upd_of_ne hqp, upd_of_ne hqp]; exact h.loc q

theorem goSched (h : Inv s) (hm : s.mode c = .sched l)
    (hs : goSched s c l = some s') : Inv s' := by
  have hproc : procOf (.sched l) = none → s.proc = upd s.proc c none := by
    intro hl
    rw [← hl, ← hm, ← h.proc c, upd_self]
  cases l with
  | scan i =>
    simp only [Smp.goSched, State.acquire] at hs
    split at hs
    · split at hs
      · rename_i hi hfree
        cases hs
        refine h.loop hm (by simp) rfl (hproc rfl) rfl (fun l0 c' => ?_) ⟨rfl, rfl, rfl, rfl⟩
        simp only [State.setMode, upd_apply, loopHeld, List.mem_singleton]
        have hno : s.lk l0 = some c → False := by
          rw [h.lock, held_sched hm]; simp [loopHeld]
        by_cases hl0 : l0 = .proc ⟨i, hi⟩
        · by_cases hc : c' = c
          · simp [hl0, hc]
          · simp [hl0, hc, Ne.symm hc, hfree]
        · by_cases hc : c' = c
          · simp only [hl0, hc, if_false, if_true, iff_false]; exact hno
          · simp [hl0, hc]
      · cases hs
    · cases hs
      refine h.loop hm (by simp) rfl (hproc rfl) rfl (fun l0 c' => ?_) ⟨rfl, rfl, rfl, rfl⟩
      by_cases hc : c' = c
      · simp only [hc, if_true, State.setMode, h.lock, held_sched hm, loopHeld]
      · simp [hc, State.setMode]
  | test i =>
    simp only [Smp.goSched] at hs
    split at hs
    · rename_i hst
      cases hs
      exact h.take hm hst
    · cases hs
      refine h.loop hm (by simp) rfl (hproc rfl) rfl (fun l0 c' => ?_) ⟨rfl, rfl, rfl, rfl⟩
      by_cases hc : c' = c
      · simp only [hc, if_true, State.setMode, h.lock, held_sched hm, loopHeld]
      · simp [hc, State.setMode]
  | switch i =>
    have hst := h.switch c i hm
    have hloc := h.loc i
    simp only [Smp.goSched, Smp.resume] at hs
    split at hs
    · rename_i hy
      cases hs
      have hy' : s.yield i ≠ .no := by rw [hy]; simp
      obtain ⟨hoff, hat⟩ := at_yield hloc hy'
      have hl : Local i .running (s.sleepSpace i) (s.pc i) .unlock :=
        local_yield hloc hy' (by simp)
      refine h.enter hm rfl rfl rfl rfl rfl (upd_self s.pc i).symm rfl (by simp [heldIn]) ?_ hl
      exact ⟨by rw [hat]; rfl, hoff _ (by simp)⟩
    · rename_i w hy hpc
      cases hs
      rw [hpc] at hloc
      refine h.enter hm rfl rfl rfl rfl rfl rfl (y := .no) ?_ (by simp [heldIn, held]) ⟨rfl, rfl⟩ ?_
      · rw [← hy]; exact (upd_self s.yield i).symm
      · simp [Local]
    · cases hs
  | back i =>
    cases hs
    refine h.loop hm (by simp) rfl rfl rfl (fun l0 c' => ?_) ⟨rfl, rfl, rfl, rfl⟩
    by_cases hc : c' = c
    · simp only [hc, if_true, State.setMode, h.lock, held_sched hm, loopHeld]
    · simp [hc, State.setMode]
  | unlock i =>
    cases hs
    have hown : s.lk (.proc i) = some c :=
      (h.lock _ c).mpr (by rw [held_sched hm]; simp [loopHeld])
    refine h.loop hm (by simp) rfl (hproc rfl) rfl (fun l0 c' => ?_) ⟨rfl, rfl, rfl, rfl⟩
    simp only [State.setMode, State.release, upd_apply, loopHeld]
    by_cases hl0 : l0 = .proc i
    · by_cases hc : c' = c
      · simp [hl0, hc]
      · simp [hl0, hc, Ne.symm hc, hown]
    · by_cases hc : c' = c
      · simp only [hl0, hc, if_false, if_true, h.lock, held_sched hm, loopHeld,
          List.mem_singleton, List.not_mem_nil]
      · simp [hl0, hc]

/-! ### Steps -/

theorem go (h : Inv s) (hs : go s c = some s') : Inv s' := by
  simp only [Smp.go] at hs
  split at hs
  · rename_i l hm; exact h.goSched hm hs
  · rename_i p hm
    split at hs
    · rename_i hy; exact h.goThread hm hy hs
    · rename_i hy; exact h.goYield hm (fun he => hy (he ▸ rfl)) hs

theorem call {op : Op K} (h : Inv s) (hm : s.mode c = .thread p) (hy : s.yield p = .no)
    (hs : call s c p (s.pc p) op = some s') : Inv s' := by
  cases hpc : s.pc p with
  | user =>
    rw [hpc] at hs
    have hnext : ∀ pc : Pc K, Plain pc → Local p .running (s.sleepSpace p) pc .no →
        held p pc = [] → Inv (s.setPc p pc) := fun pc h1 h2 h3 =>
      h.next hm hy (by rw [hpc]; rfl) h1 h2 (by rw [h3, hpc]; exact fun _ => Iff.rfl)
    cases op with
    | acquire k => cases hs; exact hnext _ ⟨rfl, rfl⟩ (by simp [Local]) rfl
    | release k =>
      simp only [Smp.call] at hs
      split at hs
      · cases hs
        exact h.stay hm hy ⟨rfl, rfl, rfl, fun _ _ => rfl, rfl, rfl⟩ rfl (by rw [hpc]; rfl)
          ⟨rfl, rfl⟩ (by simp [Local]) (by simp [held, hpc])
      · cases hs
    | fork => cases hs; exact hnext _ ⟨rfl, rfl⟩ (by simp [Local]) rfl
    | wait => cases hs; exact hnext _ ⟨rfl, rfl⟩ (by simp [Local]) rfl
    | exit =>
      simp only [Smp.call] at hs
      split at hs
      · cases hs
      · cases hs; exact hnext _ ⟨rfl, rfl⟩ (by simp [Local]) rfl
    | lock n =>
      exact h.acquire hm hy hs (by rw [hpc]; rfl) ⟨rfl, rfl⟩ (fun _ => by simp [Local])
        (by simp [held, hpc])
    | sleep m => cases hs
    | wakeup m => cases hs
    | unlock => cases hs
  | inSection n =>
    rw [hpc] at hs
    cases op with
    | sleep m =>
      cases hs
      exact h.next hm hy (by rw [hpc]; rfl) ⟨rfl, rfl⟩ (by simp [Local]) (by simp [held, hpc, Sleep.lk])
    | wakeup m =>
      cases hs
      exact h.next hm hy (by rw [hpc]; rfl) ⟨rfl, rfl⟩ (by simp [Local]) (by simp [held, hpc, Wake.lk])
    | unlock =>
      cases hs
      exact h.unlock hm hy (by rw [hpc]; rfl) ⟨rfl, rfl⟩ (by simp [Local]) (by simp [held, hpc])
        (by simp [held, hpc])
    | _ => cases hs
  | _ => rw [hpc] at hs; cases op <;> cases hs

omit [DecidableEq C] in
theorem wakeIdle (h : Inv s) {chan : Chan K} (hfree : s.lk (.proc q) = none) :
    Inv (wakeIf s q chan) := by
  rcases wakeIf_cases s q chan with ⟨hst, -, he⟩ | ⟨-, he⟩
  · rw [he]
    have hi := h.idle (by rw [hst]; simp) fun c hc => by rw [hfree] at hc; cases hc
    obtain ⟨-, hloc⟩ := h.woken_ok hi hst
    have hne : ∀ {c r}, has (s.mode c) = some r → r ≠ q := by
      rintro c r hc rfl; exact hi c hc
    have hsame : ∀ r, r ≠ q → (s.setState q .runnable).state r = s.state r := fun r hr => upd_of_ne hr
    refine ⟨h.proc, h.one, h.lock, fun c r hr => ?_, fun c r hr => ?_, fun c r hr => ?_,
      fun r hr => ?_, h.away, fun r => ?_⟩
    · have hr' : s.mode c = .thread r := hr
      rw [hsame r (hne (c := c) (by rw [hr']; rfl))]; exact h.on c r hr
    · have hr' : s.mode c = .sched (.switch r) := hr
      rw [hsame r (hne (c := c) (by rw [hr']; rfl))]; exact h.switch c r hr
    · have hr' : s.mode c = .sched (.back r) := hr
      rw [hsame r (hne (c := c) (by rw [hr']; rfl))]; exact h.back c r hr
    · by_cases hrq : r = q
      · subst hrq; simp [State.setState] at hr
      · rw [hsame r hrq] at hr; exact h.running r hr
    · by_cases hrq : r = q
      · subst hrq; simpa [State.setState] using hloc
      · rw [hsame r hrq]; exact h.loc r
  · rw [he]; exact h

omit [DecidableEq K] in
theorem preempt (h : Inv s) (hm : s.mode c = .thread p) (hi : interruptible s c = true) :
    Inv (s.setYield p .lock) := by
  simp only [interruptible, hm, Bool.decide_and, Bool.and_eq_true, decide_eq_true_eq] at hi
  obtain ⟨hy, hnil⟩ := hi
  obtain ⟨hst, hoff⟩ := h.on c p hm
  obtain ⟨l1, l2, l3⟩ := h.loc p
  rw [hy] at hst hoff
  have hpc : stateAt (s.pc p) .lock = .running ∧ off (s.pc p) .lock = false ∧
      stateAt (s.pc p) .no = .running := by
    cases hp : s.pc p with
    | sleepSched w => rw [hp] at hnil; cases hnil
    | exitSched => rw [hp] at hnil; cases hnil
    | _ => exact ⟨rfl, rfl, rfl⟩
  refine h.setOwn hm rfl rfl rfl (fun q hq => ?_) ?_ ?_ ?_
  · simp [State.setYield, hq]
  · simp [State.setYield, hpc, hst]
  · simp only [State.setYield, upd_same]
    refine ⟨fun _ => hnil, by simp, ?_⟩
    cases hp : s.pc p with
    | asleep w => rw [hp] at hoff; cases hoff
    | dead => rw [hp] at hoff; cases hoff
    | _ => rw [hp] at l3; exact l3
  · simp [State.setYield, heldIn, hy, hnil]

theorem step {a : Act C K} (h : Inv s) (hs : step s a = some s') : Inv s' := by
  cases a with
  | go c => exact h.go hs
  | call c op =>
    simp only [Smp.step] at hs
    split at hs
    · rename_i p hm
      split at hs
      · rename_i hy; exact h.call hm hy hs
      · cases hs
    · cases hs
  | starve c stack =>
    simp only [Smp.step] at hs
    split at hs
    · rename_i p hm
      split at hs
      · rename_i i hy hpc
        split at hs
        · rename_i hu
          cases hs
          cases stack with
          | true =>
            exact h.free hm hy (.inr hu) (by simp [held, hpc]) (by rw [hpc]; rfl) ⟨rfl, rfl⟩
              (fun _ _ _ => by simp [Local]) (by simp [held, hpc])
          | false =>
            exact h.next hm hy (by rw [hpc]; rfl) ⟨rfl, rfl⟩ (by simp [Local]) (by simp [held, hpc])
        · cases hs
      · cases hs
    · cases hs
  | preempt c =>
    simp only [Smp.step] at hs
    split at hs
    · rename_i p hm
      split at hs
      · rename_i hi; cases hs; exact h.preempt hm hi
      · cases hs
    · cases hs
  | interrupt c m i =>
    simp only [Smp.step] at hs
    split at hs
    · rename_i hi; cases hs; exact h.wakeIdle hi.2
    · cases hs

omit [DecidableEq C] [DecidableEq K] in
theorem boot : Inv (boot : State C K) := by
  have hpz : ∀ p, p = proczero ∨ p ≠ proczero := fun p => Decidable.em _
  refine ⟨fun c => rfl, fun c c' p hc => (by cases hc), fun l c => ?_, fun c p hc => (by cases hc),
    fun c p hc => (by cases hc), fun c p hc => (by cases hc), fun p hp => ?_, fun p _ => ?_,
    fun p => ?_⟩
  · simp [Smp.boot, heldBy, loopHeld]
  · rcases hpz p with rfl | hne
    · simp [Smp.boot] at hp
    · simp [Smp.boot, hne] at hp
  · rcases hpz p with rfl | hne
    · simp [Smp.boot, off]
    · simp [Smp.boot, hne, off]
  · rcases hpz p with rfl | hne
    · simp [Smp.boot, Local, held]
    · simp [Smp.boot, hne, Local]

end Inv

/-! ## The transitions of `proc.h` -/

/-- The changes of state that `proc.h` lists. -/
inductive Listed : PState → PState → Prop where
  | init : Listed .unused .runnable
  | run : Listed .runnable .running
  | yield : Listed .running .runnable
  | sleep : Listed .running .sleeping
  | wake : Listed .sleeping .runnable
  | exit : Listed .running .zombie
  | kill : Listed .runnable .zombie
  | reap : Listed .zombie .unused

def Follows (s s' : State C K) : Prop := ∀ p, s'.state p = s.state p ∨ Listed (s.state p) (s'.state p)

variable [DecidableEq C] [DecidableEq K] {s s' : State C K} {c : C} {p q : Slot}

omit [DecidableEq C] [DecidableEq K] in
theorem Follows.refl (h : s'.state = s.state) : Follows s s' := fun p => .inl (congrFun h p)

omit [DecidableEq C] [DecidableEq K] in
theorem Follows.upd {st : PState} (h : s'.state = upd s.state q st) (hl : Listed (s.state q) st) :
    Follows s s' := by
  intro p
  rw [h, upd_apply]
  split
  · rename_i hp; rw [hp]; exact .inr hl
  · exact .inl rfl

omit [DecidableEq C] in
theorem follows_acquire {l : Lk K} {f : State C K → State C K}
    (hs : (s.acquire c l).map f = some s') (hf : ∀ t, (f t).state = t.state) : Follows s s' := by
  simp only [State.acquire] at hs
  split at hs
  · cases hs; exact .refl (hf _)
  · cases hs

omit [DecidableEq C] in
theorem follows_wakeIf {chan : Chan K} (h : s'.state = (wakeIf s q chan).state) : Follows s s' := by
  rcases Inv.wakeIf_cases s q chan with ⟨hst, -, he⟩ | ⟨-, he⟩
  · rw [he] at h
    exact .upd h (by rw [hst]; exact .wake)
  · rw [he] at h; exact .refl h

theorem follows_goThread (hst : s.state p = stateAt (s.pc p) .no)
    (hs : goThread s c p (s.pc p) = some s') : Follows s s' := by
  have hacq : ∀ {l : Lk K} {pc : Pc K}, (s.acquire c l).map (·.setPc p pc) = some s' → Follows s s' :=
    fun hs => follows_acquire hs fun _ => rfl
  cases hpc : s.pc p with
  | user | inSection n | asleep w | dead => rw [hpc] at hs; cases hs
  | acqLock k | relLock k | sleepLock w | sleepRelock w | waitLock | waitChildLock i
  | exitWakeLock q | exitLock => rw [hpc] at hs; exact hacq hs
  | acqUnlock k | relClear k | relUnlock k | sleepUnlock w | sleepSched w | woken w
  | sleepRelease w | wakeUnlock w i | forkSkip i | forkUnlock i | waitChildUnlock i | waitReaped i
  | waitUnlock | exitGive i | exitWakeUnlock q | exitSched =>
    rw [hpc] at hs; cases hs; exact .refl rfl
  | sleepSet w =>
    rw [hpc] at hs hst; cases hs
    exact .upd rfl (by rw [hst]; exact .sleep)
  | exitSet =>
    rw [hpc] at hs hst; cases hs
    exact .upd rfl (by rw [hst]; exact .exit)
  | wakeTest w i => rw [hpc] at hs; cases hs; exact follows_wakeIf rfl
  | exitWakeTest q => rw [hpc] at hs; cases hs; exact follows_wakeIf rfl
  | acqTest k =>
    rw [hpc] at hs
    simp only [goThread] at hs
    split at hs <;> cases hs <;> exact .refl rfl
  | wakeLock w i =>
    rw [hpc] at hs
    simp only [goThread] at hs
    split at hs
    · split at hs
      · cases hs; exact .refl rfl
      · exact hacq hs
    · cases hs; exact .refl rfl
  | forkLock i =>
    rw [hpc] at hs
    simp only [goThread] at hs
    split at hs
    · exact hacq hs
    · cases hs; exact .refl rfl
  | forkTest i =>
    rw [hpc] at hs
    simp only [goThread] at hs
    split at hs
    · rename_i hu
      cases hs
      exact .upd rfl (by rw [hu]; exact .init)
    · cases hs; exact .refl rfl
  | waitScan i k =>
    rw [hpc] at hs
    simp only [goThread] at hs
    split at hs <;> split at hs <;> cases hs <;> exact .refl rfl
  | waitChildTest i =>
    rw [hpc] at hs
    simp only [goThread] at hs
    split at hs
    · rename_i hz
      cases hs
      exact .upd rfl (by rw [hz]; exact .reap)
    · cases hs; exact .refl rfl
  | exitScan i =>
    rw [hpc] at hs
    simp only [goThread] at hs
    split at hs
    · split at hs <;> cases hs <;> exact .refl rfl
    · cases hs; exact .refl rfl
  | exitParent =>
    rw [hpc] at hs
    simp only [goThread] at hs
    split at hs
    · cases hs; exact .refl rfl
    · cases hs

theorem follows_goYield (h : Inv s) (hm : s.mode c = .thread p) (hy : s.yield p ≠ .no)
    (hs : goYield s c p (s.yield p) = some s') : Follows s s' := by
  cases hyv : s.yield p with
  | no => exact absurd hyv hy
  | away => rw [hyv] at hs; cases hs
  | lock => rw [hyv, goYield] at hs; exact follows_acquire hs fun _ => rfl
  | set =>
    rw [hyv] at hs
    cases hs
    refine .upd rfl ?_
    rw [(h.on c p hm).1, (Inv.at_yield (h.loc p) hy).2, hyv]
    exact .yield
  | sched => rw [hyv] at hs; cases hs; exact .refl rfl
  | unlock => rw [hyv] at hs; cases hs; exact .refl rfl

theorem follows_goSched {l : Loop} (hs : goSched s c l = some s') : Follows s s' := by
  cases l with
  | scan i =>
    simp only [goSched] at hs
    split at hs
    · exact follows_acquire hs fun _ => rfl
    · cases hs; exact .refl rfl
  | test i =>
    simp only [goSched] at hs
    split at hs
    · rename_i hst
      cases hs
      exact .upd rfl (by rw [hst]; exact .run)
    · cases hs; exact .refl rfl
  | switch i =>
    simp only [goSched, resume] at hs
    split at hs
    · cases hs; exact .refl rfl
    · cases hs; exact .refl rfl
    · cases hs
  | back i => cases hs; exact .refl rfl
  | unlock i => cases hs; exact .refl rfl

omit [DecidableEq C] in
theorem follows_call {op : Op K} {pc : Pc K} (hs : call s c p pc op = some s') : Follows s s' := by
  cases pc with
  | user =>
    cases op with
    | acquire k | fork | wait => cases hs; exact .refl rfl
    | release k =>
      simp only [call] at hs
      split at hs <;> cases hs
      exact .refl rfl
    | exit =>
      simp only [call] at hs
      split at hs <;> cases hs
      exact .refl rfl
    | lock n => rw [call] at hs; exact follows_acquire hs fun _ => rfl
    | sleep m | wakeup m | unlock => cases hs
  | inSection n =>
    cases op with
    | sleep m | wakeup m | unlock => cases hs; exact .refl rfl
    | _ => cases hs
  | _ => cases op <;> cases hs

theorem follows_step {a : Act C K} (h : Inv s) (hs : step s a = some s') : Follows s s' := by
  cases a with
  | go c =>
    simp only [step, go] at hs
    split at hs
    · exact follows_goSched hs
    · rename_i p hm
      split at hs
      · rename_i hy; exact follows_goThread (by rw [(h.on c p hm).1, hy]) hs
      · rename_i hy; exact follows_goYield h hm (fun he => hy (he ▸ rfl)) hs
  | call c op =>
    simp only [step] at hs
    split at hs
    · split at hs
      · exact follows_call hs
      · cases hs
    · cases hs
  | starve c stack =>
    simp only [step] at hs
    split at hs
    · split at hs
      · split at hs
        · rename_i i _ _ hu
          cases hs
          cases stack with
          | true =>
            -- `proc_free` on a slot that is unused already
            refine .refl ?_
            show upd s.state i .unused = s.state
            rw [← hu, upd_self]
          | false => exact .refl rfl
        · cases hs
      · cases hs
    · cases hs
  | preempt c =>
    simp only [step] at hs
    split at hs
    · split at hs
      · cases hs; exact .refl rfl
      · cases hs
    · cases hs
  | interrupt c m i =>
    simp only [step] at hs
    split at hs
    · cases hs; exact follows_wakeIf rfl
    · cases hs

/-! ## Whole runs -/

/-- A process whose lock is free is `RUNNING` iff exactly one CPU has it as its `proc`, and otherwise
no CPU has. -/
structure OnOneCpu (s : State C K) : Prop where
  running : ∀ p, s.lk (.proc p) = none → (s.state p = .running ↔ ∃! c, s.proc c = some p)
  others : ∀ p, s.lk (.proc p) = none → s.state p ≠ .running → ∀ c, s.proc c ≠ some p

namespace Inv

omit [DecidableEq C] [DecidableEq K] in
/-- While the lock is free, `c->proc` is the process whose thread the CPU executes. -/
theorem proc_iff (h : Inv s) (hfree : s.lk (.proc p) = none) (c : C) :
    s.proc c = some p ↔ s.mode c = .thread p := by
  have hno : .proc p ∉ heldBy s c := fun hl => by
    rw [(h.lock _ c).mpr hl] at hfree; cases hfree
  rw [h.proc]
  cases hm : s.mode c with
  | thread r => simp [procOf]
  | sched l =>
    rw [held_sched hm] at hno
    cases l with
    | back r =>
      simp only [procOf, Option.some.injEq, reduceCtorEq, iff_false]
      rintro rfl
      exact hno (by simp [loopHeld])
    | _ => simp [procOf]

omit [DecidableEq C] [DecidableEq K] in
theorem onOneCpu (h : Inv s) : OnOneCpu s := by
  have hrun : ∀ p, s.lk (.proc p) = none → ∀ c, s.proc c = some p → s.state p = .running := by
    intro p hfree c hc
    have hm := (h.proc_iff hfree c).mp hc
    by_contra hst
    have := mem_heldIn_of_stateAt (by rw [← (h.on c p hm).1]; exact hst) (h.loc p).1
    rw [(h.lock _ c).mpr (by rw [held_thread hm]; exact this)] at hfree
    cases hfree
  refine ⟨fun p hfree => ⟨fun hst => ?_, fun ⟨c, hc, _⟩ => hrun p hfree c hc⟩,
    fun p hfree hst c hc => hst (hrun p hfree c hc)⟩
  obtain ⟨c, hc | hc⟩ := h.running p hst
  · refine ⟨c, (h.proc_iff hfree c).mpr hc, fun c' hc' => ?_⟩
    exact h.one c' c p (by rw [(h.proc_iff hfree c').mp hc']; rfl) (by rw [hc]; rfl)
  · have : s.lk (.proc p) = some c := (h.lock _ c).mpr (by rw [held_sched hc]; simp [loopHeld])
    rw [hfree] at this; cases this

end Inv

theorem inv_of_run (as : List (Act C K)) (s : State C K) (hrun : run step boot as = some s) :
    Inv s :=
  run_inv (fun _ _ _ h _ hs => h.step hs) as Inv.boot (runOk_true as _) hrun

/-- **No process runs on two CPUs**, and the states change as `proc.h` says, in every run. -/
theorem one_cpu_each (as : List (Act C K)) (s : State C K) (hrun : run step boot as = some s) :
    OnOneCpu s ∧ ∀ a s', step s a = some s' → Follows s s' :=
  ⟨(inv_of_run as s hrun).onOneCpu, fun _ _ hs => follows_step (inv_of_run as s hrun) hs⟩

/-- CPU 0 takes `proczero`, which forks; CPU 1 takes the child. -/
def twoCpuRun : List (Act (Fin 2) Unit) :=
  List.replicate 4 (.go 0) ++ [.call 0 .fork] ++ List.replicate 6 (.go 0) ++
    List.replicate 7 (.go 1)

theorem one_cpu_each_two : ∃ s, run step boot twoCpuRun = some s ∧
    (s.state 0 = .running ∧ s.proc 0 = some 0 ∧ s.state 1 = .running ∧ s.proc 1 = some 1) ∧
    OnOneCpu s ∧ ∀ a s', step s a = some s' → Follows s s' := by
  have h : (run step boot twoCpuRun).any (fun s => decide (s.state 0 = .running ∧
      s.proc 0 = some 0 ∧ s.state 1 = .running ∧ s.proc 1 = some 1)) = true := by
    decide +kernel
  obtain ⟨s, hs, hd⟩ := exists_of_any h
  exact ⟨s, hs, hd, one_cpu_each twoCpuRun s hs⟩

/-- **Spinlocks exclude and are not lost**, in every run: a lock is taken exactly while one CPU stands in
a section on it, also across `swtch`, where `p->lk` is taken by one thread and given up by another. -/
theorem spinlocks_exact (as : List (Act C K)) (s : State C K) (hrun : run step boot as = some s)
    (l : Lk K) : (∀ c c', l ∈ heldBy s c → l ∈ heldBy s c' → c = c') ∧
      (s.lk l = none ↔ ∀ c, l ∉ heldBy s c) := by
  have hlock := (inv_of_run as s hrun).lock l
  refine ⟨fun c c' hc hc' => ?_, fun hfree c hc => ?_, fun hno => ?_⟩
  · have h1 := (hlock c).mpr hc
    rw [(hlock c').mpr hc'] at h1
    exact (Option.some.inj h1).symm
  · rw [(hlock c).mpr hc] at hfree
    cases hfree
  · cases hl : s.lk l with
    | none => rfl
    | some c => exact absurd ((hlock c).mp hl) (hno c)

/-- CPU 1 is on its way to the child, with the lock that the fork has given up. -/
theorem spinlocks_exact_two : ∃ s, run step boot (twoCpuRun.take 15) = some s ∧
    s.lk (.proc 1) = some 1 ∧ ∀ c, .proc 1 ∈ heldBy s c → c = 1 := by
  have h : (run step boot (twoCpuRun.take 15)).any (fun s => decide (s.lk (.proc 1) = some 1 ∧
      .proc 1 ∈ heldBy s 1)) = true := by
    decide +kernel
  obtain ⟨s, hs, hl, h1⟩ := exists_of_any h
  exact ⟨s, hs, hl, fun c hc => (spinlocks_exact _ s hs (.proc 1)).1 c 1 hc h1⟩

end Smp
end Sched
end WhuOS
