import WhuOS.Sched.Model

/-!
# WhuOS.Sched.Wakeup

When does a parent asleep in `proc_wait` miss the exit of a child? `proc_exit` wakes the parent
first and becomes `ZOMBIE` afterwards, in a second critical section. A parent that scans the
table in between finds no zombie and goes to sleep, and nobody wakes it again
(`lost_wakeup_reachable`, with one process on a CPU at a time). `proc_reparent` hands children to
`proczero` without waking it, so a child past its wakeup can also be lost there.

`no_lost_wakeup` says these are the only two ways: in every run in which

* a scan of `proc_wait` never examines a child that has called `proc_wakeup_one` but is not yet a
  zombie, or that is about to wake another process, and
* `proc_reparent` never hands such a child to `proczero` while `proczero` scans or sleeps in
  `proc_wait`,

no process ever sleeps in `proc_wait` while a child of it is a switched-away zombie.

The invariant is `Inv`: the children that a scan of `p` has passed (all of them once `p` sleeps)
still have their wakeup of `p` before them (`WillWake`). The lock makes it inductive: a child can
only wake `p` when `p->lk` is free, that is, not during the scan.
-/

namespace WhuOS
namespace Sched

open Lib

/-- The thread of `v` has its section of `proc_wakeup_one` still before it, and if it has already
read whom to wake, that is `p`. -/
def WillWake (v : Proc) (p : Slot) : Prop :=
  v.pc ≠ .exitLock ∧ v.pc ≠ .exitSched ∧ v.pc ≠ .dead ∧ ∀ q, v.pc = .exitWake q → q = p

/-- How far the scan of `proc_wait` has come in the table; a sleeper has passed all of it. -/
def scanned (v : Proc) : Nat :=
  match v.pc with
  | .waitScan i _ => i
  | .waitCheck i => i.val
  | .waitSleep => if v.state = .sleeping then NPROC else 0
  | _ => 0

/-- The process scans in `proc_wait` or sleeps there. -/
def waiting (v : Proc) : Bool :=
  match v.pc with
  | .waitScan _ _ | .waitCheck _ => true
  | .waitSleep => v.state = .sleeping
  | _ => false

/-- The condition on a step: `proc_wait` examines, and `proc_reparent` hands to a waiting
`proczero`, no child that is past its wakeup and not yet a zombie, or that is about to wake
somebody else. -/
def WakesInTime (t : Table) : Act → Prop
  | .go p =>
    match (t.procs p).pc with
    | .waitCheck i =>
      (t.procs i).pc ≠ .exitLock ∧ ∀ q, (t.procs i).pc = .exitWake q → q = p
    | .exitGive i => waiting (t.procs proczero) = true → WillWake (t.procs i) proczero
    | _ => True
  | _ => True

instance (t : Table) (a : Act) : Decidable (WakesInTime t a) := by
  unfold WakesInTime WillWake; split
  · split <;> infer_instance
  · infer_instance

/-- What a slot keeps by itself: who is a zombie, who holds its lock, and on what a sleeper
sleeps. -/
structure Local (p : Slot) (v : Proc) : Prop where
  zombie : v.state = .zombie ↔ v.pc = .exitSched ∨ v.pc = .dead
  scanHeld : (∃ i k, v.pc = .waitScan i k) ∨ (∃ i, v.pc = .waitCheck i) → v.held = true
  scanRuns : (∃ i k, v.pc = .waitScan i k) ∨ (∃ i, v.pc = .waitCheck i) → v.state = .running
  asleep : v.state = .sleeping → v.pc = .waitSleep ∧ v.sleepSpace = some p

structure Inv (t : Table) : Prop where
  loc : ∀ p, Local p (t.procs p)
  covered : ∀ p c : Slot, c.val < scanned (t.procs p) → (t.procs c).parent = some p →
    WillWake (t.procs c) p

@[simp] theorem set_self (t : Table) (p : Slot) (v : Proc) : (t.set p v).procs p = v := by
  simp [Table.set]

variable {p : Slot} {t t' : Table} {v : Proc}

theorem set_other (t : Table) {q : Slot} (v : Proc) (h : q ≠ p) :
    (t.set p v).procs q = t.procs q := by
  simp [Table.set, Function.update_of_ne h]

/-- Replacing one slot keeps the invariant if the new contents fit as a parent (`hpar`) and as a
child (`hch`). -/
theorem inv_set (h : Inv t) (hl : Local p v)
    (hpar : ∀ c : Slot, c.val < scanned v → ((t.set p v).procs c).parent = some p →
      WillWake ((t.set p v).procs c) p)
    (hch : ∀ q, q ≠ p → p.val < scanned (t.procs q) → v.parent = some q → WillWake v q) :
    Inv (t.set p v) := by
  constructor
  · intro q
    by_cases hq : q = p
    · subst hq; rw [set_self]; exact hl
    · rw [set_other t v hq]; exact h.loc q
  · intro q c hc hp
    by_cases hq : q = p
    · subst hq; rw [set_self] at hc; exact hpar c hc hp
    · rw [set_other t v hq] at hc
      by_cases hcp : c = p
      · subst hcp; rw [set_self] at hp ⊢; exact hch q hq hc hp
      · rw [set_other t v hcp] at hp ⊢; exact h.covered q c hc hp

/-- A slot whose new contents scan nothing and which is no worse a child than before. -/
theorem inv_set_idle (h : Inv t) (hl : Local p v)
    (hs : scanned v = 0) (hch : ∀ q, v.parent = some q →
      (t.procs p).parent = some q → WillWake (t.procs p) q → WillWake v q)
    (hpar : ∀ q, v.parent = some q → (t.procs p).parent = some q) : Inv (t.set p v) := by
  refine inv_set h hl (fun c hc => by omega) fun q _ hc hv => ?_
  exact hch q hv (hpar q hv) (h.covered q p hc (hpar q hv))

theorem willWake_congr {w : Proc} (h : w.pc = v.pc) (hv : WillWake v p) :
    WillWake w p := by
  unfold WillWake at *; rw [h]; exact hv

theorem inv_set_same (h : Inv t) (hl : Local p v)
    (hs : scanned v = 0 ∨ scanned v = scanned (t.procs p)) (hpc : v.pc = (t.procs p).pc)
    (hp : v.parent = (t.procs p).parent) : Inv (t.set p v) := by
  refine inv_set h hl (fun c hc hcp => ?_) fun q _ hc hv => ?_
  · have hc' : c.val < scanned (t.procs p) := by omega
    by_cases hcq : c = p
    · subst hcq
      rw [set_self] at hcp ⊢
      exact willWake_congr hpc (h.covered c c hc' (hp ▸ hcp))
    · rw [set_other t v hcq] at hcp ⊢
      exact h.covered p c hc' hcp
  · exact willWake_congr hpc (h.covered q p hc (hp ▸ hv))

theorem inv_boot : Inv boot := by
  have hs : ∀ p, (boot.procs p).pc = .user ∧ (boot.procs p).state ≠ .zombie ∧
      (boot.procs p).state ≠ .sleeping ∧ (boot.procs p).parent = none := by
    intro p
    by_cases hp : p = proczero
    · subst hp; simp [boot, Proc.free]
    · simp [boot, Function.update_of_ne hp, Proc.free]
  constructor
  · intro p
    obtain ⟨h1, h2, h3, -⟩ := hs p
    exact ⟨by simp [h1, h2], by simp [h1], by simp [h1], fun h => absurd h h3⟩
  · intro p c _ hp
    rw [(hs c).2.2.2] at hp; cases hp

/-! ## One step -/

theorem inv_schedule (h : Inv t) (hs : step t (.schedule p) = some t') :
    Inv t' := by
  simp only [step] at hs
  split at hs
  · rename_i hg
    cases hs
    have hl := h.loc p
    by_cases hw : (t.procs p).pc = .waitSleep
    · refine inv_set h ?_ (fun c hc => ?_) fun q _ hc hv => ?_
      · simp only [resume, hw]
        exact ⟨by simp, by simp, by simp, by simp⟩
      · simp [resume, hw, scanned] at hc
      · simp only [resume, hw] at hv ⊢
        exact ⟨by simp, by simp, by simp, by simp⟩
    · have hr : resume (t.procs p) = { t.procs p with state := .running } := by
        unfold resume; split
        · rename_i he; exact absurd he hw
        · rfl
      rw [hr]
      refine inv_set_same h ⟨?_, ?_, by simp, by simp⟩ ?_ rfl rfl
      · have := hl.zombie
        simp only [hg.1] at this
        simpa using this
      · exact hl.scanHeld
      · right; unfold scanned; split <;> simp_all
  · cases hs

theorem inv_preempt (h : Inv t) (hs : step t (.preempt p) = some t') :
    Inv t' := by
  simp only [step] at hs
  split at hs
  · rename_i hg
    cases hs
    have hl := h.loc p
    refine inv_set_same h ⟨?_, hl.scanHeld, ?_, by simp⟩ ?_ rfl rfl
    · have := hl.zombie
      simp only [hg.1] at this
      simpa using this
    · -- a scanning thread holds its lock, so it is not preempted
      intro hc
      have := hl.scanHeld hc
      rw [hg.2] at this; cases this
    · unfold scanned; simp only []; split <;> simp_all
  · cases hs

theorem inv_fork {np : Slot} (h : Inv t) (hs : step t (.fork p np) = some t') :
    Inv t' := by
  simp only [step] at hs
  split at hs
  · rename_i hg
    obtain ⟨hr, hu, hn, hf⟩ := hg
    cases hs
    have hne : p ≠ np := by
      rintro rfl; rw [hr] at hn; cases hn
    have h1 : Inv (t.set np (Proc.forked p t.globalPid)) := by
      refine inv_set h ⟨by simp [Proc.forked, Proc.free], by simp [Proc.forked, Proc.free],
        by simp [Proc.forked, Proc.free], by simp [Proc.forked]⟩
        (fun c hc => by simp [scanned, Proc.forked, Proc.free] at hc) fun q _ _ _ => ?_
      simp [WillWake, Proc.forked, Proc.free]
    have hp1 : (t.set np (Proc.forked p t.globalPid)).procs p = t.procs p := set_other t _ hne
    have h2 := inv_set_same (p := p) (v := { t.procs p with ret := t.globalPid }) h1
      ⟨(h.loc p).zombie, (h.loc p).scanHeld, (h.loc p).scanRuns, (h.loc p).asleep⟩
      (.inl (by simp [scanned, hu])) (by rw [hp1]) (by rw [hp1])
    exact ⟨h2.loc, h2.covered⟩
  · cases hs

theorem inv_forkFull (h : Inv t) (hs : step t (.forkFull p) = some t') :
    Inv t' := by
  simp only [step] at hs
  split at hs
  · rename_i hg
    cases hs
    have hl := h.loc p
    exact inv_set_same h ⟨hl.zombie, hl.scanHeld, hl.scanRuns, hl.asleep⟩
      (.inl (by simp [scanned, hg.2])) rfl rfl
  · cases hs

theorem inv_forkStarved {np : Slot} {stack : Bool} (h : Inv t)
    (hs : step t (.forkStarved p np stack) = some t') : Inv t' := by
  simp only [step] at hs
  split at hs
  · rename_i hg
    obtain ⟨hr, hu, hn, hf⟩ := hg
    cases hs
    have hne : p ≠ np := by
      rintro rfl; rw [hr] at hn; cases hn
    have h1 : Inv (t.set np (if stack then Proc.free else { t.procs np with pid := t.globalPid })) := by
      cases stack with
      | true =>
        exact inv_set_idle h ⟨by simp [Proc.free], by simp [Proc.free], by simp [Proc.free],
          by simp [Proc.free]⟩ (by simp [scanned, Proc.free]) (by simp [Proc.free])
          (by simp [Proc.free])
      | false =>
        have hl := h.loc np
        exact inv_set_same h ⟨hl.zombie, hl.scanHeld, hl.scanRuns, hl.asleep⟩ (.inr rfl) rfl rfl
    have hp1 := set_other t (if stack then Proc.free else { t.procs np with pid := t.globalPid }) hne
    have hl := h.loc p
    have h2 := inv_set_same (p := p) (v := { t.procs p with ret := -1 }) h1
      ⟨hl.zombie, hl.scanHeld, hl.scanRuns, hl.asleep⟩ (.inl (by simp [scanned, hu]))
      (by rw [hp1]) (by rw [hp1])
    exact ⟨h2.loc, h2.covered⟩
  · cases hs

theorem inv_callWait (h : Inv t) (hs : step t (.callWait p) = some t') :
    Inv t' := by
  simp only [step] at hs
  split at hs
  · rename_i hg
    obtain ⟨hr, hu, hf⟩ := hg
    cases hs
    refine inv_set_idle h ⟨by simp [hr], by simp, by simp [hr], by simp [hr]⟩ (by simp [scanned]) ?_
      (fun q hq => hq)
    intro q _ _ _
    exact ⟨by simp, by simp, by simp, by simp⟩
  · cases hs

theorem inv_callExit {code : Int} (h : Inv t)
    (hs : step t (.callExit p code) = some t') : Inv t' := by
  simp only [step] at hs
  split at hs
  · rename_i hg
    obtain ⟨hr, hu, hf⟩ := hg
    cases hs
    refine inv_set_idle h ⟨by simp [hr], by simp, by simp, by simp [hr]⟩ (by simp [scanned]) ?_
      (fun q hq => hq)
    intro q _ _ _
    exact ⟨by simp, by simp, by simp, by simp⟩
  · cases hs

/-- The scan of `proc_wait`: an entry whose parent is not `p` can be passed, and at the end of
the table every child is covered. -/
theorem inv_waitScan {i : Nat} {k : Bool} (h : Inv t)
    (hpc : (t.procs p).pc = .waitScan i k) (hr : (t.procs p).state = .running) :
    Inv (waitScanStep t p i k) := by
  have hl := h.loc p
  have hheld := hl.scanHeld (.inl ⟨i, k, hpc⟩)
  have hcov : ∀ c : Slot, c.val < i → (t.procs c).parent = some p → WillWake (t.procs c) p := by
    intro c hc; exact h.covered p c (by simpa [scanned, hpc] using hc)
  unfold waitScanStep
  simp only []
  split
  · rename_i hi
    split
    · refine inv_set h ⟨by simp [hr], by simp [hheld], by simp [hr], by simp [hr]⟩ ?_ ?_
      · intro c hc hcp
        by_cases hce : c = p
        · subst hce; rw [set_self]; simp [WillWake]
        · rw [set_other t _ hce] at hcp ⊢
          exact hcov c (by simpa [scanned] using hc) hcp
      · intro q _ _ _; simp [WillWake]
    · rename_i hnp
      refine inv_set h ⟨by simp [hr], by simp [hheld], by simp [hr], by simp [hr]⟩ ?_ ?_
      · intro c hc hcp
        by_cases hce : c = p
        · subst hce; rw [set_self]; simp [WillWake]
        · rw [set_other t _ hce] at hcp ⊢
          have hci : c.val < i := by
            have hle : c.val < i + 1 := by simpa [scanned] using hc
            rcases Nat.lt_succ_iff_lt_or_eq.mp hle with hlt | heq
            · exact hlt
            · have : c = ⟨i, hi⟩ := Fin.ext heq
              rw [this] at hcp; exact absurd hcp hnp
          exact hcov c hci hcp
      · intro q _ _ _; simp [WillWake]
  · rename_i hi
    split
    · refine inv_set h ⟨by simp, by simp, by simp, by simp⟩ ?_ ?_
      · intro c _ hcp
        by_cases hce : c = p
        · subst hce; rw [set_self]; simp [WillWake]
        · rw [set_other t _ hce] at hcp ⊢
          exact hcov c (by have := c.isLt; omega) hcp
      · intro q _ _ _; simp [WillWake]
    · refine inv_set h ⟨by simp [hr], by simp, by simp, by simp [hr]⟩
        (fun c hc => by simp [scanned] at hc) ?_
      intro q _ _ _; simp [WillWake]

/-- The section of `proc_wait` on child `i`. A zombie is reaped; otherwise the scan passes the
child, which by the condition and `Local.zombie` still has its wakeup before it. -/
theorem inv_waitCheck {i : Slot} (h : Inv t)
    (hpc : (t.procs p).pc = .waitCheck i) (hr : (t.procs p).state = .running)
    (hok : (t.procs i).pc ≠ .exitLock ∧ ∀ q, (t.procs i).pc = .exitWake q → q = p)
    (hs : waitCheckStep t p i = some t') : Inv t' := by
  have hheld := (h.loc p).scanHeld (.inr ⟨i, hpc⟩)
  simp only [waitCheckStep] at hs
  split at hs
  · cases hs
  · rename_i hfree
    have hne : p ≠ i := by rintro rfl; exact hfree hheld
    split at hs
    · cases hs
      have h1 : Inv (t.set i Proc.free) :=
        inv_set_idle h ⟨by simp [Proc.free], by simp [Proc.free], by simp [Proc.free],
          by simp [Proc.free]⟩ (by simp [scanned, Proc.free]) (by simp [Proc.free])
          (by simp [Proc.free])
      have hp1 : (t.set i Proc.free).procs p = t.procs p := set_other t _ hne
      refine inv_set_idle h1 ⟨by simp [hr], by simp, by simp, by simp [hr]⟩ (by simp [scanned]) ?_
        (fun q hq => by rw [hp1]; exact hq)
      intro q _ _ _; simp [WillWake]
    · rename_i hz
      cases hs
      refine inv_set h ⟨by simp [hr], by simp [hheld], by simp [hr], by simp [hr]⟩ ?_ ?_
      · intro c hc hcp
        by_cases hce : c = p
        · subst hce; rw [set_self]; simp [WillWake]
        · rw [set_other t _ hce] at hcp ⊢
          have hle : c.val < i.val + 1 := by simpa [scanned] using hc
          rcases Nat.lt_succ_iff_lt_or_eq.mp hle with hlt | heq
          · exact h.covered p c (by simpa [scanned, hpc] using hlt) hcp
          · obtain rfl : c = i := Fin.ext heq
            have hnz : ¬ ((t.procs c).pc = .exitSched ∨ (t.procs c).pc = .dead) :=
              fun hd => hz ((h.loc c).zombie.mpr hd)
            exact ⟨hok.1, fun hd => hnz (.inl hd), fun hd => hnz (.inr hd), hok.2⟩
      · intro q _ _ _; simp [WillWake]

theorem inv_exit_move {pc : Pc} (h : Inv t)
    (hr : (t.procs p).state = .running) (hnew : (∃ i, pc = .exitScan i) ∨ (∃ i, pc = .exitGive i) ∨
      pc = .exitParent ∨ ∃ q, pc = .exitWake q ∧ (t.procs p).parent = some q) :
    Inv (t.set p { t.procs p with pc := pc }) := by
  have hloc : Local p { t.procs p with pc := pc } := by
    rcases hnew with ⟨i, rfl⟩ | ⟨i, rfl⟩ | rfl | ⟨q, rfl, -⟩ <;>
      exact ⟨by simp [hr], by simp, by simp, by simp [hr]⟩
  refine inv_set_idle h hloc ?_ ?_ (fun q hq => hq)
  · rcases hnew with ⟨i, rfl⟩ | ⟨i, rfl⟩ | rfl | ⟨q, rfl, -⟩ <;> simp [scanned]
  · intro q hq _ _
    rcases hnew with ⟨i, rfl⟩ | ⟨i, rfl⟩ | rfl | ⟨q', rfl, hq'⟩
    · simp [WillWake]
    · simp [WillWake]
    · simp [WillWake]
    · have : q' = q := by rw [hq'] at hq; exact Option.some.inj hq
      simp [WillWake, this]

/-- `proc_reparent` stores `proczero` in entry `i`: by the condition the child is no threat to a
waiting `proczero`, and it leaves the children of everyone else. -/
theorem inv_give {i : Slot} (h : Inv t)
    (hok : waiting (t.procs proczero) = true → WillWake (t.procs i) proczero) :
    Inv (t.set i { t.procs i with parent := some proczero }) := by
  have hscan : ∀ v : Proc, 0 < scanned v → waiting v = true := by
    intro v hv
    unfold scanned at hv
    unfold waiting
    split at hv
    · simp_all
    · simp_all
    · rename_i hp
      split at hv
      · rename_i hst; simp [hst]
      · omega
    · omega
  have hpz : ∀ c : Slot, c.val < scanned (t.procs proczero) → WillWake (t.procs i) proczero :=
    fun c hc => hok (hscan _ (by omega))
  refine inv_set h ⟨(h.loc i).zombie, (h.loc i).scanHeld, (h.loc i).scanRuns, (h.loc i).asleep⟩ ?_ ?_
  · intro c hc hcp
    by_cases hci : c = i
    · subst hci
      rw [set_self] at hcp ⊢
      have hz : c = proczero := by simpa using hcp.symm
      subst hz
      exact willWake_congr rfl (hpz _ hc)
    · rw [set_other t _ hci] at hcp ⊢
      exact h.covered i c hc hcp
  · intro q _ hc hq
    have hz : q = proczero := by simpa using hq.symm
    subst hz
    exact willWake_congr rfl (hpz i hc)

/-- The section of `proc_wakeup_one(q)`. If `q` slept it does not any more; if `q` scans, its lock
is taken and there is no such step. So no parent counts on the wakeup of `p` afterwards. -/
theorem inv_exitWake {t1 : Table} {q : Slot} (h : Inv t) (hpc : (t.procs p).pc = .exitWake q)
    (hr : (t.procs p).state = .running) (hs : wakeupOne t q = some t1) :
    Inv (t1.set p { t1.procs p with pc := .exitLock }) := by
  simp only [wakeupOne] at hs
  split at hs
  · cases hs
  rename_i hfree
  -- who still counts on `p` afterwards: a scanner other than `q`, but `p` would wake it, not `q`
  have hnone : ∀ r, r ≠ q → p.val < scanned (t.procs r) → (t.procs p).parent ≠ some r := by
    intro r hrq hc hpar
    exact hrq ((h.covered r p hc hpar).2.2.2 q hpc).symm
  have hidle : scanned (t.procs p) = 0 := by simp [scanned, hpc]
  have hzloc : Local p { t.procs p with pc := .exitLock } :=
    ⟨by simp [hr], by simp, by simp, by simp [hr]⟩
  split at hs
  · rename_i hsl
    cases hs
    have hpq : p ≠ q := by rintro rfl; rw [hr] at hsl; cases hsl.1
    have hw := (h.loc q).asleep hsl.1
    have h1 : Inv (t.set q { t.procs q with state := .runnable }) := by
      refine inv_set_idle h ⟨by simp [hw.1], by simp [hw.1], by simp [hw.1], by simp⟩
        (by simp [scanned, hw.1]) ?_ (fun r hr => hr)
      intro r _ _ hww; exact willWake_congr rfl hww
    have hp1 : (t.set q { t.procs q with state := .runnable }).procs p = t.procs p :=
      set_other t _ hpq
    rw [hp1]
    refine inv_set h1 hzloc (fun c hc => by simp [scanned] at hc) fun r hrp hc hpar => ?_
    by_cases hrq : r = q
    · subst hrq; rw [set_self] at hc; simp [scanned, hw.1] at hc
    · rw [set_other t _ hrq] at hc; exact absurd hpar (hnone r hrq hc)
  · rename_i hsl
    cases hs
    refine inv_set h hzloc (fun c hc => by simp [scanned] at hc) fun r hrp hc hpar => ?_
    by_cases hrq : r = q
    · subst hrq
      unfold scanned at hc
      split at hc
      · rename_i i k hp; exact absurd ((h.loc r).scanHeld (.inl ⟨i, k, hp⟩)) (by simpa using hfree)
      · rename_i i hp; exact absurd ((h.loc r).scanHeld (.inr ⟨i, hp⟩)) (by simpa using hfree)
      · split at hc
        · rename_i hst; exact absurd ⟨hst, ((h.loc r).asleep hst).2⟩ hsl
        · omega
      · omega
    · exact absurd hpar (hnone r hrq hc)

theorem inv_exitLock (h : Inv t) (hpc : (t.procs p).pc = .exitLock) :
    Inv (t.set p { t.procs p with
      exitState := (t.procs p).exitArg, state := .zombie, held := true, pc := .exitSched }) := by
  refine inv_set_idle h ⟨by simp, by simp, by simp, by simp⟩ (by simp [scanned]) ?_ (fun q hq => hq)
  intro q _ _ hw; exact absurd hpc hw.1

theorem inv_exitSched (h : Inv t) (hpc : (t.procs p).pc = .exitSched) :
    Inv (t.set p { t.procs p with held := false, pc := .dead }) := by
  have hz := (h.loc p).zombie.mpr (.inl hpc)
  refine inv_set_idle h ⟨by simp [hz], by simp, by simp, by simp [hz]⟩ (by simp [scanned]) ?_
    (fun q hq => hq)
  intro q _ _ hw; exact absurd hpc hw.2.1

theorem inv_go (h : Inv t) (hok : WakesInTime t (.go p))
    (hs : step t (.go p) = some t') : Inv t' := by
  simp only [step] at hs
  split at hs
  · rename_i hg
    have hrun : (t.procs p).pc ≠ .exitSched → (t.procs p).state = .running :=
      fun hne => hg.resolve_right hne
    simp only [WakesInTime] at hok
    simp only [go] at hs
    split at hs
    · cases hs
    · cases hs
    · cases hs
    · rename_i i k hpc
      cases hs
      exact inv_waitScan h hpc (hrun (by simp [hpc]))
    · rename_i i hpc
      simp only [hpc] at hok
      exact inv_waitCheck h hpc (hrun (by simp [hpc])) hok hs
    · rename_i i hpc
      have hr := hrun (by simp [hpc])
      split at hs
      · split at hs
        · cases hs; exact inv_exit_move h hr (.inr (.inl ⟨_, rfl⟩))
        · cases hs; exact inv_exit_move h hr (.inl ⟨_, rfl⟩)
      · cases hs; exact inv_exit_move h hr (.inr (.inr (.inl rfl)))
    · rename_i i hpc
      simp only [hpc] at hok
      cases hs
      have hr' : ((t.set i { t.procs i with parent := some proczero }).procs p).state = .running := by
        by_cases hpi : p = i
        · subst hpi; rw [set_self]; exact hrun (by simp [hpc])
        · rw [set_other t _ hpi]; exact hrun (by simp [hpc])
      exact inv_exit_move (inv_give h hok) hr' (.inl ⟨_, rfl⟩)
    · rename_i hpc
      split at hs
      · rename_i q hq
        cases hs
        exact inv_exit_move h (hrun (by simp [hpc])) (.inr (.inr (.inr ⟨q, rfl, hq⟩)))
      · cases hs
    · rename_i q hpc
      split at hs
      · rename_i t1 ht1
        cases hs
        exact inv_exitWake h hpc (hrun (by simp [hpc])) ht1
      · cases hs
    · rename_i hpc
      split at hs
      · cases hs
      · cases hs; exact inv_exitLock h hpc
    · rename_i hpc
      cases hs; exact inv_exitSched h hpc
  · cases hs

theorem inv_step {a : Act} (h : Inv t) (hok : WakesInTime t a)
    (hs : step t a = some t') : Inv t' := by
  cases a with
  | schedule p => exact inv_schedule h hs
  | preempt p => exact inv_preempt h hs
  | fork p np => exact inv_fork h hs
  | forkFull p => exact inv_forkFull h hs
  | forkStarved p np stack => exact inv_forkStarved h hs
  | callWait p => exact inv_callWait h hs
  | callExit p code => exact inv_callExit h hs
  | go p => exact inv_go h hok hs

theorem noLostWakeup_of_inv (h : Inv t) : NoLostWakeup t := by
  intro p c hp hc hz
  have hcov : c.val < scanned (t.procs p) := by
    have : scanned (t.procs p) = NPROC := by simp [scanned, hp.2.2, hp.1]
    rw [this]; exact c.isLt
  exact (h.covered p c hcov hc).2.2.1 hz.2

/-! ## Whole runs -/

/-- **No lost wakeup**, in every run from boot whose steps meet the condition. -/
theorem no_lost_wakeup (as : List Act) (t : Table) (hok : RunOk step WakesInTime boot as)
    (hrun : run step boot as = some t) : NoLostWakeup t :=
  noLostWakeup_of_inv (run_inv (fun _ _ _ hi ha hs => inv_step hi ha hs) as inv_boot hok hrun)

/-- `proczero` waits for its child before the child exits: the wakeup finds it asleep. -/
def orderlyRun : List Act :=
  [.schedule 0, .fork 0 1, .callWait 0, .go 0, .go 0, .go 0] ++ List.replicate 63 (.go 0) ++
    [.schedule 1, .callExit 1 7] ++ List.replicate 65 (.go 1) ++ [.go 1, .go 1, .go 1, .go 1]

theorem no_lost_wakeup_orderly : ∃ t, run step boot orderlyRun = some t ∧ NoLostWakeup t := by
  have hsome : (run step boot orderlyRun).isSome = true := by decide +kernel
  obtain ⟨t, ht⟩ := Option.isSome_iff_exists.mp hsome
  exact ⟨t, ht, no_lost_wakeup orderlyRun t (by decide +kernel) ht⟩

/-- The child is preempted between `proc_wakeup_one` and `ZOMBIE`; the parent scans and goes to
sleep; the child becomes a zombie. One process is on a CPU at a time. -/
def lostWakeupRun : List Act :=
  [.schedule 0, .fork 0 1, .preempt 0, .schedule 1, .callExit 1 7] ++ List.replicate 65 (.go 1) ++
    [.go 1, .go 1, .preempt 1, .schedule 0, .callWait 0, .go 0, .go 0, .go 0] ++
    List.replicate 63 (.go 0) ++ [.schedule 1, .go 1, .go 1]

/-- A run after which `proczero` sleeps in `proc_wait` next to a child that nobody will reap. -/
theorem lost_wakeup_reachable :
    ¬ ∀ (as : List Act) (t : Table), run step boot as = some t → NoLostWakeup t := by
  intro h
  have hbad : ((run step boot lostWakeupRun).map fun t =>
      decide (SleepsInWait t 0 ∧ (t.procs 1).parent = some 0 ∧ GoneZombie t 1)) = some true := by
    decide +kernel
  obtain ⟨t, ht, hd⟩ := Option.map_eq_some_iff.mp hbad
  obtain ⟨hp, hc, hz⟩ := of_decide_eq_true hd
  exact h lostWakeupRun t ht 0 1 hp hc hz

end Sched
end WhuOS
