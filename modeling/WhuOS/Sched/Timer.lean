import WhuOS.Mem.Machine
import WhuOS.Sched.Sleeplock

/-!
# WhuOS.Sched.Timer

`sys_sleep` of `kernel/syscall/sysfunc.c` and `timer_update` of `kernel/dev/timer.c`.

`sys_sleep(n)` sleeps on `&sys_timer.ticks` until `n` ticks have passed. `timer_update` counts a tick
under `sys_timer.lk`, and that is all: nobody calls `proc_wakeup(&sys_timer.ticks)`. So a process that
goes to sleep there sleeps for ever.

`sys_timer.lk` is the spinlock `TIMER` of the other kernel code, and `&sys_timer.ticks` its channel
`TIMER`; only the two functions use them. `timer_update` is one step: it changes nothing but `ticks`,
which is read under the lock.

* `sleep_in_time_iff` — a call is never late iff it is for no tick at all.
-/

namespace WhuOS
namespace Sched
namespace Smp

open Lib

variable {C K : Type} [DecidableEq C] [DecidableEq K]

/-- The number of `sys_timer.lk` among the spinlocks, and of `&sys_timer.ticks` among the channels. -/
abbrev TIMER : Nat := 0

/-- The system with the clock, and for a process in `sys_sleep` its `n` and `ticks0`. -/
structure Clock (C K : Type) where
  sys : State C K
  ticks : Nat
  sleeping : Slot → Option (Nat × Nat)

inductive ClockAct (C K : Type) where
  | other (a : Act C K)
  /-- `sys_sleep(n)`: takes the lock and reads `ticks0`. -/
  | sleep (c : C) (n : Nat)
  /-- `while (sys_timer.ticks - ticks0 < n)`. -/
  | check (c : C)
  /-- `timer_update`, on the CPU 0. -/
  | tick
  deriving DecidableEq

namespace Clock

/-- An action of `sys_sleep` or `timer_update`, or one that no code has: a wakeup of the sleepers. -/
def ofTimer (s : State C K) : Act C K → Bool
  | .call _ (.lock n) => n = TIMER
  | .call _ (.sleep m) | .call _ (.wakeup m) => m = TIMER
  | .call c .unlock =>
    match s.mode c with
    | .thread p => s.pc p = .inSection TIMER
    | .sched _ => false
  | .interrupt _ m _ => m = TIMER
  | _ => false

/-- `cpu0` is the CPU with `mycpuid() == 0`. -/
def step (cpu0 : C) (s : Clock C K) : ClockAct C K → Option (Clock C K)
  | .other a => if ofTimer s.sys a then none else (Smp.step s.sys a).map fun t => { s with sys := t }
  | .sleep c n =>
    match s.sys.mode c with
    | .thread p =>
      (Smp.step s.sys (.call c (.lock TIMER))).map fun t =>
        { s with sys := t, sleeping := upd s.sleeping p (some (n, s.ticks)) }
    | .sched _ => none
  | .check c =>
    match s.sys.mode c with
    | .thread p =>
      match s.sys.pc p, s.sleeping p with
      | .inSection 0, some (n, ticks0) =>
        if Mem.sub64 s.ticks ticks0 < n then
          (Smp.step s.sys (.call c (.sleep TIMER))).map fun t => { s with sys := t }
        else
          (Smp.step s.sys (.call c .unlock)).map fun t =>
            { s with sys := t, sleeping := upd s.sleeping p none }
      | _, _ => none
    | .sched _ => none
  | .tick =>
    if interruptible s.sys cpu0 ∧ s.sys.lk (.other TIMER) = none then
      some { s with ticks := (s.ticks + 1) % 2 ^ 64 }
    else none

def boot (ticks : Nat) : Clock C K := ⟨Smp.boot, ticks, fun _ => none⟩

/-- `p` sleeps in `sys_sleep(n)` although the time has passed and the lock is free. -/
def Late (s : Clock C K) (p : Slot) (n : Nat) : Prop :=
  ∃ ticks0, s.sleeping p = some (n, ticks0) ∧ n ≤ Mem.sub64 s.ticks ticks0 ∧
    s.sys.lk (.other TIMER) = none ∧
    s.sys.state p = .sleeping ∧ s.sys.sleepSpace p = some (.other TIMER)

end Clock

/-! ## Who goes to sleep -/

/-- The call of `proc_sleep` that a thread is in. -/
def sleepOf : Pc K → Option (Sleep K)
  | .sleepLock w | .sleepUnlock w | .sleepSet w | .sleepSched w | .asleep w | .woken w
  | .sleepRelease w | .sleepRelock w => some w
  | _ => none

/-- Nobody goes to sleep on `&sys_timer.ticks`. -/
def NoSleeper (s s' : State C K) : Prop :=
  ∀ q n, sleepOf (s'.pc q) = some (.other n TIMER) → sleepOf (s.pc q) = some (.other n TIMER)

variable {s s' : State C K} {c : C} {p q : Slot}

namespace NoSleeper

omit [DecidableEq C] [DecidableEq K] in
theorem refl (h : s'.pc = s.pc) : NoSleeper s s' := fun q n hq => by rwa [h] at hq

omit [DecidableEq C] [DecidableEq K] in
theorem move {pc : Pc K} (h : s'.pc = upd s.pc p pc)
    (hpc : ∀ n, sleepOf pc = some (.other n TIMER) → sleepOf (s.pc p) = some (.other n TIMER)) :
    NoSleeper s s' := by
  intro q n hq
  rw [h] at hq
  by_cases hqp : q = p
  · subst hqp
    rw [upd_same] at hq
    exact hpc n hq
  · rwa [upd_of_ne hqp] at hq

omit [DecidableEq C] [DecidableEq K] in
theorem awake {pc : Pc K} (h : s'.pc = upd s.pc p pc) (hpc : sleepOf pc = none) : NoSleeper s s' :=
  move h fun n hq => by rw [hpc] at hq; cases hq

omit [DecidableEq C] in
theorem acquire {l : Lk K} {pc : Pc K}
    (hpc : ∀ n, sleepOf pc = some (.other n TIMER) → sleepOf (s.pc p) = some (.other n TIMER))
    (hs : (s.acquire c l).map (·.setPc p pc) = some s') : NoSleeper s s' := by
  obtain ⟨t, ht, rfl⟩ := Option.map_eq_some_iff.mp hs
  unfold State.acquire at ht
  split at ht
  · cases ht; exact move rfl hpc
  · cases ht

omit [DecidableEq C] in
theorem wakeIf_setPc (s : State C K) (i : Slot) (chan : Chan K) (p : Slot) (pc : Pc K) :
    ((wakeIf s i chan).setPc p pc).pc = upd s.pc p pc := by
  unfold wakeIf
  split <;> rfl

omit [DecidableEq K] in
theorem ret_wake (w : Wake K) : sleepOf w.ret = none := by cases w <;> rfl

theorem goThread (hs : goThread s c p (s.pc p) = some s') : NoSleeper s s' := by
  cases hpc : s.pc p with
  | user | inSection n | asleep w | dead => rw [hpc] at hs; cases hs
  | acqLock k | relLock k | waitLock | waitChildLock i | exitWakeLock q | exitLock =>
    rw [hpc] at hs; exact acquire (by rintro _ ⟨⟩) hs
  | sleepLock w => rw [hpc] at hs; exact acquire (by rw [hpc]; exact fun _ h => h) hs
  | sleepRelock w =>
    rw [hpc] at hs
    refine acquire (fun n h => ?_) hs
    cases w <;> cases h
  | acqUnlock k | relClear k | relUnlock k | wakeUnlock w i | forkSkip i | forkUnlock i
  | waitChildUnlock i | waitReaped i | waitUnlock | exitGive i | exitWakeUnlock q | exitSched
  | exitSet =>
    rw [hpc] at hs; cases hs; exact awake rfl rfl
  | wakeTest w i => rw [hpc] at hs; cases hs; exact awake (wakeIf_setPc ..) rfl
  | exitWakeTest r => rw [hpc] at hs; cases hs; exact awake (wakeIf_setPc ..) rfl
  | sleepUnlock w | sleepSet w | sleepSched w | sleepRelease w =>
    rw [hpc] at hs; cases hs; exact move rfl (by rw [hpc]; exact fun _ h => h)
  | woken w =>
    rw [hpc] at hs; cases hs
    refine move rfl fun n h => ?_
    rw [hpc]
    split at h
    · cases w <;> cases h
    · exact h
  | acqTest k =>
    rw [hpc] at hs
    simp only [Smp.goThread] at hs
    split at hs <;> cases hs
    · exact move rfl (by rintro _ ⟨⟩)
    · exact awake rfl rfl
  | wakeLock w i =>
    rw [hpc] at hs
    simp only [Smp.goThread] at hs
    split at hs
    · split at hs
      · cases hs; exact awake rfl rfl
      · exact acquire (by rintro _ ⟨⟩) hs
    · cases hs; exact awake rfl (ret_wake w)
  | forkLock i =>
    rw [hpc] at hs
    simp only [Smp.goThread] at hs
    split at hs
    · exact acquire (by rintro _ ⟨⟩) hs
    · cases hs; exact awake rfl rfl
  | forkTest i =>
    rw [hpc] at hs
    simp only [Smp.goThread] at hs
    split at hs
    · cases hs
      -- the child starts in user code
      have hchild : NoSleeper s (newChild s p i) := awake rfl rfl
      exact fun q n hq => hchild q n (awake rfl rfl q n hq)
    · cases hs; exact awake rfl rfl
  | waitScan i k =>
    rw [hpc] at hs
    simp only [Smp.goThread] at hs
    split at hs <;> split at hs <;> cases hs
    · exact awake rfl rfl
    · exact awake rfl rfl
    · exact move rfl (by rintro _ ⟨⟩)
    · exact awake rfl rfl
  | waitChildTest i =>
    rw [hpc] at hs
    simp only [Smp.goThread] at hs
    split at hs <;> cases hs <;> exact awake rfl rfl
  | exitScan i =>
    rw [hpc] at hs
    simp only [Smp.goThread] at hs
    split at hs
    · split at hs <;> cases hs <;> exact awake rfl rfl
    · cases hs; exact awake rfl rfl
  | exitParent =>
    rw [hpc] at hs
    simp only [Smp.goThread] at hs
    split at hs
    · cases hs; exact awake rfl rfl
    · cases hs

theorem goSched {l : Loop} (hs : goSched s c l = some s') : NoSleeper s s' := by
  cases l with
  | scan i =>
    simp only [Smp.goSched, State.acquire] at hs
    split at hs
    · split at hs
      · cases hs; exact refl rfl
      · cases hs
    · cases hs; exact refl rfl
  | test i =>
    simp only [Smp.goSched] at hs
    split at hs <;> cases hs <;> exact refl rfl
  | switch i =>
    obtain ⟨t, ht, rfl⟩ := Option.map_eq_some_iff.mp hs
    unfold resume at ht
    split at ht
    · cases ht; exact refl rfl
    · rename_i w hy hpc
      cases ht
      exact move (p := i) rfl (by rw [hpc]; exact fun _ h => h)
    · cases ht
  | back i | unlock i => cases hs; exact refl rfl

omit [DecidableEq C] in
theorem call {op : Op K} (hop : op ≠ .sleep TIMER) (hs : call s c p (s.pc p) op = some s') :
    NoSleeper s s' := by
  unfold Smp.call at hs
  split at hs
  all_goals first
    | (cases hs; exact awake rfl rfl)
    | (split at hs <;> cases hs; exact awake rfl rfl)
    | exact acquire (by rintro _ ⟨⟩) hs
    | (cases hs; refine move rfl fun n h => ?_; cases h; exact absurd rfl hop)
    | cases hs

theorem step {a : Act C K} (ha : Clock.ofTimer s a = false) (hs : step s a = some s') :
    NoSleeper s s' := by
  cases a with
  | go c =>
    simp only [Smp.step, go] at hs
    split at hs
    · exact goSched hs
    · split at hs
      · exact goThread hs
      · rename_i p hm y hy
        unfold goYield at hs
        split at hs
        · cases hs
        · cases hs
        · unfold State.acquire at hs
          split at hs
          · cases hs; exact refl rfl
          · cases hs
        all_goals cases hs; exact refl rfl
  | call c op =>
    simp only [Smp.step] at hs
    split at hs
    · split at hs
      · refine call ?_ hs
        rintro rfl
        simp [Clock.ofTimer] at ha
      · cases hs
    · cases hs
  | starve c stack =>
    simp only [Smp.step] at hs
    split at hs
    · split at hs
      · split at hs
        · cases hs
          cases stack <;> exact awake rfl rfl
        · cases hs
      · cases hs
    · cases hs
  | preempt c =>
    simp only [Smp.step] at hs
    split at hs
    · split at hs
      · cases hs; exact refl rfl
      · cases hs
    · cases hs
  | interrupt c m i =>
    simp only [Smp.step] at hs
    split at hs
    · cases hs
      refine refl ?_
      unfold wakeIf
      split <;> rfl
    · cases hs

end NoSleeper

/-! ### The calls of `sys_sleep` -/

theorem call_thread {op : Op K} (hm : s.mode c = .thread p) (hs : step s (.call c op) = some s') :
    call s c p (s.pc p) op = some s' := by
  simp only [step, hm] at hs
  split at hs
  · exact hs
  · cases hs

theorem pc_lock {n : Nat} (hm : s.mode c = .thread p) (hs : step s (.call c (.lock n)) = some s') :
    s'.pc = upd s.pc p (.inSection n) := by
  have hc := call_thread hm hs
  cases hpc : s.pc p with
  | user =>
    rw [hpc] at hc
    obtain ⟨t, ht, rfl⟩ := Option.map_eq_some_iff.mp hc
    unfold State.acquire at ht
    split at ht
    · cases ht; rfl
    · cases ht
  | _ => rw [hpc] at hc; cases hc

theorem pc_sleep {n m : Nat} (hm : s.mode c = .thread p) (hpc : s.pc p = .inSection n)
    (hs : step s (.call c (.sleep m)) = some s') :
    s'.pc = upd s.pc p (.sleepLock (.other n m)) := by
  have hc := call_thread hm hs
  rw [hpc] at hc
  cases hc
  rfl

theorem pc_unlock {n : Nat} (hm : s.mode c = .thread p) (hpc : s.pc p = .inSection n)
    (hs : step s (.call c .unlock) = some s') : s'.pc = upd s.pc p .user := by
  have hc := call_thread hm hs
  rw [hpc] at hc
  cases hc
  rfl

/-! ## Runs -/

namespace Clock

variable {cpu0 : C} {k k' : Clock C K}

/-- Who sleeps on `&sys_timer.ticks` is in a `sys_sleep` for at least a tick. -/
structure Inv (k : Clock C K) : Prop where
  sys : Smp.Inv k.sys
  timed : ∀ q n, sleepOf (k.sys.pc q) = some (.other n TIMER) → ∃ m t, k.sleeping q = some (m, t) ∧ 0 < m

theorem Inv.step {a : ClockAct C K} (h : Inv k) (hs : k.step cpu0 a = some k') : Inv k' := by
  cases a with
  | other a =>
    simp only [Clock.step] at hs
    split at hs
    · cases hs
    · rename_i ha
      obtain ⟨t, ht, rfl⟩ := Option.map_eq_some_iff.mp hs
      exact ⟨h.sys.step ht, fun q n hq => h.timed q n (NoSleeper.step (by simpa using ha) ht q n hq)⟩
  | sleep c n =>
    simp only [Clock.step] at hs
    split at hs
    · rename_i p hm
      obtain ⟨t, ht, rfl⟩ := Option.map_eq_some_iff.mp hs
      refine ⟨h.sys.step ht, fun q m hq => ?_⟩
      simp only [pc_lock hm ht] at hq
      have hqp : q ≠ p := by rintro rfl; rw [upd_same] at hq; cases hq
      rw [upd_of_ne hqp] at hq
      simp only [upd_of_ne hqp]
      exact h.timed q m hq
    · cases hs
  | check c =>
    simp only [Clock.step] at hs
    split at hs
    · rename_i p hm
      split at hs
      · rename_i n ticks0 hpc hcall
        split at hs
        · rename_i hlt
          obtain ⟨t, ht, rfl⟩ := Option.map_eq_some_iff.mp hs
          refine ⟨h.sys.step ht, fun q m hq => ?_⟩
          by_cases hqp : q = p
          · exact ⟨n, ticks0, by rw [hqp]; exact hcall, by omega⟩
          · simp only [pc_sleep hm hpc ht, upd_of_ne hqp] at hq
            exact h.timed q m hq
        · obtain ⟨t, ht, rfl⟩ := Option.map_eq_some_iff.mp hs
          refine ⟨h.sys.step ht, fun q m hq => ?_⟩
          simp only [pc_unlock hm hpc ht] at hq
          have hqp : q ≠ p := by rintro rfl; rw [upd_same] at hq; cases hq
          rw [upd_of_ne hqp] at hq
          simp only [upd_of_ne hqp]
          exact h.timed q m hq
      · cases hs
    · cases hs
  | tick =>
    simp only [Clock.step] at hs
    split at hs
    · cases hs; exact ⟨h.sys, h.timed⟩
    · cases hs

omit [DecidableEq C] [DecidableEq K] in
theorem Inv.boot (ticks : Nat) : Inv (Clock.boot ticks : Clock C K) := by
  refine ⟨Smp.Inv.boot, fun q n hq => ?_⟩
  have hpc : (Clock.boot ticks : Clock C K).sys.pc q = if q = proczero then .user else .dead := by
    simp only [Clock.boot, Smp.boot, upd_apply]
  rw [hpc] at hq
  split at hq <;> cases hq

omit [DecidableEq C] [DecidableEq K] in
theorem Inv.not_late (h : Inv k) (p : Slot) : ¬ k.Late p 0 := by
  rintro ⟨ticks0, hcall, -, -, hst, hch⟩
  obtain ⟨w, hpc, hw⟩ := h.sys.sleeping_pc hst
  rw [hch] at hw
  obtain ⟨n, rfl⟩ : ∃ n, w = .other n TIMER := by
    cases w with
    | other n m => cases hw; exact ⟨n, rfl⟩
    | lock k => cases hw
    | wait => cases hw
  obtain ⟨m, t, hm, hpos⟩ := h.timed p n (by rcases hpc with hpc | hpc <;> rw [hpc] <;> rfl)
  rw [hcall] at hm
  cases hm
  exact absurd hpos (Nat.lt_irrefl 0)

/-! ### A call for some ticks -/

/-- `proczero` sleeps since the tick `t` and will not be late before the tick `t + n`; the timer
interrupts of the CPU 0 come in its scheduler. -/
structure Asleep (cpu0 : C) (n t : Nat) (k : Clock C K) : Prop where
  call : k.sleeping proczero = some (n, t)
  free : k.sys.lk (.other TIMER) = none
  state : k.sys.state proczero = .sleeping
  chan : k.sys.sleepSpace proczero = some (.other TIMER)
  ready : interruptible k.sys cpu0 = true

/-- `proczero` calls `sys_sleep(n)` on the CPU 0 and goes to sleep. -/
def sleepRun (cpu0 : C) (n : Nat) : List (ClockAct C K) :=
  List.replicate 4 (.other (.go cpu0)) ++ [.sleep cpu0 n, .check cpu0] ++
    List.replicate 6 (.other (.go cpu0))

theorem run_sleep (cpu0 : C) {n : Nat} (hn : 0 < n) (t : Nat) :
    ∃ k : Clock C K, run (Clock.step cpu0) (Clock.boot t) (sleepRun cpu0 n) = some k ∧
      k.ticks = t ∧ Asleep cpu0 n t k := by
  have hlt : Mem.sub64 t t < n := by simp only [Mem.sub64]; omega
  obtain ⟨k, hrun, ht, hcall, hfree, hst, hch, hopen⟩ : ∃ k : Clock C K,
      run (Clock.step cpu0) (Clock.boot t) (sleepRun cpu0 n) = some k ∧ k.ticks = t ∧
      k.sleeping proczero = some (n, t) ∧ k.sys.lk (.other TIMER) = none ∧
      k.sys.state proczero = .sleeping ∧ k.sys.sleepSpace proczero = some (.other TIMER) ∧
      interruptible k.sys cpu0 = true := by
    simp [sleepRun, List.replicate, run, Clock.step, Clock.boot, ofTimer, Smp.boot, Smp.step, go,
      Smp.goSched, Smp.goThread, goYield, resume, toSched, NPROC, State.acquire, State.release,
      State.setMode, State.setPc, State.setYield, State.setState, Smp.call, Sleep.lk, Sleep.chan,
      interruptible, upd, proczero, hlt]
  exact ⟨k, hrun, ht, hcall, hfree, hst, hch, hopen⟩

theorem Asleep.ticks {cpu0 : C} {n t : Nat} (m : Nat) : ∀ {k : Clock C K}, Asleep cpu0 n t k →
    k.ticks < 2 ^ 64 → ∃ k', run (Clock.step cpu0) k (List.replicate m .tick) = some k' ∧
      k'.ticks = (k.ticks + m) % 2 ^ 64 ∧ Asleep cpu0 n t k' := by
  induction m with
  | zero => exact fun {k} h hk => ⟨k, rfl, (Nat.mod_eq_of_lt hk).symm, h⟩
  | succ m ih =>
    intro k h hk
    have hs : k.step cpu0 .tick = some { k with ticks := (k.ticks + 1) % 2 ^ 64 } :=
      if_pos ⟨h.ready, h.free⟩
    obtain ⟨k', hrun, ht, h'⟩ := ih (k := { k with ticks := (k.ticks + 1) % 2 ^ 64 })
      ⟨h.call, h.free, h.state, h.chan, h.ready⟩ (Nat.mod_lt _ (by omega))
    refine ⟨k', ?_, ?_, h'⟩
    · rw [List.replicate_succ, run, hs]; exact hrun
    · rw [ht, Nat.mod_add_mod, Nat.add_assoc, Nat.add_comm 1 m]

end Clock

open Clock in
/-- A call of `sys_sleep(n)` is in time in every run, whatever the first tick, iff `n` is 0. -/
theorem sleep_in_time_iff (cpu0 : C) (n ticks : Nat) (hn : n < 2 ^ 32) (ht : ticks < 2 ^ 64) :
    (∀ (as : List (ClockAct C K)) (k : Clock C K),
      run (Clock.step cpu0) (Clock.boot ticks) as = some k → ∀ p, ¬ k.Late p n) ↔ n = 0 := by
  constructor
  · intro h
    by_contra hne
    obtain ⟨k, hrun, hk, ha⟩ := run_sleep (K := K) cpu0 (n := n) (by omega) ticks
    obtain ⟨k', hrun', hk', ha'⟩ := ha.ticks n (by omega)
    refine h _ k' (run_append _ hrun hrun') proczero ⟨ticks, ha'.call, ?_, ha'.free, ha'.state, ha'.chan⟩
    rw [hk', hk, Mem.sub64]
    omega
  · rintro rfl as k hrun
    exact (run_inv (I := Clock.Inv) (fun _ _ _ h _ hs => Clock.Inv.step h hs) as (Clock.Inv.boot ticks)
      (runOk_true as _) hrun).not_late

theorem sleep_in_time_iff_none : (0 < 2 ^ 32 ∧ 7 < 2 ^ 64) ∧
    ∀ (as : List (ClockAct (Fin 8) Nat)) (k : Clock (Fin 8) Nat),
      run (Clock.step 0) (Clock.boot 7) as = some k → ∀ p, ¬ k.Late p 0 :=
  ⟨by decide, (sleep_in_time_iff 0 0 7 (by decide) (by decide)).mpr rfl⟩

open Clock in
/-- `proczero` sleeps for one tick, and for ever. -/
theorem sleep_late : ∃ k : Clock (Fin 2) Unit,
    run (Clock.step 0) (Clock.boot 0) (sleepRun 0 1 ++ [.tick]) = some k ∧ k.Late 0 1 := by
  have h : (run (Clock.step 0) (Clock.boot 0) (sleepRun (K := Unit) (0 : Fin 2) 1 ++ [.tick])).any
      (fun k => decide (k.sleeping 0 = some (1, 0) ∧ k.ticks = 1 ∧ k.sys.lk (.other TIMER) = none ∧
        k.sys.state 0 = .sleeping ∧ k.sys.sleepSpace 0 = some (.other TIMER))) = true := by
    decide +kernel
  obtain ⟨k, hk, hcall, ht, hlk, hst, hch⟩ := exists_of_any h
  exact ⟨k, hk, 0, hcall, by rw [ht]; decide, hlk, hst, hch⟩

end Smp
end Sched
end WhuOS
