import WhuOS.Sched.OneCpu

/-!
# WhuOS.Sched.Sleeplock

`sleeplock_acquire` and `sleeplock_release` of `kernel/lib/sleeplock.c`: mutual exclusion, and no
waiter is forgotten.

A process that has found the lock taken gives up `lk->lk` only after it has taken its own lock, and
keeps that one until it is switched away. So a `sleeplock_release` that comes later meets it asleep:
as long as a process waits (`Waits`), the lock is taken, or a release goes through the table and has
not passed that process yet (`Scans`).
-/

namespace WhuOS
namespace Sched
namespace Smp

open Lib

variable {C K : Type} [DecidableEq C] [DecidableEq K] {s s' : State C K} {c : C} {p q : Slot}

/-- `p` has set `locked` and not cleared it yet. -/
def Has (s : State C K) (p : Slot) (k : K) : Prop :=
  s.inside p k = true ∨ s.pc p = .acqUnlock k ∨ s.pc p = .relLock k ∨ s.pc p = .relClear k

/-- `q` has decided to sleep on the lock, and has given up `lk->lk`. -/
def Waits (s : State C K) (q : Slot) (k : K) : Prop :=
  s.pc q = .sleepSet (.lock k) ∨ s.pc q = .sleepSched (.lock k) ∨
    s.pc q = .asleep (.lock k) ∧ s.state q = .sleeping

/-- The `proc_wakeup` of a release at the place `pc` will still look at `q`. -/
def scans (pc : Pc K) (k : K) (q : Slot) : Prop :=
  match pc with
  | .wakeLock (.lock k') i => k' = k ∧ i ≤ q.val
  | .wakeTest (.lock k') i => k' = k ∧ i.val ≤ q.val
  | .wakeUnlock (.lock k') i => k' = k ∧ i.val < q.val
  | _ => False

structure LockInv (s : State C K) : Prop where
  locked : ∀ p k, Has s p k → s.locked k = true
  one : ∀ p q k, Has s p k → Has s q k → p = q
  leaving : ∀ p k, s.pc p = .relLock k ∨ s.pc p = .relClear k → s.inside p k = false
  committed : ∀ q k, s.pc q = .sleepLock (.lock k) ∨ s.pc q = .sleepUnlock (.lock k) →
    s.locked k = true
  covered : ∀ q k, Waits s q k → s.locked k = true ∨ ∃ r, scans (s.pc r) k q

/-- The places that `LockInv` is about. -/
def involved : Pc K → Bool
  | .acqUnlock _ | .relLock _ | .relClear _ => true
  | .sleepLock (.lock _) | .sleepUnlock (.lock _) | .sleepSet (.lock _) | .sleepSched (.lock _)
  | .asleep (.lock _) => true
  | .wakeLock (.lock _) _ | .wakeTest (.lock _) _ | .wakeUnlock (.lock _) _ => true
  | _ => false

omit [DecidableEq K] in
theorem not_involved {pc : Pc K} (h : involved pc = false) (k : K) :
    (pc ≠ .acqUnlock k ∧ pc ≠ .relLock k ∧ pc ≠ .relClear k) ∧
    (pc ≠ .sleepLock (.lock k) ∧ pc ≠ .sleepUnlock (.lock k)) ∧
    (pc ≠ .sleepSet (.lock k) ∧ pc ≠ .sleepSched (.lock k) ∧ pc ≠ .asleep (.lock k)) ∧
    ∀ q, ¬ scans pc k q := by
  refine ⟨⟨?_, ?_, ?_⟩, ⟨?_, ?_⟩, ⟨?_, ?_, ?_⟩, fun q hq => ?_⟩
  all_goals try (rintro rfl; cases h)
  unfold scans at hq
  split at hq
  · cases h
  · cases h
  · cases h
  · exact hq

/-! ## Who holds a spinlock -/

namespace Inv

omit [DecidableEq C] [DecidableEq K] in
/-- A thread that holds a spinlock in its code is on a CPU, which the lock records. -/
theorem holder (h : Inv s) {l : Lk K} (hl : l ∈ held q (s.pc q)) :
    ∃ c, s.mode c = .thread q ∧ s.lk l = some c := by
  have hy : s.yield q = .no := by
    by_contra hy
    rw [(h.loc q).1 hy] at hl
    cases hl
  have hoff : off (s.pc q) (s.yield q) = false := by
    rw [hy]
    cases hpc : s.pc q with
    | asleep w => rw [hpc] at hl; cases hl
    | dead => rw [hpc] at hl; cases hl
    | _ => rfl
  obtain ⟨c, hc⟩ : ∃ c, s.mode c = .thread q := by
    by_contra hno
    rw [h.away q fun c hc => hno ⟨c, hc⟩] at hoff
    cases hoff
  refine ⟨c, hc, (h.lock l c).mpr ?_⟩
  rw [held_thread hc, hy]
  exact hl

omit [DecidableEq C] [DecidableEq K] in
theorem held_inj (h : Inv s) {l : Lk K} (hp : l ∈ held p (s.pc p)) (hq : l ∈ held q (s.pc q)) :
    p = q := by
  obtain ⟨c, hc, hlc⟩ := h.holder hp
  obtain ⟨c', hc', hlc'⟩ := h.holder hq
  rw [hlc] at hlc'
  cases hlc'
  rw [hc] at hc'
  cases hc'
  rfl

omit [DecidableEq C] [DecidableEq K] in
theorem sleeping_pc (h : Inv s) (hst : s.state q = .sleeping) :
    ∃ w, (s.pc q = .sleepSched w ∨ s.pc q = .asleep w) ∧ s.sleepSpace q = some (w.chan q) := by
  by_cases hon : ∃ c, s.mode c = .thread q
  · obtain ⟨c, hc⟩ := hon
    have hat := (h.on c q hc).1
    have hloc := (h.loc q).2.2
    rw [hst] at hat
    cases hpc : s.pc q with
    | sleepSched w =>
      rw [hpc] at hloc
      exact ⟨w, .inl rfl, hloc⟩
    | _ => rw [hpc] at hat; cases hy : s.yield q <;> rw [hy] at hat <;> cases hat
  · have hoff := h.away q fun c hc => hon ⟨c, hc⟩
    obtain ⟨-, haway, hloc⟩ := h.loc q
    by_cases hy : s.yield q = .away
    · rcases haway hy with hs | hs <;> rw [hst] at hs <;> cases hs
    · cases hpc : s.pc q with
      | asleep w =>
        rw [hpc] at hloc
        exact ⟨w, .inr rfl, hloc.2.2.2⟩
      | dead =>
        rw [hpc] at hloc
        rcases hloc.2 with hs | hs <;> rw [hst] at hs <;> cases hs
      | _ =>
        rw [hpc] at hoff
        cases hyv : s.yield q with
        | away => exact absurd hyv hy
        | _ => rw [hyv] at hoff; cases hoff

omit [DecidableEq C] [DecidableEq K] in
theorem waits_of_sleeping (h : Inv s) {k : K} (hst : s.state q = .sleeping)
    (hch : s.sleepSpace q = some (.lock k)) : Waits s q k := by
  obtain ⟨w, hpc, hw⟩ := h.sleeping_pc hst
  rw [hch] at hw
  cases w with
  | lock k' =>
    cases hw
    rcases hpc with hpc | hpc
    · exact .inr (.inl hpc)
    · exact .inr (.inr ⟨hpc, hst⟩)
  | other n m => cases hw
  | wait => cases hw

end Inv

omit [DecidableEq C] [DecidableEq K] in
theorem held_of_scans {k : K} (h : scans (s.pc p) k q) : .lock k ∈ held p (s.pc p) := by
  cases hpc : s.pc p with
  | wakeLock w i | wakeTest w i | wakeUnlock w i =>
    rw [hpc] at h
    cases w with
    | lock k' => simp only [scans] at h; simp [held, Wake.lk, h.1]
    | other n m => exact h.elim
  | _ => rw [hpc] at h; exact h.elim

omit [DecidableEq C] [DecidableEq K] in
theorem not_scans_of_waits {k k' : K} {r : Slot} (h : Waits s q k) : ¬ scans (s.pc q) k' r := by
  rcases h with h | h | ⟨h, -⟩ <;> rw [h] <;> exact id

omit [DecidableEq K] in
theorem stateAt_ne_unused (pc : Pc K) (y : Yield) : stateAt pc y ≠ .unused := by
  cases y <;> cases pc <;> simp [stateAt]

/-! ## One step -/

namespace LockInv

omit [DecidableEq C] [DecidableEq K] in
/-- Nothing that matters is added: the places are the old ones or not involved, nobody gets a lock
or falls asleep. -/
theorem plain (h : LockInv s) (hlocked : s'.locked = s.locked)
    (hin : ∀ q k, s'.inside q k = true → s.inside q k = true)
    (hpc : ∀ q, s'.pc q = s.pc q ∨ involved (s'.pc q) = false ∧ ∀ k r, ¬ scans (s.pc q) k r)
    (hst : ∀ q, involved (s'.pc q) = true → s'.state q = .sleeping → s.state q = .sleeping) :
    LockInv s' := by
  have hold : ∀ {q pc}, s'.pc q = pc → involved pc = true → s.pc q = pc := by
    intro q pc hq hi
    rcases hpc q with he | ⟨hn, -⟩
    · rw [← he, hq]
    · rw [hq, hi] at hn; cases hn
  have hhas : ∀ {q k}, Has s' q k → Has s q k := by
    intro q k hq
    rcases hq with hq | hq | hq | hq
    · exact .inl (hin q k hq)
    · exact .inr (.inl (hold hq rfl))
    · exact .inr (.inr (.inl (hold hq rfl)))
    · exact .inr (.inr (.inr (hold hq rfl)))
  refine ⟨fun p k hp => ?_, fun p q k hp hq => h.one p q k (hhas hp) (hhas hq), fun p k hp => ?_,
    fun q k hq => ?_, fun q k hq => ?_⟩
  · rw [hlocked]; exact h.locked p k (hhas hp)
  · have hno := h.leaving p k (hp.imp (hold · rfl) (hold · rfl))
    by_contra hne
    rw [hin p k (by simpa using hne)] at hno
    cases hno
  · rw [hlocked]; exact h.committed q k (hq.imp (hold · rfl) (hold · rfl))
  · have hw : Waits s q k := by
      rcases hq with hq | hq | ⟨hq, hs⟩
      · exact .inl (hold hq rfl)
      · exact .inr (.inl (hold hq rfl))
      · exact .inr (.inr ⟨hold hq rfl, hst q (by rw [hq]; rfl) hs⟩)
    rw [hlocked]
    refine (h.covered q k hw).imp_right fun ⟨r, hr⟩ => ⟨r, ?_⟩
    rcases hpc r with he | ⟨-, hno⟩
    · rwa [he]
    · exact absurd hr (hno k q)

variable {pc : Pc K} {k : K}

omit [DecidableEq C] [DecidableEq K] in
/-- The thread of `p` goes on to `pc`; it has no lock that it had not before, waits for none that it
has not seen taken, and still looks at whoever waits. -/
theorem change (h : LockInv s) (hlocked : s'.locked = s.locked)
    (hpc : s'.pc = upd s.pc p pc) (hin : ∀ q, q ≠ p → s'.inside q = s.inside q)
    (hst : ∀ q, q ≠ p → s'.state q = .sleeping → s.state q = .sleeping)
    (hhas : ∀ k, Has s' p k → Has s p k)
    (hleave : ∀ k, pc = .relLock k ∨ pc = .relClear k → s'.inside p k = false)
    (hcom : ∀ k, pc = .sleepLock (.lock k) ∨ pc = .sleepUnlock (.lock k) → s.locked k = true)
    (hwait : ∀ k, pc = .sleepSet (.lock k) ∨ pc = .sleepSched (.lock k) ∨ pc = .asleep (.lock k) →
      s.locked k = true ∨ Waits s p k)
    (hscan : ∀ q k, q ≠ p → Waits s' q k → scans (s.pc p) k q → scans pc k q) : LockInv s' := by
  have hp : s'.pc p = pc := by rw [hpc, upd_same]
  have hq : ∀ q, q ≠ p → s'.pc q = s.pc q := fun q hq => by rw [hpc, upd_of_ne hq]
  have hh : ∀ {q k}, Has s' q k → Has s q k := by
    intro q k hk
    by_cases hqp : q = p
    · subst hqp; exact hhas k hk
    · simpa only [Has, hin q hqp, hq q hqp] using hk
  have hcov : ∀ {q k}, Waits s' q k → Waits s q k →
      s.locked k = true ∨ ∃ r, scans (s'.pc r) k q := by
    intro q k hw' hw
    refine (h.covered q k hw).imp_right fun ⟨r, hr⟩ => ⟨r, ?_⟩
    by_cases hrp : r = p
    · subst hrp
      rw [hp]
      by_cases hqr : q = r
      · subst hqr; exact absurd hr (not_scans_of_waits hw)
      · exact hscan q k hqr hw' hr
    · rwa [hq r hrp]
  refine ⟨fun r k hk => ?_, fun r q k hr hk => h.one r q k (hh hr) (hh hk), fun r k hk => ?_,
    fun r k hk => ?_, fun r k hk => ?_⟩
  · rw [hlocked]; exact h.locked r k (hh hk)
  · by_cases hrp : r = p
    · subst hrp
      rw [hp] at hk
      exact hleave k hk
    · rw [hq r hrp] at hk
      rw [hin r hrp]
      exact h.leaving r k hk
  · rw [hlocked]
    by_cases hrp : r = p
    · subst hrp
      rw [hp] at hk
      exact hcom k hk
    · rw [hq r hrp] at hk; exact h.committed r k hk
  · rw [hlocked]
    by_cases hrp : r = p
    · subst hrp
      have hpc' : pc = .sleepSet (.lock k) ∨ pc = .sleepSched (.lock k) ∨ pc = .asleep (.lock k) := by
        rcases hk with hk | hk | ⟨hk, -⟩ <;> rw [hp] at hk
        · exact .inl hk
        · exact .inr (.inl hk)
        · exact .inr (.inr hk)
      rcases hwait k hpc' with hl | hw
      · exact .inl hl
      · exact hcov hk hw
    · refine hcov hk ?_
      rw [Waits, hq r hrp] at hk
      exact hk.imp_right fun hk => hk.imp_right fun hk => ⟨hk.1, hst r hrp hk.2⟩

omit [DecidableEq C] [DecidableEq K] in
theorem moved (h : LockInv s) (hlocked : s'.locked = s.locked)
    (hin : s'.inside = s.inside) (hpc : s'.pc = upd s.pc p pc)
    (hst : ∀ q, q ≠ p → s'.state q = .sleeping → s.state q = .sleeping)
    (hhas : ∀ k, pc = .acqUnlock k ∨ pc = .relLock k ∨ pc = .relClear k → s.pc p = .relLock k)
    (hcom : ∀ k, pc = .sleepLock (.lock k) ∨ pc = .sleepUnlock (.lock k) → s.locked k = true)
    (hwait : ∀ k, pc = .sleepSet (.lock k) ∨ pc = .sleepSched (.lock k) ∨ pc = .asleep (.lock k) →
      s.locked k = true ∨ Waits s p k)
    (hscan : ∀ q k, q ≠ p → Waits s' q k → scans (s.pc p) k q → scans pc k q) : LockInv s' := by
  refine h.change hlocked hpc (fun _ _ => by rw [hin]) hst (fun k hk => ?_) (fun k hk => ?_) hcom
    hwait hscan
  · rcases hk with hk | hk
    · rw [hin] at hk; exact .inl hk
    · rw [hpc, upd_same] at hk; exact .inr (.inr (.inl (hhas k hk)))
  · rw [hin]; exact h.leaving p k (.inl (hhas k (.inr hk)))

omit [DecidableEq C] [DecidableEq K] in
theorem pc_old {pc' : Pc K} (h : upd s.pc p pc' q = pc) (hne : pc ≠ pc') : s.pc q = pc := by
  rw [upd_apply] at h
  split at h
  · exact absurd h.symm hne
  · exact h

omit [DecidableEq C] in
/-- `lk->locked` of one lock is set by a thread that neither waits nor scans before. -/
theorem covered_set (h : LockInv s) {k' : K} {b : Bool} (hne : k' ≠ k)
    (hold : ∀ q, ¬ scans (s.pc p) k' q)
    (hnew : pc ≠ .sleepSet (.lock k') ∧ pc ≠ .sleepSched (.lock k') ∧ pc ≠ .asleep (.lock k'))
    (hw : Waits ({ s with locked := upd s.locked k b }.setPc p pc) q k') :
    upd s.locked k b k' = true ∨ ∃ r, scans (upd s.pc p pc r) k' q := by
  have hw' : Waits s q k' := by
    rcases hw with hw | hw | ⟨hw, hs⟩
    · exact .inl (pc_old hw hnew.1.symm)
    · exact .inr (.inl (pc_old hw hnew.2.1.symm))
    · exact .inr (.inr ⟨pc_old hw hnew.2.2.symm, hs⟩)
  rw [upd_of_ne hne]
  refine (h.covered q k' hw').imp_right fun ⟨r, hr⟩ => ⟨r, ?_⟩
  have hrp : r ≠ p := by rintro rfl; exact hold q hr
  rwa [upd_of_ne hrp]

omit [DecidableEq C] in
theorem take (h : LockInv s) (hpc : s.pc p = .acqTest k) (hfree : s.locked k = false) :
    LockInv ({ s with locked := upd s.locked k true }.setPc p (.acqUnlock k)) := by
  have hno : ∀ q, ¬ Has s q k := fun q hq => by rw [h.locked q k hq] at hfree; cases hfree
  have hhas : ∀ {q k'}, Has ({ s with locked := upd s.locked k true }.setPc p (.acqUnlock k)) q k' →
      Has s q k' ∧ k' ≠ k ∨ q = p ∧ k' = k := by
    intro q k' hk
    have hk' : Has s q k' ∨ q = p ∧ k' = k := by
      rcases hk with hk | hk | hk | hk
      · exact .inl (.inl hk)
      · simp only [State.setPc, upd_apply] at hk
        split at hk
        · rename_i hqp; cases hk; exact .inr ⟨hqp, rfl⟩
        · exact .inl (.inr (.inl hk))
      · exact .inl (.inr (.inr (.inl (pc_old hk (by simp)))))
      · exact .inl (.inr (.inr (.inr (pc_old hk (by simp)))))
    refine hk'.imp_left fun hold => ⟨hold, ?_⟩
    rintro rfl
    exact hno q hold
  have hup : ∀ {k'}, s.locked k' = true → upd s.locked k true k' = true := by
    intro k' hk
    rw [upd_apply]
    split <;> trivial
  refine ⟨fun q k' hk => ?_, fun q r k' hk hr => ?_, fun q k' hk => ?_, fun q k' hk => ?_,
    fun q k' hk => ?_⟩
  · rcases hhas hk with hk | ⟨-, rfl⟩
    · exact hup (h.locked q k' hk.1)
    · exact upd_same ..
  · rcases hhas hk with ⟨hk, hne⟩ | ⟨hq, he⟩ <;> rcases hhas hr with ⟨hr, hne'⟩ | ⟨hr, he'⟩
    · exact h.one q r k' hk hr
    · exact absurd he' hne
    · exact absurd he hne'
    · rw [hq, hr]
  · exact h.leaving q k' (hk.imp (pc_old · (by simp)) (pc_old · (by simp)))
  · exact hup (h.committed q k' (hk.imp (pc_old · (by simp)) (pc_old · (by simp))))
  · by_cases hkk : k' = k
    · subst hkk; exact .inl (upd_same ..)
    · exact h.covered_set hkk (fun _ => by rw [hpc]; exact id) (by simp) hk

omit [DecidableEq C] in
theorem enter (h : LockInv s) (hpc : s.pc p = .acqUnlock k) :
    LockInv ({ s.release (.lock k) with
      inside := upd s.inside p (upd (s.inside p) k true) }.setPc p .user) := by
  refine h.change rfl rfl (fun q hq => upd_of_ne hq) (fun _ _ hs => hs) (fun k' hk => ?_) (by simp)
    (by simp) (by simp) (by simp [hpc, scans])
  simp only [Has, State.setPc, upd_same, reduceCtorEq, or_false, upd_apply] at hk
  split at hk
  · rename_i he; exact .inr (.inl (by rw [hpc, he]))
  · exact .inl hk

omit [DecidableEq C] in
theorem leave (h : LockInv s) (hpc : s.pc p = .user) (hin : s.inside p k = true) :
    LockInv ({ s with inside := upd s.inside p (upd (s.inside p) k false) }.setPc p (.relLock k)) := by
  refine h.change rfl rfl (fun q hq => upd_of_ne hq) (fun _ _ hs => hs) (fun k' hk => ?_)
    (fun k' hk => ?_) (by simp) (by simp) (by simp [hpc, scans])
  · simp only [Has, State.setPc, upd_same, reduceCtorEq, or_false, false_or, upd_apply,
      Pc.relLock.injEq] at hk
    split at hk
    · rename_i he; rw [he]; exact .inl hin
    · rename_i hne
      exact .inl (hk.resolve_right (Ne.symm hne))
  · simp only [Pc.relLock.injEq, reduceCtorEq, or_false] at hk
    simp [State.setPc, hk]

omit [DecidableEq C] in
theorem clear (h : LockInv s) (hi : Inv s) (hpc : s.pc p = .relClear k) :
    LockInv ({ s with locked := upd s.locked k false }.setPc p (.wakeLock (.lock k) 0)) := by
  have hhas : ∀ {q k'}, Has ({ s with locked := upd s.locked k false }.setPc p
      (.wakeLock (.lock k) 0)) q k' → Has s q k' ∧ k' ≠ k := by
    intro q k' hk
    have hk' : Has s q k' ∧ (q = p → s.inside p k' = true) := by
      by_cases hqp : q = p
      · subst hqp
        simp only [Has, State.setPc, upd_same, reduceCtorEq, or_false] at hk
        exact ⟨.inl hk, fun _ => hk⟩
      · simp only [Has, State.setPc, upd_of_ne hqp] at hk
        exact ⟨hk, fun he => absurd he hqp⟩
    refine ⟨hk'.1, ?_⟩
    rintro rfl
    have hin := hk'.2 (h.one q p k' hk'.1 (.inr (.inr (.inr hpc))))
    rw [h.leaving p k' (.inr hpc)] at hin
    cases hin
  have hup : ∀ {k'}, k' ≠ k → s.locked k' = true → upd s.locked k false k' = true := by
    intro k' hne hk
    rw [upd_of_ne hne, hk]
  refine ⟨fun q k' hk => ?_, fun q r k' hk hr => h.one q r k' (hhas hk).1 (hhas hr).1,
    fun q k' hk => ?_, fun q k' hk => ?_, fun q k' hk => ?_⟩
  · exact hup (hhas hk).2 (h.locked q k' (hhas hk).1)
  · exact h.leaving q k' (hk.imp (pc_old · (by simp)) (pc_old · (by simp)))
  · have hk' : s.pc q = .sleepLock (.lock k') ∨ s.pc q = .sleepUnlock (.lock k') :=
      hk.imp (pc_old · (by simp)) (pc_old · (by simp))
    refine hup ?_ (h.committed q k' hk')
    rintro rfl
    -- both would hold `lk->lk`
    have hp : .lock k' ∈ held p (s.pc p) := by simp [held, hpc]
    have hq : .lock k' ∈ held q (s.pc q) := by
      rcases hk' with hk' | hk' <;> simp [held, hk', Sleep.lk]
    rw [← hi.held_inj hp hq, hpc] at hk'
    rcases hk' with hk' | hk' <;> cases hk'
  · by_cases hkk : k' = k
    · subst hkk
      exact .inr ⟨p, by simp [State.setPc, scans]⟩
    · exact h.covered_set hkk (fun _ => by rw [hpc]; exact id) (by simp) hk

/-! ## The code of a thread -/

/-- `proc_wakeup` of a release goes on in the table: whoever waits is still ahead, or is awake. -/
theorem goWake (h : LockInv s) (hi : Inv s)
    (hpc : pc = s.pc p) (hw : (∃ i, pc = .wakeLock (.lock k) i) ∨ (∃ i, pc = .wakeTest (.lock k) i) ∨
      ∃ i, pc = .wakeUnlock (.lock k) i)
    (hs : goThread s c p pc = some s') : LockInv s' := by
  rcases hw with ⟨i, rfl⟩ | ⟨i, rfl⟩ | ⟨i, rfl⟩
  · simp only [goThread] at hs
    split at hs
    · rename_i hlt
      split at hs
      · rename_i hip
        cases hs
        refine h.moved rfl rfl rfl (fun _ _ hs => hs) (by simp) (by simp) (by simp) ?_
        intro q k' hqp _ hq
        rw [← hpc] at hq
        have hne : i ≠ q.val := fun he => hqp (by rw [← hip]; exact Fin.ext he.symm)
        exact ⟨hq.1, Nat.lt_of_le_of_ne hq.2 hne⟩
      · simp only [State.acquire] at hs
        split at hs
        · cases hs
          refine h.moved rfl rfl rfl (fun _ _ hs => hs) (by simp) (by simp) (by simp) ?_
          intro q k' _ _ hq
          rw [← hpc] at hq
          exact hq
        · cases hs
    · rename_i hlt
      cases hs
      refine h.moved rfl rfl rfl (fun _ _ hs => hs) (by simp [Wake.ret]) (by simp [Wake.ret])
        (by simp [Wake.ret]) ?_
      intro q k' _ _ hq
      rw [← hpc] at hq
      exact absurd (Nat.lt_of_le_of_lt hq.2 q.isLt) hlt
  · cases hs
    have hst : ∀ q, ((wakeIf s i (Wake.chan (.lock k))).setPc p (.wakeUnlock (.lock k) i)).state q =
        .sleeping → s.state q = .sleeping ∧ (q = i → s.sleepSpace q ≠ some (.lock k)) := by
      intro q hq
      rcases Inv.wakeIf_cases s i (Wake.chan (.lock k)) with ⟨-, -, he⟩ | ⟨hno, he⟩
      · rw [he] at hq
        simp only [State.setPc, State.setState, upd_apply] at hq
        split at hq
        · cases hq
        · rename_i hne; exact ⟨hq, fun he => absurd he hne⟩
      · rw [he] at hq
        refine ⟨hq, ?_⟩
        rintro rfl hch
        exact hno ⟨hq, hch⟩
    have hsame : (wakeIf s i (Wake.chan (.lock k))).locked = s.locked ∧
        (wakeIf s i (Wake.chan (.lock k))).inside = s.inside ∧
        (wakeIf s i (Wake.chan (.lock k))).pc = s.pc := by
      rcases Inv.wakeIf_cases s i (Wake.chan (.lock k)) with ⟨-, -, he⟩ | ⟨-, he⟩ <;> rw [he] <;>
        exact ⟨rfl, rfl, rfl⟩
    have hnew : ((wakeIf s i (Wake.chan (.lock k))).setPc p (.wakeUnlock (.lock k) i)).pc =
        upd s.pc p (.wakeUnlock (.lock k) i) := by
      rw [State.setPc, hsame.2.2]
    refine h.moved hsame.1 hsame.2.1 hnew (fun q _ hq => (hst q hq).1) (by simp) (by simp)
      (by simp) ?_
    intro q k' hqp hwq hq
    rw [← hpc] at hq
    obtain ⟨rfl, hle⟩ := hq
    refine ⟨rfl, Nat.lt_of_le_of_ne hle fun he => ?_⟩
    obtain rfl : i = q := Fin.ext he
    -- slot `i` itself: its lock is held, and it was on the channel if it slept
    have hheld : .proc i ∈ held p (s.pc p) := by rw [← hpc]; simp [held]
    simp only [Waits, State.setPc, upd_of_ne hqp, hsame.2.2] at hwq
    rcases hwq with hwq | hwq | ⟨hwq, hs⟩
    · exact hqp (hi.held_inj (by rw [hwq]; simp [held]) hheld)
    · exact hqp (hi.held_inj (by rw [hwq]; simp [held]) hheld)
    · have hloc := (hi.loc i).2.2
      rw [hwq] at hloc
      exact (hst i hs).2 rfl hloc.2.2.2
  · cases hs
    refine h.moved rfl rfl rfl (fun _ _ hs => hs) (by simp) (by simp) (by simp) ?_
    intro q k' _ _ hq
    rw [← hpc] at hq
    exact hq

theorem goSleep (h : LockInv s) (hpc : pc = s.pc p)
    (hw : pc = .sleepLock (.lock k) ∨ pc = .sleepUnlock (.lock k) ∨ pc = .sleepSet (.lock k) ∨
      pc = .sleepSched (.lock k))
    (hs : goThread s c p pc = some s') : LockInv s' := by
  rcases hw with rfl | rfl | rfl | rfl
  · simp only [goThread, State.acquire] at hs
    split at hs
    · cases hs
      refine h.moved rfl rfl rfl (fun _ _ hs => hs) (by simp) ?_ (by simp) (by simp [← hpc, scans])
      intro k' hk
      simp only [reduceCtorEq, Pc.sleepUnlock.injEq, Sleep.lock.injEq, false_or] at hk
      exact h.committed p k' (.inl (by rw [← hpc, hk]))
    · cases hs
  · cases hs
    refine h.moved rfl rfl rfl (fun _ _ hs => hs) (by simp) (by simp) ?_ (by simp [← hpc, scans])
    intro k' hk
    simp only [reduceCtorEq, Pc.sleepSet.injEq, Sleep.lock.injEq, or_false] at hk
    exact .inl (h.committed p k' (.inr (by rw [← hpc, hk])))
  · cases hs
    refine h.moved rfl rfl rfl (fun q hq hs => ?_) (by simp) (by simp) ?_ (by simp [← hpc, scans])
    · simpa [State.setPc, State.setState, hq] using hs
    · intro k' hk
      simp only [reduceCtorEq, Pc.sleepSched.injEq, Sleep.lock.injEq, or_false, false_or] at hk
      exact .inr (.inl (by rw [← hpc, hk]))
  · cases hs
    refine h.moved rfl rfl rfl (fun _ _ hs => hs) (by simp) (by simp) ?_ (by simp [← hpc, scans])
    intro k' hk
    simp only [reduceCtorEq, Pc.asleep.injEq, Sleep.lock.injEq, false_or] at hk
    exact .inr (.inr (.inl (by rw [← hpc, hk])))

end LockInv

/-- What a step of `p` at a place that is not involved does to the sleeplocks. -/
structure Quiet (s s' : State C K) (p : Slot) : Prop where
  locked : s'.locked = s.locked
  inside : ∀ q k, s'.inside q k = true → s.inside q k = true
  own : involved (s'.pc p) = false
  pc : ∀ q, q ≠ p → s'.pc q = s.pc q ∨ s.state q = .unused ∧ s'.pc q = .user
  state : ∀ q, q ≠ p → s'.state q = .sleeping → s.state q = .sleeping

namespace Quiet

variable {pc : Pc K}

omit [DecidableEq C] [DecidableEq K] in
theorem setPc {t : State C K} (hpc : involved pc = false) (ht : t.locked = s.locked)
    (hin : t.inside = s.inside) (hold : t.pc = s.pc)
    (hst : ∀ q, q ≠ p → t.state q = .sleeping → s.state q = .sleeping) : Quiet s (t.setPc p pc) p := by
  refine ⟨ht, fun q k hq => ?_, ?_, fun q hq => .inl ?_, hst⟩
  · rw [← hin]; exact hq
  · simpa [State.setPc] using hpc
  · simp [State.setPc, hq, hold]

omit [DecidableEq C] [DecidableEq K] in
theorem next (hpc : involved pc = false) : Quiet s (s.setPc p pc) p :=
  setPc hpc rfl rfl rfl fun _ _ h => h

omit [DecidableEq C] in
theorem acquire {l : Lk K} (hpc : involved pc = false)
    (hs : (s.acquire c l).map (·.setPc p pc) = some s') : Quiet s s' p := by
  simp only [State.acquire] at hs
  split at hs
  · cases hs; exact setPc hpc rfl rfl rfl fun _ _ h => h
  · cases hs

omit [DecidableEq C] in
theorem release {l : Lk K} (hpc : involved pc = false) :
    Quiet s ((s.release l).setPc p pc) p :=
  setPc hpc rfl rfl rfl fun _ _ h => h

omit [DecidableEq C] in
theorem wakeIf {chan : Chan K} (hpc : involved pc = false) :
    Quiet s ((wakeIf s q chan).setPc p pc) p := by
  rcases Inv.wakeIf_cases s q chan with ⟨-, -, he⟩ | ⟨-, he⟩
  · rw [he]
    refine setPc hpc rfl rfl rfl fun r _ hr => ?_
    simp only [State.setState, upd_apply] at hr
    split at hr
    · cases hr
    · exact hr
  · rw [he]; exact next hpc

omit [DecidableEq C] [DecidableEq K] in
theorem newChild {i : Slot} (hpc : involved pc = false) (hu : s.state i = .unused) :
    Quiet s ((newChild s p i).setPc p pc) p := by
  refine ⟨rfl, fun q k hq => ?_, ?_, fun q hq => ?_, fun q _ hq => ?_⟩
  · simp only [State.setPc, Smp.newChild, upd_apply] at hq
    split at hq
    · cases hq
    · exact hq
  · simpa [State.setPc] using hpc
  · simp only [State.setPc, Smp.newChild, upd_of_ne hq, upd_apply]
    split
    · rename_i he; rw [he]; exact .inr ⟨hu, rfl⟩
    · exact .inl rfl
  · simp only [State.setPc, Smp.newChild, upd_apply] at hq
    split at hq
    · cases hq
    · exact hq

omit [DecidableEq C] [DecidableEq K] in
theorem freeSlot {i : Slot} (hpc : involved pc = false) :
    Quiet s ((freeSlot s i).setPc p pc) p := by
  refine setPc hpc rfl rfl rfl fun q _ hq => ?_
  simp only [Smp.freeSlot, upd_apply] at hq
  split at hq
  · cases hq
  · exact hq

omit [DecidableEq C] [DecidableEq K] in
theorem setOwn {t : State C K} {st : PState} (hpc : involved pc = false)
    (ht : t.locked = s.locked) (hin : t.inside = s.inside) (hold : t.pc = s.pc)
    (hst : t.state = s.state) : Quiet s ((t.setState p st).setPc p pc) p := by
  refine setPc hpc ht hin hold fun q hq hs => ?_
  rw [← hst]
  simpa [State.setState, hq] using hs

omit [DecidableEq K] in
theorem toSched (hpc : involved pc = false) :
    Quiet s (toSched (s.setPc p pc) c p) p := by
  obtain ⟨h1, h2, h3, h4, h5⟩ := next (s := s) (p := p) hpc
  exact ⟨h1, h2, h3, h4, h5⟩

/-- At a place that is not involved a thread does nothing to the sleeplocks, except where
`sleeplock_acquire` looks at `locked`. -/
theorem goThread (hn : involved pc = false) (ht : ∀ k, pc ≠ .acqTest k)
    (hs : goThread s c p pc = some s') : Quiet s s' p := by
  cases pc with
  | user | inSection n | asleep w | dead => cases hs
  | acqUnlock k | relLock k | relClear k => cases hn
  | acqTest k => exact absurd rfl (ht k)
  | acqLock k | waitLock | waitChildLock i | exitWakeLock q | exitLock => exact acquire rfl hs
  | sleepLock w =>
    cases w with
    | lock k => cases hn
    | other n m | wait => exact acquire rfl hs
  | sleepUnlock w =>
    cases w with
    | lock k => cases hn
    | other n m | wait => cases hs; exact release rfl
  | sleepSet w =>
    cases w with
    | lock k => cases hn
    | other n m | wait => cases hs; exact setOwn rfl rfl rfl rfl rfl
  | sleepSched w =>
    cases w with
    | lock k => cases hn
    | other n m | wait => cases hs; exact toSched rfl
  | woken w => cases hs; cases w <;> exact setPc rfl rfl rfl rfl fun _ _ h => h
  | sleepRelock w => cases w <;> exact acquire rfl hs
  | relUnlock k | sleepRelease w | forkSkip i | forkUnlock i | waitChildUnlock i | waitReaped i
  | waitUnlock | exitWakeUnlock q => cases hs; exact release rfl
  | wakeLock w i =>
    cases w with
    | lock k => cases hn
    | other n m =>
      simp only [Smp.goThread] at hs
      split at hs
      · split at hs
        · cases hs; exact next rfl
        · exact acquire rfl hs
      · cases hs; exact next rfl
  | wakeTest w i =>
    cases w with
    | lock k => cases hn
    | other n m => cases hs; exact wakeIf rfl
  | wakeUnlock w i =>
    cases w with
    | lock k => cases hn
    | other n m => cases hs; exact release rfl
  | exitWakeTest q => cases hs; exact wakeIf rfl
  | forkLock i =>
    simp only [Smp.goThread] at hs
    split at hs
    · exact acquire rfl hs
    · cases hs; exact next rfl
  | forkTest i =>
    simp only [Smp.goThread] at hs
    split at hs
    · rename_i hu; cases hs; exact newChild rfl hu
    · cases hs; exact next rfl
  | waitScan i b =>
    simp only [Smp.goThread] at hs
    split at hs <;> split at hs <;> cases hs <;> exact next rfl
  | waitChildTest i =>
    simp only [Smp.goThread] at hs
    split at hs <;> cases hs
    · exact freeSlot rfl
    · exact next rfl
  | exitScan i =>
    simp only [Smp.goThread] at hs
    split at hs
    · split at hs <;> cases hs <;> exact next rfl
    · cases hs; exact next rfl
  | exitGive i => cases hs; exact setPc rfl rfl rfl rfl fun _ _ h => h
  | exitParent =>
    simp only [Smp.goThread] at hs
    split at hs
    · cases hs; exact next rfl
    · cases hs
  | exitSet => cases hs; exact setOwn rfl rfl rfl rfl rfl
  | exitSched => cases hs; exact toSched rfl

end Quiet

namespace LockInv

omit [DecidableEq C] [DecidableEq K] in
theorem quiet (h : LockInv s) (hi : Inv s) (hn : involved (s.pc p) = false) (hq : Quiet s s' p) :
    LockInv s' := by
  refine h.plain hq.locked hq.inside (fun q => ?_) fun q he hs => ?_
  · by_cases hqp : q = p
    · subst hqp
      exact .inr ⟨hq.own, fun k r => (not_involved hn k).2.2.2 r⟩
    · rcases hq.pc q hqp with he | ⟨hu, he⟩
      · exact .inl he
      · refine .inr ⟨by rw [he]; rfl, fun k r hr => ?_⟩
        obtain ⟨c, hc, -⟩ := hi.holder (held_of_scans hr)
        exact stateAt_ne_unused _ _ ((hi.on c q hc).1.symm.trans hu)
  · by_cases hqp : q = p
    · subst hqp
      rw [hq.own] at he
      cases he
    · exact hq.state q hqp hs

theorem goThread (h : LockInv s) (hi : Inv s) (hs : goThread s c p (s.pc p) = some s') :
    LockInv s' := by
  by_cases hn : involved (s.pc p) = false
  · by_cases ht : ∃ k, s.pc p = .acqTest k
    · obtain ⟨k, hpc⟩ := ht
      rw [hpc] at hs
      simp only [Smp.goThread] at hs
      split at hs
      · rename_i hk
        cases hs
        refine h.moved rfl rfl rfl (fun _ _ hs => hs) (by simp) ?_ (by simp) (by simp [hpc, scans])
        intro k' he
        simp only [Pc.sleepLock.injEq, Sleep.lock.injEq, reduceCtorEq, or_false] at he
        rw [← he]; exact hk
      · rename_i hk
        cases hs
        exact h.take hpc (by simpa using hk)
    · exact h.quiet hi hn (.goThread hn (fun k hk => ht ⟨k, hk⟩) hs)
  · cases hpc : s.pc p with
    | acqUnlock k => rw [hpc] at hs; cases hs; exact h.enter hpc
    | relClear k => rw [hpc] at hs; cases hs; exact h.clear hi hpc
    | relLock k =>
      rw [hpc] at hs
      simp only [Smp.goThread, State.acquire] at hs
      split at hs
      · cases hs
        refine h.moved rfl rfl rfl (fun _ _ hs => hs) ?_ (by simp) (by simp) (by simp [hpc, scans])
        intro k' hk
        simp only [reduceCtorEq, Pc.relClear.injEq, false_or] at hk
        rw [hpc, hk]
      · cases hs
    | sleepLock w | sleepUnlock w | sleepSet w | sleepSched w =>
      rw [hpc] at hs hn
      cases w with
      | lock k => exact h.goSleep (k := k) hpc.symm (by simp) hs
      | other n m | wait => exact absurd rfl hn
    | wakeLock w i | wakeTest w i | wakeUnlock w i =>
      rw [hpc] at hs hn
      cases w with
      | lock k => exact h.goWake (k := k) hi hpc.symm (by simp) hs
      | other n m => exact absurd rfl hn
    | asleep w => rw [hpc] at hs; cases hs
    | _ => rw [hpc] at hn; exact absurd rfl hn

omit [DecidableEq C] [DecidableEq K] in
/-- The places of the threads and the sleeplocks stay as they are, and nobody falls asleep. -/
theorem frame (h : LockInv s) (hlocked : s'.locked = s.locked) (hin : s'.inside = s.inside)
    (hpc : s'.pc = s.pc) (hst : ∀ q, s'.state q = .sleeping → s.state q = .sleeping) :
    LockInv s' :=
  h.plain hlocked (fun q k hq => by rw [← hin]; exact hq) (fun q => .inl (by rw [hpc]))
    fun q _ => hst q

omit [DecidableEq C] [DecidableEq K] in
theorem setState (h : LockInv s) {st : PState} (hst : st ≠ .sleeping)
    (hlocked : s'.locked = s.locked) (hin : s'.inside = s.inside) (hpc : s'.pc = s.pc)
    (hs : s'.state = upd s.state p st) : LockInv s' := by
  refine h.frame hlocked hin hpc fun q hq => ?_
  rw [hs, upd_apply] at hq
  split at hq
  · exact absurd hq hst
  · exact hq

omit [DecidableEq C] in
theorem wakeIf (h : LockInv s) {chan : Chan K} : LockInv (wakeIf s q chan) := by
  rcases Inv.wakeIf_cases s q chan with ⟨-, -, he⟩ | ⟨-, he⟩
  · rw [he]; exact h.setState (show PState.runnable ≠ .sleeping by simp) rfl rfl rfl rfl
  · rw [he]; exact h

theorem goYield (h : LockInv s) (hs : goYield s c p (s.yield p) = some s') : LockInv s' := by
  cases hy : s.yield p with
  | no | away => rw [hy] at hs; cases hs
  | lock =>
    rw [hy] at hs
    simp only [Smp.goYield, State.acquire] at hs
    split at hs
    · cases hs; exact h.frame rfl rfl rfl fun _ h => h
    · cases hs
  | set => rw [hy] at hs; cases hs; exact h.setState (by simp) rfl rfl rfl rfl
  | sched | unlock => rw [hy] at hs; cases hs; exact h.frame rfl rfl rfl fun _ h => h

theorem goSched (h : LockInv s) {l : Loop} (hs : goSched s c l = some s') : LockInv s' := by
  cases l with
  | scan i =>
    simp only [Smp.goSched] at hs
    split at hs
    · simp only [State.acquire] at hs
      split at hs
      · cases hs; exact h.frame rfl rfl rfl fun _ h => h
      · cases hs
    · cases hs; exact h.frame rfl rfl rfl fun _ h => h
  | test i =>
    simp only [Smp.goSched] at hs
    split at hs
    · cases hs; exact h.setState (by simp) rfl rfl rfl rfl
    · cases hs; exact h.frame rfl rfl rfl fun _ h => h
  | switch i =>
    simp only [Smp.goSched, Smp.resume] at hs
    split at hs
    · cases hs; exact h.frame rfl rfl rfl fun _ h => h
    · rename_i w _ hpc
      cases hs
      exact h.moved rfl rfl rfl (fun _ _ h => h) (by simp) (by simp) (by simp) (by simp [hpc, scans])
    · cases hs
  | back i | unlock i => cases hs; exact h.frame rfl rfl rfl fun _ h => h

omit [DecidableEq C] in
theorem call (h : LockInv s) (hi : Inv s) {op : Op K} (hs : call s c p (s.pc p) op = some s') :
    LockInv s' := by
  cases hpc : s.pc p with
  | user =>
    have hn : involved (s.pc p) = false := by rw [hpc]; rfl
    rw [hpc] at hs
    cases op with
    | release k =>
      simp only [Smp.call] at hs
      split at hs
      · rename_i hin; cases hs; exact h.leave hpc hin
      · cases hs
    | acquire k | fork | wait => cases hs; exact h.quiet hi hn (.next rfl)
    | exit =>
      simp only [Smp.call] at hs
      split at hs
      · cases hs
      · cases hs; exact h.quiet hi hn (.next rfl)
    | lock n => exact h.quiet hi hn (.acquire rfl hs)
    | sleep m | wakeup m | unlock => cases hs
  | inSection n =>
    have hn : involved (s.pc p) = false := by rw [hpc]; rfl
    rw [hpc] at hs
    cases op with
    | sleep m | wakeup m => cases hs; exact h.quiet hi hn (.next rfl)
    | unlock => cases hs; exact h.quiet hi hn (.release rfl)
    | _ => cases hs
  | _ => rw [hpc] at hs; cases op <;> cases hs

theorem step {a : Act C K} (h : LockInv s) (hi : Inv s) (hs : step s a = some s') : LockInv s' := by
  cases a with
  | go c =>
    simp only [Smp.step, Smp.go] at hs
    split at hs
    · exact h.goSched hs
    · split at hs
      · exact h.goThread hi hs
      · exact h.goYield hs
  | call c op =>
    simp only [Smp.step] at hs
    split at hs
    · split at hs
      · exact h.call hi hs
      · cases hs
    · cases hs
  | starve c stack =>
    simp only [Smp.step] at hs
    split at hs
    · rename_i p _
      split at hs
      · rename_i i _ hpc
        split at hs
        · cases hs
          have hn : involved (s.pc p) = false := by rw [hpc]; rfl
          cases stack with
          | true => exact h.quiet hi hn (.freeSlot rfl)
          | false => exact h.quiet hi hn (.next rfl)
        · cases hs
      · cases hs
    · cases hs
  | preempt c =>
    simp only [Smp.step] at hs
    split at hs
    · split at hs
      · cases hs; exact h.frame rfl rfl rfl fun _ h => h
      · cases hs
    · cases hs
  | interrupt c m i =>
    simp only [Smp.step] at hs
    split at hs
    · cases hs; exact h.wakeIf
    · cases hs

omit [DecidableEq C] [DecidableEq K] in
theorem boot : LockInv (boot : State C K) := by
  have hpc : ∀ q, involved ((Smp.boot : State C K).pc q) = false := by
    intro q
    simp only [Smp.boot, upd_apply]
    split <;> rfl
  have hno : ∀ q k, ¬ Has (Smp.boot : State C K) q k := by
    intro q k hq
    obtain ⟨⟨h1, h2, h3⟩, -⟩ := not_involved (hpc q) k
    rcases hq with hq | hq | hq | hq
    · cases hq
    · exact h1 hq
    · exact h2 hq
    · exact h3 hq
  refine ⟨fun q k hq => absurd hq (hno q k), fun q r k hq => absurd hq (hno q k), fun _ _ _ => rfl,
    fun q k hq => ?_, fun q k hq => ?_⟩
  · obtain ⟨-, ⟨h1, h2⟩, -⟩ := not_involved (hpc q) k
    rcases hq with hq | hq
    · exact absurd hq h1
    · exact absurd hq h2
  · obtain ⟨-, -, ⟨h1, h2, h3⟩, -⟩ := not_involved (hpc q) k
    rcases hq with hq | hq | hq
    · exact absurd hq h1
    · exact absurd hq h2
    · exact absurd hq.1 h3

end LockInv

/-! ## Whole runs -/

/-- At most one process is between `sleeplock_acquire` and `sleeplock_release`, and while the lock is
free nobody sleeps on it. -/
structure SleeplockSafe (s : State C K) (k : K) : Prop where
  exclusive : ∀ p q, s.inside p k = true → s.inside q k = true → p = q
  awake : s.lk (.lock k) = none → s.locked k = false →
    ∀ q, ¬ (s.state q = .sleeping ∧ s.sleepSpace q = some (.lock k))

omit [DecidableEq C] [DecidableEq K] in
theorem LockInv.safe (h : LockInv s) (hi : Inv s) (k : K) : SleeplockSafe s k := by
  refine ⟨fun p q hp hq => h.one p q k (.inl hp) (.inl hq), fun hfree hk q ⟨hst, hch⟩ => ?_⟩
  rcases h.covered q k (hi.waits_of_sleeping hst hch) with hl | ⟨r, hr⟩
  · rw [hk] at hl; cases hl
  · obtain ⟨c, -, hc⟩ := hi.holder (held_of_scans hr)
    rw [hfree] at hc; cases hc

/-- **`sleeplock_t` excludes, and loses no wakeup**, in every run and for every sleeplock. -/
theorem sleeplock_safe (as : List (Act C K)) (s : State C K) (hrun : run step boot as = some s)
    (k : K) : SleeplockSafe s k := by
  have hstep : ∀ (t : State C K) a t', Inv t ∧ LockInv t → True → step t a = some t' →
      Inv t' ∧ LockInv t' :=
    fun _ _ _ h _ hs => ⟨h.1.step hs, h.2.step h.1 hs⟩
  obtain ⟨hi, h⟩ := run_inv hstep as ⟨Inv.boot, LockInv.boot⟩ (runOk_true as _) hrun
  exact h.safe hi k

/-- `proczero` takes the lock and forks on CPU 0; the child finds it taken on CPU 1 and sleeps;
`proczero` gives it back. -/
def handOverRun : List (Act (Fin 2) Unit) :=
  List.replicate 4 (.go 0) ++ [.call 0 (.acquire ())] ++ List.replicate 3 (.go 0) ++
    [.call 0 .fork] ++ List.replicate 6 (.go 0) ++ List.replicate 7 (.go 1) ++
    [.call 1 (.acquire ())] ++ List.replicate 8 (.go 1) ++ [.call 0 (.release ())] ++
    List.replicate 194 (.go 0)

theorem sleeplock_safe_handOver : ∃ s, run step boot handOverRun = some s ∧
    (s.lk (.lock ()) = none ∧ s.locked () = false ∧ s.sleepSpace 1 = some (.lock ()) ∧
      s.state 1 = .runnable) ∧ SleeplockSafe s () := by
  have h : (run step boot handOverRun).any (fun s => decide (s.lk (.lock ()) = none ∧
      s.locked () = false ∧ s.sleepSpace 1 = some (.lock ()) ∧ s.state 1 = .runnable)) = true := by
    decide +kernel
  obtain ⟨s, hs, hd⟩ := exists_of_any h
  exact ⟨s, hs, hd, sleeplock_safe handOverRun s hs ()⟩

end Smp
end Sched
end WhuOS
