import Mathlib.Data.Finset.Max
import Mathlib.Data.Fintype.Basic
import WhuOS.Lib.Run
import WhuOS.Proc.Leak
import WhuOS.Proc.Table

/-!
# WhuOS.Proc.Family

Parents, pids and sleepers over whole runs of calls from boot, on the table of `WhuOS.Proc.Table` and
through `step_table` on the machine with its memory.

* `Table.Family` — the invariant: every process but `proczero` has a parent that has not exited, with
  a smaller pid; pids are distinct; who sleeps in `proc_wait` has a child that has not exited.
* `child_leaves_no_trace` — fork, exit and wait give the slot back.
* `calls_refine_table`, `processes_accounted`, `zombies_awaited`, `never_all_asleep` — runs from boot.
-/

namespace WhuOS
namespace Proc

open Lib Mem Sched Kern

namespace Table

variable {t t' : Table} {p np : Slot} {e : Entry} {g : Int}

@[simp] theorem set_globalPid (t : Table) (p : Slot) (e : Entry) :
    (t.set p e).globalPid = t.globalPid := rfl

/-- A process that has not exited. -/
def Alive (t : Table) (p : Slot) : Prop :=
  (t.procs p).state ≠ .unused ∧ (t.procs p).state ≠ .zombie

structure Family (t : Table) : Prop where
  /-- Between two calls nobody is on a CPU. -/
  rest : ∀ p, (t.procs p).state ≠ .running
  zero : t.proczero = some Sched.proczero
  root : t.Alive Sched.proczero
  rootPid : (t.procs Sched.proczero).pid = 0
  orphan : ∀ p, (t.procs p).parent = none ↔ (t.procs p).state = .unused ∨ p = Sched.proczero
  older : ∀ p q, (t.procs p).parent = some q → t.Alive q ∧ (t.procs q).pid < (t.procs p).pid
  nonneg : ∀ p, (t.procs p).state ≠ .unused → 0 ≤ (t.procs p).pid
  distinct : ∀ p q, (t.procs p).state ≠ .unused → (t.procs q).state ≠ .unused →
    (t.procs p).pid = (t.procs q).pid → p = q
  /-- After the last pid the counter is negative, and `alloc_pid` panics. -/
  fresh : 0 ≤ t.globalPid → ∀ p, (t.procs p).state ≠ .unused → (t.procs p).pid < t.globalPid
  space : ∀ p, (t.procs p).state = .sleeping → (t.procs p).sleepSpace = some p
  kid : ∀ p, (t.procs p).state = .sleeping → ∃ k, (t.procs k).parent = some p ∧ t.Alive k
  noticed : ∀ p k, (t.procs p).state = .sleeping → p ≠ Sched.proczero →
    (t.procs k).parent = some p → (t.procs k).state ≠ .zombie

namespace Family

/-- A slot that no process uses any more is cleared. -/
theorem clear (h : Family t) (hnp : ¬ t.Alive np) (he : e.state = .unused) (hpar : e.parent = none)
    (hg : 0 ≤ g → 0 ≤ t.globalPid ∧ t.globalPid ≤ g) :
    Family ({ t with globalPid := g }.set np e) := by
  obtain ⟨h1, h2, h3, h4, h5, h6, h7, h8, h9, h10, h11, h12⟩ := h
  constructor
  case kid =>
    intro p hp
    have hne : p ≠ np := by rintro rfl; simp [he] at hp
    simp only [set_procs, upd_of_ne hne] at hp
    obtain ⟨k, hk, ha⟩ := h11 p hp
    have hkn : k ≠ np := by rintro rfl; exact hnp ha
    exact ⟨k, by simpa [hkn] using hk, by simpa [Alive, hkn] using ha⟩
  all_goals
    simp only [set_procs, set_proczero, set_globalPid, upd_apply, Alive] at *
    grind

/-- `proc_fork` hands a slot to a child. -/
theorem child (h : Family t) (hnp : (t.procs np).state = .unused) (hp : t.Alive p)
    (hg : 0 ≤ t.globalPid) : Family ({ t with globalPid := incInt t.globalPid }.set np
      ⟨t.globalPid, .runnable, some p, none⟩) := by
  have hinc : 0 ≤ incInt t.globalPid → incInt t.globalPid = t.globalPid + 1 := by
    unfold incInt
    split <;> omega
  obtain ⟨h1, h2, h3, h4, h5, h6, h7, h8, h9, h10, h11, h12⟩ := h
  constructor
  case kid =>
    intro q hq
    have hne : q ≠ np := by rintro rfl; simp at hq
    simp only [set_procs, upd_of_ne hne] at hq
    obtain ⟨k, hk, ha⟩ := h11 q hq
    have hkn : k ≠ np := by rintro rfl; exact ha.1 hnp
    exact ⟨k, by simpa [hkn] using hk, by simpa [Alive, hkn] using ha⟩
  all_goals
    simp only [set_procs, set_proczero, set_globalPid, upd_apply, Alive] at *
    grind

/-- `proc_wait` is over, or not yet asleep. -/
theorem awake (h : Family t) (hp : (t.procs p).state = .runnable) {o : Option Slot} :
    Family (t.set p { t.procs p with sleepSpace := o }) := by
  obtain ⟨h1, h2, h3, h4, h5, h6, h7, h8, h9, h10, h11, h12⟩ := h
  constructor
  case kid =>
    intro q hq
    have hs : (t.procs q).state = .sleeping := by
      simp only [set_procs, upd_apply] at hq
      grind
    obtain ⟨k, hk, ha⟩ := h11 q hs
    refine ⟨k, ?_, ?_⟩
    all_goals
      simp only [set_procs, upd_apply, Alive] at *
      grind
  all_goals
    simp only [set_procs, set_proczero, set_globalPid, upd_apply, Alive] at *
    grind

/-- `proc_wait` sleeps: there is a child, and none that has exited. -/
theorem sleep (h : Family t) (hp : (t.procs p).state = .runnable) {k : Slot}
    (hk : (t.procs k).parent = some p)
    (hz : ∀ k, (t.procs k).parent = some p → (t.procs k).state ≠ .zombie) :
    Family (t.set p { t.procs p with sleepSpace := some p, state := .sleeping }) := by
  obtain ⟨h1, h2, h3, h4, h5, h6, h7, h8, h9, h10, h11, h12⟩ := h
  constructor
  case kid =>
    intro q hq
    have hkid : ∃ k, (t.procs k).parent = some q ∧ t.Alive k := by
      by_cases hqp : q = p
      · subst hqp
        exact ⟨k, hk, fun hu => by simp [(h5 k).mpr (.inl hu)] at hk, hz k hk⟩
      · simp only [set_procs, upd_of_ne hqp] at hq
        exact h11 q hq
    obtain ⟨k, hk, ha⟩ := hkid
    refine ⟨k, ?_, ?_⟩
    all_goals
      simp only [set_procs, upd_apply, Alive] at *
      grind
  all_goals
    simp only [set_procs, set_proczero, set_globalPid, upd_apply, Alive] at *
    grind

end Family

/-- What `proc_exit` does to every entry. -/
theorem exit_entry (h : t.exit p = some t') (hz : t.proczero = some Sched.proczero) :
    p ≠ Sched.proczero ∧ t'.proczero = t.proczero ∧ t'.globalPid = t.globalPid ∧
    ∃ par, (t'.procs p).parent = some par ∧ par ≠ p ∧ ∀ q, t'.procs q =
      ⟨(t.procs q).pid,
        if q = p then .zombie
        else if q = par ∧ (t.procs q).state = .sleeping ∧ (t.procs q).sleepSpace = some q then .runnable
        else (t.procs q).state,
        if (t.procs q).parent = some p then some Sched.proczero else (t.procs q).parent,
        (t.procs q).sleepSpace⟩ := by
  unfold exit at h
  split at h
  · cases h
  · rename_i hp
    have hp0 : p ≠ Sched.proczero := by rintro rfl; exact hp hz
    dsimp only at h
    split at h
    · cases h
    · rename_i par hpar
      cases h
      have hentry : ∀ q, (t.reparent p).procs q = { t.procs q with
          parent := if (t.procs q).parent = some p then some Sched.proczero
            else (t.procs q).parent } := by
        intro q
        simp only [reparent, hz]
        split <;> rfl
      have hne : par ≠ p := by
        rintro rfl
        rw [hentry] at hpar
        simp only at hpar
        split at hpar
        · exact hp0 (Option.some.inj hpar).symm
        · rename_i hself; exact hself hpar
      refine ⟨hp0, rfl, rfl, par, ?_, hne, fun q => ?_⟩
      · simpa [wakeupOne, hne.symm] using hpar
      · simp only [wakeupOne, set_procs, upd_apply, hentry]
        grind

/-- `proc_exit`: the children go to `proczero`, a parent that waits wakes up. -/
theorem Family.exit (h : Family t) (hp : (t.procs p).state = .runnable) (hx : t.exit p = some t') :
    Family t' := by
  obtain ⟨hp0, hz, hg, par, hpar, hne, hentry⟩ := exit_entry hx h.zero
  have hpos : ∀ q r, (t.procs q).parent = some r → 0 < (t.procs q).pid := by
    intro q r hq
    obtain ⟨ha, hlt⟩ := h.older q r hq
    have := h.nonneg r ha.1
    omega
  rw [hentry] at hpar
  obtain ⟨h1, h2, h3, h4, h5, h6, h7, h8, h9, h10, h11, h12⟩ := h
  constructor
  case kid =>
    intro q hq
    rw [hentry] at hq
    have hs : (t.procs q).state = .sleeping := by grind
    obtain ⟨k, hk, ha⟩ := h11 q hs
    have hspace := h10 q hs
    -- the child that has not exited is not the one that exits now: its exit would wake `q`
    have hkp : k ≠ p := by
      rintro rfl
      simp only [hk] at hpar
      grind
    refine ⟨k, ?_, ?_⟩
    all_goals
      simp only [Alive, hentry] at *
      grind
  all_goals
    simp only [hg, hz, Alive, hentry] at *
    grind

/-- `proc_wait`: a child that has exited is freed, or the caller sleeps. -/
theorem Family.wait (h : Family t) (hp : (t.procs p).state = .runnable) : Family (t.wait p) := by
  have h1 : Family (t.set p { t.procs p with sleepSpace := none }) := h.awake hp
  have hp1 : ((t.set p { t.procs p with sleepSpace := none }).procs p).state = .runnable := by
    simpa using hp
  rw [Table.wait]
  generalize t.set p { t.procs p with sleepSpace := none } = u at h1 hp1
  dsimp only
  cases hz : u.findZombie p with
  | some pp =>
    have hpp := List.find?_some hz
    simp only [decide_eq_true_eq] at hpp
    exact h1.clear (g := u.globalPid) (fun ha => ha.2 hpp.2) rfl rfl fun hg => ⟨hg, Int.le_refl _⟩
  | none =>
    have hnone := List.find?_eq_none.mp hz
    dsimp only
    split
    · rename_i hkids
      obtain ⟨k, -, hk⟩ := List.any_eq_true.mp hkids
      refine h1.sleep hp1 (by simpa using hk) fun k hk hs => ?_
      exact hnone k (List.mem_finRange k) (by simp [hk, hs])
    · exact h1

theorem Family.fork (h : Family t) (hp : (t.procs p).state = .runnable) {f : ForkEnd}
    (hx : t.fork p f = some t') : Family t' := by
  unfold Table.fork at hx
  split at hx
  · cases hx; exact h
  · rename_i np hnp
    have hun : (t.procs np).state = .unused := by simpa using List.find?_some hnp
    have hdead : ¬ t.Alive np := fun ha => ha.1 hun
    split at hx
    · rename_i hg
      have hinc : 0 ≤ incInt t.globalPid → 0 ≤ t.globalPid ∧ t.globalPid ≤ incInt t.globalPid := by
        unfold incInt
        split <;> omega
      cases f with
      | noTrapframe => cases hx; exact h.clear hdead hun ((h.orphan np).mpr (.inl hun)) hinc
      | noStack => cases hx; exact h.clear hdead rfl rfl hinc
      | child =>
        cases hx
        exact h.child hun ⟨by rw [hp]; decide, by rw [hp]; decide⟩ hg
    · cases hx

theorem Family.step (h : Family t) {a : Action} (hs : t.step a = some t') : Family t' := by
  unfold Table.step at hs
  split at hs
  · rename_i hrun
    cases a with
    | fork p f => exact h.fork hrun hs
    | exit p => exact h.exit hrun hs
    | wait p => cases hs; exact h.wait hrun
    | other p => cases hs; exact h
  · cases hs

theorem family_boot : Family Table.boot := by
  have hother : ∀ p, p ≠ Sched.proczero → Table.boot.procs p = freed := fun p hp => if_neg hp
  have hzero : Table.boot.procs Sched.proczero = ⟨0, .runnable, none, none⟩ := rfl
  constructor
  case zero => rfl
  all_goals grind [Alive, freed, Table.boot]

/-- **A child leaves no trace**: when it has been forked, has exited and was waited for, the table is as
before, apart from the pid counter and what was left in the unused slot. -/
theorem child_leaves_no_trace {c : Slot} {t1 t2 t3 : Table} (h : Family t)
    (hz : ∀ k, (t.procs k).parent = some p → (t.procs k).state ≠ .zombie)
    (hc : t.findUnused = some c) (hfork : t.step (.fork p .child) = some t1)
    (hexit : t1.step (.exit c) = some t2) (hwait : t2.step (.wait p) = some t3) :
    t3 = ({ t with globalPid := incInt t.globalPid }.set c freed).set p
      { t.procs p with sleepSpace := none } := by
  have hun : (t.procs c).state = .unused := by simpa using List.find?_some hc
  have hrun : (t.procs p).state = .runnable := by
    unfold Table.step at hfork
    split at hfork
    · assumption
    · cases hfork
  have hpc : p ≠ c := by rintro rfl; rw [hrun] at hun; cases hun
  have h1 : t1 = { t with globalPid := incInt t.globalPid }.set c
      ⟨t.globalPid, .runnable, some p, none⟩ := by
    simp only [Table.step, act, Action.caller, hrun, if_true, Table.fork, hc] at hfork
    split at hfork
    · exact (Option.some.inj hfork).symm
    · cases hfork
  have hkids : ∀ q, (t.procs q).parent ≠ some c := fun q hq => (h.older q c hq).1.1 hun
  -- the exit changes the state of the child only
  have h2 : t2 = { t with globalPid := incInt t.globalPid }.set c
      ⟨t.globalPid, .zombie, some p, none⟩ := by
    unfold Table.step at hexit
    split at hexit
    · obtain ⟨-, hzero, hg, par, hpar, -, hentry⟩ := exit_entry hexit (by rw [h1]; exact h.zero)
      have hprocs : t2.procs = upd t.procs c ⟨t.globalPid, .zombie, some p, none⟩ := by
        rw [hentry c, h1] at hpar
        have hpar : p = par := by simpa [hpc] using hpar
        funext q
        rw [hentry q, h1]
        by_cases hq : q = c
        · subst hq
          simp [hpc]
        · simp only [set_procs, upd_of_ne hq]
          rw [if_neg hq, if_neg (hkids q), if_neg]
          rintro ⟨rfl, hs, -⟩
          rw [← hpar, hrun] at hs
          cases hs
      rw [show t2 = ⟨t2.procs, t2.proczero, t2.globalPid⟩ from rfl, hprocs, hzero, hg, h1]
      rfl
    · cases hexit
  unfold Table.step at hwait
  split at hwait
  · cases hwait
    rw [h2, Table.wait]
    generalize hu : Table.set _ p _ = u
    have hprocs : u.procs = upd (upd t.procs c ⟨t.globalPid, .zombie, some p, none⟩) p
        { t.procs p with sleepSpace := none } := by
      rw [← hu]
      simp [hpc]
    have hentry : ∀ q, q ≠ c → (u.procs q).parent = (t.procs q).parent ∧
        (u.procs q).state = (t.procs q).state := by
      intro q hq
      rw [hprocs]
      by_cases hqp : q = p
      · subst hqp; simp
      · simp [hqp, hq]
    have hchild : u.procs c = ⟨t.globalPid, .zombie, some p, none⟩ := by
      rw [hprocs]
      simp [hpc.symm]
    cases hf : u.findZombie p with
    | none => simpa [hchild] using List.find?_eq_none.mp hf c (List.mem_finRange c)
    | some pp =>
      have hpp := List.find?_some hf
      simp only [decide_eq_true_eq] at hpp
      have hpp : pp = c := by
        by_contra hne
        obtain ⟨h3, h4⟩ := hentry pp hne
        rw [h3, h4] at hpp
        exact hz pp hpp.1 hpp.2
      subst hpp
      rw [← hu]
      simp only [Table.set, Table.mk.injEq, and_true]
      funext q
      simp only [upd_apply]
      grind
  · cases hwait

theorem child_leaves_no_trace_first : ∃ t, run step Table.boot [.fork 0 .child, .exit 1, .wait 0] =
    some t ∧ t = ({ Table.boot with globalPid := 3 }.set 1 freed).set 0 ⟨0, .runnable, none, none⟩ := by
  obtain ⟨t, ht⟩ : ∃ t, run step Table.boot [.fork 0 .child, .exit 1, .wait 0] = some t :=
    Option.isSome_iff_exists.mp (by decide +kernel)
  obtain ⟨t1, h1, hr⟩ := run_cons ht
  obtain ⟨t2, h2, hr⟩ := run_cons hr
  obtain ⟨t3, h3, hr⟩ := run_cons hr
  cases hr
  exact ⟨t, ht, child_leaves_no_trace family_boot (by decide +kernel) (by decide +kernel) h1 h2 h3⟩

end Table

/-! ## Runs of calls -/

variable {L : Layout} {hartid : Nat} {mem : Bytes} {s0 s : Machine} {cs : List Call}

/-- Every run of calls is a run of the table, each call by its own action. -/
theorem run_table : ∀ {cs : List Call} {s s' : Machine}, run (step L) s cs = some s' →
    ∃ es : List ForkEnd, es.length = cs.length ∧
      run Table.step (table s) (List.zipWith Call.action es cs) = some (table s') := by
  intro cs
  induction cs with
  | nil => intro s s' h; cases h; exact ⟨[], rfl, rfl⟩
  | cons c cs ih =>
    intro s s' h
    obtain ⟨s1, h1, h2⟩ := run_cons h
    obtain ⟨e, he⟩ := step_table h1
    obtain ⟨es, hlen, hes⟩ := ih h2
    refine ⟨e :: es, by simp [hlen], ?_⟩
    simp only [List.zipWith_cons_cons, run, he, hes]

theorem family_run (hboot : boot L hartid (reset mem) = .ok () s0)
    (hrun : run (step L) s0 cs = some s) : (table s).Family := by
  have h0 : table s0 = Table.boot :=
    wp_ok (Q := fun _ s => table s = Table.boot) (wlp_boot L hartid mem) hboot
  obtain ⟨as, -, has⟩ := run_table hrun
  rw [h0] at has
  exact run_inv (I := Table.Family) (fun _ _ _ h _ hs => h.step hs) _ Table.family_boot
    (runOk_true _ _) has

/-- **Processes are accounted for** in every run from boot: `proczero` never exits; every other
process has a parent that has not exited and an earlier pid; no two processes share a pid. -/
theorem processes_accounted (hboot : boot L hartid (reset mem) = .ok () s0)
    (hrun : run (step L) s0 cs = some s) :
    (s.procs Sched.proczero).state ≠ .unused ∧ (s.procs Sched.proczero).state ≠ .zombie ∧
    (∀ p, (s.procs p).state ≠ .unused → p ≠ Sched.proczero → ∃ q, (s.procs p).parent = some q ∧
      (s.procs q).state ≠ .unused ∧ (s.procs q).state ≠ .zombie ∧
      (s.procs q).pid < (s.procs p).pid) ∧
    ∀ p q, (s.procs p).state ≠ .unused → (s.procs q).state ≠ .unused →
      (s.procs p).pid = (s.procs q).pid → p = q := by
  have h := family_run hboot hrun
  refine ⟨h.root.1, h.root.2, fun p hp hp0 => ?_, h.distinct⟩
  obtain ⟨q, hq⟩ := Option.ne_none_iff_exists'.mp
    fun hnone => ((h.orphan p).mp hnone).elim hp hp0
  obtain ⟨ha, hlt⟩ := h.older p q hq
  exact ⟨q, hq, ha.1, ha.2, hlt⟩

/-- **Nobody sleeps on a zombie** in any run from boot: a process asleep in `proc_wait` has a child
that has not exited, and unless it is `proczero` no child that has. `proc_reparent` can hand a zombie
to `proczero` without waking it. -/
theorem zombies_awaited (hboot : boot L hartid (reset mem) = .ok () s0)
    (hrun : run (step L) s0 cs = some s) (p : Slot) (hp : (s.procs p).state = .sleeping) :
    (s.procs p).sleepSpace = some p ∧
    (∃ k, (s.procs k).parent = some p ∧ (s.procs k).state ≠ .unused ∧
      (s.procs k).state ≠ .zombie) ∧
    (p ≠ Sched.proczero → ∀ k, (s.procs k).parent = some p → (s.procs k).state ≠ .zombie) := by
  have h := family_run hboot hrun
  obtain ⟨k, hk, ha⟩ := h.kid p hp
  exact ⟨h.space p hp, ⟨k, hk, ha.1, ha.2⟩, fun hp0 k hk => h.noticed p k hp hp0 hk⟩

/-- **Not everybody sleeps** in any run from boot: the youngest process that has not exited is
runnable, as a sleeper has a younger child. -/
theorem never_all_asleep (hboot : boot L hartid (reset mem) = .ok () s0)
    (hrun : run (step L) s0 cs = some s) : ∃ p, (s.procs p).state = .runnable := by
  have h := family_run hboot hrun
  classical
  obtain ⟨p, hp, hmax⟩ := Finset.exists_max_image
    (Finset.univ.filter fun p => (table s).Alive p) (fun p => (s.procs p).pid)
    ⟨Sched.proczero, by simpa using h.root⟩
  have hp : (table s).Alive p := by simpa using hp
  refine ⟨p, ?_⟩
  cases hs : (s.procs p).state with
  | runnable => rfl
  | unused => exact absurd hs hp.1
  | zombie => exact absurd hs hp.2
  | running => exact absurd hs (h.rest p)
  | sleeping =>
    obtain ⟨k, hk, ha⟩ := h.kid p hs
    exact absurd (hmax k (by simpa using ha)) (Int.not_le.mpr (h.older k p hk).2)

/-! ### A parent that waits -/

theorem step_of_ok {c : Call} {s' : Machine} (hp : (s.procs c.caller).state = .runnable)
    (h : c.run L s = .ok () s') : step L s c = some s' := by
  rw [step, if_pos hp, h]

theorem step_wait_sleeps {p k : Slot} {a : Nat} (hp : (s.procs p).state = .runnable)
    (hk : (s.procs k).parent = some p)
    (hz : ∀ k, (s.procs k).parent = some p → (s.procs k).state ≠ .zombie) :
    ∃ s', step L s (.wait p a) = some s' ∧ (s'.procs p).state = .sleeping := by
  have hsame : ∀ q, (Function.update s.procs p { s.procs p with sleepSpace := none } q).parent =
      (s.procs q).parent ∧ (Function.update s.procs p { s.procs p with sleepSpace := none } q).state =
      (s.procs q).state := by
    intro q
    by_cases hq : q = p
    · subst hq; simp
    · simp [hq]
  let s1 : Machine := { s with
    procs := Function.update s.procs p { s.procs p with sleepSpace := none } }
  have hfind : findZombie s1 p = none := by
    refine List.find?_eq_none.mpr fun q _ => ?_
    simp only [s1, (hsame q).1, (hsame q).2, decide_eq_true_eq]
    exact fun hq => hz q hq.1 hq.2
  have hkids : haveKids s1 p = true :=
    List.any_eq_true.mpr ⟨k, List.mem_finRange k, by simp [s1, (hsame k).1, hk]⟩
  have hset : setProc p (fun q => { q with sleepSpace := none }) s = .ok () s1 := rfl
  let s2 : Machine := { s1 with
    procs := Function.update s1.procs p { s1.procs p with sleepSpace := some p, state := .sleeping } }
  have hwait : procWait L p a s1 = .ok none s2 := by
    rw [procWait, bind_of_ok (get_run s1)]
    simp only [hfind, hkids, if_true]
    rfl
  refine ⟨s2, step_of_ok hp ?_, by simp [s2]⟩
  rw [Call.run, bind_of_ok hset, bind_of_ok hwait]
  rfl

/-- The first process forks and waits. -/
theorem first_waits : ∃ s0 s, boot smallLayout 0 (reset fun _ => 0) = .ok () s0 ∧
    run (step smallLayout) s0 [.fork 0, .wait 0 0] = some s ∧ (s.procs 0).state = .sleeping := by
  obtain ⟨s0, s1, r, t, own, l, np, hs, hb, hnp, hfork⟩ := fork_small
  obtain ⟨_, _, _, _, _, _, f⟩ := forked_of_run hb.ready hfork (by decide) hnp
  obtain ⟨o, hprocs⟩ := f.procs
  have h0 : table s0 = Table.boot :=
    wp_ok (Q := fun _ s => table s = Table.boot) (wlp_boot smallLayout 0 fun _ => 0) hs
  have hentry : ∀ q, entry (s0.procs q) = Table.boot.procs q := fun q => by rw [← h0]; rfl
  have hrun0 : (s0.procs 0).state = .runnable := congrArg Entry.state (hentry 0)
  have hne : (0 : Slot) ≠ np := by
    rintro rfl
    have := List.find?_some hnp
    simp [hrun0] at this
  have hstep : step smallLayout s0 (.fork 0) = some s1 :=
    step_of_ok hrun0 (by rw [Call.run, bind_of_ok hfork]; rfl)
  obtain ⟨s2, hs2, hsleep⟩ := step_wait_sleeps (L := smallLayout) (s := s1) (p := 0) (k := np)
    (a := 0) (by rw [hprocs, Function.update_of_ne hne]; exact hrun0) (by rw [hprocs]; simp)
    (fun q hq => by
      rw [hprocs] at hq ⊢
      by_cases hqn : q = np
      · subst hqn; simp
      · rw [Function.update_of_ne hqn]
        have hstate : (s0.procs q).state = (Table.boot.procs q).state := congrArg Entry.state (hentry q)
        rw [hstate, Table.boot]
        dsimp only
        split <;> simp [Table.freed])
  exact ⟨s0, s2, hs, by simp only [run, hstep, hs2], hsleep⟩

theorem processes_accounted_waits : ∃ s0 s, boot smallLayout 0 (reset fun _ => 0) = .ok () s0 ∧
    run (step smallLayout) s0 [.fork 0, .wait 0 0] = some s ∧
    ∀ p q, (s.procs p).state ≠ .unused → (s.procs q).state ≠ .unused →
      (s.procs p).pid = (s.procs q).pid → p = q := by
  obtain ⟨s0, s, hboot, hrun, -⟩ := first_waits
  exact ⟨s0, s, hboot, hrun, (processes_accounted hboot hrun).2.2.2⟩

theorem zombies_awaited_waits : ∃ s0 s, boot smallLayout 0 (reset fun _ => 0) = .ok () s0 ∧
    run (step smallLayout) s0 [.fork 0, .wait 0 0] = some s ∧ (s.procs 0).state = .sleeping ∧
    ∃ k, (s.procs k).parent = some 0 ∧ (s.procs k).state ≠ .unused ∧
      (s.procs k).state ≠ .zombie := by
  obtain ⟨s0, s, hboot, hrun, hs⟩ := first_waits
  exact ⟨s0, s, hboot, hrun, hs, (zombies_awaited hboot hrun 0 hs).2.1⟩

theorem never_all_asleep_waits : ∃ s0 s, boot smallLayout 0 (reset fun _ => 0) = .ok () s0 ∧
    run (step smallLayout) s0 [.fork 0, .wait 0 0] = some s ∧ (s.procs 0).state = .sleeping ∧
    ∃ p, (s.procs p).state = .runnable := by
  obtain ⟨s0, s, hboot, hrun, hs⟩ := first_waits
  exact ⟨s0, s, hboot, hrun, hs, never_all_asleep hboot hrun⟩

end Proc
end WhuOS
