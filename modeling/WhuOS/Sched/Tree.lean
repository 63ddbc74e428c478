import Mathlib.Logic.Relation
import WhuOS.Sched.Wakeup

/-!
# WhuOS.Sched.Tree

The parent pointers of the process table form a tree with root `proczero`, in every run.

* `Rooted`  — what that means: everybody but `proczero` has a parent in use, the pointers lead to
  `proczero` and never in a circle, and a zombie that has switched away has no children.
* `TreeInv` — the invariant. `rank` decreases along the pointers; a process that leaves has handed
  over the children that its `proc_reparent` has passed, all of them when it becomes a zombie.

`proc_reparent` reads and writes `parent` without a lock. It is safe because nobody but the parent
itself changes the pointer of a child: another process frees no child of `p`, and `p`, in
`proc_exit`, neither forks nor waits.
-/

namespace WhuOS
namespace Sched

open Lib

def ParentOf (t : Table) (c q : Slot) : Prop := (t.procs c).parent = some q

/-- In `proc_wait` the thread of `p` has its own lock and takes that of `i`. -/
def LocksChild (t : Table) (p i : Slot) : Prop := (t.procs p).pc = .waitCheck i

structure Rooted (t : Table) : Prop where
  parent : ∀ c, (t.procs c).state ≠ .unused → c ≠ proczero →
    ∃ q, ParentOf t c q ∧ (t.procs q).state ≠ .unused
  reaches : ∀ c, (t.procs c).state ≠ .unused → Relation.ReflTransGen (ParentOf t) c proczero
  acyclic : ∀ c, ¬ Relation.TransGen (ParentOf t) c c
  childless : ∀ z c, GoneZombie t z → ¬ ParentOf t c z
  lockOrder : ∀ p, ¬ Relation.TransGen (LocksChild t) p p

/-- The process is in `proc_exit`, or dead. -/
def leaving : Pc → Bool
  | .exitScan _ | .exitGive _ | .exitParent | .exitWake _ | .exitLock | .exitSched | .dead => true
  | _ => false

/-- How many entries of the table `proc_reparent` has passed. -/
def passed : Pc → Nat
  | .exitScan i => i
  | .exitGive i => i.val
  | .exitParent | .exitWake _ | .exitLock | .exitSched | .dead => NPROC
  | _ => 0

theorem passed_of_staying {pc : Pc} (h : leaving pc = false) : passed pc = 0 := by
  cases pc <;> first | rfl | cases h

structure TreeInv (t : Table) (rank : Slot → Nat) : Prop where
  unused : ∀ p, (t.procs p).state = .unused → (t.procs p).parent = none ∧ (t.procs p).pc = .user
  root : (t.procs proczero).state ≠ .unused ∧ (t.procs proczero).parent = none ∧
    leaving (t.procs proczero).pc = false ∧ rank proczero = 0
  live : ∀ p, (t.procs p).state ≠ .unused → p ≠ proczero → ∃ q, ParentOf t p q
  up : ∀ c q, ParentOf t c q → (t.procs q).state ≠ .unused ∧ rank q < rank c
  left : ∀ p c, c.val < passed (t.procs p).pc → ¬ ParentOf t c p
  give : ∀ p i, (t.procs p).pc = .exitGive i → ParentOf t i p
  check : ∀ p i, (t.procs p).pc = .waitCheck i → ParentOf t i p
  zombie : ∀ p, (t.procs p).state = .zombie → passed (t.procs p).pc = NPROC

namespace TreeInv

variable {t t' : Table} {rank : Slot → Nat} {p : Slot} {v : Proc}

theorem parentOf_set_iff {c q : Slot} (hp : v.parent = (t.procs p).parent) :
    ParentOf (t.set p v) c q ↔ ParentOf t c q := by
  unfold ParentOf
  by_cases hc : c = p
  · subst hc; rw [set_self, hp]
  · rw [set_other t v hc]

theorem set_comm (t : Table) {q : Slot} (h : p ≠ q) {w : Proc} :
    (t.set q w).set p v = (t.set p v).set q w := by
  simp only [Table.set, Function.update_comm h]

/-- What the new contents of a slot must satisfy if its parent stays. -/
structure Fits (t : Table) (p : Slot) (v : Proc) : Prop where
  parent : v.parent = (t.procs p).parent
  used : (t.procs p).state ≠ .unused ∧ v.state ≠ .unused
  root : p = proczero → leaving v.pc = false
  left : ∀ c : Slot, c.val < passed v.pc → ¬ ParentOf t c p
  give : ∀ i, v.pc = .exitGive i → ParentOf t i p
  check : ∀ i, v.pc = .waitCheck i → ParentOf t i p
  zombie : v.state = .zombie → passed v.pc = NPROC

theorem set (h : TreeInv t rank) (hf : Fits t p v) : TreeInv (t.set p v) rank := by
  have hstate : ∀ q, ((t.set p v).procs q).state = .unused ↔ (t.procs q).state = .unused := by
    intro q
    by_cases hq : q = p
    · subst hq; rw [set_self]; exact ⟨fun hu => absurd hu hf.used.2, fun hu => absurd hu hf.used.1⟩
    · rw [set_other t v hq]
  refine ⟨fun q hq => ?_, ⟨?_, ?_, ?_, h.root.2.2.2⟩, fun q hq hz => ?_, fun c q hc => ?_,
    fun q c hc => ?_, fun q i hi => ?_, fun q i hi => ?_, fun q hz => ?_⟩
  · have hqp : q ≠ p := by rintro rfl; rw [set_self] at hq; exact hf.used.2 hq
    rw [set_other t v hqp] at hq ⊢
    exact h.unused q hq
  · exact fun hu => h.root.1 ((hstate _).mp hu)
  · by_cases hz : proczero = p
    · rw [hz, set_self, hf.parent, ← hz]; exact h.root.2.1
    · rw [set_other t v hz]; exact h.root.2.1
  · by_cases hz : proczero = p
    · rw [hz, set_self]; exact hf.root hz.symm
    · rw [set_other t v hz]; exact h.root.2.2.1
  · obtain ⟨r, hr⟩ := h.live q (fun hu => hq ((hstate q).mpr hu)) hz
    exact ⟨r, (parentOf_set_iff hf.parent).mpr hr⟩
  · obtain ⟨h1, h2⟩ := h.up c q ((parentOf_set_iff hf.parent).mp hc)
    exact ⟨fun hu => h1 ((hstate q).mp hu), h2⟩
  · rw [parentOf_set_iff hf.parent]
    by_cases hq : q = p
    · subst hq; rw [set_self] at hc; exact hf.left c hc
    · rw [set_other t v hq] at hc; exact h.left q c hc
  · rw [parentOf_set_iff hf.parent]
    by_cases hq : q = p
    · subst hq; rw [set_self] at hi; exact hf.give i hi
    · rw [set_other t v hq] at hi; exact h.give q i hi
  · rw [parentOf_set_iff hf.parent]
    by_cases hq : q = p
    · subst hq; rw [set_self] at hi; exact hf.check i hi
    · rw [set_other t v hq] at hi; exact h.check q i hi
  · by_cases hq : q = p
    · subst hq; rw [set_self] at hz ⊢; exact hf.zombie hz
    · rw [set_other t v hq] at hz ⊢; exact h.zombie q hz

theorem fits_same (h : TreeInv t rank) (hpc : v.pc = (t.procs p).pc)
    (hp : v.parent = (t.procs p).parent) (hu : (t.procs p).state ≠ .unused ∧ v.state ≠ .unused)
    (hz : v.state = .zombie → (t.procs p).state = .zombie) : Fits t p v := by
  refine ⟨hp, hu, ?_, ?_, ?_, ?_, ?_⟩
  · rintro rfl; rw [hpc]; exact h.root.2.2.1
  · intro c hc; rw [hpc] at hc; exact h.left p c hc
  · intro i hi; rw [hpc] at hi; exact h.give p i hi
  · intro i hi; rw [hpc] at hi; exact h.check p i hi
  · intro hv; rw [hpc]; exact h.zombie p (hz hv)

theorem fits_idle (hpc : leaving v.pc = false ∧ ∀ i, v.pc ≠ .waitCheck i)
    (hp : v.parent = (t.procs p).parent) (hu : (t.procs p).state ≠ .unused ∧ v.state ≠ .unused)
    (hz : v.state ≠ .zombie) : Fits t p v := by
  refine ⟨hp, hu, fun _ => hpc.1, ?_, ?_, ?_, fun h => absurd h hz⟩
  · intro c hc
    rw [passed_of_staying hpc.1] at hc
    omega
  · intro i hi; have := hpc.1; rw [hi] at this; cases this
  · intro i hi; exact absurd hi (hpc.2 i)

theorem unused_alone (h : TreeInv t rank) (hn : (t.procs p).state = .unused) :
    (∀ c, ¬ ParentOf t c p) ∧ (∀ q, ¬ ParentOf t p q) ∧ p ≠ proczero := by
  refine ⟨fun c hc => (h.up c p hc).1 hn, fun q hq => ?_, ?_⟩
  · unfold ParentOf at hq; rw [(h.unused p hn).1] at hq; cases hq
  · rintro rfl; exact h.root.1 hn

/-- A slot that nobody has as a parent and that no thread works on becomes unused, or stays so. -/
theorem clear (h : TreeInv t rank) (hz : p ≠ proczero) (hno : ∀ c, ¬ ParentOf t c p)
    (hgive : ∀ q, (t.procs q).pc ≠ .exitGive p) (hcheck : ∀ q, (t.procs q).pc ≠ .waitCheck p)
    (hv : v.state = .unused ∧ v.parent = none ∧ v.pc = .user) : TreeInv (t.set p v) rank := by
  obtain ⟨hs, hpar, hpc⟩ := hv
  have hold : ∀ {c q}, ParentOf (t.set p v) c q → ParentOf t c q ∧ c ≠ p := by
    intro c q hc
    unfold ParentOf at hc ⊢
    by_cases hcp : c = p
    · subst hcp; rw [set_self, hpar] at hc; cases hc
    · rw [set_other t v hcp] at hc; exact ⟨hc, hcp⟩
  have hnew : ∀ {c q}, ParentOf t c q → c ≠ p → ParentOf (t.set p v) c q := by
    intro c q hc hcp
    unfold ParentOf; rw [set_other t v hcp]; exact hc
  have hne : ∀ {q}, ((t.set p v).procs q).pc ≠ .user → q ≠ p := by
    rintro q hq rfl; rw [set_self] at hq; exact hq hpc
  refine ⟨fun q hq => ?_, ?_, fun q hq hqz => ?_, fun c q hc => ?_, fun q c hc => ?_,
    fun q i hi => ?_, fun q i hi => ?_, fun q hqz => ?_⟩
  · by_cases hqp : q = p
    · subst hqp; rw [set_self]; exact ⟨hpar, hpc⟩
    · rw [set_other t v hqp] at hq ⊢; exact h.unused q hq
  · rw [set_other t v hz.symm]; exact h.root
  · have hqp : q ≠ p := by rintro rfl; rw [set_self] at hq; exact hq hs
    rw [set_other t v hqp] at hq
    obtain ⟨r, hr⟩ := h.live q hq hqz
    exact ⟨r, hnew hr hqp⟩
  · have hc' := (hold hc).1
    have hqp : q ≠ p := by rintro rfl; exact hno c hc'
    rw [set_other t v hqp]
    exact h.up c q hc'
  · by_cases hqp : q = p
    · subst hqp; rw [set_self, hpc] at hc; simp [passed] at hc
    · rw [set_other t v hqp] at hc
      exact fun hcq => h.left q c hc (hold hcq).1
  · have hqp := hne (q := q) (by rw [hi]; simp)
    rw [set_other t v hqp] at hi
    exact hnew (h.give q i hi) (by rintro rfl; exact hgive q hi)
  · have hqp := hne (q := q) (by rw [hi]; simp)
    rw [set_other t v hqp] at hi
    exact hnew (h.check q i hi) (by rintro rfl; exact hcheck q hi)
  · have hqp : q ≠ p := by rintro rfl; rw [set_self, hs] at hqz; cases hqz
    rw [set_other t v hqp] at hqz ⊢
    exact h.zombie q hqz

theorem unused_untouched (h : TreeInv t rank) (hn : (t.procs p).state = .unused) :
    (∀ q, (t.procs q).pc ≠ .exitGive p) ∧ ∀ q, (t.procs q).pc ≠ .waitCheck p :=
  ⟨fun q hq => (h.unused_alone hn).2.1 q (h.give q p hq),
    fun q hq => (h.unused_alone hn).2.1 q (h.check q p hq)⟩

/-! ## One step -/

theorem schedule (h : TreeInv t rank) (hs : step t (.schedule p) = some t') : TreeInv t' rank := by
  simp only [step] at hs
  split at hs
  · rename_i hg
    cases hs
    have hu : (t.procs p).state ≠ .unused := by rw [hg.1]; simp
    by_cases hw : (t.procs p).pc = .waitSleep
    · refine h.set (fits_idle ?_ ?_ ⟨hu, ?_⟩ ?_) <;> simp [resume, hw, leaving]
    · have hr : resume (t.procs p) = { t.procs p with state := .running } := by
        unfold resume; split
        · rename_i he; exact absurd he hw
        · rfl
      rw [hr]
      exact h.set (h.fits_same rfl rfl ⟨hu, by simp⟩ (by simp))
  · cases hs

theorem preempt (h : TreeInv t rank) (hs : step t (.preempt p) = some t') : TreeInv t' rank := by
  simp only [step] at hs
  split at hs
  · rename_i hg
    cases hs
    exact h.set (h.fits_same rfl rfl ⟨by rw [hg.1]; simp, by simp⟩ (by simp))
  · cases hs

theorem setRet (h : TreeInv t rank) (hr : (t.procs p).state = .running) (ret pid : Int) :
    TreeInv { t.set p { t.procs p with ret := ret } with globalPid := pid } rank := by
  have := h.set (h.fits_same (v := { t.procs p with ret := ret }) rfl rfl
    ⟨by rw [hr]; simp, by simp [hr]⟩ (by simp))
  exact ⟨this.1, this.2, this.3, this.4, this.5, this.6, this.7, this.8⟩

theorem forkFull (h : TreeInv t rank) (hs : step t (.forkFull p) = some t') : TreeInv t' rank := by
  simp only [step] at hs
  split at hs
  · rename_i hg
    cases hs
    exact h.setRet hg.1 (-1) t.globalPid
  · cases hs

theorem forkStarved {np : Slot} {stack : Bool} (h : TreeInv t rank)
    (hs : step t (.forkStarved p np stack) = some t') : TreeInv t' rank := by
  simp only [step] at hs
  split at hs
  · rename_i hg
    obtain ⟨hr, -, hn, -⟩ := hg
    cases hs
    have hne : p ≠ np := by rintro rfl; rw [hr] at hn; cases hn
    obtain ⟨hno, -, hz⟩ := h.unused_alone hn
    obtain ⟨h1, h2⟩ := h.unused np hn
    obtain ⟨hg1, hg2⟩ := h.unused_untouched hn
    have hc := h.clear (v := if stack then Proc.free else { t.procs np with pid := t.globalPid })
      hz hno hg1 hg2 (by
        cases stack with
        | true => simp [Proc.free]
        | false => simp [hn, h1, h2])
    have hp := set_other t (if stack then Proc.free else { t.procs np with pid := t.globalPid }) hne
    have := hc.setRet (p := p) (by rw [hp]; exact hr) (-1) (t.globalPid + 1)
    rwa [hp] at this
  · cases hs

theorem fork {np : Slot} (h : TreeInv t rank) (hs : step t (.fork p np) = some t') :
    ∃ rank', TreeInv t' rank' := by
  simp only [step] at hs
  split at hs
  · rename_i hg
    obtain ⟨hr, huser, hn, -⟩ := hg
    cases hs
    have hne : p ≠ np := by rintro rfl; rw [hr] at hn; cases hn
    obtain ⟨hno, hnopar, hz⟩ := h.unused_alone hn
    obtain ⟨hg1, hg2⟩ := h.unused_untouched hn
    have hother := fun {q} (hq : q ≠ np) => set_other t (Proc.forked p t.globalPid) hq
    have hold : ∀ {c q}, ParentOf (t.set np (Proc.forked p t.globalPid)) c q →
        c = np ∧ q = p ∨ c ≠ np ∧ ParentOf t c q := by
      intro c q hc
      unfold ParentOf at hc ⊢
      by_cases hcn : c = np
      · subst hcn; rw [set_self] at hc; exact .inl ⟨rfl, (Option.some.inj hc).symm⟩
      · rw [hother hcn] at hc; exact .inr ⟨hcn, hc⟩
    have hnew : ∀ {c q}, ParentOf t c q → ParentOf (t.set np (Proc.forked p t.globalPid)) c q := by
      intro c q hc
      unfold ParentOf
      rw [hother (by rintro rfl; exact hnopar q hc)]; exact hc
    have hbusy : ∀ {q}, ((t.set np (Proc.forked p t.globalPid)).procs q).pc ≠ .user → q ≠ np := by
      rintro q hq rfl; rw [set_self] at hq; exact hq rfl
    have hpu : (t.procs p).state ≠ .unused := by rw [hr]; simp
    have h1 : TreeInv (t.set np (Proc.forked p t.globalPid))
        (Function.update rank np (rank p + 1)) := by
      refine ⟨fun q hq => ?_, ?_, fun q hq hqz => ?_, fun c q hc => ?_, fun q c hc hcq => ?_,
        fun q i hi => ?_, fun q i hi => ?_, fun q hqz => ?_⟩
      · have hqn : q ≠ np := by rintro rfl; rw [set_self] at hq; cases hq
        rw [hother hqn] at hq ⊢; exact h.unused q hq
      · rw [hother hz.symm, Function.update_of_ne hz.symm]; exact h.root
      · by_cases hqn : q = np
        · subst hqn; exact ⟨p, by unfold ParentOf; rw [set_self]; rfl⟩
        · rw [hother hqn] at hq
          obtain ⟨r, hrq⟩ := h.live q hq hqz
          exact ⟨r, hnew hrq⟩
      · rcases hold hc with ⟨rfl, rfl⟩ | ⟨hcn, hc'⟩
        · rw [hother hne, Function.update_of_ne hne, Function.update_self]
          exact ⟨hpu, Nat.lt_succ_self _⟩
        · have hqn : q ≠ np := by rintro rfl; exact hno c hc'
          rw [hother hqn, Function.update_of_ne hqn, Function.update_of_ne hcn]
          exact h.up c q hc'
      · have hqn := hbusy (q := q) (by intro hu; rw [hu] at hc; simp [passed] at hc)
        rw [hother hqn] at hc
        rcases hold hcq with ⟨rfl, rfl⟩ | ⟨-, hc'⟩
        · -- the parent is in user code
          rw [huser] at hc; simp [passed] at hc
        · exact h.left q c hc hc'
      · have hqn := hbusy (q := q) (by rw [hi]; simp)
        rw [hother hqn] at hi; exact hnew (h.give q i hi)
      · have hqn := hbusy (q := q) (by rw [hi]; simp)
        rw [hother hqn] at hi; exact hnew (h.check q i hi)
      · have hqn : q ≠ np := by rintro rfl; rw [set_self] at hqz; cases hqz
        rw [hother hqn] at hqz ⊢; exact h.zombie q hqz
    have := h1.setRet (p := p) (by rw [hother hne]; exact hr) t.globalPid (t.globalPid + 1)
    rw [hother hne] at this
    exact ⟨_, this⟩
  · cases hs

theorem callWait (h : TreeInv t rank) (hs : step t (.callWait p) = some t') : TreeInv t' rank := by
  simp only [step] at hs
  split at hs
  · rename_i hg
    cases hs
    exact h.set (fits_idle ⟨rfl, by simp⟩ rfl ⟨by rw [hg.1]; simp, by simp [hg.1]⟩ (by simp [hg.1]))
  · cases hs

theorem callExit {code : Int} (h : TreeInv t rank) (hs : step t (.callExit p code) = some t') :
    TreeInv t' rank := by
  simp only [step] at hs
  split at hs
  · rename_i hg
    cases hs
    refine h.set ⟨rfl, ⟨by rw [hg.1]; simp, by simp [hg.1]⟩, fun hz => absurd hz hg.2.2, ?_, ?_, ?_, ?_⟩
    · intro c hc; simp [passed] at hc
    · intro i hi; cases hi
    · intro i hi; cases hi
    · intro hz; rw [hg.1] at hz; cases hz
  · cases hs

theorem waitScan {i : Nat} {k : Bool} (h : TreeInv t rank) (hr : (t.procs p).state = .running) :
    TreeInv (waitScanStep t p i k) rank := by
  have hu : (t.procs p).state ≠ .unused := by rw [hr]; simp
  unfold waitScanStep
  simp only []
  split
  · split
    · rename_i hi hpar
      refine h.set ⟨rfl, ⟨hu, by simp [hr]⟩, fun _ => rfl, ?_, ?_, ?_, ?_⟩
      · intro c hc; simp [passed] at hc
      · intro j hj; cases hj
      · intro j hj
        cases hj
        exact hpar
      · intro hz; rw [hr] at hz; cases hz
    · exact h.set (fits_idle ⟨rfl, by simp⟩ rfl ⟨hu, by simp [hr]⟩ (by simp [hr]))
  · split
    · exact h.set (fits_idle ⟨rfl, by simp⟩ rfl ⟨hu, by simp⟩ (by simp))
    · exact h.set (fits_idle ⟨rfl, by simp⟩ rfl ⟨hu, by simp [hr]⟩ (by simp [hr]))

theorem waitCheck {i : Slot} (h : TreeInv t rank) (hpc : (t.procs p).pc = .waitCheck i)
    (hr : (t.procs p).state = .running) (hs : waitCheckStep t p i = some t') : TreeInv t' rank := by
  have hu : (t.procs p).state ≠ .unused := by rw [hr]; simp
  have hpar := h.check p i hpc
  simp only [waitCheckStep] at hs
  split at hs
  · cases hs
  split at hs
  · rename_i hz
    cases hs
    have hne : p ≠ i := by rintro rfl; rw [hr] at hz; cases hz
    have honly : ∀ {q}, ParentOf t i q → q = p := fun hq => Option.some.inj (hq.symm.trans hpar)
    have hroot : i ≠ proczero := by
      rintro rfl
      unfold ParentOf at hpar; rw [h.root.2.1] at hpar; cases hpar
    -- the parent leaves its scan, then the slot is cleared
    rw [set_comm t hne]
    have h1 := h.set (p := p) (v := { t.procs p with
      held := false, ret := (t.procs i).pid, status := (t.procs i).exitState, pc := .user })
      (fits_idle ⟨rfl, by simp⟩ rfl ⟨hu, by simp [hr]⟩ (by simp [hr]))
    refine h1.clear hroot (fun c hc => ?_) (fun q hq => ?_) (fun q hq => ?_) ⟨rfl, rfl, rfl⟩
    · have hci : ParentOf t c i := (parentOf_set_iff (by rfl)).mp hc
      exact h.left i c (by rw [h.zombie i hz]; exact c.isLt) hci
    · have hqp : q ≠ p := by rintro rfl; rw [set_self] at hq; cases hq
      rw [set_other t _ hqp] at hq
      exact hqp (honly (h.give q i hq))
    · have hqp : q ≠ p := by rintro rfl; rw [set_self] at hq; cases hq
      rw [set_other t _ hqp] at hq
      exact hqp (honly (h.check q i hq))
  · cases hs
    exact h.set (fits_idle ⟨rfl, by simp⟩ rfl ⟨hu, by simp [hr]⟩ (by simp [hr]))

theorem exitScan {i : Nat} (h : TreeInv t rank) (hpc : (t.procs p).pc = .exitScan i)
    (hr : (t.procs p).state = .running) {pc : Pc} (hnew : pc = .exitScan (i + 1) ∧
        (∀ hi : i < NPROC, ¬ ParentOf t ⟨i, hi⟩ p) ∨ (∃ hi : i < NPROC, pc = .exitGive ⟨i, hi⟩ ∧
        ParentOf t ⟨i, hi⟩ p) ∨ pc = .exitParent ∧ NPROC ≤ i) :
    TreeInv (t.set p { t.procs p with pc := pc }) rank := by
  have hroot : p ≠ proczero := by
    rintro rfl; have := h.root.2.2.1; rw [hpc] at this; cases this
  have hleft : ∀ c : Slot, c.val < i → ¬ ParentOf t c p := fun c hc =>
    h.left p c (by rw [hpc]; exact hc)
  refine h.set ⟨rfl, ⟨by rw [hr]; simp, by simp [hr]⟩, fun hz => absurd hz hroot, ?_, ?_, ?_, ?_⟩
  · rcases hnew with ⟨rfl, hno⟩ | ⟨hi, rfl, -⟩ | ⟨rfl, hi⟩
    · intro c hc hcp
      rcases Nat.lt_succ_iff_lt_or_eq.mp hc with hlt | rfl
      · exact hleft c hlt hcp
      · exact hno c.isLt hcp
    · exact fun c hc => hleft c hc
    · exact fun c hc => hleft c (by have := c.isLt; omega)
  · rcases hnew with ⟨rfl, -⟩ | ⟨hi, rfl, hpar⟩ | ⟨rfl, -⟩
    · intro j hj; cases hj
    · intro j hj; cases hj; exact hpar
    · intro j hj; cases hj
  · rcases hnew with ⟨rfl, -⟩ | ⟨hi, rfl, -⟩ | ⟨rfl, -⟩ <;> intro j hj <;> cases hj
  · intro hz; rw [hr] at hz; cases hz

theorem exitGive {i : Slot} (h : TreeInv t rank) (hpc : (t.procs p).pc = .exitGive i)
    (hr : (t.procs p).state = .running) :
    TreeInv ((t.set i { t.procs i with parent := some proczero }).set p
      { (t.set i { t.procs i with parent := some proczero }).procs p with
        pc := .exitScan (i.val + 1) }) rank := by
  have hpar := h.give p i hpc
  have hroot : p ≠ proczero := by
    rintro rfl; have := h.root.2.2.1; rw [hpc] at this; cases this
  have hrank : rank p < rank i := (h.up i p hpar).2
  have hne : p ≠ i := by rintro rfl; omega
  have hiz : i ≠ proczero := by rintro rfl; have := h.root.2.2.2; omega
  rw [set_other t _ hne]
  -- what the two stores leave of the table
  have hpcs : ∀ q, (((t.set i { t.procs i with parent := some proczero }).set p
      { t.procs p with pc := .exitScan (i.val + 1) }).procs q).pc =
        if q = p then .exitScan (i.val + 1) else (t.procs q).pc := by
    intro q
    by_cases hq : q = p
    · subst hq; rw [set_self, if_pos rfl]
    · rw [set_other _ _ hq, if_neg hq]
      by_cases hqi : q = i
      · subst hqi; rw [set_self]
      · rw [set_other t _ hqi]
  have hsts : ∀ q, (((t.set i { t.procs i with parent := some proczero }).set p
      { t.procs p with pc := .exitScan (i.val + 1) }).procs q).state = (t.procs q).state := by
    intro q
    by_cases hq : q = p
    · subst hq; rw [set_self]
    · rw [set_other _ _ hq]
      by_cases hqi : q = i
      · subst hqi; rw [set_self]
      · rw [set_other t _ hqi]
  have hprs : ∀ q, (((t.set i { t.procs i with parent := some proczero }).set p
      { t.procs p with pc := .exitScan (i.val + 1) }).procs q).parent =
        if q = i then some proczero else (t.procs q).parent := by
    intro q
    by_cases hq : q = p
    · subst hq; rw [set_self, if_neg hne]
    · rw [set_other _ _ hq]
      by_cases hqi : q = i
      · subst hqi; rw [set_self, if_pos rfl]
      · rw [set_other t _ hqi, if_neg hqi]
  generalize (t.set i { t.procs i with parent := some proczero }).set p
      { t.procs p with pc := .exitScan (i.val + 1) } = t1 at hpcs hsts hprs
  have hpo : ∀ {c q}, ParentOf t1 c q ↔ c = i ∧ q = proczero ∨ c ≠ i ∧ ParentOf t c q := by
    intro c q
    unfold ParentOf
    rw [hprs]
    by_cases hc : c = i
    · simp [hc, eq_comm]
    · simp [hc]
  refine ⟨fun q hq => ?_, ⟨?_, ?_, ?_, h.root.2.2.2⟩, fun q hq hqz => ?_, fun c q hc => ?_,
    fun q c hc hcq => ?_, fun q j hj => ?_, fun q j hj => ?_, fun q hz => ?_⟩
  · rw [hsts] at hq
    have hqp : q ≠ p := by rintro rfl; rw [hr] at hq; cases hq
    have hqi : q ≠ i := by rintro rfl; exact (h.unused_alone hq).2.1 p hpar
    rw [hpcs, hprs, if_neg hqp, if_neg hqi]
    exact h.unused q hq
  · rw [hsts]; exact h.root.1
  · rw [hprs, if_neg hiz.symm]; exact h.root.2.1
  · rw [hpcs, if_neg hroot.symm]; exact h.root.2.2.1
  · rw [hsts] at hq
    by_cases hqi : q = i
    · exact ⟨proczero, hpo.mpr (.inl ⟨hqi, rfl⟩)⟩
    · obtain ⟨r, hrq⟩ := h.live q hq hqz
      exact ⟨r, hpo.mpr (.inr ⟨hqi, hrq⟩)⟩
  · rw [hsts]
    rcases hpo.mp hc with ⟨rfl, rfl⟩ | ⟨-, hc'⟩
    · exact ⟨h.root.1, by have := h.root.2.2.2; omega⟩
    · exact h.up c q hc'
  · rw [hpcs] at hc
    rcases hpo.mp hcq with ⟨rfl, rfl⟩ | ⟨hci, hc'⟩
    · -- proczero does not leave
      rw [if_neg hroot.symm] at hc
      rw [passed_of_staying h.root.2.2.1] at hc
      omega
    · split at hc
      · rename_i hqp
        subst hqp
        rcases Nat.lt_succ_iff_lt_or_eq.mp hc with hlt | heq
        · exact h.left q c (by rw [hpc]; exact hlt) hc'
        · exact hci (Fin.ext heq)
      · exact h.left q c hc hc'
  · rw [hpcs] at hj
    split at hj
    · cases hj
    · rename_i hqp
      refine hpo.mpr (.inr ⟨?_, h.give q j hj⟩)
      rintro rfl
      exact hqp (Option.some.inj ((h.give q j hj).symm.trans hpar))
  · rw [hpcs] at hj
    split at hj
    · cases hj
    · rename_i hqp
      refine hpo.mpr (.inr ⟨?_, h.check q j hj⟩)
      rintro rfl
      exact hqp (Option.some.inj ((h.check q j hj).symm.trans hpar))
  · rw [hsts] at hz
    have hqp : q ≠ p := by rintro rfl; rw [hr] at hz; cases hz
    rw [hpcs, if_neg hqp]
    exact h.zombie q hz

theorem exitMove (h : TreeInv t rank) (hp : v.parent = (t.procs p).parent)
    (hu : (t.procs p).state ≠ .unused ∧ v.state ≠ .unused)
    (hold : passed (t.procs p).pc = NPROC) (hnew : passed v.pc = NPROC)
    (hgive : ∀ i, v.pc ≠ .exitGive i) : TreeInv (t.set p v) rank := by
  have hroot : p ≠ proczero := by
    rintro rfl
    rw [passed_of_staying h.root.2.2.1] at hold
    cases hold
  refine h.set ⟨hp, hu, fun hz => absurd hz hroot, fun c _ => ?_, fun i hi => absurd hi (hgive i),
    fun i hi => ?_, fun _ => hnew⟩
  · exact h.left p c (by rw [hold]; exact c.isLt)
  · rw [hi] at hnew; simp [passed] at hnew

theorem wakeupOne {q : Slot} {t1 : Table} (h : TreeInv t rank) (hs : wakeupOne t q = some t1) :
    TreeInv t1 rank ∧ ∀ r, (t1.procs r).pc = (t.procs r).pc ∧
      ((t1.procs r).state = (t.procs r).state ∨
        (t.procs r).state = .sleeping ∧ (t1.procs r).state = .runnable) := by
  simp only [Sched.wakeupOne] at hs
  split at hs
  · cases hs
  split at hs
  · rename_i hsl
    cases hs
    refine ⟨h.set (h.fits_same rfl rfl ⟨by rw [hsl.1]; simp, by simp⟩ (by simp)), fun r => ?_⟩
    by_cases hrq : r = q
    · subst hrq; rw [set_self]; exact ⟨rfl, .inr ⟨hsl.1, rfl⟩⟩
    · rw [set_other t _ hrq]; exact ⟨rfl, .inl rfl⟩
  · cases hs
    exact ⟨h, fun _ => ⟨rfl, .inl rfl⟩⟩

theorem go (h : TreeInv t rank) (hs : step t (.go p) = some t') : TreeInv t' rank := by
  simp only [step] at hs
  split at hs
  · rename_i hg
    have hrun : (t.procs p).pc ≠ .exitSched → (t.procs p).state = .running :=
      fun hne => hg.resolve_right hne
    have hused : (t.procs p).state ≠ .unused := by
      intro hu
      rcases hg with hg | hg
      · rw [hg] at hu; cases hu
      · rw [(h.unused p hu).2] at hg; cases hg
    simp only [Sched.go] at hs
    split at hs
    · cases hs
    · cases hs
    · cases hs
    · rename_i i k hpc
      cases hs
      exact h.waitScan (hrun (by simp [hpc]))
    · rename_i i hpc
      exact h.waitCheck hpc (hrun (by simp [hpc])) hs
    · rename_i i hpc
      have hr := hrun (by simp [hpc])
      split at hs
      · rename_i hi
        split at hs
        · rename_i hpar
          cases hs
          exact h.exitScan hpc hr (.inr (.inl ⟨hi, rfl, hpar⟩))
        · rename_i hpar
          cases hs
          exact h.exitScan hpc hr (.inl ⟨rfl, fun _ => hpar⟩)
      · rename_i hi
        cases hs
        exact h.exitScan hpc hr (.inr (.inr ⟨rfl, by omega⟩))
    · rename_i i hpc
      cases hs
      exact h.exitGive hpc (hrun (by simp [hpc]))
    · rename_i hpc
      split at hs
      · cases hs
        exact h.exitMove rfl ⟨hused, hused⟩ (by rw [hpc]; rfl) rfl (by simp)
      · cases hs
    · rename_i q hpc
      split at hs
      · rename_i t1 ht1
        cases hs
        obtain ⟨h1, hsame⟩ := h.wakeupOne ht1
        have hu1 : (t1.procs p).state ≠ .unused := by
          rcases (hsame p).2 with hst | ⟨-, hst⟩
          · rw [hst]; exact hused
          · rw [hst]; simp
        exact h1.exitMove rfl ⟨hu1, hu1⟩ (by rw [(hsame p).1, hpc]; rfl) rfl (by simp)
      · cases hs
    · rename_i hpc
      split at hs
      · cases hs
      · cases hs
        exact h.exitMove rfl ⟨hused, by simp⟩ (by rw [hpc]; rfl) rfl (by simp)
    · rename_i hpc
      cases hs
      exact h.exitMove rfl ⟨hused, hused⟩ (by rw [hpc]; rfl) rfl (by simp)
  · cases hs

theorem step {a : Act} (h : TreeInv t rank) (hs : step t a = some t') :
    ∃ rank', TreeInv t' rank' := by
  cases a with
  | schedule p => exact ⟨rank, h.schedule hs⟩
  | preempt p => exact ⟨rank, h.preempt hs⟩
  | fork p np => exact h.fork hs
  | forkFull p => exact ⟨rank, h.forkFull hs⟩
  | forkStarved p np stack => exact ⟨rank, h.forkStarved hs⟩
  | callWait p => exact ⟨rank, h.callWait hs⟩
  | callExit p code => exact ⟨rank, h.callExit hs⟩
  | go p => exact ⟨rank, h.go hs⟩

theorem boot : TreeInv boot fun _ => 0 := by
  have hs : ∀ p, (Sched.boot.procs p).pc = .user ∧ (Sched.boot.procs p).parent = none ∧
      (Sched.boot.procs p).state = if p = proczero then .runnable else .unused := by
    intro p
    by_cases hp : p = proczero
    · subst hp; simp [Sched.boot, Proc.free]
    · simp [Sched.boot, Proc.free, hp]
  have hno : ∀ c q, ¬ ParentOf Sched.boot c q := by
    intro c q hc; unfold ParentOf at hc; rw [(hs c).2.1] at hc; cases hc
  refine ⟨fun p _ => ⟨(hs p).2.1, (hs p).1⟩, ⟨?_, (hs _).2.1, ?_, rfl⟩, fun p hp hz => ?_,
    fun c q hc => absurd hc (hno c q), fun p c _ => hno c p, fun p i hi => ?_, fun p i hi => ?_,
    fun p hz => ?_⟩
  · rw [(hs _).2.2]; simp
  · rw [(hs _).1]; rfl
  · rw [(hs p).2.2, if_neg hz] at hp; exact absurd rfl hp
  · rw [(hs p).1] at hi; cases hi
  · rw [(hs p).1] at hi; cases hi
  · rw [(hs p).2.2] at hz; split at hz <;> cases hz

/-! ## What the invariant says -/

theorem rank_lt (h : TreeInv t rank) {c q : Slot} (hc : Relation.TransGen (ParentOf t) c q) :
    rank q < rank c := by
  induction hc with
  | single hc => exact (h.up _ _ hc).2
  | tail _ hc ih => exact Nat.lt_trans (h.up _ _ hc).2 ih

theorem reaches (h : TreeInv t rank) : ∀ (n : Nat) (c : Slot), rank c ≤ n →
    (t.procs c).state ≠ .unused → Relation.ReflTransGen (ParentOf t) c proczero := by
  intro n
  induction n with
  | zero =>
    intro c hc hu
    by_cases hz : c = proczero
    · rw [hz]
    · obtain ⟨q, hq⟩ := h.live c hu hz
      have := (h.up c q hq).2
      omega
  | succ n ih =>
    intro c hc hu
    by_cases hz : c = proczero
    · rw [hz]
    · obtain ⟨q, hq⟩ := h.live c hu hz
      obtain ⟨hqu, hlt⟩ := h.up c q hq
      exact .head hq (ih q (by omega) hqu)

theorem parents_of_locks (h : TreeInv t rank) {p q : Slot}
    (hp : Relation.TransGen (LocksChild t) p q) : Relation.TransGen (ParentOf t) q p := by
  induction hp with
  | single hc => exact .single (h.check _ _ hc)
  | tail _ hc ih => exact .head (h.check _ _ hc) ih

theorem rooted (h : TreeInv t rank) : Rooted t := by
  have hacyc : ∀ c, ¬ Relation.TransGen (ParentOf t) c c := fun c hc => by
    have := h.rank_lt hc; omega
  refine ⟨fun c hu hz => ?_, fun c => h.reaches _ c (Nat.le_refl _), hacyc, fun z c hgone => ?_,
    fun p hp => hacyc p (h.parents_of_locks hp)⟩
  · obtain ⟨q, hq⟩ := h.live c hu hz
    exact ⟨q, hq, (h.up c q hq).1⟩
  · exact h.left z c (by rw [h.zombie z hgone.1]; exact c.isLt)

end TreeInv

/-- **The parent relation is a tree**, in every run from boot. -/
theorem parents_form_tree (as : List Act) (t : Table) (hrun : run step boot as = some t) :
    Rooted t := by
  obtain ⟨rank, h⟩ := run_inv (I := fun t => ∃ rank, TreeInv t rank)
    (fun _ _ _ ⟨_, h⟩ _ hs => h.step hs) as ⟨_, TreeInv.boot⟩ (runOk_true as _) hrun
  exact h.rooted

/-- A child forks and exits: its own child is handed to `proczero`. -/
def adoptionRun : List Act :=
  [.schedule 0, .fork 0 1, .schedule 1, .fork 1 2, .callExit 1 7] ++ List.replicate 70 (.go 1)

theorem parents_form_tree_adoption : ∃ t, run step boot adoptionRun = some t ∧
    (t.procs 1).state = .zombie ∧ (t.procs 2).parent = some proczero ∧ Rooted t := by
  have hsome : (run step boot adoptionRun).any (fun t =>
      decide ((t.procs 1).state = .zombie ∧ (t.procs 2).parent = some proczero)) = true := by
    decide +kernel
  obtain ⟨t, ht, h1, h2⟩ := exists_of_any hsome
  exact ⟨t, ht, h1, h2, parents_form_tree adoptionRun t ht⟩

end Sched
end WhuOS
