import WhuOS.Sched.OneCpu

/-!
# WhuOS.Sched.Myproc

`myproc()` of `kernel/proc/cpu.c` is `cpus[r_tp()].proc`: it reads `tp`, and then the `proc` of that
CPU. Nothing turns interrupts off in between, so a thread outside of any spinlock can be made to
yield there and go on at another CPU. Neither `swtch` nor `kernel_vector` keeps `tp`, which so is
always the CPU that executes.

* `myproc_iff`       — a thread gets itself iff it is on the CPU that it read `tp` on.
* `myproc_other`     — a run in which it gets another process.
-/

namespace WhuOS
namespace Sched
namespace Smp

open Lib

variable {C K : Type} [DecidableEq C] [DecidableEq K]

/-- The system, and for a thread in `myproc()` the `id` that it has read. -/
structure Readers (C K : Type) where
  sys : State C K
  id : Slot → Option C

inductive ReadAct (C K : Type) where
  | other (a : Act C K)
  /-- `int id = r_tp()`. -/
  | readTp (c : C)
  /-- `return cpus[id].proc`. -/
  | load (c : C)
  deriving DecidableEq

namespace Readers

/-- The thread is in code that holds no spinlock, with interrupts enabled. -/
def enabled (s : State C K) (p : Slot) : Bool := s.yield p = .no ∧ s.pc p = .user

/-- A call by a thread that has not returned from `myproc()`. -/
def early (s : Readers C K) : Act C K → Bool
  | .call c _ =>
    match s.sys.mode c with
    | .thread p => (s.id p).isSome
    | .sched _ => false
  | _ => false

def step (s : Readers C K) : ReadAct C K → Option (Readers C K)
  | .other a => if s.early a then none else (Smp.step s.sys a).map fun t => { s with sys := t }
  | .readTp c =>
    match s.sys.mode c with
    | .thread p =>
      if enabled s.sys p ∧ s.id p = none then some { s with id := upd s.id p (some c) } else none
    | .sched _ => none
  | .load c =>
    match s.sys.mode c with
    | .thread p =>
      if enabled s.sys p ∧ s.id p ≠ none then some { s with id := upd s.id p none } else none
    | .sched _ => none

/-- What the load of `p` returns. -/
def result (s : Readers C K) (p : Slot) : Option Slot := (s.id p).bind s.sys.proc

def boot : Readers C K := ⟨Smp.boot, fun _ => none⟩

end Readers

variable {s s' : Readers C K}

theorem Readers.inv_step {a : ReadAct C K} (h : Inv s.sys) (hs : s.step a = some s') : Inv s'.sys := by
  cases a with
  | other a =>
    simp only [Readers.step] at hs
    split at hs
    · cases hs
    · obtain ⟨t, ht, rfl⟩ := Option.map_eq_some_iff.mp hs
      exact h.step ht
  | readTp c =>
    simp only [Readers.step] at hs
    split at hs
    · split at hs
      · cases hs; exact h
      · cases hs
    · cases hs
  | load c =>
    simp only [Readers.step] at hs
    split at hs
    · split at hs
      · cases hs; exact h
      · cases hs
    · cases hs

omit [DecidableEq C] [DecidableEq K] in
/-- The `proc` of a CPU is the process that executes there, for a process that executes somewhere. -/
theorem Inv.proc_eq_iff {t : State C K} (h : Inv t) {c c' : C} {p : Slot} (hm : t.mode c = .thread p) :
    t.proc c' = some p ↔ c' = c := by
  constructor
  · intro hp
    rw [h.proc] at hp
    refine h.one c' c p ?_ (by rw [hm]; rfl)
    cases hm' : t.mode c' with
    | thread q => rw [hm'] at hp; exact hp
    | sched l =>
      rw [hm'] at hp
      cases l with
      | back q => exact hp
      | _ => cases hp
  · rintro rfl
    rw [h.proc, hm]; rfl

/-- In every run: the load returns the caller iff the caller is on the CPU whose `tp` it has read. -/
theorem myproc_iff (as : List (ReadAct C K)) (s : Readers C K)
    (hrun : run Readers.step Readers.boot as = some s) {c id : C} {p : Slot}
    (hm : s.sys.mode c = .thread p) (hid : s.id p = some id) : s.result p = some p ↔ id = c := by
  have h : Inv s.sys :=
    run_inv (I := fun s => Inv s.sys) (fun _ _ _ h _ hs => Readers.inv_step h hs) as Inv.boot
      (runOk_true as _) hrun
  rw [Readers.result, hid, Option.bind_some]
  exact h.proc_eq_iff hm

/-- `proczero` forks on CPU 0 and reads `tp`. -/
def readRun : List (ReadAct (Fin 2) Unit) :=
  List.replicate 4 (.other (.go 0)) ++ [.other (.call 0 .fork)] ++
    List.replicate 6 (.other (.go 0)) ++ [.readTp 0]

theorem myproc_iff_first : ∃ s : Readers (Fin 2) Unit, run Readers.step Readers.boot readRun = some s ∧
    s.sys.mode 0 = .thread 0 ∧ s.id 0 = some 0 ∧ s.result 0 = some 0 := by
  have h : (run Readers.step Readers.boot readRun).any (fun s => decide (s.sys.mode 0 = .thread 0 ∧
      s.id 0 = some 0)) = true := by
    decide +kernel
  obtain ⟨s, hs, hm, hid⟩ := exists_of_any h
  exact ⟨s, hs, hm, hid, (myproc_iff readRun s hs hm hid).mpr rfl⟩

/-- Then a timer interrupt comes: CPU 0 goes on with the child, and CPU 1 with `proczero`, which loads
the child. -/
theorem myproc_other : ∃ s s' : Readers (Fin 2) Unit,
    run Readers.step Readers.boot (readRun ++ [.other (.preempt 0)] ++
      List.replicate 9 (.other (.go 0)) ++ List.replicate 4 (.other (.go 1))) = some s ∧
    s.sys.mode 1 = .thread 0 ∧ s.step (.load 1) = some s' ∧ s.result 0 = some 1 := by
  have h : (run Readers.step Readers.boot (readRun ++ [.other (.preempt 0)] ++
      List.replicate 9 (.other (.go 0)) ++ List.replicate 4 (.other (.go 1)))).any (fun s =>
        decide (s.sys.mode 1 = .thread 0 ∧ (s.step (.load 1)).isSome = true ∧ s.result 0 = some 1)) =
      true := by
    decide +kernel
  obtain ⟨s, hs, hm, hl, hr⟩ := exists_of_any h
  obtain ⟨s', hs'⟩ := Option.isSome_iff_exists.mp hl
  exact ⟨s, s', hs, hm, hs', hr⟩

end Smp
end Sched
end WhuOS
