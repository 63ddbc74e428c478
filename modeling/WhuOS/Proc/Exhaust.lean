import WhuOS.Proc.Fork

/-!
# WhuOS.Proc.Exhaust

`proc_fork` when the memory runs out. The number of pages that it takes is known beforehand
(`forkDemand`). With that many free pages `pmem_alloc` does not fail; with none at all `proc_alloc`
gives up before it has taken anything. In between the call is not atomic: the table allocations
panic, `copy_range` writes to the address 0, and with exactly four pages `proc_free` puts the
trapframe page on the free list twice.
-/

namespace WhuOS
namespace Proc

open Lib Kern Mem Sched

variable {L : Layout} {p : Slot} {s : Machine} {own : Nat → Owner} {l : List Nat} {r : Nat}

/-- The free pages, the process table apart from the pids, and the node pool are the same. -/
structure Unchanged (L : Layout) (s s' : Machine) : Prop where
  free : ∃ l l', Chain s.mem s.user.listHead l 0 ∧ Chain s'.mem s'.user.listHead l' 0 ∧ l'.Perm l
  procs : ∀ q, { s'.procs q with pid := (s.procs q).pid } = s.procs q
  exitState : ∀ q, Bytes.load 4 s'.mem (L.exitState q) = Bytes.load 4 s.mem (L.exitState q)
  nodes : s'.nodes = s.nodes

/-- If `pmem_alloc` fails during `proc_fork`, the call returns -1 and has changed nothing. -/
def ForkAtomic (L : Layout) (p : Slot) (s : Machine) : Prop :=
  wp (procFork L p) (fun res s' => s'.starved = true → res = -1 ∧ Unchanged L s s')
    (fun _ s' => s'.starved = false) { s with starved := false }

theorem Ready.restart (h : Ready L p s own l r) : Ready L p { s with starved := false } own l r :=
  ⟨h.owned.ofRest rfl rfl, h.live, h.pgtbl, h.root, h.unused⟩

theorem fork_atomic (h : Ready L p s own l r)
    (htf : ∀ q, (s.procs q).state = .unused → (s.procs q).tf = 0)
    (hc : findUnused s = none ∨ s.globalPid < 0 ∨ l = [] ∨ forkDemand s p ≤ l.length) :
    ForkAtomic L p s := by
  have hdemand : forkDemand { s with starved := false } p = forkDemand s p := rfl
  have h4 : 5 ≤ forkDemand s p := by rw [forkDemand, cost_cons, cost]; omega
  refine wp_conseq (wp_procFork h.restart) ?_ ?_
  · intro res s' hpost hs
    cases hfu : findUnused s with
    | none =>
      rw [show findUnused { s with starved := false } = none from hfu] at hpost
      rw [hpost.2] at hs; cases hs
    | some np =>
      rw [show findUnused { s with starved := false } = some np from hfu] at hpost
      have hun : (s.procs np).state = .unused := by
        have := List.find?_some hfu; simpa using this
      rcases hpost with ⟨hpid, ⟨hl, rfl, rfl⟩ | ⟨hlen, -⟩ | ⟨-, own', l', rn, t, k, gs, hf⟩⟩
      · refine ⟨rfl, ⟨[], [], ?_, ?_, .refl _⟩, fun q => ?_, fun _ => rfl, rfl⟩
        · rw [← hl]; exact h.owned.chain
        · rw [← hl]; exact h.owned.chain
        · by_cases hq : q = np
          · subst hq
            have : ({ s.procs q with tf := 0 } : Mem.Proc) = s.procs q := by rw [← htf q hun]
            simpa using this
          · simp [hq]
      · exfalso
        rw [hfu] at hc
        rcases hc with hc | hc | hc | hc
        · cases hc
        · dsimp only at hpid; omega
        · rw [hc] at hlen; cases hlen
        · omega
      · rw [hf.starved] at hs; cases hs
  · rintro _ s' ⟨np, hfu, ⟨hpid, hpos, hlt, hs⟩ | ⟨-, hs⟩⟩
    · exfalso
      rw [hdemand] at hlt
      rcases hc with hc | hc | hc | hc
      · rw [show findUnused { s with starved := false } = none from hc] at hfu; cases hfu
      · dsimp only at hpid; omega
      · rw [hc] at hpos; cases hpos
      · omega
    · exact hs

theorem fork_not_atomic (h : Ready L p s own l r) (hfu : findUnused s ≠ none)
    (hpid : 0 ≤ s.globalPid) (hpos : 0 < l.length) (hlt : l.length < forkDemand s p) :
    ¬ ForkAtomic L p s := by
  intro hat
  have hboth := wp_and hat (wp_procFork h.restart)
  obtain ⟨np, hnp⟩ := Option.ne_none_iff_exists'.mp hfu
  suffices hfalse : wp (procFork L p) (fun _ _ => False) (fun _ _ => False)
      { s with starved := false } by
    unfold wp at hfalse
    split at hfalse <;> exact hfalse
  refine wp_conseq hboth ?_ ?_
  · rintro res s' ⟨hat, hpost⟩
    rw [show findUnused { s with starved := false } = some np from hnp] at hpost
    rcases hpost with ⟨-, ⟨hl, -⟩ | ⟨-, -, hcyc⟩ | ⟨-, own', l', rn, t, k, gs, hf⟩⟩
    · rw [hl] at hpos; cases hpos
    · -- the list that should be there has no end
      obtain ⟨-, hsame⟩ := hat hcyc.2
      obtain ⟨_, l', -, hchain, -⟩ := hsame.free
      exact hcyc.1.no_chain l' hchain
    · have := hf.length
      have hd : forkDemand { s with starved := false } p = forkDemand s p := rfl
      omega
  · rintro _ s' ⟨hs, np', -, ⟨-, -, -, hs'⟩ | ⟨hor, -⟩⟩
    · rw [hs] at hs'; cases hs'
    · have hd : forkDemand { s with starved := false } p = forkDemand s p := rfl
      dsimp only at hor
      omega

/-- `proc_fork` is atomic exactly if it has no slot or pid, or no free page at all, or as many as it
takes. -/
theorem fork_atomic_iff (h : Ready L p s own l r)
    (htf : ∀ q, (s.procs q).state = .unused → (s.procs q).tf = 0) :
    ForkAtomic L p s ↔ findUnused s = none ∨ s.globalPid < 0 ∨ s.user.allocable = 0 ∨
      forkDemand s p ≤ s.user.allocable := by
  rw [h.owned.count]
  constructor
  · intro hat
    by_contra hno
    simp only [not_or, Int.not_lt, Nat.not_le] at hno
    obtain ⟨h1, h2, h3, h4⟩ := hno
    exact fork_not_atomic h h1 h2 (Nat.pos_of_ne_zero h3) h4 hat
  · intro hc
    exact fork_atomic h htf (by simpa only [List.length_eq_zero_iff] using hc)

/-! ## The first process -/

theorem Booted.ready {t : Nat} (hb : Booted L p r t s own l) : Ready L p s own l r :=
  ⟨hb.inv.owned, by rw [hb.proc]; simp, by rw [hb.proc], hb.root, hb.inv.unused⟩

theorem Booted.blank {t : Nat} (hb : Booted L p r t s own l) (q : Slot)
    (hq : (s.procs q).state = .unused) : (s.procs q).tf = 0 := by
  refine (hb.others q ?_).2.1
  rintro rfl
  rw [hb.proc] at hq; cases hq

theorem Booted.validPage_eq {t v : Nat} (hb : Booted L p r t s own l) (hv : v < TRAPFRAME_VPN) :
    validPage s.mem (PGSIZE * r) v = decide (v = 1 ∨ v = USTACK_VPN) := by
  have hva : PGSIZE * v < TRAPFRAME := by
    simp only [TRAPFRAME_VPN, TRAPFRAME, TRAMPOLINE, VA_MAX, PGSIZE] at *; omega
  have hmax : PGSIZE * v < VA_MAX := by
    simp only [TRAPFRAME, TRAMPOLINE, VA_MAX, PGSIZE] at *; omega
  rw [Bool.eq_iff_iff, validPage_iff, decide_eq_true_iff]
  constructor
  · rintro ⟨-, hodd⟩
    by_contra hno
    obtain ⟨h1, h2⟩ := not_or.mp hno
    rw [hb.low _ hva (by simp only [PGSIZE]; omega)
      (by simp only [PGSIZE, USTACK_VPN] at *; omega)] at hodd
    cases hodd
  · rintro (rfl | rfl)
    · obtain ⟨k, hk⟩ := hb.code
      exact ⟨hmax, by rw [Nat.mul_one, hk]; omega⟩
    · obtain ⟨k, hk⟩ := hb.stack
      exact ⟨hmax, by rw [show PGSIZE * USTACK_VPN = USTACK by decide, hk]; omega⟩

theorem copySteps_first : copySteps (2 * PGSIZE) 1 =
    [(true, 1), (true, USTACK_VPN)] ++ Duplicates.range false (MMAP_BEGIN / PGSIZE) 8096 := by
  rw [copySteps, show Duplicates.passes (2 * PGSIZE - PGSIZE) = 1 by decide,
    show regionBytes 1 / PGSIZE = 1 by decide]
  rfl

theorem Booted.forkPlan_eq {t : Nat} (hb : Booted L p r t s own l) :
    forkPlan s p = [1, USTACK_VPN] := by
  have h1 := hb.validPage_eq (v := 1) (by decide)
  have h2 := hb.validPage_eq (v := USTACK_VPN) (by decide)
  have hwin : (List.range' (MMAP_BEGIN / PGSIZE) 8096).filter (validPage s.mem (PGSIZE * r)) = [] := by
    rw [List.filter_eq_nil_iff]
    intro v hv
    rw [List.mem_range'_1] at hv
    simp only [MMAP_BEGIN, MMAP_END, VA_MAX, PGSIZE] at hv
    rw [hb.validPage_eq (by simp only [TRAPFRAME_VPN]; omega), decide_eq_true_iff]
    simp only [USTACK_VPN, TRAPFRAME_VPN]; omega
  have hproc : forkPlan s p = plan (validPage s.mem (PGSIZE * r)) (copySteps (2 * PGSIZE) 1) := by
    rw [forkPlan, hb.proc]
  rw [hproc, copySteps_first, plan_append, plan_eq_filter (Duplicates.stuck_range ..), Duplicates.map_range,
    hwin, List.append_nil, ite_self]
  simp only [plan, h1, h2, true_or, or_true, decide_true, if_true]

theorem Booted.forkDemand_eq {t : Nat} (hb : Booted L p r t s own l) : forkDemand s p = 9 := by
  rw [forkDemand, hb.forkPlan_eq]; decide

theorem Booted.findUnused_ne {t : Nat} (hb : Booted L p r t s own l) : findUnused s ≠ none := by
  intro hno
  obtain ⟨q, hq⟩ : ∃ q : Slot, q ≠ p := by
    by_cases h0 : p = 0
    · exact ⟨1, by rw [h0]; decide⟩
    · exact ⟨0, Ne.symm h0⟩
  have := List.find?_eq_none.mp hno q (List.mem_finRange q)
  exact this (by simpa using (hb.others q hq).1)

theorem fork_atomic_iff_boot : ∃ s, boot smallLayout 0 (reset fun _ => 0) = .ok () s ∧
    ForkAtomic smallLayout 0 s := by
  obtain ⟨s, r, t, own, l, hs, hb, -, hl⟩ := boot_small
  refine ⟨s, hs, (fork_atomic_iff hb.ready hb.blank).mpr (.inr (.inr (.inr ?_)))⟩
  rw [hb.forkDemand_eq, hb.inv.owned.count]
  omega

/-- A kernel so large that the user region has twelve pages. -/
def tightLayout : Layout where
  trampoline := 0x8000f000
  etext := 0x80010000
  allocBegin := 0x87bf4000
  exitState := fun i => 0x80010000 + 4 * i.val
  initcode := []
  trapUserHandler := 0x80001000
  satp := 0
  trampoline_aligned := smallLayout.trampoline_aligned
  trampoline_text := smallLayout.trampoline_text
  etext_eq := smallLayout.etext_eq
  allocBegin_aligned := by decide
  allocBegin_le := by decide
  exitState_data := by intro i; have := i.isLt; simp only [Sched.NPROC] at this; omega

/-- After the start four pages are free, and a `fork` of the first process is not atomic. -/
theorem fork_four_pages : ∃ s, boot tightLayout 0 (reset fun _ => 0) = .ok () s ∧
    s.user.allocable = 4 ∧ ¬ ForkAtomic tightLayout 0 s := by
  have hpages : userPages tightLayout = 12 := by decide
  have hcode : ¬ PGSIZE < tightLayout.initcode.length := by decide
  obtain ⟨⟨⟩, s, hs, -, r, t, own, l, hb, hp, hl⟩ := wp_returns
    (wp_boot (L := tightLayout) 0 (fun _ => 0)) (fun _ _ h => by omega)
  have hlen : l.length = 4 := by omega
  refine ⟨s, hs, by rw [hb.inv.owned.count, hlen], ?_⟩
  refine fork_not_atomic hb.ready hb.findUnused_ne (by rw [hp]; decide) (by omega) ?_
  rw [hb.forkDemand_eq]; omega

end Proc
end WhuOS
