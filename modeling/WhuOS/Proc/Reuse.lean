import WhuOS.Fs.Calls
import WhuOS.Proc.Table

/-!
# WhuOS.Proc.Reuse

Slots of the process table are used again after `proc_wait`, and with them the descriptors and the
current directory that belong to `proc_t`. Neither `proc_exit` and `proc_free` nor `proc_alloc` and
`proc_fork` touch these two fields.

* `Sys`                  — the process table of `WhuOS.Proc.Table` and the files of `WhuOS.Fs`, with
  the history of who was given which descriptor.
* `descriptors_isolated` — no process has another one's files, if processes leave with none.
* `slot_keeps_files`     — a child starts with the file of a process that exited before.
-/

namespace WhuOS
namespace Fs

open Lib Sched Kern

variable {σ η : Type} [BufLayer σ η]

def Call.caller : Call → Slot
  | .sysOpen p _ _ | .sysClose p _ | .sysDup p _ | .sysRead p _ _ _ | .sysWrite p _ _ _ _
  | .sysMkdir p _ | .sysChdir p _ | .sysLink p _ _ | .sysUnlink p _ => p

/-- `p` gets a descriptor, or `-1` and nothing. -/
def GetsFd (p : Slot) (r : Int) (procs procs' : Slot → FProc) : Prop :=
  (r = MINUS_ONE ∧ procs' = procs) ∨ ∃ (fd : Fin FILE_PER_PROC) (f : FileId), r = fd.val ∧
    procs' = upd procs p { procs p with filelist := upd (procs p).filelist fd (some f) }

/-- What a call that returns `r` does to descriptors and current directories. -/
def Call.Effect (r : Int) (procs procs' : Slot → FProc) : Call → Prop
  | .sysOpen p _ _ | .sysDup p _ => GetsFd p r procs procs'
  | .sysClose p fd => (r = MINUS_ONE ∧ procs' = procs) ∨ ∃ i : Fin FILE_PER_PROC, fd = i.val ∧ r = 0 ∧
      procs' = upd procs p { procs p with filelist := upd (procs p).filelist i none }
  | .sysChdir p _ => (r = retOf false ∧ procs' = procs) ∨ r = 0 ∧ ∃ ip,
      procs' = upd procs p { procs p with cwd := some ip }
  | _ => procs' = procs

theorem procs_fileClose (f : FileId) (s : FsState σ) :
    wlp (fileClose f) (fun _ s' => s'.procs = s.procs) s := by
  refine wlp_conseq (wlp_fileClose f s) fun _ s' h => ?_
  obtain ⟨-, file, -, h⟩ := h
  show s'.core.procs = s.core.procs
  split at h
  · rw [h, Core.dropOpt_procs]; rfl
  · rw [h.2]; rfl

theorem getsFd_fdAlloc (p : Slot) (f : FileId) (s : FsState σ) :
    wlp (fdAlloc p f) (fun r s' => GetsFd p r s.procs s'.procs) s := by
  refine wlp_conseq (wlp_fdAlloc p f s) fun r s' h => ?_
  cases hfd : freeFd s p with
  | none =>
    rw [hfd] at h
    exact .inl ⟨h.1, congrArg Core.procs h.2⟩
  | some fd =>
    rw [hfd] at h
    exact .inr ⟨fd, f, h.1, congrArg Core.procs h.2⟩

theorem effect_sysOpen (p : Slot) (path : List UInt8) (openMode : UInt32) (s : FsState σ) :
    wlp (sysOpen p path openMode) (fun r s' => GetsFd p r s.procs s'.procs) s := by
  refine wlp_bind (wlp_fileOpen p path openMode s) fun r s1 h1 => ?_
  cases r with
  | none => exact .inl ⟨rfl, congrArg Core.procs h1⟩
  | some f =>
    obtain ⟨-, ip, file, -, -, h1⟩ := h1
    have hp1 : s1.procs = s.procs := congrArg Core.procs h1
    refine wlp_bind (getsFd_fdAlloc p f s1) fun fd s2 h2 => ?_
    rw [hp1] at h2
    split
    · rename_i hfd
      refine wlp_bind (procs_fileClose f s2) fun _ s3 h3 => ?_
      show GetsFd p fd s.procs s3.procs
      rw [h3]
      exact h2
    · exact h2

theorem effect_sysDup (p : Slot) (fd : Int) (s : FsState σ) :
    wlp (sysDup p fd) (fun r s' => GetsFd p r s.procs s'.procs) s := by
  simp only [sysDup, wp_bind, wp_get]
  cases argFd s p fd with
  | none => exact .inl ⟨rfl, rfl⟩
  | some x =>
    refine wlp_bind (getsFd_fdAlloc p x.2 s) fun r s1 h1 => ?_
    refine wlp_bind (wlp_fileDup x.2 s1) fun _ s2 h2 => ?_
    have hp : s2.procs = s1.procs := congrArg Core.procs h2.1
    show GetsFd p r s.procs s2.procs
    rw [hp]
    exact h1

theorem argFd_index {s : FsState σ} {p : Slot} {fd : Int} {i : Fin FILE_PER_PROC} {f : FileId}
    (h : argFd s p fd = some (i, f)) : fd = i.val := by
  unfold argFd at h
  split at h
  · rename_i hfd
    simp only [Option.map_eq_some_iff, Prod.mk.injEq] at h
    obtain ⟨g, -, rfl, -⟩ := h
    exact (Int.toNat_of_nonneg hfd.1).symm
  · cases h

theorem effect_sysClose (p : Slot) (fd : Int) (s : FsState σ) :
    wlp (sysClose p fd) (fun r s' => (Call.sysClose p fd).Effect r s.procs s'.procs) s := by
  simp only [sysClose, wp_bind, wp_get]
  cases hx : argFd s p fd with
  | none => exact .inl ⟨rfl, rfl⟩
  | some x =>
    refine wlp_bind (wlp_setFd p x.1 none s) fun _ s1 h1 => ?_
    refine wlp_bind (procs_fileClose x.2 s1) fun _ s2 h2 => ?_
    exact .inr ⟨x.1, argFd_index hx, rfl, h2.trans (congrArg Core.procs h1)⟩

theorem effect_sysChdir (p : Slot) (path : List UInt8) (s : FsState σ) :
    wlp (sysChdir p path) (fun r s' => (Call.sysChdir p path).Effect r s.procs s'.procs) s := by
  refine wlp_bind (wlp_dirChange p path s) fun ok s1 h1 => ?_
  cases ok with
  | false => exact .inl ⟨rfl, congrArg Core.procs h1⟩
  | true =>
    obtain ⟨ip, h1⟩ := h1
    refine .inr ⟨rfl, ip, ?_⟩
    show s1.core.procs = _
    rw [h1, Core.setProc_procs, Core.dropOpt_procs, Core.take_procs]
    rfl

theorem OffsetOnly.procs {f : FileId} {c c' : Core} (h : OffsetOnly f c c') : c'.procs = c.procs := by
  obtain ⟨offset, rfl⟩ := h
  rfl

theorem effect_exec (c : Call) (s : FsState σ) :
    wlp c.exec (fun r s' => c.Effect r s.procs s'.procs) s := by
  cases c with
  | sysOpen p path openMode => exact effect_sysOpen p path openMode s
  | sysClose p fd => exact effect_sysClose p fd s
  | sysDup p fd => exact effect_sysDup p fd s
  | sysRead p fd len dev =>
    simp only [Call.exec, sysRead, wp_bind, wp_get]
    cases argFd s p fd with
    | none => rfl
    | some x => exact wlp_bind (wlp_fileRead x.2 len dev s) fun _ _ h => h.procs
  | sysWrite p fd len src dev =>
    simp only [Call.exec, sysWrite, wp_bind, wp_get]
    cases argFd s p fd with
    | none => rfl
    | some x => exact wlp_bind (wlp_fileWrite x.2 len src dev s) fun _ _ h => h.procs
  | sysMkdir p path =>
    refine wlp_bind (wlp_pathCreateInode p path FT_DIR 0 0 s) fun r s1 h1 => ?_
    have hp : s1.procs = s.procs := by
      show s1.core.procs = s.core.procs
      rw [h1]
      cases r with
      | none => rfl
      | some k => rfl
    cases r with
    | none => exact hp
    | some k => exact hp
  | sysChdir p path => exact effect_sysChdir p path s
  | sysLink p oldPath newPath =>
    exact wlp_bind (keeps_pathLink p oldPath newPath s) fun _ s1 h1 => congrArg Core.procs h1
  | sysUnlink p path =>
    exact wlp_bind (keeps_pathUnlink p path s) fun _ s1 h1 => congrArg Core.procs h1

end Fs

namespace Proc

open Lib Sched Kern Fs

variable {σ η : Type}

/-! ## Processes and files together -/

/-- The kernel's processes with their files. `openedBy p fd` is the pid of the process that was
given descriptor `fd` in slot `p` and has not closed it, `cwdBy p` that of the process that last
changed the current directory there. -/
structure Sys (σ : Type) where
  table : Table
  fs : FsState σ
  openedBy : Slot → Fin FILE_PER_PROC → Option Int
  cwdBy : Slot → Option Int

namespace Sys

def pid (s : Sys σ) (p : Slot) : Int := (s.table.procs p).pid

def noteFd (s : Sys σ) (p : Slot) (fd : Int) (owner : Option Int) : Sys σ :=
  { s with
    openedBy := fun q i => if q = p ∧ fd = i.val then owner else s.openedBy q i }

/-- What call `c` of a process, with result `ret`, means for the history. -/
def note (s : Sys σ) (ret : Int) : Fs.Call → Sys σ
  | .sysOpen p _ _ | .sysDup p _ => s.noteFd p ret (some (s.pid p))
  | .sysClose p fd => if ret = 0 then s.noteFd p fd none else s
  | .sysChdir p _ =>
    if ret = 0 then { s with cwdBy := upd s.cwdBy p (some (s.pid p)) } else s
  | _ => s

inductive Act where
  | proc (a : Table.Action)
  | file (c : Fs.Call)

variable [BufLayer σ η]

def step (s : Sys σ) : Act → Option (Sys σ)
  | .proc a => (s.table.step a).map fun t => { s with table := t }
  | .file c =>
    if (s.table.procs c.caller).state = .runnable then
      match c.exec s.fs with
      | .ok ret fs => some { s.note ret c with fs }
      | .error _ _ => none
    else none

/-- Only `proczero` is there, and nothing is open. -/
def boot (dev : σ) : Sys σ where
  table := Table.boot
  fs := booted dev
  openedBy := fun _ _ => none
  cwdBy := fun _ => none

/-! ## Isolation -/

/-- Whatever is open in slot `p` was opened by the process that is there now. -/
def Owned (s : Sys σ) (p : Slot) : Prop :=
  (∀ fd, ((s.fs.procs p).filelist fd).isSome → s.openedBy p fd = some (s.pid p)) ∧
    ((s.fs.procs p).cwd.isSome → s.cwdBy p = some (s.pid p))

/-- Nothing is open in slot `p`. -/
def Bare (s : Sys σ) (p : Slot) : Prop :=
  (∀ fd, (s.fs.procs p).filelist fd = none) ∧ (s.fs.procs p).cwd = none

/-- Processes have only what they opened themselves, and a new one starts with nothing. -/
def Isolated (s : Sys σ) : Prop :=
  ∀ p, if (s.table.procs p).state = .unused then s.Bare p else s.Owned p

instance (s : Sys σ) (p : Slot) : Decidable (s.Owned p) := inferInstanceAs (Decidable (_ ∧ _))

instance (s : Sys σ) (p : Slot) : Decidable (s.Bare p) := inferInstanceAs (Decidable (_ ∧ _))

instance (s : Sys σ) : Decidable s.Isolated :=
  inferInstanceAs (Decidable (∀ p, if (s.table.procs p).state = .unused then s.Bare p else s.Owned p))

/-- A process exits with all its descriptors closed and no current directory. -/
def exitsBare (s : Sys σ) : Act → Prop
  | .proc (.exit p) => s.Bare p
  | _ => True

instance (s : Sys σ) : ∀ a, Decidable (s.exitsBare a)
  | .proc (.exit p) => inferInstanceAs (Decidable (s.Bare p))
  | .proc (.fork _ _) | .proc (.wait _) | .proc (.other _) | .file _ => isTrue trivial

/-- The invariant: a slot without a process that can run is bare. -/
def Inv (s : Sys σ) : Prop :=
  ∀ p, s.Owned p ∧ ((s.table.procs p).state = .unused ∨ (s.table.procs p).state = .zombie → s.Bare p)

theorem Bare.owned {s : Sys σ} {p : Slot} (h : s.Bare p) : s.Owned p := by
  refine ⟨fun fd hfd => ?_, fun hc => ?_⟩
  · rw [h.1 fd] at hfd; cases hfd
  · rw [h.2] at hc; cases hc

theorem Inv.isolated {s : Sys σ} (h : s.Inv) : s.Isolated := fun p => by
  split
  · rename_i hu; exact (h p).2 (.inl hu)
  · exact (h p).1

end Sys

namespace Table

def Dead (t : Table) (p : Slot) : Prop := (t.procs p).state = .unused ∨ (t.procs p).state = .zombie

/-- What a step makes of slot `q`: the same process, still alive if it was, or the slot had none, or
its process exits. -/
def Continues (t t' : Table) (a : Action) (q : Slot) : Prop :=
  ((t'.procs q).pid = (t.procs q).pid ∧ (t'.Dead q → t.Dead q)) ∨ t.Dead q ∨ a = .exit q

/-- Every slot has the same process in the same state. -/
def Same (t t' : Table) : Prop :=
  ∀ q, (t'.procs q).pid = (t.procs q).pid ∧ (t'.procs q).state = (t.procs q).state

variable {t t' : Table} {p : Slot}

theorem Same.dead (h : Same t t') (q : Slot) : t'.Dead q ↔ t.Dead q := by
  simp only [Dead, (h q).2]

theorem Same.continues (h : Same t t') (a : Action) (q : Slot) : Continues t t' a q :=
  .inl ⟨(h q).1, (h.dead q).mp⟩

theorem Same.set_continues {t1 : Table} (h : Same t t1) {a : Action} {e : Entry} (q : Slot)
    (he : (e.pid = (t.procs p).pid ∧ (e.state = .unused ∨ e.state = .zombie → t.Dead p)) ∨ t.Dead p ∨
      a = .exit p) : Continues t (t1.set p e) a q := by
  by_cases hq : q = p
  · subst hq
    simpa only [Continues, Dead, set_procs, upd_same] using he
  · have hset : (t1.set p e).procs q = t1.procs q := upd_of_ne hq
    simp only [Continues, Dead, hset]
    exact h.continues a q

theorem same_sleepSpace (t : Table) (p : Slot) (o : Option Slot) :
    Same t (t.set p { t.procs p with sleepSpace := o }) := fun q => by
  simp only [set_procs, upd_apply]
  split
  · rename_i h; rw [h]; exact ⟨rfl, rfl⟩
  · exact ⟨rfl, rfl⟩

theorem same_reparent (t : Table) (p : Slot) : Same t (t.reparent p) := fun q => by
  simp only [reparent]
  split <;> exact ⟨rfl, rfl⟩

theorem findUnused_dead (h : t.findUnused = some p) : t.Dead p := by
  have := List.find?_some h
  exact .inl (of_decide_eq_true this)

theorem findZombie_dead {q : Slot} (h : t.findZombie p = some q) : t.Dead q := by
  have := List.find?_some h
  exact .inr (of_decide_eq_true this).2

theorem fork_continues {e : ForkEnd} (h : t.fork p e = some t') (q : Slot) :
    Continues t t' (.fork p e) q := by
  unfold fork at h
  cases hf : t.findUnused with
  | none =>
    simp only [hf, Option.some.injEq] at h
    subst h
    exact .inl ⟨rfl, id⟩
  | some np =>
    simp only [hf] at h
    have hnp := findUnused_dead hf
    split at h
    · cases e with
      | noTrapframe => cases h; exact Same.set_continues (fun _ => ⟨rfl, rfl⟩) q (.inr (.inl hnp))
      | noStack => cases h; exact Same.set_continues (fun _ => ⟨rfl, rfl⟩) q (.inr (.inl hnp))
      | child => cases h; exact Same.set_continues (fun _ => ⟨rfl, rfl⟩) q (.inr (.inl hnp))
    · cases h

theorem exit_continues (h : t.exit p = some t') (q : Slot) :
    Continues t t' (.exit p) q := by
  unfold exit at h
  split at h
  · cases h
  · simp only at h
    split at h
    · cases h
    · rename_i parent hpar
      cases h
      by_cases hq : q = p
      · exact .inr (.inr (by rw [hq]))
      · -- the parent may be woken: a process that sleeps and one that can run are both alive
        have hre := same_reparent t p
        have hwake := hre.set_continues (a := .other p) (p := parent) (e := if
          ((t.reparent p).procs parent).state = .sleeping ∧
            ((t.reparent p).procs parent).sleepSpace = some parent then
          { (t.reparent p).procs parent with state := .runnable } else (t.reparent p).procs parent) q ?_
        · have hset : (((t.reparent p).wakeupOne parent).set p
              { ((t.reparent p).wakeupOne parent).procs p with state := .zombie }).procs q =
              ((t.reparent p).wakeupOne parent).procs q := upd_of_ne hq
          simp only [Continues, Dead, hset]
          rcases hwake with h | h | h
          · exact .inl h
          · exact .inr (.inl h)
          · cases h
        · refine .inl ?_
          split
          · exact ⟨(hre parent).1, by simp⟩
          · exact ⟨(hre parent).1, (hre.dead parent).mp⟩

theorem wait_continues (t : Table) (p q : Slot) : Continues t (t.wait p) (.wait p) q := by
  have hsame := same_sleepSpace t p none
  unfold wait
  simp only
  split
  · rename_i pp hz
    exact hsame.set_continues q (.inr (.inl ((hsame.dead pp).mp (findZombie_dead hz))))
  · split
    · refine hsame.set_continues q (.inl ⟨(hsame p).1, ?_⟩)
      rintro (h | h) <;> cases h
    · exact hsame.continues _ q

theorem step_continues {a : Action} (h : t.step a = some t') (q : Slot) :
    Continues t t' a q := by
  unfold step at h
  split at h
  · cases a with
    | fork p e => exact fork_continues h q
    | exit p => exact exit_continues h q
    | wait p => cases h; exact wait_continues t p q
    | other p => cases h; exact .inl ⟨rfl, id⟩
  · cases h

end Table

namespace Sys

variable {s : Sys σ} {p q : Slot} {r : Int} {fs : FsState σ}

theorem inv_proc {t : Table} {a : Table.Action} (hi : s.Inv)
    (hok : s.exitsBare (.proc a)) (h : s.table.step a = some t) : Inv { s with table := t } := by
  intro q
  have bare : s.Bare q → Owned { s with table := t } q ∧
      (t.Dead q → Bare { s with table := t } q) := fun hb =>
    ⟨Bare.owned (s := { s with table := t }) hb, fun _ => hb⟩
  rcases Table.step_continues h q with ⟨hpid, hdead⟩ | hdead | rfl
  · refine ⟨?_, fun hd => (hi q).2 (hdead hd)⟩
    have hown := (hi q).1
    simp only [Owned, pid, hpid]
    exact hown
  · exact bare ((hi q).2 hdead)
  · exact bare hok

theorem Inv.file {s' : Sys σ} (hi : s.Inv) (halive : ¬ s.table.Dead p)
    (ht : s'.table = s.table) (hown : s'.Owned p)
    (hother : ∀ q, q ≠ p → s'.fs.procs q = s.fs.procs q ∧ s'.openedBy q = s.openedBy q ∧
      s'.cwdBy q = s.cwdBy q) : s'.Inv := by
  intro q
  by_cases hq : q = p
  · subst hq
    refine ⟨hown, fun hd => absurd ?_ halive⟩
    rw [ht] at hd
    exact hd
  · obtain ⟨hfs, hopen, hcwd⟩ := hother q hq
    have hiq := hi q
    simp only [Owned, Bare, pid, ht, hfs, hopen, hcwd]
    exact hiq

theorem noteFd_other (s : Sys σ) {fd : Int} {i : Fin FILE_PER_PROC} (o : Option Int)
    (h : fd ≠ i.val) : (s.noteFd p fd o).openedBy q i = s.openedBy q i := if_neg fun e => h e.2

theorem noteFd_same (s : Sys σ) (p : Slot) (i : Fin FILE_PER_PROC) (o : Option Int) :
    (s.noteFd p i.val o).openedBy p i = o := if_pos ⟨rfl, rfl⟩

theorem owned_getsFd (h : s.Owned p)
    (he : GetsFd p r s.fs.procs fs.procs) :
    Owned { s.noteFd p r (some (s.pid p)) with fs } p := by
  rcases he with ⟨rfl, he⟩ | ⟨fd, f, rfl, he⟩
  · refine ⟨fun i hi => ?_, fun hc => ?_⟩
    · simp only [he] at hi
      have hne : Fs.MINUS_ONE ≠ (i.val : Int) := by simp only [Fs.MINUS_ONE]; omega
      exact (s.noteFd_other _ hne).trans (h.1 i hi)
    · simp only [he] at hc
      exact h.2 hc
  · refine ⟨fun i hi => ?_, fun hc => ?_⟩
    · by_cases hfd : fd = i
      · subst hfd
        exact s.noteFd_same p fd _
      · simp only [he, upd_same, upd_of_ne (Ne.symm hfd)] at hi
        have hne : (fd.val : Int) ≠ i.val := fun e => hfd (Fin.ext (Int.ofNat.inj e))
        exact (s.noteFd_other _ hne).trans (h.1 i hi)
    · simp only [he, upd_same] at hc
      exact h.2 hc

theorem owned_close {i : Fin FILE_PER_PROC} (h : s.Owned p)
    (he : fs.procs = upd s.fs.procs p
      { s.fs.procs p with filelist := upd (s.fs.procs p).filelist i none }) :
    Owned { s.noteFd p i.val none with fs } p := by
  refine ⟨fun j hj => ?_, fun hc => ?_⟩
  · simp only [he, upd_same, upd_apply] at hj
    split at hj
    · cases hj
    · rename_i hji
      have hne : (i.val : Int) ≠ j.val := fun e => hji (Fin.ext (Int.ofNat.inj e)).symm
      exact (s.noteFd_other _ hne).trans (h.1 j hj)
  · simp only [he, upd_same] at hc
    exact h.2 hc

theorem owned_chdir {ip : IId} (h : s.Owned p)
    (he : fs.procs = upd s.fs.procs p { s.fs.procs p with cwd := some ip }) :
    Owned { s with cwdBy := upd s.cwdBy p (some (s.pid p)), fs } p := by
  refine ⟨fun j hj => ?_, fun _ => ?_⟩
  · simp only [he, upd_same] at hj
    exact h.1 j hj
  · simp only [upd_same]
    rfl

theorem owned_same (h : s.Owned p)
    (he : fs.procs = s.fs.procs) : Owned { s with fs } p := by
  simp only [Owned, he]
  exact h

theorem owned_note {c : Fs.Call} (h : s.Owned c.caller)
    (he : c.Effect r s.fs.procs fs.procs) : Owned { s.note r c with fs } c.caller := by
  cases c with
  | sysOpen p path openMode => exact owned_getsFd h he
  | sysDup p fd => exact owned_getsFd h he
  | sysClose p fd =>
    rcases he with ⟨rfl, he⟩ | ⟨i, rfl, rfl, he⟩
    · exact owned_same h he
    · exact owned_close h he
  | sysChdir p path =>
    rcases he with ⟨rfl, he⟩ | ⟨rfl, ip, he⟩
    · exact owned_same h he
    · exact owned_chdir h he
  | sysRead p fd len dev => exact owned_same h he
  | sysWrite p fd len src dev => exact owned_same h he
  | sysMkdir p path => exact owned_same h he
  | sysLink p oldPath newPath => exact owned_same h he
  | sysUnlink p path => exact owned_same h he

theorem note_other (s : Sys σ) (r : Int) (c : Fs.Call) (hq : q ≠ c.caller) :
    (s.note r c).openedBy q = s.openedBy q ∧ (s.note r c).cwdBy q = s.cwdBy q := by
  have hfd : ∀ p fd o, q ≠ p → (s.noteFd p fd o).openedBy q = s.openedBy q := fun p fd o hqp =>
    funext fun i => if_neg fun e => hqp e.1
  cases c with
  | sysOpen p path openMode => exact ⟨hfd _ _ _ hq, rfl⟩
  | sysDup p fd => exact ⟨hfd _ _ _ hq, rfl⟩
  | sysClose p fd =>
    simp only [note]
    split
    · exact ⟨hfd _ _ _ hq, rfl⟩
    · exact ⟨rfl, rfl⟩
  | sysChdir p path =>
    simp only [note]
    split
    · exact ⟨rfl, upd_of_ne hq⟩
    · exact ⟨rfl, rfl⟩
  | sysRead p fd len dev => exact ⟨rfl, rfl⟩
  | sysWrite p fd len src dev => exact ⟨rfl, rfl⟩
  | sysMkdir p path => exact ⟨rfl, rfl⟩
  | sysLink p oldPath newPath => exact ⟨rfl, rfl⟩
  | sysUnlink p path => exact ⟨rfl, rfl⟩

theorem note_table (s : Sys σ) (r : Int) (c : Fs.Call) : (s.note r c).table = s.table := by
  cases c <;> simp only [note] <;> first | rfl | (split <;> rfl)

theorem effect_other {c : Fs.Call} {procs procs' : Slot → FProc}
    (h : c.Effect r procs procs') (hq : q ≠ c.caller) : procs' q = procs q := by
  have gets : ∀ p, q ≠ p → GetsFd p r procs procs' → procs' q = procs q := by
    rintro p hp (⟨-, rfl⟩ | ⟨fd, f, -, rfl⟩)
    · rfl
    · exact upd_of_ne hp
  cases c with
  | sysOpen p path openMode => exact gets p hq h
  | sysDup p fd => exact gets p hq h
  | sysClose p fd =>
    rcases h with ⟨-, rfl⟩ | ⟨i, -, -, rfl⟩
    · rfl
    · exact upd_of_ne hq
  | sysChdir p path =>
    rcases h with ⟨-, rfl⟩ | ⟨-, ip, rfl⟩
    · rfl
    · exact upd_of_ne hq
  | sysRead p fd len dev => exact congrFun h q
  | sysWrite p fd len src dev => exact congrFun h q
  | sysMkdir p path => exact congrFun h q
  | sysLink p oldPath newPath => exact congrFun h q
  | sysUnlink p path => exact congrFun h q

variable [BufLayer σ η]

theorem inv_step {s' : Sys σ} {a : Act} (hi : s.Inv) (hok : s.exitsBare a)
    (h : s.step a = some s') : s'.Inv := by
  cases a with
  | proc a =>
    simp only [step, Option.map_eq_some_iff] at h
    obtain ⟨t, ht, rfl⟩ := h
    exact inv_proc hi hok ht
  | file c =>
    simp only [step] at h
    split at h
    · rename_i hrun
      cases hx : c.exec s.fs with
      | error e fs => rw [hx] at h; cases h
      | ok r fs =>
        rw [hx] at h
        cases h
        have he := wp_ok (effect_exec c s.fs) hx
        refine hi.file (p := c.caller) ?_ (note_table s r c) (owned_note (hi _).1 he) fun q hq =>
          ⟨effect_other he hq, note_other s r c hq⟩
        rintro (hd | hd) <;> rw [hrun] at hd <;> cases hd
    · cases h

omit [BufLayer σ η] in
theorem inv_boot (dev : σ) : (boot dev).Inv := by
  intro p
  have hbare : (boot dev).Bare p := ⟨fun _ => rfl, rfl⟩
  exact ⟨hbare.owned, fun _ => hbare⟩

/-- In every run in which a process exits with nothing open, every process has only the descriptors
and the directory that it got itself, and nothing waits in a slot for the next one. -/
theorem descriptors_isolated (dev : σ) (as : List Act) (s : Sys σ)
    (hok : RunOk step exitsBare (boot dev) as) (hrun : run step (boot dev) as = some s) :
    s.Isolated :=
  (run_inv (I := Inv) (fun _ _ _ hi ho hs => inv_step hi ho hs) as (inv_boot dev) hok hrun).isolated

/-- A child opens a file, closes it and exits; its slot is used again. -/
theorem descriptors_isolated_closed : ∃ s, run step (boot (Mkfs.image fun _ => 0))
    [.proc (.fork 0 .child), .file (.sysOpen 1 slashA MODE_CREATE), .file (.sysClose 1 0),
      .proc (.exit 1), .proc (.wait 0), .proc (.fork 0 .child), .file (.sysOpen 1 slashA MODE_READ)] =
      some s ∧ s.Isolated := by
  obtain ⟨s, hs, -⟩ := exists_of_any (P := fun _ => True) (o := run step (boot (Mkfs.image fun _ => 0))
    [.proc (.fork 0 .child), .file (.sysOpen 1 slashA MODE_CREATE), .file (.sysClose 1 0),
      .proc (.exit 1), .proc (.wait 0), .proc (.fork 0 .child), .file (.sysOpen 1 slashA MODE_READ)])
    (by decide +kernel)
  exact ⟨s, hs, descriptors_isolated _ _ s (by decide +kernel) hs⟩

/-- A child exits with a file open. The next child in its slot has descriptor 0, which it never
opened. -/
theorem slot_keeps_files : ∃ s, run step (boot (Mkfs.image fun _ => 0))
    [.proc (.fork 0 .child), .file (.sysOpen 1 slashA MODE_CREATE), .proc (.exit 1), .proc (.wait 0),
      .proc (.fork 0 .child)] = some s ∧ ¬ s.Isolated :=
  exists_of_any (by decide +kernel)

end Sys
end Proc
end WhuOS
