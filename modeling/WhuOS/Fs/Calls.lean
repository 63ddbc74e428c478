import Mathlib.Data.Fintype.Prod
import WhuOS.Lib.Count
import WhuOS.Lib.Run
import WhuOS.Fs.Refs
import WhuOS.Fs.Mkfs

/-!
# WhuOS.Fs.Calls

Runs of system calls on files: the reference counts of `icache[]` and `ftable[]` against what
refers to an entry. Both counts are kept by every call but one: `sys_mkdir` keeps the reference
that `path_create_inode` returns, and `sys_dup` takes one although `fd_alloc` found no slot.
-/

namespace WhuOS
namespace Fs

open Lib Sched Kern

/-! ## Files -/

namespace Core

def setFile (c : Core) (f : FileId) (file : File) : Core := { c with ftable := upd c.ftable f file }

def setProc (c : Core) (p : Slot) (q : FProc) : Core := { c with procs := upd c.procs p q }

/-- The reference of a file that was closed. -/
def dropOpt (c : Core) : Option IId → Core
  | none => c
  | some k => c.drop k

@[simp] theorem setFile_setFile (c : Core) (f : FileId) (a b : File) :
    (c.setFile f a).setFile f b = c.setFile f b := by simp [setFile]

@[simp] theorem setFile_refs (c : Core) (f : FileId) (a : File) : (c.setFile f a).refs = c.refs := rfl
theorem setFile_ftable (c : Core) (f : FileId) (a : File) :
    (c.setFile f a).ftable = upd c.ftable f a := rfl

@[simp] theorem setProc_refs (c : Core) (p : Slot) (q : FProc) : (c.setProc p q).refs = c.refs := rfl
@[simp] theorem setProc_ftable (c : Core) (p : Slot) (q : FProc) :
    (c.setProc p q).ftable = c.ftable := rfl

theorem setProc_procs (c : Core) (p : Slot) (q : FProc) :
    (c.setProc p q).procs = upd c.procs p q := rfl

@[simp] theorem dropOpt_ftable (c : Core) (o : Option IId) : (c.dropOpt o).ftable = c.ftable := by
  cases o <;> rfl

@[simp] theorem dropOpt_procs (c : Core) (o : Option IId) : (c.dropOpt o).procs = c.procs := by
  cases o <;> rfl

end Core

variable {σ η : Type}

theorem wlp_modFile (f : FileId) (g : File → File) (s : FsState σ) :
    wlp (modFile f g) (fun _ s' => s'.core = s.core.setFile f (g (s.core.ftable f))) s := rfl

variable [BufLayer σ η]

theorem wlp_fileAlloc (s : FsState σ) :
    wlp (fileAlloc (σ := σ)) (fun f s' => (s.core.ftable f).ref = 0 ∧ ∃ file, file.ref = 1 ∧
      s'.core = s.core.setFile f file) s := by
  simp only [fileAlloc, wp_bind, wp_get]
  cases h : findFile s with
  | some f =>
    have hr : (s.ftable f).ref = 0 := by simpa using List.find?_some h
    exact ⟨hr, _, rfl, rfl⟩
  | none => trivial

theorem wlp_openInode (p : Slot) (path : List UInt8) (openMode : UInt32) (s : FsState σ) :
    wlp (openInode p path openMode) (fun r s' => s'.core = s.core.takeOpt r) s := by
  unfold openInode
  split
  · exact wlp_pathCreateInode p path _ _ _ s
  · exact wlp_pathToInode p path s

omit [BufLayer σ η] in
theorem setType_ref (n : Dinode) (file : File) : (setType n file).ref = file.ref := by
  unfold setType
  split
  · rfl
  split <;> rfl

theorem wlp_fileOpen (p : Slot) (path : List UInt8) (openMode : UInt32) (s : FsState σ) :
    wlp (fileOpen p path openMode)
      (fun r s' => match r with
        | none => s'.core = s.core
        | some f => (s.core.ftable f).ref = 0 ∧ ∃ ip file, file.ref = 1 ∧ file.ip = some ip ∧
            s'.core = (s.core.take ip).setFile f file) s := by
  refine wlp_bind (wlp_openInode p path openMode s) fun r s1 h1 => ?_
  cases r with
  | none => exact h1
  | some ip =>
    simp only [Core.takeOpt] at h1
    refine wlp_bind (wlp_inodeLock ip s1) fun _ s2 h2 => ?_
    rw [h1] at h2
    refine wlp_bind (wlp_fileAlloc s2) fun f s3 h3 => ?_
    obtain ⟨h0, file, href, hs3⟩ := h3
    rw [h2.2] at h0 hs3
    refine wlp_bind (keeps_getIp ip s3) fun n s4 h4 => ?_
    refine wlp_bind (wlp_modFile f _ s4) fun _ s5 h5 => ?_
    refine wlp_bind (wlp_modFile f _ s5) fun _ s6 h6 => ?_
    obtain ⟨a, ha, hip, h6⟩ : ∃ a : File, a.ref = 1 ∧ a.ip = some ip ∧
        s6.core = ((s.core.take ip).setLock ip true).setFile f a := by
      rw [h6, h5, Core.setFile_setFile, h4, hs3, Core.setFile_setFile]
      refine ⟨_, ?_, ?_, rfl⟩
      · simp only [Core.setFile, upd_same, setType_ref]
        exact href
      · rfl
    refine wlp_bind (wlp_inodeUnlock ip s6) fun _ s7 h7 => ⟨h0, ip, a, ha, hip, ?_⟩
    rw [h7, h6]
    show (((s.core.take ip).setLock ip true).setLock ip false).setFile f a = _
    rw [Core.setLock_setLock, Core.setLock_self h2.1]

theorem wlp_fileClose (f : FileId) (s : FsState σ) :
    wlp (fileClose f)
      (fun _ s' => 0 < (s.core.ftable f).ref ∧ ∃ file, file.ref = (s.core.ftable f).ref - 1 ∧
        if (s.core.ftable f).ref = 1 then
          s'.core = (s.core.setFile f file).dropOpt (s.core.ftable f).ip
        else file.ip = (s.core.ftable f).ip ∧ s'.core = s.core.setFile f file) s := by
  simp only [fileClose, wp_bind]
  show wlp (if (s.ftable f).ref < 1 then _ else _) _ s
  split
  · trivial
  rename_i hpos
  refine wlp_bind (wlp_modFile f _ s) fun _ s1 h1 => ?_
  have hpos' : 0 < (s.core.ftable f).ref := by
    have : (s.core.ftable f).ref = (s.ftable f).ref := rfl
    grind
  split
  · rename_i hlast
    have hlast : (s.core.ftable f).ref = 1 := hlast
    refine wlp_bind (wlp_modFile f _ s1) fun _ s2 h2 => ?_
    rw [h1, Core.setFile_setFile] at h2
    obtain ⟨a, ha, h2⟩ : ∃ a : File, a.ref = (s.core.ftable f).ref - 1 ∧ s2.core = s.core.setFile f a :=
      ⟨_, by simp [Core.setFile], h2⟩
    refine wlp_conseq (Q := fun _ s' => s'.core = s2.core.dropOpt (s.ftable f).ip) ?_ fun _ s3 h3 => ?_
    · cases (s.ftable f).ip with
      | none => rfl
      | some ip => exact wlp_inodeFree ip s2
    · refine ⟨hpos', a, ha, ?_⟩
      rw [if_pos hlast, h3, h2]; rfl
  · rename_i hlast
    have hlast : ¬ (s.core.ftable f).ref = 1 := hlast
    refine ⟨hpos', { s.core.ftable f with ref := (s.core.ftable f).ref - 1 }, rfl, ?_⟩
    rw [if_neg hlast]
    exact ⟨rfl, h1⟩

theorem wlp_fileDup (f : FileId) (s : FsState σ) :
    wlp (fileDup f) (fun _ s' => s'.core =
      s.core.setFile f { s.core.ftable f with ref := (s.core.ftable f).ref + 1 } ∧
        0 < (s.core.ftable f).ref) s := by
  simp only [fileDup, wp_bind]
  show wlp (Kern.assert (decide (0 < (s.ftable f).ref)) _) _ s
  simp only [wp_assert]
  split
  · rename_i h
    have hpos : 0 < (s.ftable f).ref := by simpa using h
    exact ⟨rfl, hpos⟩
  · trivial

/-- Reading and writing change the offset of a file at most. -/
def OffsetOnly (f : FileId) (c c' : Core) : Prop :=
  ∃ offset, c' = c.setFile f { c.ftable f with offset }

theorem OffsetOnly.refl (f : FileId) (c : Core) : OffsetOnly f c c :=
  ⟨(c.ftable f).offset, by cases c; simp [Core.setFile]⟩

theorem wlp_withInode {α : Type} (f : FileId) (ip : IId) {x : FsM σ α} (hx : Keeps FsState.core x)
    (g : α → UInt32) (s : FsState σ) :
    wlp (do
      inodeLock ip
      let a ← x
      modFile f fun file => { file with offset := file.offset + g a }
      inodeUnlock ip
      return g a) (fun _ s' => OffsetOnly f s.core s'.core) s := by
  refine wlp_bind (wlp_inodeLock ip s) fun _ s1 h1 => ?_
  refine wlp_bind (hx s1) fun a s2 h2 => ?_
  refine wlp_bind (wlp_modFile f _ s2) fun _ s3 h3 => ?_
  refine wlp_bind (wlp_inodeUnlock ip s3) fun _ s4 h4 => ?_
  refine ⟨(s.core.ftable f).offset + g a, ?_⟩
  rw [h4, h3, h2, h1.2]
  show ((s.core.setLock ip true).setLock ip false).setFile f _ = _
  rw [Core.setLock_setLock, Core.setLock_self h1.1]
  rfl

theorem wlp_fileRead (f : FileId) (len dev : UInt32) (s : FsState σ) :
    wlp (fileRead f len dev) (fun _ s' => OffsetOnly f s.core s'.core) s := by
  refine wlp_bind (Q := fun a s' => s' = s) rfl fun file s1 h1 => ?_
  subst h1
  split
  · exact OffsetOnly.refl f _
  split
  · exact OffsetOnly.refl f _
  · exact OffsetOnly.refl f _
  · trivial
  · exact wlp_withInode f _ (keeps_inodeReadData _ _ _) (fun bytes => UInt32.ofNat bytes.length) s1

theorem wlp_fileWrite (f : FileId) (len : UInt32) (src : Nat → UInt8) (dev : UInt32)
    (s : FsState σ) :
    wlp (fileWrite f len src dev) (fun _ s' => OffsetOnly f s.core s'.core) s := by
  refine wlp_bind (Q := fun a s' => s' = s) rfl fun file s1 h1 => ?_
  subst h1
  split
  · exact OffsetOnly.refl f _
  split
  · exact OffsetOnly.refl f _
  · trivial
  · exact wlp_withInode f _ (keeps_inodeWriteData _ _ _ _) id s1
  · exact OffsetOnly.refl f _

/-! ## The counts -/

def Core.fileRefs (c : Core) (k : IId) : Nat :=
  count fun f => 0 < (c.ftable f).ref ∧ (c.ftable f).ip = some k

/-- Processes whose current directory is the inode. -/
def Core.cwdRefs (c : Core) (k : IId) : Nat := count fun p => (c.procs p).cwd = some k

/-- Every reference on a cached inode belongs to an open file or a current directory. -/
def Core.Counted (c : Core) : Prop := ∀ k, c.refs k = UInt32.ofNat (c.fileRefs k + c.cwdRefs k)

/-- Descriptors that point to the file. -/
def Core.fdRefs (c : Core) (f : FileId) : Nat :=
  count fun x : Slot × Fin FILE_PER_PROC => (c.procs x.1).filelist x.2 = some f

/-- Every reference on an open file belongs to a descriptor. -/
def Core.FdCounted (c : Core) : Prop := ∀ f, (c.ftable f).ref = UInt32.ofNat (c.fdRefs f)

namespace Core

variable {c : Core} {f : FileId} {p : Slot}

theorem fileRefs_setFile (c : Core) (f : FileId) (file : File) (k : IId) :
    (c.setFile f file).fileRefs k + (if 0 < (c.ftable f).ref ∧ (c.ftable f).ip = some k then 1 else 0) =
      c.fileRefs k + if 0 < file.ref ∧ file.ip = some k then 1 else 0 := by
  have := count_change (p := fun g => 0 < (c.ftable g).ref ∧ (c.ftable g).ip = some k)
    (q := fun g => 0 < ((c.setFile f file).ftable g).ref ∧ ((c.setFile f file).ftable g).ip = some k) f
    fun x hx => by simp only [setFile, upd_of_ne hx]
  simp only [setFile, upd_same] at this
  exact this

theorem cwdRefs_setProc (c : Core) (p : Slot) (q : FProc) (k : IId) :
    (c.setProc p q).cwdRefs k + (if (c.procs p).cwd = some k then 1 else 0) =
      c.cwdRefs k + if q.cwd = some k then 1 else 0 := by
  have := count_change (p := fun r => (c.procs r).cwd = some k)
    (q := fun r => ((c.setProc p q).procs r).cwd = some k) p
    fun x hx => by simp only [setProc, upd_of_ne hx]
  simp only [setProc, upd_same] at this
  exact this

theorem fdRefs_setFd (c : Core) (p : Slot) (fd : Fin FILE_PER_PROC) (o : Option FileId) (g : FileId) :
    (c.setProc p { c.procs p with filelist := upd (c.procs p).filelist fd o }).fdRefs g +
      (if (c.procs p).filelist fd = some g then 1 else 0) =
      c.fdRefs g + if o = some g then 1 else 0 := by
  have := count_change (p := fun x : Slot × Fin FILE_PER_PROC => (c.procs x.1).filelist x.2 = some g)
    (q := fun x => ((c.setProc p { c.procs p with
      filelist := upd (c.procs p).filelist fd o }).procs x.1).filelist x.2 = some g) (p, fd)
    fun x hx => by
      by_cases hp : x.1 = p
      · have hfd : x.2 ≠ fd := fun e => hx (Prod.ext hp e)
        simp only [setProc, hp, upd_same, upd_of_ne hfd]
      · simp only [setProc, upd_of_ne hp]
  simp only [setProc, upd_same] at this
  exact this

variable {file : File}

theorem Counted.setFile (h : c.Counted) (hr : 0 < file.ref ↔ 0 < (c.ftable f).ref)
    (hip : file.ip = (c.ftable f).ip) : (c.setFile f file).Counted := by
  intro k
  have := fileRefs_setFile c f file k
  simp only [hr, hip] at this
  have hk := h k
  rw [← Nat.add_right_cancel this] at hk
  exact hk

theorem Counted.opened (h : c.Counted) {ip : IId} (h0 : (c.ftable f).ref = 0)
    (hr : file.ref = 1) (hip : file.ip = some ip) : ((c.take ip).setFile f file).Counted := by
  intro k
  have h1 := fileRefs_setFile c f file k
  simp only [h0, hr, hip, UInt32.lt_irrefl, false_and, if_false, UInt32.zero_lt_one, true_and,
    Option.some.injEq, Nat.add_zero] at h1
  show (c.take ip).refs k = UInt32.ofNat ((c.setFile f file).fileRefs k + c.cwdRefs k)
  rw [take_refs, h1, h k, Nat.add_right_comm, ofNat_add_ite]
  simp only [eq_comm (a := ip)]

/-- The last reference on a file goes, and with it the file's reference on its inode. -/
theorem Counted.closed (h : c.Counted) (h1 : 0 < (c.ftable f).ref) (hr : file.ref = 0) :
    ((c.setFile f file).dropOpt (c.ftable f).ip).Counted := by
  intro k
  have hf := fileRefs_setFile c f file k
  simp only [h1, hr, UInt32.lt_irrefl, false_and, if_false, true_and, Nat.add_zero] at hf
  have hk := h k
  cases hip : (c.ftable f).ip with
  | none =>
    simp only [hip, reduceCtorEq, if_false, Nat.add_zero] at hf
    rw [← hf] at hk
    exact hk
  | some ip =>
    simp only [hip, Option.some.injEq, eq_comm (a := ip)] at hf
    show ((c.setFile f file).drop ip).refs k = UInt32.ofNat ((c.setFile f file).fileRefs k + c.cwdRefs k)
    rw [drop_refs, setFile_refs, hk, ← hf, Nat.add_right_comm, ofNat_add_ite, UInt32.add_sub_cancel]

theorem Counted.chdir (h : c.Counted) {q : FProc} {ip : IId} (hq : q.cwd = some ip) :
    (((c.take ip).dropOpt (c.procs p).cwd).setProc p q).Counted := by
  intro k
  have hc := cwdRefs_setProc c p q k
  simp only [hq, Option.some.injEq] at hc
  have hk := h k
  have hcwd : (((c.take ip).dropOpt (c.procs p).cwd).setProc p q).cwdRefs k = (c.setProc p q).cwdRefs k :=
    count_congr fun _ => by rw [setProc_procs, setProc_procs, dropOpt_procs, take_procs]
  have hfile : (((c.take ip).dropOpt (c.procs p).cwd).setProc p q).fileRefs k = c.fileRefs k :=
    count_congr fun _ => by rw [setProc_ftable, dropOpt_ftable, take_ftable]
  rw [hcwd, hfile, setProc_refs]
  cases ho : (c.procs p).cwd with
  | none =>
    simp only [ho, reduceCtorEq, if_false, Nat.add_zero] at hc
    rw [dropOpt, take_refs, hc, hk, ← Nat.add_assoc, ofNat_add_ite]
    simp only [eq_comm (a := k)]
  | some old =>
    simp only [ho, Option.some.injEq] at hc
    rw [dropOpt, drop_refs, take_refs, hk]
    simp only [eq_comm (a := k)]
    rw [← ofNat_add_ite, Nat.add_assoc, ← hc, ← Nat.add_assoc, ofNat_add_ite, UInt32.add_sub_cancel]

theorem Counted.setProc (h : c.Counted) {q : FProc} (hq : q.cwd = (c.procs p).cwd) :
    (c.setProc p q).Counted := by
  intro k
  have hc := cwdRefs_setProc c p q k
  rw [hq] at hc
  have hf : (c.setProc p q).fileRefs k = c.fileRefs k := rfl
  rw [setProc_refs, hf, Nat.add_right_cancel hc]
  exact h k

/-- The references of files are those of descriptors, and one more on `f`. -/
def FdCountedBut (c : Core) (f : FileId) : Prop :=
  ∀ g, (c.ftable g).ref = UInt32.ofNat (c.fdRefs g + if g = f then 1 else 0)

theorem setFile_fdRefs (c : Core) (f g : FileId) (file : File) :
    (c.setFile f file).fdRefs g = c.fdRefs g := count_congr fun _ => Iff.rfl

theorem FdCounted.setFile (h : c.FdCounted) (hr : file.ref = (c.ftable f).ref) :
    (c.setFile f file).FdCounted := by
  intro g
  have hg := h g
  rw [setFile_fdRefs, setFile_ftable, upd_apply]
  split
  · rename_i e; rw [hr, ← e, hg]
  · exact hg

theorem FdCounted.incr (h : c.FdCounted) (hr : file.ref = (c.ftable f).ref + 1) :
    (c.setFile f file).FdCountedBut f := by
  intro g
  have hg := h g
  rw [setFile_fdRefs, setFile_ftable, upd_apply]
  split
  · rename_i e; rw [hr, ← e, hg, UInt32.ofNat_add]; rfl
  · rw [hg, Nat.add_zero]

theorem FdCountedBut.decr (h : c.FdCountedBut f)
    (hr : file.ref = (c.ftable f).ref - 1) : (c.setFile f file).FdCounted := by
  intro g
  have hg := h g
  rw [setFile_fdRefs, setFile_ftable, upd_apply]
  split
  · rename_i e; rw [hr, ← e, hg, if_pos e, UInt32.ofNat_add]; exact UInt32.add_sub_cancel _ _
  · rename_i e; rw [hg, if_neg e, Nat.add_zero]

theorem FdCountedBut.setFd (h : c.FdCountedBut f) {fd : Fin FILE_PER_PROC}
    (hfree : (c.procs p).filelist fd = none) :
    (c.setProc p { c.procs p with filelist := upd (c.procs p).filelist fd (some f) }).FdCounted := by
  intro g
  have hg := h g
  have hfd := fdRefs_setFd c p fd (some f) g
  simp only [hfree, reduceCtorEq, if_false, Nat.add_zero, Option.some.injEq] at hfd
  rw [setProc_ftable, hfd, hg]
  simp only [eq_comm (a := g)]

theorem FdCounted.clearFd (h : c.FdCounted) {fd : Fin FILE_PER_PROC}
    (hfd : (c.procs p).filelist fd = some f) :
    (c.setProc p { c.procs p with filelist := upd (c.procs p).filelist fd none }).FdCountedBut f := by
  intro g
  have hg := h g
  have hfd' := fdRefs_setFd c p fd none g
  simp only [hfd, reduceCtorEq, if_false, Nat.add_zero, Option.some.injEq] at hfd'
  rw [setProc_ftable, hg, ← hfd']
  simp only [eq_comm (a := g)]

end Core

/-! ## The calls -/

theorem wlp_setFd (p : Slot) (fd : Fin FILE_PER_PROC) (o : Option FileId) (s : FsState σ) :
    wlp (setFd p fd o) (fun _ s' => s'.core = s.core.setProc p
      { s.core.procs p with filelist := upd (s.core.procs p).filelist fd o }) s := rfl

variable {s : FsState σ} {fd : Int} {path : List UInt8} {c' : Core}

theorem freeFd_some {p : Slot} {fd : Fin FILE_PER_PROC} (h : freeFd s p = some fd) :
    (s.core.procs p).filelist fd = none := by
  have : (s.procs p).filelist fd = none := by simpa using List.find?_some h
  exact this

theorem argFd_some {p : Slot} {i : Fin FILE_PER_PROC} {f : FileId}
    (h : argFd s p fd = some (i, f)) : (s.core.procs p).filelist i = some f := by
  unfold argFd at h
  split at h
  · simp only [Option.map_eq_some_iff, Prod.mk.injEq] at h
    obtain ⟨g, hg, rfl, rfl⟩ := h
    exact hg
  · cases h

theorem wlp_fdAlloc (p : Slot) (f : FileId) (s : FsState σ) :
    wlp (fdAlloc p f) (fun r s' => match freeFd s p with
      | some fd => r = fd.val ∧ s'.core = s.core.setProc p
          { s.core.procs p with filelist := upd (s.core.procs p).filelist fd (some f) }
      | none => r = MINUS_ONE ∧ s'.core = s.core) s := by
  simp only [fdAlloc, wp_bind, wp_get]
  cases freeFd s p with
  | some fd => exact ⟨rfl, rfl⟩
  | none => exact ⟨rfl, rfl⟩

theorem wlp_freeCwd (o : Option IId) (s : FsState σ) :
    wlp (freeCwd o) (fun _ s' => s'.core = s.core.dropOpt o) s := by
  cases o with
  | none => rfl
  | some k => exact wlp_inodeFree k s

theorem wlp_dirChange (p : Slot) (path : List UInt8) (s : FsState σ) :
    wlp (dirChange p path) (fun ok s' => match ok with
      | false => s'.core = s.core
      | true => ∃ ip, s'.core = ((s.core.take ip).dropOpt (s.core.procs p).cwd).setProc p
          { s.core.procs p with cwd := some ip }) s := by
  refine wlp_bind (wlp_pathToInode p path s) fun r s1 h1 => ?_
  cases r with
  | none => exact h1
  | some ip =>
    simp only [Core.takeOpt] at h1
    refine wlp_bind (wlp_inodeLock ip s1) fun _ s2 h2 => ?_
    rw [h1] at h2
    refine wlp_bind (keeps_getIp ip s2) fun n s3 h3 => ?_
    have hs3 := h3.trans h2.2
    split
    · exact wlp_bind (wlp_unlockFree h2.1 hs3) fun _ s4 h4 => h4.trans (Core.drop_take _ _)
    refine wlp_bind (wlp_unlock h2.1 hs3) fun _ s4 h4 => ?_
    simp only [wp_bind, wp_get]
    have hcwd : (s4.procs p).cwd = (s.core.procs p).cwd := by
      have : s4.core.procs p = s.core.procs p := by rw [h4]; rfl
      exact congrArg FProc.cwd this
    rw [hcwd]
    refine wlp_conseq (wlp_freeCwd (s.core.procs p).cwd s4) fun _ s5 h5 => ⟨ip, ?_⟩
    show s5.core.setProc p { s5.core.procs p with cwd := some ip } = _
    rw [h5, h4, Core.dropOpt_procs, Core.take_procs]

theorem wlp_pathToPinode_none {p : Slot} (h : skipElement path = none)
    (s : FsState σ) : wlp (pathToPinode p path) (fun r _ => r = none) s := by
  have hloop : ∀ ip (s1 : FsState σ), wlp (searchLoop true (path.length + 1) ip none path)
      (fun r _ => r = none) s1 := fun ip s1 => by
    unfold searchLoop
    rw [h]
    exact wlp_bind (wlp_inodeFree ip s1) fun _ _ _ => rfl
  have hsearch : wlp (searchInode p path true) (fun r _ => r = none) s := by
    simp only [searchInode, wp_bind, wp_get]
    split
    · exact wlp_bind (wlp_inodeDup _ s) fun ip s1 _ => hloop ip s1
    · exact wlp_bind (wlp_inodeAlloc _ s) fun ip s1 _ => hloop ip s1
  exact wlp_bind hsearch fun r s1 h1 => by subst h1; rfl

theorem wlp_pathCreateInode_none {p : Slot} (h : skipElement path = none)
    (type major minor : UInt16) (s : FsState σ) :
    wlp (pathCreateInode p path type major minor) (fun r _ => r = none) s :=
  wlp_bind (wlp_pathToPinode_none h s) fun r s1 h1 => by subst h1; rfl

/-- A `sys_mkdir` call has no element in its path, and fails for it. -/
def mkdirFails : Call → Bool
  | .sysMkdir _ path => (skipElement path).isNone
  | _ => true

/-- A `sys_dup` call of an open descriptor finds a free slot. -/
def dupHasRoom (s : FsState σ) : Call → Bool
  | .sysDup p fd => (argFd s p fd).isNone || (freeFd s p).isSome
  | _ => true

theorem counted_fileClose {f : FileId} (h : s.core.Counted) :
    wlp (fileClose f) (fun _ s' => s'.core.Counted) s := by
  refine wlp_conseq (wlp_fileClose f s) fun _ s1 h1 => ?_
  obtain ⟨hpos, file, hr, h1⟩ := h1
  split at h1
  · rename_i hone
    rw [h1]
    exact h.closed hpos (by rw [hr, hone]; rfl)
  · rename_i hone
    rw [h1.2]
    exact h.setFile (by grind) h1.1

theorem counted_fdAlloc {p : Slot} {f : FileId} (h : s.core.Counted) :
    wlp (fdAlloc p f) (fun _ s' => s'.core.Counted) s := by
  refine wlp_conseq (wlp_fdAlloc p f s) fun fd s1 h1 => ?_
  cases hfd : freeFd s p with
  | none =>
    simp only [hfd] at h1
    rw [h1.2]
    exact h
  | some fd =>
    simp only [hfd] at h1
    rw [h1.2]
    exact h.setProc rfl

theorem counted_sysOpen {p : Slot} {openMode : UInt32}
    (h : s.core.Counted) : wlp (sysOpen p path openMode) (fun _ s' => s'.core.Counted) s := by
  refine wlp_bind (wlp_fileOpen p path openMode s) fun r s1 h1 => ?_
  cases r with
  | none =>
    show s1.core.Counted
    rw [h1]
    exact h
  | some f =>
    obtain ⟨h0, ip, file, hr, hip, h1⟩ := h1
    have hc1 : s1.core.Counted := by rw [h1]; exact h.opened h0 hr hip
    refine wlp_bind (counted_fdAlloc hc1) fun fd s2 h2 => ?_
    split
    · exact wlp_bind (counted_fileClose h2) fun _ _ h3 => h3
    · exact h2

theorem counted_sysClose {p : Slot} (h : s.core.Counted) :
    wlp (sysClose p fd) (fun _ s' => s'.core.Counted) s := by
  simp only [sysClose, wp_bind, wp_get]
  cases argFd s p fd with
  | none => exact h
  | some x =>
    refine wlp_bind (wlp_setFd p x.1 none s) fun _ s1 h1 => ?_
    have hc1 : s1.core.Counted := by rw [h1]; exact h.setProc rfl
    exact wlp_bind (counted_fileClose hc1) fun _ _ h2 => h2

theorem ftable_fdAlloc {p : Slot} {f : FileId} :
    wlp (fdAlloc p f) (fun _ s' => s'.core.ftable = s.core.ftable) s := by
  refine wlp_conseq (wlp_fdAlloc p f s) fun _ s1 h1 => ?_
  split at h1
  · rw [h1.2]; rfl
  · rw [h1.2]

theorem Core.fdRefs_le (c : Core) (f : FileId) : c.fdRefs f ≤ 1024 :=
  (count_le_card _).trans_eq (by simp [NPROC, FILE_PER_PROC])

/-- `sys_dup` does not take the count of a file back to zero. -/
theorem counted_sysDup {p : Slot} (h : s.core.Counted)
    (hfd : s.core.FdCounted) : wlp (sysDup p fd) (fun _ s' => s'.core.Counted) s := by
  simp only [sysDup, wp_bind, wp_get]
  cases argFd s p fd with
  | none => exact h
  | some x =>
    refine wlp_bind (wlp_and (counted_fdAlloc h) ftable_fdAlloc) fun _ s1 h1 => ?_
    refine wlp_bind (wlp_fileDup x.2 s1) fun _ s2 h2 => ?_
    show s2.core.Counted
    rw [h2.1]
    have hle := s.core.fdRefs_le x.2
    have hn := (toNat_eq_iff (by omega)).mpr (hfd x.2)
    rw [← h1.2] at hn
    refine h1.1.setFile ⟨fun _ => h2.2, fun _ => pos_iff_toNat.mpr ?_⟩ rfl
    rw [toNat_incr (by omega)]
    omega

theorem counted_offset {c : Core} {f : FileId} (h : c.Counted) (ho : OffsetOnly f c c') :
    c'.Counted := by
  obtain ⟨offset, rfl⟩ := ho
  exact h.setFile Iff.rfl rfl

theorem counted_exec {c : Call} (hc : mkdirFails c = true) (h : s.core.Counted)
    (hfd : s.core.FdCounted) : wlp c.exec (fun _ s' => s'.core.Counted) s := by
  cases c with
  | sysOpen p path openMode => exact counted_sysOpen h
  | sysClose p fd => exact counted_sysClose h
  | sysDup p fd => exact counted_sysDup h hfd
  | sysRead p fd len dev =>
    simp only [Call.exec, sysRead, wp_bind, wp_get]
    cases argFd s p fd with
    | none => exact h
    | some x => exact wlp_bind (wlp_fileRead x.2 len dev s) fun _ _ h1 => counted_offset h h1
  | sysWrite p fd len src dev =>
    simp only [Call.exec, sysWrite, wp_bind, wp_get]
    cases argFd s p fd with
    | none => exact h
    | some x => exact wlp_bind (wlp_fileWrite x.2 len src dev s) fun _ _ h1 => counted_offset h h1
  | sysMkdir p path =>
    have hnone := wlp_pathCreateInode_none (p := p) (Option.isNone_iff_eq_none.mp hc) FT_DIR 0 0 s
    refine wlp_bind (wlp_and hnone (wlp_pathCreateInode p path FT_DIR 0 0 s)) fun r s1 h1 => ?_
    obtain ⟨rfl, h1⟩ := h1
    show s1.core.Counted
    rw [h1]
    exact h
  | sysChdir p path =>
    refine wlp_bind (wlp_dirChange p path s) fun ok s1 h1 => ?_
    show s1.core.Counted
    cases ok with
    | false => rw [h1]; exact h
    | true =>
      obtain ⟨ip, h1⟩ := h1
      rw [h1]
      exact h.chdir rfl
  | sysLink p oldPath newPath =>
    refine wlp_bind (keeps_pathLink p oldPath newPath s) fun ok s1 h1 => ?_
    show s1.core.Counted
    rw [h1]
    exact h
  | sysUnlink p path =>
    refine wlp_bind (keeps_pathUnlink p path s) fun ok s1 h1 => ?_
    show s1.core.Counted
    rw [h1]
    exact h

/-! ## Descriptors -/

theorem fdCounted_fileClose {f : FileId} (h : s.core.FdCountedBut f) :
    wlp (fileClose f) (fun _ s' => s'.core.FdCounted) s := by
  refine wlp_conseq (wlp_fileClose f s) fun _ s1 h1 => ?_
  obtain ⟨-, file, hr, h1⟩ := h1
  have hd := h.decr hr
  split at h1
  · rw [h1]
    cases (s.core.ftable f).ip with
    | none => exact hd
    | some k => exact hd
  · rw [h1.2]
    exact hd

theorem fdCounted_sysOpen {p : Slot} {openMode : UInt32}
    (h : s.core.FdCounted) : wlp (sysOpen p path openMode) (fun _ s' => s'.core.FdCounted) s := by
  refine wlp_bind (wlp_fileOpen p path openMode s) fun r s1 h1 => ?_
  cases r with
  | none =>
    show s1.core.FdCounted
    rw [h1]
    exact h
  | some f =>
    obtain ⟨h0, ip, file, hr, hip, h1⟩ := h1
    have hc1 : s1.core.FdCountedBut f := by
      rw [h1]
      exact Core.FdCounted.incr (c := s.core.take ip) h (by rw [Core.take_ftable, h0, hr]; rfl)
    refine wlp_bind (wlp_fdAlloc p f s1) fun fd s2 h2 => ?_
    cases hfd : freeFd s1 p with
    | some i =>
      simp only [hfd] at h2
      have hne : fd ≠ MINUS_ONE := by rw [h2.1]; simp only [MINUS_ONE]; omega
      rw [if_neg hne]
      show s2.core.FdCounted
      rw [h2.2]
      exact hc1.setFd (freeFd_some hfd)
    | none =>
      simp only [hfd] at h2
      rw [if_pos h2.1]
      exact wlp_bind (fdCounted_fileClose (by rw [h2.2]; exact hc1)) fun _ _ h3 => h3

theorem fdCounted_sysClose {p : Slot} (h : s.core.FdCounted) :
    wlp (sysClose p fd) (fun _ s' => s'.core.FdCounted) s := by
  simp only [sysClose, wp_bind, wp_get]
  cases hx : argFd s p fd with
  | none => exact h
  | some x =>
    refine wlp_bind (wlp_setFd p x.1 none s) fun _ s1 h1 => ?_
    have hc1 : s1.core.FdCountedBut x.2 := by rw [h1]; exact h.clearFd (argFd_some hx)
    exact wlp_bind (fdCounted_fileClose hc1) fun _ _ h2 => h2

theorem fdCounted_sysDup {p : Slot}
    (hroom : argFd s p fd = none ∨ ∃ i, freeFd s p = some i) (h : s.core.FdCounted) :
    wlp (sysDup p fd) (fun _ s' => s'.core.FdCounted) s := by
  simp only [sysDup, wp_bind, wp_get]
  cases hx : argFd s p fd with
  | none => exact h
  | some x =>
    obtain ⟨i, hi⟩ := hroom.resolve_left (by rw [hx]; rintro ⟨⟩)
    refine wlp_bind (wlp_fdAlloc p x.2 s) fun _ s1 h1 => ?_
    simp only [hi] at h1
    refine wlp_bind (wlp_fileDup x.2 s1) fun _ s2 h2 => ?_
    show s2.core.FdCounted
    rw [h2.1, h1.2]
    -- the descriptor and the reference could as well have come in the other order
    exact (h.incr (f := x.2) rfl).setFd (freeFd_some hi)

theorem Core.FdCounted.congr {c : Core} (h : c.FdCounted) (hf : c'.ftable = c.ftable)
    (hp : ∀ p, (c'.procs p).filelist = (c.procs p).filelist) : c'.FdCounted := by
  intro f
  have hfd : c'.fdRefs f = c.fdRefs f := count_congr fun x => by rw [hp]
  rw [hf, hfd]
  exact h f

theorem fdCounted_offset {c : Core} {f : FileId} (h : c.FdCounted) (ho : OffsetOnly f c c') :
    c'.FdCounted := by
  obtain ⟨offset, rfl⟩ := ho
  exact h.setFile rfl

theorem fdCounted_exec {c : Call} (hc : dupHasRoom s c = true)
    (h : s.core.FdCounted) : wlp c.exec (fun _ s' => s'.core.FdCounted) s := by
  cases c with
  | sysOpen p path openMode => exact fdCounted_sysOpen h
  | sysClose p fd => exact fdCounted_sysClose h
  | sysDup p fd =>
    refine fdCounted_sysDup ?_ h
    simpa [dupHasRoom, Option.isSome_iff_exists] using hc
  | sysRead p fd len dev =>
    simp only [Call.exec, sysRead, wp_bind, wp_get]
    cases argFd s p fd with
    | none => exact h
    | some x => exact wlp_bind (wlp_fileRead x.2 len dev s) fun _ _ h1 => fdCounted_offset h h1
  | sysWrite p fd len src dev =>
    simp only [Call.exec, sysWrite, wp_bind, wp_get]
    cases argFd s p fd with
    | none => exact h
    | some x => exact wlp_bind (wlp_fileWrite x.2 len src dev s) fun _ _ h1 => fdCounted_offset h h1
  | sysMkdir p path =>
    refine wlp_bind (wlp_pathCreateInode p path FT_DIR 0 0 s) fun r s1 h1 => ?_
    have hc1 : s1.core.FdCounted := by
      rw [h1]
      cases r with
      | none => exact h
      | some k => exact h.congr rfl fun _ => rfl
    cases r with
    | none => exact hc1
    | some k => exact hc1
  | sysChdir p path =>
    refine wlp_bind (wlp_dirChange p path s) fun ok s1 h1 => ?_
    show s1.core.FdCounted
    cases ok with
    | false => rw [h1]; exact h
    | true =>
      obtain ⟨ip, h1⟩ := h1
      rw [h1]
      refine h.congr ?_ fun q => ?_
      · rw [Core.setProc_ftable, Core.dropOpt_ftable, Core.take_ftable]
      · rw [Core.setProc_procs, Core.dropOpt_procs, Core.take_procs, upd_apply]
        split
        · rename_i e; rw [e]
        · rfl
  | sysLink p oldPath newPath =>
    refine wlp_bind (keeps_pathLink p oldPath newPath s) fun ok s1 h1 => ?_
    show s1.core.FdCounted
    rw [h1]
    exact h
  | sysUnlink p path =>
    refine wlp_bind (keeps_pathUnlink p path s) fun ok s1 h1 => ?_
    show s1.core.FdCounted
    rw [h1]
    exact h

/-- The `ref` of every entry of `icache[]` is the number of open files on it and of processes in
it. -/
def RefsCounted (s : FsState σ) : Prop :=
  ∀ k, (s.icache k).ref.toNat =
    (count fun f => 0 < (s.ftable f).ref ∧ (s.ftable f).ip = some k) +
      count fun p => (s.procs p).cwd = some k

instance (s : FsState σ) : Decidable (RefsCounted s) :=
  inferInstanceAs (Decidable (∀ _, _))

theorem refsCounted_iff : RefsCounted s ↔ s.core.Counted := by
  refine forall_congr' fun k => toNat_eq_iff ?_
  have hf : s.core.fileRefs k ≤ 32 := (count_le_card _).trans_eq (by simp)
  have hp : s.core.cwdRefs k ≤ 64 := (count_le_card _).trans_eq (by simp)
  show s.core.fileRefs k + s.core.cwdRefs k < 2 ^ 32
  omega

theorem counted_booted (dev : σ) : RefsCounted (booted dev) := by
  intro k
  rw [count_eq_zero (p := fun f => 0 < ((booted dev).ftable f).ref ∧ _) (by simp [booted]),
    count_eq_zero (by simp [booted])]
  rfl

theorem callStep_of_wlp {s' : FsState σ} {c : Call} {P : FsState σ → Prop}
    (h : wlp c.exec (fun _ s' => P s') s) (hs : callStep s c = some s') : P s' := by
  unfold callStep at hs
  split at hs
  · rename_i hx
    cases hs
    exact wp_ok h hx
  · cases hs

/-- The `ref` of every entry of `ftable[]` is the number of descriptors that point to it. -/
def FilesCounted (s : FsState σ) : Prop :=
  ∀ f, (s.ftable f).ref.toNat =
    count fun x : Slot × Fin FILE_PER_PROC => (s.procs x.1).filelist x.2 = some f

instance (s : FsState σ) : Decidable (FilesCounted s) :=
  inferInstanceAs (Decidable (∀ _, _))

theorem filesCounted_iff : FilesCounted s ↔ s.core.FdCounted := by
  refine forall_congr' fun f => toNat_eq_iff ?_
  have hle := s.core.fdRefs_le f
  show s.core.fdRefs f < 2 ^ 32
  omega

theorem filesCounted_booted (dev : σ) : FilesCounted (booted dev) := by
  intro f
  rw [count_eq_zero (by simp [booted])]
  rfl

/-- In every run in which `sys_mkdir` fails and `sys_dup` finds a free slot the references of
`icache[]` are accounted for. -/
theorem icache_refs_counted (dev : σ) (cs : List Call) (s : FsState σ)
    (hok : RunOk callStep (fun s c => mkdirFails c = true ∧ dupHasRoom s c = true) (booted dev) cs)
    (hrun : run callStep (booted dev) cs = some s) : RefsCounted s := by
  refine (run_inv (I := fun s => RefsCounted s ∧ FilesCounted s) (fun s c s' hi ho hs => ?_) cs
    ⟨counted_booted dev, filesCounted_booted dev⟩ hok hrun).1
  rw [refsCounted_iff, filesCounted_iff] at hi ⊢
  exact ⟨callStep_of_wlp (counted_exec ho.1 hi.1 hi.2) hs,
    callStep_of_wlp (fdCounted_exec ho.2 hi.2) hs⟩

def slash : List UInt8 := [47]
def slashA : List UInt8 := [47, 97]
def slashB : List UInt8 := [47, 98]

/-- A file is created, linked, unlinked and closed by a process that is in the root directory. -/
theorem icache_refs_counted_file : ∃ s, run callStep (booted (Mkfs.image fun _ => 0))
    [.sysChdir 0 slash, .sysOpen 0 slashA (MODE_CREATE ||| MODE_WRITE), .sysLink 0 slashA slashB,
      .sysUnlink 0 slashA, .sysMkdir 0 slash, .sysClose 0 0] = some s ∧ RefsCounted s := by
  obtain ⟨s, hs, -⟩ := exists_of_any (P := fun _ => True) (o := run callStep
    (booted (Mkfs.image fun _ => 0))
    [.sysChdir 0 slash, .sysOpen 0 slashA (MODE_CREATE ||| MODE_WRITE), .sysLink 0 slashA slashB,
      .sysUnlink 0 slashA, .sysMkdir 0 slash, .sysClose 0 0]) (by decide +kernel)
  exact ⟨s, hs, icache_refs_counted _ _ s (by decide +kernel) hs⟩

/-- The reference that `path_create_inode` returned to `sys_mkdir` belongs to nothing. -/
theorem mkdir_keeps_reference : ∃ s, run callStep (booted (Mkfs.image fun _ => 0))
    [.sysMkdir 0 slashA] = some s ∧ ¬ RefsCounted s :=
  exists_of_any (by decide +kernel)

theorem wlp_sysClose_last {p : Slot} {i : Fin FILE_PER_PROC} {f : FileId}
    (hx : argFd s p fd = some (i, f)) (hr : (s.core.ftable f).ref = 1) :
    wlp (sysClose p fd) (fun _ s' => (s'.core.ftable f).ref = 0) s := by
  simp only [sysClose, wp_bind, wp_get, hx]
  refine wlp_conseq (wlp_setFd p i none s) fun _ s1 h1 => ?_
  have hr1 : (s1.core.ftable f).ref = 1 := by rw [h1]; exact hr
  refine wlp_conseq (wlp_fileClose f s1) fun _ s2 h2 => ?_
  obtain ⟨-, file, hfile, h2⟩ := h2
  rw [if_pos hr1] at h2
  show (s2.core.ftable f).ref = 0
  rw [h2, Core.dropOpt_ftable, Core.setFile_ftable, upd_same, hfile, hr1]
  rfl

/-- In every run in which `sys_dup` finds a free slot the references of `ftable[]` are those of the
descriptors. So `file_alloc` takes no file that a descriptor points to, and closing the last
descriptor of a file releases it. -/
theorem ftable_refs_counted (dev : σ) (cs : List Call) (s : FsState σ)
    (hok : RunOk callStep (fun s c => dupHasRoom s c = true) (booted dev) cs)
    (hrun : run callStep (booted dev) cs = some s) :
    FilesCounted s ∧
      (∀ f, findFile s = some f → ∀ p fd, (s.procs p).filelist fd ≠ some f) ∧
      ∀ p fd i f s', argFd s p fd = some (i, f) →
        (count fun x : Slot × Fin FILE_PER_PROC => (s.procs x.1).filelist x.2 = some f) = 1 →
        callStep s (.sysClose p fd) = some s' → (s'.ftable f).ref = 0 := by
  have h : FilesCounted s := run_inv (I := FilesCounted)
    (fun _ _ _ hi ho hs => filesCounted_iff.mpr
      (callStep_of_wlp (fdCounted_exec ho (filesCounted_iff.mp hi)) hs))
    cs (filesCounted_booted dev) hok hrun
  refine ⟨h, fun f hf p fd hfd => ?_, fun p fd i f s' hx hone hs => ?_⟩
  · have h0 : (s.ftable f).ref = 0 := by simpa using List.find?_some hf
    have hpos := count_pos (p := fun x : Slot × Fin FILE_PER_PROC =>
      (s.procs x.1).filelist x.2 = some f) (a := (p, fd)) hfd
    rw [← h f, h0] at hpos
    cases hpos
  · exact callStep_of_wlp (P := fun s' => (s'.core.ftable f).ref = 0) (c := .sysClose p fd)
      (wlp_sysClose_last hx (UInt32.toNat_inj.mp ((h f).trans hone))) hs

/-- Two processes open a file, one of them twice, and close it. -/
theorem ftable_refs_counted_two : ∃ s, run callStep (booted (Mkfs.image fun _ => 0))
    [.sysOpen 0 slashA MODE_CREATE, .sysOpen 1 slashA MODE_READ, .sysDup 0 0, .sysDup 0 7,
      .sysClose 0 0, .sysClose 1 0] = some s ∧ FilesCounted s := by
  obtain ⟨s, hs, -⟩ := exists_of_any (P := fun _ => True) (o := run callStep
    (booted (Mkfs.image fun _ => 0))
    [.sysOpen 0 slashA MODE_CREATE, .sysOpen 1 slashA MODE_READ, .sysDup 0 0, .sysDup 0 7,
      .sysClose 0 0, .sysClose 1 0]) (by decide +kernel)
  exact ⟨s, hs, (ftable_refs_counted _ _ s (by decide +kernel) hs).1⟩

/-- With all sixteen slots in use `sys_dup` fails and still takes a reference. -/
theorem dup_keeps_reference : ∃ s, run callStep (booted (Mkfs.image fun _ => 0))
    (.sysOpen 0 slash MODE_READ :: List.replicate 16 (.sysDup 0 0)) = some s ∧ ¬ FilesCounted s :=
  exists_of_any (by decide +kernel)

end Fs
end WhuOS
