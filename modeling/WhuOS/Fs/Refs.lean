import WhuOS.Fs.File

/-!
# WhuOS.Fs.Refs

What the code does to reference counts, locks, `ftable[]` and the processes, whatever is on the
disk and whichever buffer cache it runs over.

`core s` is that part of the state. Most functions keep it; `wlp_inodeAlloc`, `wlp_inodeFree`,
`wlp_inodeLock` and `wlp_inodeUnlock` say how it changes, and the operations on paths are put
together from these: each returns with the locks as they were and one reference more, on the inode
it returns.
-/

namespace WhuOS
namespace Fs

open Lib Sched Kern

variable {σ η α : Type}

structure Core where
  refs : IId → UInt32
  locks : IId → Bool
  ftable : FileId → File
  procs : Slot → FProc

def FsState.core (s : FsState σ) : Core where
  refs := fun k => (s.icache k).ref
  locks := fun k => (s.icache k).slk
  ftable := s.ftable
  procs := s.procs

namespace Core

def setRef (c : Core) (k : IId) (n : UInt32) : Core := { c with refs := upd c.refs k n }

def setLock (c : Core) (k : IId) (b : Bool) : Core := { c with locks := upd c.locks k b }

def take (c : Core) (k : IId) : Core := c.setRef k (c.refs k + 1)

def drop (c : Core) (k : IId) : Core := c.setRef k (c.refs k - 1)

/-- The reference that comes with a result. -/
def takeOpt (c : Core) : Option IId → Core
  | none => c
  | some k => c.take k

@[simp] theorem take_locks (c : Core) (k : IId) : (c.take k).locks = c.locks := rfl
@[simp] theorem drop_locks (c : Core) (k : IId) : (c.drop k).locks = c.locks := rfl
@[simp] theorem take_ftable (c : Core) (k : IId) : (c.take k).ftable = c.ftable := rfl
@[simp] theorem drop_ftable (c : Core) (k : IId) : (c.drop k).ftable = c.ftable := rfl
@[simp] theorem take_procs (c : Core) (k : IId) : (c.take k).procs = c.procs := rfl
@[simp] theorem drop_procs (c : Core) (k : IId) : (c.drop k).procs = c.procs := rfl
@[simp] theorem setLock_refs (c : Core) (k : IId) (b : Bool) : (c.setLock k b).refs = c.refs := rfl

theorem take_refs (c : Core) (k j : IId) :
    (c.take k).refs j = c.refs j + if j = k then 1 else 0 := by
  simp only [take, setRef, upd]
  split
  · rename_i h; rw [h]
  · simp

theorem drop_refs (c : Core) (k j : IId) :
    (c.drop k).refs j = c.refs j - if j = k then 1 else 0 := by
  simp only [drop, setRef, upd]
  split
  · rename_i h; rw [h]
  · simp

variable {c : Core} {k : IId}

theorem ext_refs {c' : Core} (h : ∀ j, c.refs j = c'.refs j) (hl : c.locks = c'.locks)
    (hf : c.ftable = c'.ftable) (hp : c.procs = c'.procs) : c = c' := by
  cases c; cases c'
  simp only at h hl hf hp
  simp [funext h, hl, hf, hp]

@[simp] theorem drop_take (c : Core) (k : IId) : (c.take k).drop k = c := by
  refine ext_refs (fun j => ?_) rfl rfl rfl
  rw [drop_refs, take_refs, UInt32.add_sub_cancel]

theorem take_drop (c : Core) (k : IId) : (c.drop k).take k = c := by
  refine ext_refs (fun j => ?_) rfl rfl rfl
  rw [take_refs, drop_refs, UInt32.sub_add_cancel]

theorem drop_take_comm (c : Core) (i k : IId) : (c.take k).drop i = (c.drop i).take k := by
  refine ext_refs (fun j => ?_) rfl rfl rfl
  rw [drop_refs, take_refs, take_refs, drop_refs]
  grind

@[simp] theorem setLock_setLock (b b' : Bool) :
    (c.setLock k b).setLock k b' = c.setLock k b' := by
  simp [setLock]

theorem setLock_comm {i : IId} (h : i ≠ k) (b b' : Bool) :
    (c.setLock k b).setLock i b' = (c.setLock i b').setLock k b := by
  simp only [setLock]
  congr 1
  funext j
  simp only [upd]
  by_cases hi : j = i
  · rw [if_pos hi, if_pos hi, if_neg (by rw [hi]; exact h)]
  · rw [if_neg hi, if_neg hi]

theorem setLock_self {b : Bool} (h : c.locks k = b) : c.setLock k b = c := by
  subst h; simp [setLock]

@[simp] theorem setLock_drop (c : Core) (i k : IId) (b : Bool) :
    (c.setLock i b).drop k = (c.drop k).setLock i b := rfl

end Core

/-! ## What keeps the core -/

theorem keeps_onDev (x : Kern σ α) : Keeps FsState.core (onDev x) := by
  intro s
  unfold wlp wp onDev
  cases x s.dev with
  | ok a d => rfl
  | error e d => trivial

theorem keeps_getIp (ip : IId) : Keeps (FsState.core (σ := σ)) (getIp ip) := fun _ => rfl

theorem keeps_modIp (ip : IId) {f : Inode → Inode}
    (h : ∀ n, (f n).ref = n.ref ∧ (f n).slk = n.slk) :
    Keeps (FsState.core (σ := σ)) (modIp ip f) := by
  intro s
  show FsState.core _ = FsState.core s
  simp only [FsState.core]
  congr 1
  · funext k
    simp only [upd]
    split
    · rename_i e; rw [e, (h _).1]
    · rfl
  · funext k
    simp only [upd]
    split
    · rename_i e; rw [e, (h _).2]
    · rfl

variable [BufLayer σ η]

theorem keeps_bufRead (b : Nat) : Keeps (FsState.core (σ := σ)) (bufRead b) := keeps_onDev _

theorem keeps_bufData (buf : η) : Keeps (FsState.core (σ := σ)) (bufData buf) := fun _ => rfl

theorem keeps_bufSet (buf : η) (d : Block) : Keeps (FsState.core (σ := σ)) (bufSet buf d) :=
  fun _ => rfl

theorem keeps_bufWrite (buf : η) : Keeps (FsState.core (σ := σ)) (bufWrite buf) := keeps_onDev _

theorem keeps_bufRelease (buf : η) : Keeps (FsState.core (σ := σ)) (bufRelease buf) := keeps_onDev _

theorem keeps_bitmapSearchAndSet (b : Nat) :
    Keeps (FsState.core (σ := σ)) (bitmapSearchAndSet b) := by
  refine .bind (keeps_bufRead b) fun buf => .bind (keeps_bufData buf) fun d => ?_
  cases d.searchAndSet with
  | some r =>
    exact .bind (keeps_bufSet buf _) fun _ => .bind (keeps_bufWrite buf) fun _ =>
      .bind (keeps_bufRelease buf) fun _ => .pure r.1
  | none => exact .bind (keeps_bufRelease buf) fun _ => .panic _

theorem keeps_bitmapUnset (b num : Nat) : Keeps (FsState.core (σ := σ)) (bitmapUnset b num) := by
  refine .bind (keeps_bufRead b) fun buf => .bind (keeps_bufData buf) fun d => ?_
  refine .ite (.bind (.throw _) fun _ => ?_) ?_
  all_goals
    cases d.unset num with
    | none => exact .panic _
    | some d =>
      exact .bind (keeps_bufSet buf d) fun _ => .bind (keeps_bufWrite buf) fun _ =>
        keeps_bufRelease buf

theorem keeps_bitmapAllocBlock : Keeps (FsState.core (σ := σ)) bitmapAllocBlock :=
  .bind (keeps_bitmapSearchAndSet _) fun _ => .pure _

theorem keeps_bitmapAllocInode : Keeps (FsState.core (σ := σ)) bitmapAllocInode :=
  .bind (keeps_bitmapSearchAndSet _) fun _ => .pure _

theorem keeps_inodeRw (ip : IId) (write : Bool) :
    Keeps (FsState.core (σ := σ)) (inodeRw ip write) := by
  refine .bind (keeps_getIp ip) fun n => .bind (.assert _ _) fun _ => .bind (keeps_bufRead _) fun buf =>
    .bind (keeps_bufData buf) fun d => .ite ?_ ?_
  · exact .bind (keeps_bufSet buf _) fun _ => .bind (keeps_bufWrite buf) fun _ => keeps_bufRelease buf
  · exact .bind (keeps_modIp ip (by simp)) fun _ => keeps_bufRelease buf

theorem keeps_readEntry (e : EntryRef η) : Keeps (FsState.core (σ := σ)) (readEntry e) := by
  cases e with
  | addr ip k => exact .bind (keeps_getIp ip) fun _ => .pure _
  | slot buf i => exact .bind (keeps_bufData buf) fun _ => .pure _

theorem keeps_writeEntry (e : EntryRef η) (v : UInt32) :
    Keeps (FsState.core (σ := σ)) (writeEntry e v) := by
  cases e with
  | addr ip k =>
    simp only [writeEntry]
    exact keeps_modIp ip (by simp)
  | slot buf i => exact .bind (keeps_bufData buf) fun _ => keeps_bufSet buf _

theorem keeps_allocEntry (e : EntryRef η) : Keeps (FsState.core (σ := σ)) (allocEntry e) :=
  .bind (keeps_readEntry e) fun _ =>
    .ite (.bind keeps_bitmapAllocBlock fun v => keeps_writeEntry e v) (.pure _)

theorem keeps_locateBlock : ∀ (level : Nat) (e : EntryRef η) (bn : Nat),
    Keeps (FsState.core (σ := σ)) (locateBlock level e bn) := by
  intro level
  induction level with
  | zero =>
    intro e bn
    exact .bind (keeps_allocEntry e) fun _ => keeps_readEntry e
  | succ level ih =>
    intro e bn
    exact .bind (keeps_allocEntry e) fun _ => .bind (keeps_readEntry e) fun v =>
      .bind (keeps_bufRead _) fun buf => .bind (ih _ _) fun _ =>
        .bind (keeps_bufRelease buf) fun _ => .pure _

theorem keeps_inodeLocateBlock (ip : IId) (bn : Nat) :
    Keeps (FsState.core (σ := σ)) (inodeLocateBlock ip bn) := by
  unfold inodeLocateBlock
  split
  · exact keeps_locateBlock _ _ _
  · simp only []
    split
    · exact keeps_locateBlock _ _ _
    · split
      · exact keeps_locateBlock _ _ _
      · exact .panic _

theorem keeps_readLoop (ip : IId) (len : UInt32) : ∀ (fuel : Nat) (offset total : UInt32)
    (acc : List UInt8), Keeps (FsState.core (σ := σ)) (readLoop ip len fuel offset total acc) := by
  intro fuel
  induction fuel with
  | zero => intro offset total acc; exact .pure _
  | succ fuel ih =>
    intro offset total acc
    exact .ite (.bind (keeps_inodeLocateBlock ip _) fun _ => .bind (keeps_bufRead _) fun buf =>
      .bind (keeps_bufData buf) fun _ => .bind (keeps_bufRelease buf) fun _ => ih _ _ _) (.pure _)

theorem keeps_inodeReadData (ip : IId) (offset len : UInt32) :
    Keeps (FsState.core (σ := σ)) (inodeReadData ip offset len) :=
  .bind (keeps_getIp ip) fun _ => .bind (.assert _ _) fun _ =>
    .ite (.pure _) (keeps_readLoop ip _ _ _ _ _)

theorem keeps_writeLoop (ip : IId) (len : UInt32) (src : Nat → UInt8) :
    ∀ (fuel : Nat) (offset total : UInt32),
      Keeps (FsState.core (σ := σ)) (writeLoop ip len src fuel offset total) := by
  intro fuel
  induction fuel with
  | zero => intro offset total; exact .pure _
  | succ fuel ih =>
    intro offset total
    exact .ite (.bind (keeps_inodeLocateBlock ip _) fun _ => .bind (keeps_bufRead _) fun buf =>
      .bind (keeps_bufData buf) fun _ => .bind (keeps_bufSet buf _) fun _ =>
      .bind (keeps_bufWrite buf) fun _ => .bind (keeps_bufRelease buf) fun _ => ih _ _) (.pure _)

theorem keeps_inodeWriteData (ip : IId) (offset len : UInt32) (src : Nat → UInt8) :
    Keeps (FsState.core (σ := σ)) (inodeWriteData ip offset len src) := by
  refine .bind (keeps_getIp ip) fun _ => .bind (.assert _ _) fun _ => .ite (.pure _)
    (.ite (.pure _) (.bind (keeps_writeLoop ip _ _ _ _ _) fun r => .bind (keeps_getIp ip) fun n => ?_))
  exact .ite (.bind (keeps_modIp ip (by simp)) fun _ =>
    .bind (keeps_inodeRw ip true) fun _ => .pure _) (.bind (keeps_inodeRw ip true) fun _ => .pure _)

theorem keeps_bitmapFreeBlock (b : UInt32) : Keeps (FsState.core (σ := σ)) (bitmapFreeBlock b) :=
  keeps_bitmapUnset _ _

theorem keeps_freeEntries {free : UInt32 → FsM σ Unit} (hfree : ∀ b, Keeps FsState.core (free b))
    (buf : η) : ∀ (k i : Nat), Keeps (FsState.core (σ := σ)) (freeEntries free buf i k) := by
  intro k
  induction k with
  | zero => intro i; exact .pure _
  | succ k ih =>
    intro i
    exact .bind (keeps_bufData buf) fun _ => .ite (.pure _) (.bind (hfree _) fun _ => ih _)

theorem keeps_dataFree : ∀ (level : Nat) (b : UInt32),
    Keeps (FsState.core (σ := σ)) (dataFree level b) := by
  intro level
  induction level with
  | zero => intro b; exact .bind (.assert _ _) fun _ => keeps_bitmapFreeBlock b
  | succ level ih =>
    intro b
    exact .bind (.assert _ _) fun _ => .bind (keeps_bufRead _) fun buf =>
      .bind (keeps_freeEntries ih buf _ _) fun _ => .bind (keeps_bufRelease buf) fun _ =>
        keeps_bitmapFreeBlock b

theorem keeps_freeAddrs (ip : IId) (level : Nat) : ∀ ks : List (Fin N_ADDRS),
    Keeps (FsState.core (σ := σ)) (freeAddrs ip level ks) := by
  intro ks
  induction ks with
  | nil => exact .pure _
  | cons k ks ih =>
    exact .bind (keeps_getIp ip) fun _ => .ite (.bind (keeps_dataFree level _) fun _ =>
      .bind (keeps_modIp ip (by simp)) fun _ => ih) ih

theorem keeps_inodeFreeData (ip : IId) : Keeps (FsState.core (σ := σ)) (inodeFreeData ip) :=
  .bind (keeps_getIp ip) fun _ => .bind (.assert _ _) fun _ => .bind (keeps_freeAddrs ip _ _) fun _ =>
    .bind (keeps_freeAddrs ip _ _) fun _ => .bind (keeps_freeAddrs ip _ _) fun _ =>
      .bind (keeps_modIp ip (by simp)) fun _ => keeps_inodeRw ip true

theorem keeps_dirSearchEntry (pip : IId) (name : CharPtr) :
    Keeps (FsState.core (σ := σ)) (dirSearchEntry pip name) := by
  refine .bind (keeps_getIp pip) fun _ => .bind (.assert _ _) fun _ => .bind (.assert _ _) fun _ =>
    .bind (keeps_bufRead _) fun buf => .bind (keeps_bufData buf) fun d =>
      .bind (keeps_bufRelease buf) fun _ => ?_
  cases findEntry fun k => d.matchesName k name with
  | some k => exact .pure _
  | none => exact .pure _

theorem keeps_dirAddEntry (pip : IId) (inum : UInt16) (name : CharPtr) :
    Keeps (FsState.core (σ := σ)) (dirAddEntry pip inum name) := by
  refine .bind (keeps_getIp pip) fun n => .bind (.assert _ _) fun _ => .bind (.assert _ _) fun _ =>
    .bind (keeps_dirSearchEntry pip name) fun _ => .ite (.pure _) (.bind (keeps_bufRead _) fun buf =>
      .bind (keeps_bufData buf) fun d => ?_)
  cases findEntry fun k => d.entByte k 0 == 0 || d.entInum k == INODE_NUM_UNUSED with
  | some k =>
    refine .bind (keeps_bufSet buf _) fun _ => .bind (keeps_bufWrite buf) fun _ =>
      .bind (keeps_bufRelease buf) fun _ => .ite ?_ (.pure _)
    exact .bind (keeps_modIp pip (by simp)) fun _ =>
      .bind (keeps_inodeRw pip true) fun _ => .pure _
  | none => exact .bind (keeps_bufRelease buf) fun _ => .pure _

theorem keeps_dirDeleteEntry (pip : IId) (name : CharPtr) :
    Keeps (FsState.core (σ := σ)) (dirDeleteEntry pip name) := by
  refine .bind (keeps_getIp pip) fun _ => .bind (.assert _ _) fun _ => .bind (.assert _ _) fun _ =>
    .bind (keeps_bufRead _) fun buf => .bind (keeps_bufData buf) fun d => ?_
  cases findEntry fun k => d.matchesName k name with
  | some k =>
    exact .bind (keeps_bufSet buf _) fun _ => .bind (keeps_bufWrite buf) fun _ =>
      .bind (keeps_bufRelease buf) fun _ => .pure _
  | none => exact .bind (keeps_bufRelease buf) fun _ => .pure _

theorem keeps_checkUnlink (ip : IId) : Keeps (FsState.core (σ := σ)) (checkUnlink ip) :=
  .bind (keeps_getIp ip) fun _ => .bind (.assert _ _) fun _ =>
    .bind (.bind (keeps_getIp ip) fun _ => .bind (.assert _ _) fun _ => .bind (.assert _ _) fun _ =>
      .bind (keeps_bufRead _) fun buf => .bind (keeps_bufData buf) fun _ =>
        .bind (keeps_bufRelease buf) fun _ => .pure _) fun _ =>
    .ite (.pure _) (.ite (.pure _) (.panic _))

/-! ## Locks and references -/

variable {s : FsState σ} {c : Core} {ip pip : IId}

theorem wlp_modIp {Q : Unit → FsState σ → Prop} (ip : IId) (f : Inode → Inode) :
    wlp (modIp ip f) Q s ↔ Q () { s with icache := upd s.icache ip (f (s.icache ip)) } := Iff.rfl

theorem core_setLock (s : FsState σ) (ip : IId) (b : Bool) :
    FsState.core { s with icache := upd s.icache ip { s.icache ip with slk := b } } =
      s.core.setLock ip b := by
  simp only [FsState.core, Core.setLock]
  congr 1
  · funext k; simp only [upd]; split
    · rename_i e; rw [e]
    · rfl
  · funext k; simp only [upd]; split <;> rfl

theorem core_setRef (s : FsState σ) (ip : IId) {n : Inode} (hl : n.slk = (s.icache ip).slk) :
    FsState.core { s with icache := upd s.icache ip n } = s.core.setRef ip n.ref := by
  simp only [FsState.core, Core.setRef]
  congr 1
  · funext k; simp only [upd]; split <;> rfl
  · funext k; simp only [upd]; split
    · rename_i e; rw [e, hl]
    · rfl

theorem wlp_slkAcquire (ip : IId) (s : FsState σ) :
    wlp (slkAcquire ip) (fun _ s' => s.core.locks ip = false ∧ s'.core = s.core.setLock ip true) s := by
  simp only [slkAcquire, wp_bind]
  show wlp (if (s.icache ip).slk then _ else _) _ s
  cases h : (s.icache ip).slk with
  | true => trivial
  | false => exact ⟨h, core_setLock s ip true⟩

theorem wlp_slkRelease (ip : IId) (s : FsState σ) :
    wlp (slkRelease ip) (fun _ s' => s'.core = s.core.setLock ip false) s := core_setLock s ip false

theorem wlp_inodeLock (ip : IId) (s : FsState σ) :
    wlp (inodeLock ip) (fun _ s' => s.core.locks ip = false ∧ s'.core = s.core.setLock ip true) s := by
  have hrest : Keeps (FsState.core (σ := σ)) (do
      if !(← getIp ip).valid then
        inodeRw ip false
        modIp ip fun n => { n with valid := true }) :=
    .bind (keeps_getIp ip) fun _ => .ite (.bind (keeps_inodeRw ip false) fun _ =>
      keeps_modIp ip (by simp)) (.pure _)
  refine wlp_bind (keeps_getIp ip s) fun n s1 h1 => wlp_bind (Keeps.assert (f := FsState.core) _ _ s1) fun _ s2 h2 =>
    wlp_bind (wlp_slkAcquire ip s2) fun _ s3 h3 => wlp_conseq (hrest s3) fun _ s4 h4 => ?_
  rw [h2, h1] at h3
  exact ⟨h3.1, h4.trans h3.2⟩

theorem wlp_inodeUnlock (ip : IId) (s : FsState σ) :
    wlp (inodeUnlock ip) (fun _ s' => s'.core = s.core.setLock ip false) s := by
  refine wlp_bind (keeps_getIp ip s) fun n s1 h1 => wlp_bind (Keeps.assert (f := FsState.core) _ _ s1) fun _ s2 h2 =>
    wlp_conseq (wlp_slkRelease ip s2) fun _ s3 h3 => ?_
  rw [h3, h2, h1]

theorem wlp_inodeAlloc (inum : UInt16) (s : FsState σ) :
    wlp (inodeAlloc inum) (fun k s' => s'.core = s.core.take k) s := by
  simp only [inodeAlloc, wp_bind, wp_get]
  cases findCached s inum with
  | some i => exact core_setRef s i rfl
  | none =>
    cases he : findEmpty s with
    | some i =>
      have hr : s.core.refs i = 0 := by simpa [FsState.core] using List.find?_some he
      simp only [wp_bind, wlp_modIp, wp_pure, Core.take, hr]
      exact core_setRef s i rfl
    | none => trivial

theorem wlp_inodeDup (ip : IId) (s : FsState σ) :
    wlp (inodeDup ip) (fun k s' => k = ip ∧ s'.core = s.core.take ip) s :=
  ⟨rfl, core_setRef s ip rfl⟩

theorem keeps_inodeDestroy (ip : IId) : Keeps (FsState.core (σ := σ)) (inodeDestroy ip) := by
  intro s
  refine wlp_bind (wlp_slkAcquire ip s) fun _ s1 h1 => ?_
  refine wlp_bind (keeps_inodeFreeData ip s1) fun _ s2 h2 => ?_
  refine wlp_bind (keeps_modIp ip (by simp) s2) fun _ s3 h3 => ?_
  refine wlp_bind (keeps_inodeRw ip true s3) fun _ s4 h4 => ?_
  refine wlp_bind (keeps_getIp ip s4) fun n s5 h5 => ?_
  refine wlp_bind (keeps_bitmapUnset _ _ s5) fun _ s6 h6 => ?_
  refine wlp_bind (wlp_slkRelease ip s6) fun _ s7 h7 => ?_
  refine wlp_conseq (keeps_modIp ip (by simp) s7) fun _ s8 h8 => ?_
  rw [h8, h7, h6, h5, h4, h3, h2, h1.2, Core.setLock_setLock, Core.setLock_self h1.1]

theorem wlp_inodeFree (ip : IId) (s : FsState σ) :
    wlp (inodeFree ip) (fun _ s' => s'.core = s.core.drop ip) s := by
  have hlast : ∀ s1 : FsState σ, s1.core = s.core →
      wlp (modIp ip fun n => { n with ref := n.ref - 1 }) (fun _ s' => s'.core = s.core.drop ip) s1 :=
    fun s1 h1 => by
      rw [← h1]; exact core_setRef s1 ip rfl
  refine wlp_bind (keeps_getIp ip s) fun n s1 h1 => ?_
  split
  · refine wlp_bind (keeps_inodeDestroy ip s1) fun _ s2 h2 => hlast s2 (h2.trans h1)
  · exact hlast s1 h1

theorem wlp_inodeUnlockFree (ip : IId) (s : FsState σ) :
    wlp (inodeUnlockFree ip) (fun _ s' => s'.core = (s.core.setLock ip false).drop ip) s :=
  wlp_bind (wlp_inodeUnlock ip s) fun _ s1 h1 =>
    wlp_conseq (wlp_inodeFree ip s1) fun _ s2 h2 => by rw [h2, h1]

theorem wlp_inodeCreate (type major minor : UInt16) (s : FsState σ) :
    wlp (inodeCreate type major minor) (fun k s' => s'.core = s.core.take k) s := by
  refine wlp_bind (keeps_bitmapAllocInode s) fun inum s1 h1 => ?_
  refine wlp_bind (wlp_inodeAlloc inum s1) fun k s2 h2 => ?_
  refine wlp_bind (wlp_inodeLock k s2) fun _ s3 h3 => ?_
  refine wlp_bind (keeps_modIp k (by simp) s3) fun _ s4 h4 => ?_
  refine wlp_bind (keeps_inodeRw k true s4) fun _ s5 h5 => ?_
  have hend : ∀ s6 : FsState σ, s6.core = s3.core → wlp (do inodeUnlock k; return k : FsM σ IId)
      (fun k s' => s'.core = s.core.take k) s6 := fun s6 h6 => by
    refine wlp_bind (wlp_inodeUnlock k s6) fun _ s7 h7 => ?_
    show s7.core = _
    rw [h7, h6, h3.2, Core.setLock_setLock, Core.setLock_self h3.1, h2, h1]
  have h53 : s5.core = s3.core := h5.trans h4
  split
  · refine wlp_bind (keeps_bitmapAllocBlock s5) fun b s6 h6 => ?_
    refine wlp_bind (keeps_modIp k (by simp) s6) fun _ s7 h7 => ?_
    refine wlp_bind (keeps_inodeRw k true s7) fun _ s8 h8 => ?_
    exact hend s8 (by rw [h8, h7, h6, h53])
  · exact hend s5 h53

theorem wlp_unlockFree (hl : c.locks ip = false)
    (h : s.core = c.setLock ip true) :
    wlp (inodeUnlockFree ip) (fun _ s' => s'.core = c.drop ip) s := by
  refine wlp_conseq (wlp_inodeUnlockFree ip s) fun _ s' h' => ?_
  rw [h', h, Core.setLock_setLock, Core.setLock_self hl]

theorem wlp_unlock (hl : c.locks ip = false)
    (h : s.core = c.setLock ip true) : wlp (inodeUnlock ip) (fun _ s' => s'.core = c) s := by
  refine wlp_conseq (wlp_inodeUnlock ip s) fun _ s' h' => ?_
  rw [h', h, Core.setLock_setLock, Core.setLock_self hl]

/-! ## Paths -/

/-- The walk gives up the reference it starts with for one on the inode it finds; a walk to the
parent ends with a name. -/
theorem wlp_searchLoop (findParent : Bool) : ∀ (fuel : Nat) (ip : IId) (name : Option Name)
    (path : List UInt8) (s : FsState σ),
    wlp (searchLoop findParent fuel ip name path)
      (fun r s' => s'.core = (s.core.drop ip).takeOpt (r.map (·.1)) ∧
        (findParent = true → ∀ k, r ≠ some (k, none))) s := by
  intro fuel
  induction fuel with
  | zero => intro ip name path s; trivial
  | succ fuel ih =>
    intro ip name path s
    unfold searchLoop
    cases skipElement path with
    | none =>
      cases findParent with
      | true => exact wlp_bind (wlp_inodeFree ip s) fun _ s1 h1 => ⟨h1, fun _ _ h => nomatch h⟩
      | false => exact ⟨(Core.take_drop _ _).symm, fun h => nomatch h⟩
    | some e =>
      obtain ⟨name', path'⟩ := e
      refine wlp_bind (wlp_inodeLock ip s) fun _ s1 h1 => ?_
      refine wlp_bind (keeps_getIp ip s1) fun n s2 h2 => ?_
      have hs2 : s2.core = s.core.setLock ip true := h2.trans h1.2
      split
      · exact wlp_bind (wlp_unlockFree h1.1 hs2) fun _ s3 h3 => ⟨h3, fun _ _ h => nomatch h⟩
      split
      · refine wlp_bind (wlp_unlock h1.1 hs2) fun _ s3 h3 => ⟨?_, fun _ _ h => nomatch h⟩
        exact h3.trans (Core.take_drop _ _).symm
      refine wlp_bind (keeps_dirSearchEntry ip name'.byte s2) fun inum s3 h3 => ?_
      have hs3 : s3.core = s.core.setLock ip true := h3.trans hs2
      split
      · exact wlp_bind (wlp_unlockFree h1.1 hs3) fun _ s4 h4 => ⟨h4, fun _ _ h => nomatch h⟩
      refine wlp_bind (wlp_inodeAlloc inum s3) fun next s4 h4 => ?_
      have hs4 : s4.core = (s.core.take next).setLock ip true := by rw [h4, hs3]; rfl
      refine wlp_bind (wlp_unlockFree (c := s.core.take next) h1.1 hs4) fun _ s5 h5 => ?_
      -- the reference on `next` is the one the rest of the walk starts with
      rw [Core.drop_take_comm] at h5
      refine wlp_conseq (ih next (some name') path' s5) fun r s6 h6 => ?_
      rw [h5, Core.drop_take] at h6
      exact h6

theorem wlp_searchInode (p : Slot) (path : List UInt8) (findParent : Bool) (s : FsState σ) :
    wlp (searchInode p path findParent)
      (fun r s' => s'.core = s.core.takeOpt (r.map (·.1)) ∧
        (findParent = true → ∀ k, r ≠ some (k, none))) s := by
  have hstart : ∀ ip (s1 : FsState σ), s1.core = s.core.take ip →
      wlp (searchLoop findParent (path.length + 1) ip none path)
        (fun r s' => s'.core = s.core.takeOpt (r.map (·.1)) ∧
          (findParent = true → ∀ k, r ≠ some (k, none))) s1 := fun ip s1 h1 => by
    have := wlp_searchLoop findParent (path.length + 1) ip none path s1
    rwa [h1, Core.drop_take] at this
  simp only [searchInode, wp_bind, wp_get]
  split
  · exact wlp_bind (wlp_inodeDup _ s) fun ip s1 h1 => hstart ip s1 (by rw [h1.2, h1.1])
  · exact wlp_bind (wlp_inodeAlloc _ s) fun ip s1 h1 => hstart ip s1 h1

theorem wlp_pathToInode (p : Slot) (path : List UInt8) (s : FsState σ) :
    wlp (pathToInode p path) (fun r s' => s'.core = s.core.takeOpt r) s :=
  wlp_bind (wlp_searchInode p path false s) fun _ _ h => h.1

theorem wlp_pathToPinode (p : Slot) (path : List UInt8) (s : FsState σ) :
    wlp (pathToPinode p path) (fun r s' => s'.core = s.core.takeOpt (r.map (·.1))) s := by
  refine wlp_bind (wlp_searchInode p path true s) fun r s1 h1 => ?_
  match r, h1 with
  | none, h1 => exact h1.1
  | some (k, none), h1 => exact absurd rfl (h1.2 rfl k)
  | some (k, some name), h1 => exact h1.1

theorem wlp_createExisting {inum type : UInt16} (hl : c.locks pip = false)
    (h : s.core = (c.take pip).setLock pip true) :
    wlp (createExisting pip inum type) (fun r s' => s'.core = c.takeOpt r) s := by
  refine wlp_bind (wlp_unlockFree (c := c.take pip) hl h) fun _ s1 h1 => ?_
  rw [Core.drop_take] at h1
  refine wlp_bind (wlp_inodeAlloc inum s1) fun ip s2 h2 => ?_
  rw [h1] at h2
  refine wlp_bind (wlp_inodeLock ip s2) fun _ s3 h3 => ?_
  rw [h2] at h3
  refine wlp_bind (keeps_getIp ip s3) fun n s4 h4 => ?_
  have hs4 := h4.trans h3.2
  split
  · exact wlp_bind (wlp_unlockFree h3.1 hs4) fun _ s5 h5 => h5.trans (Core.drop_take _ _)
  · exact wlp_bind (wlp_unlock h3.1 hs4) fun _ s5 h5 => h5

theorem keeps_addDots (pip ip : IId) : Keeps (FsState.core (σ := σ)) (addDots pip ip) := by
  intro s
  refine wlp_bind (wlp_inodeLock ip s) fun _ s1 h1 => ?_
  refine wlp_bind (keeps_getIp ip s1) fun n s2 h2 => ?_
  refine wlp_bind (keeps_dirAddEntry ip _ _ s2) fun _ s3 h3 => ?_
  refine wlp_bind (keeps_getIp pip s3) fun n s4 h4 => ?_
  refine wlp_bind (keeps_dirAddEntry ip _ _ s4) fun _ s5 h5 => ?_
  have hs5 : s5.core = s1.core := by rw [h5, h4, h3, h2]
  refine wlp_bind (wlp_unlock h1.1 (hs5.trans h1.2)) fun _ s6 h6 => ?_
  refine wlp_bind (keeps_modIp pip (by simp) s6) fun _ s7 h7 => ?_
  exact wlp_conseq (keeps_inodeRw pip true s7) fun _ s8 h8 => by rw [h8, h7, h6]

theorem wlp_createNew {name : Name} {type major minor : UInt16}
    (hl : c.locks pip = false) (h : s.core = (c.take pip).setLock pip true) :
    wlp (createNew pip name type major minor) (fun r s' => s'.core = c.takeOpt r) s := by
  refine wlp_bind (wlp_inodeCreate type major minor s) fun ip s1 h1 => ?_
  rw [h] at h1
  refine wlp_bind (keeps_getIp ip s1) fun n s2 h2 => ?_
  refine wlp_bind (keeps_dirAddEntry pip n.inodeNum name.byte s2) fun off s3 h3 => ?_
  have hs3 : s3.core = ((c.take pip).take ip).setLock pip true := by rw [h3, h2, h1]; rfl
  have hlast : ∀ s4 : FsState σ, s4.core = ((c.take pip).take ip).setLock pip true →
      wlp (do inodeUnlockFree pip; return some ip : FsM σ (Option IId))
        (fun r s' => s'.core = c.takeOpt r) s4 := fun s4 h4 => by
    refine wlp_bind (wlp_unlockFree (c := (c.take pip).take ip) hl h4) fun _ s5 h5 => ?_
    show s5.core = c.take ip
    rw [h5, Core.drop_take_comm, Core.drop_take]
  split
  · -- no room: the new inode is given back
    refine wlp_bind (wlp_inodeLock ip s3) fun _ s4 h4 => ?_
    rw [hs3] at h4
    refine wlp_bind (keeps_modIp ip (by simp) s4) fun _ s5 h5 => ?_
    refine wlp_bind (wlp_unlockFree h4.1 (h5.trans h4.2)) fun _ s6 h6 => ?_
    rw [Core.setLock_drop, Core.drop_take] at h6
    exact wlp_bind (wlp_unlockFree (c := c.take pip) hl h6) fun _ s7 h7 => h7.trans (Core.drop_take _ _)
  split
  · exact wlp_bind (keeps_addDots pip ip s3) fun _ s4 h4 => hlast s4 (h4.trans hs3)
  · exact hlast s3 hs3

theorem wlp_pathCreateInode (p : Slot) (path : List UInt8) (type major minor : UInt16)
    (s : FsState σ) :
    wlp (pathCreateInode p path type major minor) (fun r s' => s'.core = s.core.takeOpt r) s := by
  refine wlp_bind (wlp_pathToPinode p path s) fun r s1 h1 => ?_
  match r, h1 with
  | none, h1 => exact h1
  | some (pip, name), h1 =>
    simp only [Option.map_some, Core.takeOpt] at h1
    refine wlp_bind (wlp_inodeLock pip s1) fun _ s2 h2 => ?_
    rw [h1] at h2
    refine wlp_bind (keeps_dirSearchEntry pip name.byte s2) fun inum s3 h3 => ?_
    have hs3 : s3.core = (s.core.take pip).setLock pip true := h3.trans h2.2
    split
    · exact wlp_createExisting (c := s.core) h2.1 hs3
    · exact wlp_createNew (c := s.core) h2.1 hs3

theorem keeps_pathLink (p : Slot) (oldPath newPath : List UInt8) :
    Keeps (FsState.core (σ := σ)) (pathLink p oldPath newPath) := by
  intro s
  refine wlp_bind (wlp_pathToInode p oldPath s) fun r s1 h1 => ?_
  cases r with
  | none => exact h1
  | some ip =>
    refine wlp_bind (wlp_inodeLock ip s1) fun _ s2 h2 => ?_
    rw [h1] at h2
    refine wlp_bind (keeps_getIp ip s2) fun n s3 h3 => ?_
    have hs3 := h3.trans h2.2
    -- the end of every path: the source is unlocked and its reference dropped
    have hlast : ∀ (b : Bool) (s7 : FsState σ), s7.core = (s.core.take ip).setLock ip true →
        wlp (do inodeUnlockFree ip; return b : FsM σ Bool) (fun _ s' => s'.core = s.core) s7 :=
      fun b s7 h7 => wlp_bind (wlp_unlockFree h2.1 h7) fun _ s8 h8 => h8.trans (Core.drop_take _ _)
    split
    · exact hlast _ s3 hs3
    refine wlp_bind (wlp_pathToPinode p newPath s3) fun r s4 h4 => ?_
    match r, h4 with
    | none, h4 => exact hlast _ s4 (h4.trans hs3)
    | some (pip, name), h4 =>
      simp only [Option.map_some, Core.takeOpt] at h4
      rw [hs3] at h4
      refine wlp_bind (wlp_inodeLock pip s4) fun _ s5 h5 => ?_
      rw [h4] at h5
      refine wlp_bind (keeps_getIp ip s5) fun n s6 h6 => ?_
      refine wlp_bind (keeps_dirAddEntry pip _ name.byte s6) fun off s7 h7 => ?_
      have hs7 := (h7.trans h6).trans h5.2
      have hpip : ∀ s8 : FsState σ, s8.core = s7.core → wlp (inodeUnlockFree pip)
          (fun _ s' => s'.core = (s.core.take ip).setLock ip true) s8 := fun s8 h8 =>
        wlp_conseq (wlp_unlockFree h5.1 (h8.trans hs7)) fun _ s9 h9 => h9.trans (Core.drop_take _ _)
      split
      · exact wlp_bind (hpip s7 rfl) fun _ s8 h8 => hlast _ s8 h8
      · refine wlp_bind (keeps_modIp ip (by simp) s7) fun _ s8 h8 => ?_
        refine wlp_bind (keeps_inodeRw ip true s8) fun _ s9 h9 => ?_
        exact wlp_bind (hpip s9 (h9.trans h8)) fun _ s10 h10 => hlast _ s10 h10

theorem wlp_removeEntry {name : Name} (hp : c.locks pip = false)
    (hi : c.locks ip = false) (hne : ip ≠ pip)
    (h : s.core = (((c.take pip).take ip).setLock pip true).setLock ip true) :
    wlp (removeEntry pip ip name) (fun _ s' => s'.core = c) s := by
  have hrest : ∀ s3 : FsState σ, s3.core = s.core → wlp (do
      inodeUnlockFree pip
      modIp ip fun n => { n with d := { n.d with nlink := n.d.nlink - 1 } }
      inodeRw ip true
      inodeUnlockFree ip : FsM σ Unit) (fun _ s' => s'.core = c) s3 := fun s3 h3 => by
    rw [h, Core.setLock_comm hne] at h3
    have hp' : (((c.take pip).take ip).setLock ip true).locks pip = false := by
      simpa [Core.setLock, upd, Ne.symm hne] using hp
    refine wlp_bind (wlp_unlockFree hp' h3) fun _ s4 h4 => ?_
    rw [Core.setLock_drop, Core.drop_take_comm, Core.drop_take] at h4
    refine wlp_bind (keeps_modIp ip (by simp) s4) fun _ s5 h5 => ?_
    refine wlp_bind (keeps_inodeRw ip true s5) fun _ s6 h6 => ?_
    refine wlp_conseq (wlp_unlockFree (c := c.take ip) hi (by rw [h6, h5, h4])) fun _ s7 h7 => ?_
    rw [h7, Core.drop_take]
  refine wlp_bind (keeps_dirDeleteEntry pip name.byte s) fun _ s1 h1 => ?_
  refine wlp_bind (keeps_getIp ip s1) fun n s2 h2 => ?_
  have hs2 := h2.trans h1
  split
  · refine wlp_bind (keeps_modIp pip (by simp) s2) fun _ s3 h3 => ?_
    refine wlp_bind (keeps_inodeRw pip true s3) fun _ s4 h4 => ?_
    exact hrest s4 (by rw [h4, h3, hs2])
  · exact hrest s2 hs2

theorem keeps_pathUnlink (p : Slot) (path : List UInt8) :
    Keeps (FsState.core (σ := σ)) (pathUnlink p path) := by
  intro s
  refine wlp_bind (wlp_pathToPinode p path s) fun r s1 h1 => ?_
  match r, h1 with
  | none, h1 => exact h1
  | some (pip, name), h1 =>
    simp only [Option.map_some, Core.takeOpt] at h1
    refine wlp_bind (wlp_inodeLock pip s1) fun _ s2 h2 => ?_
    rw [h1] at h2
    have hpip : ∀ (b : Bool) (s7 : FsState σ), s7.core = (s.core.take pip).setLock pip true →
        wlp (do inodeUnlockFree pip; return b : FsM σ Bool) (fun _ s' => s'.core = s.core) s7 :=
      fun b s7 h7 => wlp_bind (wlp_unlockFree h2.1 h7) fun _ s8 h8 => h8.trans (Core.drop_take _ _)
    split
    · exact hpip _ s2 h2.2
    refine wlp_bind (keeps_dirSearchEntry pip name.byte s2) fun inum s3 h3 => ?_
    have hs3 := h3.trans h2.2
    split
    · exact hpip _ s3 hs3
    refine wlp_bind (wlp_inodeAlloc inum s3) fun ip s4 h4 => ?_
    rw [hs3] at h4
    refine wlp_bind (wlp_inodeLock ip s4) fun _ s5 h5 => ?_
    rw [h4] at h5
    have hne : ip ≠ pip := fun e => by simp [e, Core.setLock, upd] at h5
    have hi : s.core.locks ip = false := by simpa [Core.setLock, upd, hne] using h5.1
    refine wlp_bind (keeps_getIp ip s5) fun n s6 h6 => ?_
    have hs6 := h6.trans h5.2
    have hremove : ∀ s7 : FsState σ, s7.core = s6.core →
        wlp (do removeEntry pip ip name; return true : FsM σ Bool)
          (fun _ s' => s'.core = s.core) s7 := fun s7 h7 =>
      wlp_bind (wlp_removeEntry (c := s.core) h2.1 hi hne (h7.trans hs6)) fun _ s8 h8 => h8
    split
    · refine wlp_bind (keeps_checkUnlink ip s6) fun ok s7 h7 => ?_
      split
      · -- the directory is not empty
        refine wlp_bind (wlp_unlockFree h5.1 (h7.trans hs6)) fun _ s8 h8 => ?_
        exact hpip _ s8 (h8.trans (Core.drop_take _ _))
      · exact hremove s7 h7
    · exact hremove s6 rfl

end Fs
end WhuOS
