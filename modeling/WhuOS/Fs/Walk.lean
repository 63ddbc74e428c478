import WhuOS.Fs.Path
import WhuOS.Fs.Cache
import WhuOS.Fs.File

/-!
# WhuOS.Fs.Walk

Path walking: `search_inode` against the resolution of a path as a fold of directory lookup over
its elements.

* `resolve`       — the reference: the inode number that a path leads to.
* `wp_searchLoop`  — the loop follows it, and holds one reference at a time.
* `path_walk_agrees` — what `path_to_inode` and `path_to_pinode` return, and which references they
  leave.
-/

namespace WhuOS
namespace Fs

open Lib Sched Kern

variable {z : Bool}

/-! ## The reference -/

namespace FsState

/-- Is the bit of the inode set? -/
def Allocated (s : FsState (Blocks z)) (n : UInt16) : Prop :=
  (s.dev sb.inodeBitmapStart).bit n.toNat = true

/-- The entries of the directory with the number. -/
def dirOf (s : FsState (Blocks z)) (n : UInt16) : Block := s.dev ((s.view n).addrs 0).toNat

/-- The inode that a name stands for in the inode `n`, if `n` is a directory that has it. -/
def child (s : FsState (Blocks z)) (n : UInt16) (c : Name) : Option UInt16 :=
  if (s.view n).type = FT_DIR then (s.dirOf n).lookup c else none

/-- The inode at the end of the path with the elements `cs` that starts at `n`. -/
def resolve (s : FsState (Blocks z)) : UInt16 → List Name → Option UInt16
  | n, [] => some n
  | n, c :: cs => (s.child n c).bind fun m => resolve s m cs

/-- Where a path of the process starts: at the root or in its current directory. -/
def startOf (s : FsState (Blocks z)) (p : Slot) (path : List UInt8) : UInt16 :=
  match path.head? == some SLASH, (s.procs p).cwd with
  | false, some i => (s.icache i).inodeNum
  | _, _ => INODE_ROOT

end FsState

/-- A file system between two calls: no lock is held, the entries of directories name allocated
inodes that have links, and so do the root and the current directories of processes. -/
structure FileSystem (s : FsState (Blocks z)) : Prop where
  unlocked : ∀ i, (s.icache i).slk = false
  unique : s.Unique
  linked : ∀ n k c m, s.Allocated n → (s.view n).type = FT_DIR → k < DIRENT_PER_BLOCK →
    (s.dirOf n).entry k = some (c, m) → s.Allocated m ∧ (s.view m).nlink ≠ 0
  root : s.Allocated INODE_ROOT ∧ (s.view INODE_ROOT).nlink ≠ 0
  cwd : ∀ p i, (s.procs p).cwd = some i →
    0 < (s.icache i).ref ∧ s.Allocated (s.icache i).inodeNum

variable {s s0 : FsState (Blocks z)} {ip : IId}

theorem not_allocated_unused : ¬ s.Allocated INODE_NUM_UNUSED := by
  intro h
  have : (s.dev sb.inodeBitmapStart).bit INODE_NUM_UNUSED.toNat = false := by
    have hlt : ¬ INODE_NUM_UNUSED.toNat / 8 < BLOCK_SIZE := by decide
    simp [Block.bit, Block.byte, hlt]
  rw [FsState.Allocated, this] at h
  cases h

/-! ## The walk -/

/-- In `s` the walk that began in `s0`, with the references `R` and the locks `L` held, has come to
the inode `n`, to which it holds one more reference. -/
structure Cursor (s0 s : FsState (Blocks z)) (R L : List IId) (ip : IId) (n : UInt16) : Prop where
  holds : Holds s0 s (ip :: R) L
  num : (s.icache ip).inodeNum = n
  allocated : s0.Allocated n
  /-- Dropping the reference does not destroy the inode. -/
  linked : (s0.icache ip).ref = 0 → ip ∉ R → (s0.view n).nlink ≠ 0

/-- The same with the inode locked. -/
structure LockedAt (s0 s : FsState (Blocks z)) (R L : List IId) (ip : IId) (n : UInt16) : Prop where
  holds : Holds s0 s (ip :: R) (ip :: L)
  num : (s.icache ip).inodeNum = n
  allocated : s0.Allocated n
  linked : (s0.icache ip).ref = 0 → ip ∉ R → (s0.view n).nlink ≠ 0
  fresh : ip ∉ L

variable {n : UInt16} {R L : List IId} {E : Stop → FsState (Blocks z) → Prop}

theorem Cursor.wp_lock (h : Cursor s0 s R L ip n) {Q : Unit → FsState (Blocks z) → Prop}
    (hE : ip ∈ L → E .hang s) (hQ : ∀ s', LockedAt s0 s' R L ip n → Q () s') :
    wp (inodeLock ip) Q E s :=
  h.holds.wp_lock (h.holds.used List.mem_cons_self) hE fun hl h' =>
    hQ _ ⟨h', by simpa [FsState.lock] using h.num, h.allocated, h.linked, hl⟩

theorem Cursor.free (h : Cursor s0 s R L ip n) (hl : ip ∈ L → ip ∈ R) :
    ∃ s', inodeFree ip s = .ok () s' ∧ Holds s0 s' R L := by
  obtain ⟨hrun, h'⟩ := h.holds.free hl fun h0 hR _ => by rw [h.num]; exact h.linked h0 hR
  exact ⟨_, hrun, h'⟩

namespace LockedAt

theorem inode (h : LockedAt s0 s R L ip n) : (s.icache ip).d = s0.view n := by
  rw [h.holds.inode List.mem_cons_self, h.num]

theorem held (h : LockedAt s0 s R L ip n) : (s.icache ip).slk = true := by
  rw [h.holds.slk]; simp

theorem dir (h : LockedAt s0 s R L ip n) : s.dir ip = s0.dirOf n := by
  rw [FsState.dir, FsState.dirBlock, h.inode, h.holds.dev]
  rfl

theorem unlock (h : LockedAt s0 s R L ip n) :
    ∃ s', inodeUnlock ip s = .ok () s' ∧ Cursor s0 s' R L ip n := by
  obtain ⟨hrun, h'⟩ := h.holds.unlock h.fresh
  exact ⟨_, hrun, h', by simpa using h.num, h.allocated, h.linked⟩

theorem unlockFree (h : LockedAt s0 s R L ip n) :
    ∃ s', inodeUnlockFree ip s = .ok () s' ∧ Holds s0 s' R L := by
  obtain ⟨s', hrun, h', -⟩ := h.holds.unlockFree h.fresh fun h0 hR => by
    rw [h.num]; exact h.linked h0 hR
  exact ⟨s', hrun, h'⟩

/-- An entry of a directory that names the directory itself: its reference goes up and down again,
also where the count passes through zero. -/
theorem stay (h : LockedAt s0 s R L ip n) {m : UInt16} {α : Type} (x : IId → FsM (Blocks z) α)
    (hself : findCached s m = some ip) :
    ∃ s', (do let next ← inodeAlloc m; inodeUnlockFree ip; x next) s = x ip s' ∧
      Cursor s0 s' R L ip m := by
  obtain ⟨hpos, hnum⟩ := findCached_some hself
  obtain rfl : n = m := h.num.symm.trans hnum
  obtain ⟨-, hc⟩ := h.holds.unlock h.fresh
  refine ⟨_, ?_, hc, by simpa using hnum, h.allocated, h.linked⟩
  have hne : (s.icache ip).ref + 1 ≠ 1 := by grind
  rw [bind_of_ok (inodeAlloc_cached hself), inodeUnlockFree, bind_assoc,
    bind_of_ok (inodeUnlock_run (by simpa using h.held)), bind_of_ok (inodeFree_run (by simp [hne]))]
  simp [FsState.setIp, UInt32.add_sub_cancel]

/-- The step to the next inode: a reference to it is taken before this one is let go. -/
theorem wp_next (h : LockedAt s0 s R L ip n) {m : UInt16} {α : Type} {x : IId → FsM (Blocks z) α}
    {Q : α → FsState (Blocks z) → Prop}
    (hroom : ∀ i, (s0.icache i).ref.toNat + R.count i + 1 < 2 ^ 32)
    (hE : (∀ j, j ≠ ip → (s0.icache j).ref.toNat + R.count j ≠ 0) →
      E (.panic "inode_alloc: no free inode") s)
    (hm : s0.Allocated m) (hlink : (s0.view m).nlink ≠ 0)
    (hQ : ∀ i s', Cursor s0 s' R L i m → wp (x i) Q E s') :
    wp (do let next ← inodeAlloc m; inodeUnlockFree ip; x next) Q E s := by
  by_cases hself : findCached s m = some ip
  · obtain ⟨s', hrun, hc⟩ := h.stay x hself
    have hx := hQ ip s' hc
    unfold wp at hx ⊢
    rwa [hrun]
  have hcount : ∀ j, j ≠ ip → (s.icache j).ref.toNat = (s0.icache j).ref.toNat + R.count j :=
    fun j hj => by rw [h.holds.ref j, List.count_cons_of_ne (Ne.symm hj)]
  rw [wp_bind]
  refine h.holds.wp_alloc m (fun j hj => ?_) (fun hfull => hE fun j hj => ?_)
    fun i s1 h1 hnum hnums => ?_
  · rw [hcount j fun e => hself (e ▸ hj)]
    exact hroom j
  · rw [← hcount j hj]
    exact fun h0 => hfull j (eq_zero_iff_toNat.mpr h0)
  · have href := h.holds.used List.mem_cons_self
    obtain ⟨s2, hrun, h2, hnums'⟩ := (h1.perm (.swap ip i R) .rfl).unlockFree h.fresh
      fun h0 hR => by
        rw [hnums ip href, h.num]
        exact h.linked h0 fun hin => hR (List.mem_cons_of_mem _ hin)
    rw [wp_bind]
    exact wp_of_ok hrun (hQ i s2 ⟨h2, by rw [hnums' i, hnum], hm, fun _ _ => hlink⟩)

end LockedAt

/-- What the loop looks for: the inode at the end of the path or, with `findParent`, the directory
before its last element. `name` is the element that led to `n`. -/
def FsState.target (s : FsState (Blocks z)) (findParent : Bool) :
    UInt16 → Option Name → List Name → Option (UInt16 × Option Name)
  | n, name, [] => if findParent then none else some (n, name)
  | n, _, c :: cs =>
    if (s.view n).type = FT_DIR then
      if findParent && cs.isEmpty then some (n, some c)
      else ((s.dirOf n).lookup c).bind fun m => s.target findParent m (some c) cs
    else none

/-- The result of a walk and the state it leaves. -/
def Walked (s0 s : FsState (Blocks z)) (R L : List IId) (r : Option (IId × Option Name)) :
    Option (UInt16 × Option Name) → Prop
  | some (n, name) => ∃ i, r = some (i, name) ∧ Cursor s0 s R L i n
  | none => r = none ∧ Holds s0 s R L

/-- The ways in which a walk may stop: it waits for a lock that the call holds itself, or the cache
has less than two free entries. -/
structure WalkStops (s0 : FsState (Blocks z)) (R L : List IId)
    (E : Stop → FsState (Blocks z) → Prop) : Prop where
  hang : L ≠ [] → ∀ s, E .hang s
  full : (¬ ∃ i j, i ≠ j ∧ (s0.icache i).ref.toNat + R.count i = 0 ∧
      (s0.icache j).ref.toNat + R.count j = 0) →
    ∀ s, E (.panic "inode_alloc: no free inode") s

theorem WalkStops.never {s0 : FsState (Blocks z)}
    (hfree : ∃ i j, i ≠ j ∧ (s0.icache i).ref = 0 ∧ (s0.icache j).ref = 0) :
    WalkStops s0 [] [] fun _ _ => False := by
  obtain ⟨i, j, hij, hi, hj⟩ := hfree
  exact ⟨fun h => absurd rfl h,
    fun h => absurd ⟨i, j, hij, eq_zero_iff_toNat.mp hi, eq_zero_iff_toNat.mp hj⟩ h⟩

theorem WalkStops.noneLeft (hE : WalkStops s0 R L E) (i : IId)
    (h : ∀ j, j ≠ i → (s0.icache j).ref.toNat + R.count j ≠ 0) (s : FsState (Blocks z)) :
    E (.panic "inode_alloc: no free inode") s := by
  refine hE.full ?_ s
  rintro ⟨a, b, hab, ha, hb⟩
  by_cases e : a = i
  · exact h b (fun e' => hab (e.trans e'.symm)) hb
  · exact h a e ha

theorem wp_searchLoop (fs : FileSystem s0) (hE : WalkStops s0 R L E)
    (hL : ∀ i, i ∈ L → i ∈ R)
    (hroom : ∀ i, (s0.icache i).ref.toNat + R.count i + 1 < 2 ^ 32) (findParent : Bool) :
    ∀ (fuel : Nat) (s : FsState (Blocks z)) (ip : IId) (n : UInt16) (name : Option Name)
      (path : List UInt8), Cursor s0 s R L ip n → path.length < fuel →
      wp (searchLoop findParent fuel ip name path)
        (fun r s' => Walked s0 s' R L r (s0.target findParent n name (components path))) E s := by
  intro fuel
  induction fuel with
  | zero => intro s ip n name path _ h; omega
  | succ fuel ih =>
    intro s ip n name path hc hlen
    rw [searchLoop]
    cases hs : skipElement path with
    | none =>
      rw [skipElement_none hs, FsState.target]
      cases findParent with
      | false => exact ⟨ip, rfl, hc⟩
      | true =>
        obtain ⟨s', hrun, hl⟩ := hc.free (hL ip)
        simp only [if_true, wp_bind]
        exact wp_of_ok hrun ⟨rfl, hl⟩
    | some e =>
      obtain ⟨c, rest⟩ := e
      obtain ⟨hcomp, hrest, hhead⟩ := skipElement_some hs
      rw [hcomp, FsState.target]
      simp only [wp_bind]
      refine hc.wp_lock (fun hin => hE.hang (List.ne_nil_of_mem hin) _) fun s1 h1 => ?_
      have hfail : wp (do inodeUnlockFree ip; return none)
          (fun r s' => Walked s0 s' R L r none) E s1 := by
        obtain ⟨s', hrun, hl⟩ := h1.unlockFree
        rw [wp_bind]
        exact wp_of_ok hrun ⟨rfl, hl⟩
      refine wp_of_ok (getIp_run ip s1) ?_
      rw [h1.inode]
      by_cases hdir : (s0.view n).type = FT_DIR
      · rw [if_neg (not_not.mpr hdir), if_pos hdir]
        by_cases hlast : (findParent && atEnd rest) = true
        · have hempty : (findParent && (components rest).isEmpty) = true := by
            simp only [Bool.and_eq_true, List.isEmpty_iff] at hlast ⊢
            exact ⟨hlast.1, (atEnd_iff hhead).mp hlast.2⟩
          rw [if_pos hlast, if_pos hempty, wp_bind]
          obtain ⟨s', hrun, hc'⟩ := h1.unlock
          exact wp_of_ok hrun ⟨ip, rfl, hc'⟩
        · have hempty : ¬ (findParent && (components rest).isEmpty) = true := by
            simp only [Bool.and_eq_true, List.isEmpty_iff] at hlast ⊢
            exact fun h => hlast ⟨h.1, (atEnd_iff hhead).mpr h.2⟩
          rw [if_neg hlast, if_neg hempty, wp_bind]
          refine wp_of_ok (dirSearchEntry_run h1.held (by rw [h1.inode]; exact hdir) c.byte) ?_
          rw [h1.dir, Block.number, Name.of_byte, Option.bind_some]
          cases hl : (s0.dirOf n).lookup c with
          | none =>
            rw [Option.getD_none, if_pos rfl]
            exact hfail
          | some m =>
            obtain ⟨k, hk, he⟩ := SlotMap.lookup_some hl
            obtain ⟨hm, hlink⟩ := fs.linked n k c m hc.allocated hdir hk he
            have hne : m ≠ INODE_NUM_UNUSED := fun e => not_allocated_unused (e ▸ hm)
            rw [Option.getD_some, if_neg hne, Option.bind_some]
            exact h1.wp_next hroom (fun h => hE.noneLeft ip h s1) hm hlink fun i s2 hc2 =>
              ih s2 i m (some c) rest hc2 (by omega)
      · rw [if_pos hdir, if_neg hdir]
        exact hfail

/-! ## Paths -/

/-- The directory that the path goes through last, with the last element. -/
def FsState.resolveParent (s : FsState (Blocks z)) (n : UInt16) (cs : List Name) :
    Option (UInt16 × Name) :=
  cs.getLast?.bind fun c => (s.resolve n cs.dropLast).bind fun m =>
    if (s.view m).type = FT_DIR then some (m, c) else none

theorem target_inode (s : FsState (Blocks z)) : ∀ (cs : List Name) (n : UInt16) (name : Option Name),
    (s.target false n name cs).map (·.1) = s.resolve n cs := by
  intro cs
  induction cs with
  | nil => intro n name; rfl
  | cons c cs ih =>
    intro n name
    simp only [FsState.target, FsState.resolve, FsState.child, Bool.false_and, Bool.false_eq_true,
      if_false]
    split
    · cases (s.dirOf n).lookup c with
      | none => rfl
      | some m => exact ih m (some c)
    · rfl

theorem target_parent (s : FsState (Blocks z)) : ∀ (cs : List Name) (n : UInt16) (name : Option Name),
    s.target true n name cs = (s.resolveParent n cs).map fun e => (e.1, some e.2) := by
  intro cs
  induction cs with
  | nil => intro n name; rfl
  | cons c cs ih =>
    intro n name
    cases cs with
    | nil =>
      simp only [FsState.target, FsState.resolveParent, List.isEmpty_nil, Bool.and_true, if_true,
        List.getLast?_singleton, Option.bind_some, List.dropLast_singleton, FsState.resolve]
      split <;> rfl
    | cons c' cs =>
      rw [FsState.target]
      simp only [List.isEmpty_cons, Bool.and_false, Bool.false_eq_true, if_false]
      rw [FsState.resolveParent, List.getLast?_cons_cons, List.dropLast_cons_cons, FsState.resolve,
        FsState.child]
      split
      · cases (s.dirOf n).lookup c with
        | none => simp
        | some m =>
          rw [Option.bind_some, ih m (some c), FsState.resolveParent, Option.bind_some]
      · simp

theorem resolve_append (s : FsState (Blocks z)) : ∀ (cs ds : List Name) (n : UInt16),
    s.resolve n (cs ++ ds) = (s.resolve n cs).bind fun m => s.resolve m ds := by
  intro cs
  induction cs with
  | nil => intro ds n; rfl
  | cons c cs ih =>
    intro ds n
    rw [List.cons_append, FsState.resolve, FsState.resolve]
    cases s.child n c with
    | none => rfl
    | some m => exact ih ds m

theorem resolveParent_child {s : FsState (Blocks z)} {n m : UInt16} {cs : List Name} {c : Name}
    (h : s.resolveParent n cs = some (m, c)) : s.resolve n cs = (s.dirOf m).lookup c := by
  unfold FsState.resolveParent at h
  cases hl : cs.getLast? with
  | none => rw [hl] at h; cases h
  | some c' =>
    rw [hl, Option.bind_some] at h
    cases hr : s.resolve n cs.dropLast with
    | none => rw [hr] at h; cases h
    | some m' =>
      rw [hr, Option.bind_some] at h
      split at h
      · rename_i hdir
        cases h
        have hcs : cs = cs.dropLast ++ [c] := by
          obtain ⟨ds, rfl⟩ := List.getLast?_eq_some_iff.mp hl
          rw [List.dropLast_concat]
        rw [hcs, resolve_append, hr, Option.bind_some, FsState.resolve, FsState.child, if_pos hdir]
        cases (s.dirOf m).lookup c with
        | none => rfl
        | some a => rfl
      · cases h

theorem wp_searchInode (fs : FileSystem s0) (h : Holds s0 s R L) (hE : WalkStops s0 R L E)
    (hL : ∀ i, i ∈ L → i ∈ R)
    (hroom : ∀ i, (s0.icache i).ref.toNat + R.count i + 1 < 2 ^ 32) (findParent : Bool) (p : Slot) (path : List UInt8) :
    wp (searchInode p path findParent)
      (fun r s' => Walked s0 s' R L r
        (s0.target findParent (s0.startOf p path) none (components path))) E s := by
  have hgo : ∀ i s1 n, Cursor s0 s1 R L i n →
      wp (searchLoop findParent (path.length + 1) i none path)
        (fun r s' => Walked s0 s' R L r (s0.target findParent n none (components path))) E s1 :=
    fun i s1 n hc => wp_searchLoop fs hE hL hroom findParent _ s1 i n none path hc (by omega)
  have hroot : wp (inodeAlloc INODE_ROOT >>= fun ip =>
      searchLoop findParent (path.length + 1) ip none path)
      (fun r s' => Walked s0 s' R L r (s0.target findParent INODE_ROOT none (components path))) E
      s := by
    rw [wp_bind]
    refine h.wp_alloc INODE_ROOT (fun j _ => by rw [h.ref j]; exact hroom j)
      (fun hfull => hE.noneLeft 0 (fun j _ => ?_) s) fun i s1 h1 hnum _ =>
        hgo i s1 _ ⟨h1, hnum, fs.root.1, fun _ _ => fs.root.2⟩
    rw [← h.ref j]
    exact fun h0 => hfull j (eq_zero_iff_toNat.mpr h0)
  rw [searchInode, wp_bind, wp_get, h.procs, FsState.startOf]
  cases path.head? == some SLASH with
  | true => exact hroot
  | false =>
    cases hcwd : (s0.procs p).cwd with
    | none => exact hroot
    | some cwd =>
      obtain ⟨hused, halloc⟩ := fs.cwd p cwd hcwd
      simp only [wp_bind]
      refine wp_of_ok inodeDup_run (hgo cwd _ _ ⟨h.dup (h.used_of_start hused)
        (by rw [h.ref cwd]; exact hroom cwd), ?_, halloc, fun h => by rw [h] at hused; cases hused⟩)
      simpa using h.num cwd hused

/-- `r` is the only inode with one more reference, and no lock is held. -/
def TakesRef (s s' : FsState (Blocks z)) (r : Option IId) : Prop :=
  (∀ i, (s'.icache i).ref.toNat = (s.icache i).ref.toNat + if r = some i then 1 else 0) ∧
    ∀ i, (s'.icache i).slk = false

theorem Cursor.takesRef (h : Cursor s0 s [] [] ip n) : TakesRef s0 s (some ip) := by
  refine ⟨fun i => ?_, h.holds.slk⟩
  rw [h.holds.ref i]
  simp [List.count_singleton]

theorem Holds.takesRef (h : Holds s0 s [] []) : TakesRef s0 s none := ⟨h.ref, h.slk⟩

/-- The result of `path_to_inode`. -/
def WalkedTo (s0 s : FsState (Blocks z)) (R L : List IId) (r : Option IId) : Option UInt16 → Prop
  | some n => ∃ i, r = some i ∧ Cursor s0 s R L i n
  | none => r = none ∧ Holds s0 s R L

/-- The result of `path_to_pinode`. -/
def WalkedToParent (s0 s : FsState (Blocks z)) (R L : List IId) (r : Option (IId × Name)) :
    Option (UInt16 × Name) → Prop
  | some (n, c) => ∃ i, r = some (i, c) ∧ Cursor s0 s R L i n
  | none => r = none ∧ Holds s0 s R L

theorem wp_pathToInode (fs : FileSystem s0) (h : Holds s0 s R L) (hE : WalkStops s0 R L E)
    (hL : ∀ i, i ∈ L → i ∈ R)
    (hroom : ∀ i, (s0.icache i).ref.toNat + R.count i + 1 < 2 ^ 32) (p : Slot) (path : List UInt8) :
    wp (pathToInode p path)
      (fun r s' => WalkedTo s0 s' R L r (s0.resolve (s0.startOf p path) (components path))) E s := by
  rw [pathToInode, wp_bind]
  refine wp_conseq (wp_searchInode fs h hE hL hroom false p path) (fun r s' hw => ?_) fun _ _ h => h
  rw [wp_pure, ← target_inode s0 _ _ none]
  cases ht : s0.target false (s0.startOf p path) none (components path) with
  | none =>
    rw [ht] at hw
    obtain ⟨rfl, hl⟩ := hw
    exact ⟨rfl, hl⟩
  | some e =>
    obtain ⟨n, name⟩ := e
    rw [ht] at hw
    obtain ⟨i, rfl, hc⟩ := hw
    exact ⟨i, rfl, hc⟩

theorem wp_pathToPinode (fs : FileSystem s0) (h : Holds s0 s R L) (hE : WalkStops s0 R L E)
    (hL : ∀ i, i ∈ L → i ∈ R)
    (hroom : ∀ i, (s0.icache i).ref.toNat + R.count i + 1 < 2 ^ 32) (p : Slot) (path : List UInt8) :
    wp (pathToPinode p path)
      (fun r s' => WalkedToParent s0 s' R L r
        (s0.resolveParent (s0.startOf p path) (components path))) E s := by
  rw [pathToPinode, wp_bind]
  refine wp_conseq (wp_searchInode fs h hE hL hroom true p path) (fun r s' hw => ?_) fun _ _ h => h
  rw [target_parent] at hw
  cases ht : s0.resolveParent (s0.startOf p path) (components path) with
  | none =>
    rw [ht] at hw
    obtain ⟨rfl, hl⟩ := hw
    exact ⟨rfl, hl⟩
  | some e =>
    rw [ht] at hw
    obtain ⟨i, rfl, hc⟩ := hw
    exact ⟨i, rfl, hc⟩

/-- Path walking agrees with the reference. `path_to_inode` returns the inode that the path
resolves to; `path_to_pinode` the directory before the last element, in which that element is what
the whole path resolves to. The returned inode has one more reference, no other one has, and no
lock is held. No count may be at its maximum, or the reference would take it to zero. -/
theorem path_walk_agrees (s : FsState Disk) (fs : FileSystem s)
    (hfree : ∃ i j, i ≠ j ∧ (s.icache i).ref = 0 ∧ (s.icache j).ref = 0)
    (hroom : ∀ i, (s.icache i).ref < 0xFFFFFFFF) (p : Slot) (path : List UInt8) :
    (∃ r s', pathToInode p path s = .ok r s' ∧ TakesRef s s' r ∧
      r.map (fun i => (s'.icache i).inodeNum) =
        s.resolve (s.startOf p path) (components path)) ∧
    (∃ r s', pathToPinode p path s = .ok r s' ∧ TakesRef s s' (r.map (·.1)) ∧
      r.map (fun e => ((s'.icache e.1).inodeNum, e.2)) =
        s.resolveParent (s.startOf p path) (components path)) ∧
    ∀ n c, s.resolveParent (s.startOf p path) (components path) = some (n, c) →
      s.resolve (s.startOf p path) (components path) = (s.dirOf n).lookup c := by
  have h0 : Holds s s [] [] := .refl fs.unique fs.unlocked
  have hroom' : ∀ i, (s.icache i).ref.toNat + ([] : List IId).count i + 1 < 2 ^ 32 := fun i => by
    have := UInt32.lt_iff_toNat_lt.mp (hroom i)
    simp only [List.count_nil]
    exact Nat.succ_lt_succ this
  have hL : ∀ i : IId, i ∈ ([] : List IId) → i ∈ ([] : List IId) := fun _ h => h
  refine ⟨?_, ?_, fun n c => resolveParent_child⟩
  · obtain ⟨r, s', hrun, hw⟩ :=
      wp_returns (wp_pathToInode fs h0 (.never hfree) hL hroom' p path) fun _ _ h => h
    refine ⟨r, s', hrun, ?_⟩
    cases hr : s.resolve (s.startOf p path) (components path) with
    | none =>
      rw [hr] at hw
      obtain ⟨rfl, hl⟩ := hw
      exact ⟨hl.takesRef, rfl⟩
    | some n =>
      rw [hr] at hw
      obtain ⟨i, rfl, hc⟩ := hw
      exact ⟨hc.takesRef, congrArg some hc.num⟩
  · obtain ⟨r, s', hrun, hw⟩ :=
      wp_returns (wp_pathToPinode fs h0 (.never hfree) hL hroom' p path) fun _ _ h => h
    refine ⟨r, s', hrun, ?_⟩
    cases hr : s.resolveParent (s.startOf p path) (components path) with
    | none =>
      rw [hr] at hw
      obtain ⟨rfl, hl⟩ := hw
      exact ⟨hl.takesRef, rfl⟩
    | some e =>
      rw [hr] at hw
      obtain ⟨i, rfl, hc⟩ := hw
      exact ⟨hc.takesRef, by simp [hc.num]⟩

/-! ## The image of `mkfs` -/

/-- The file system that `mkfs` builds, before the first call. -/
def imageFs : FsState Disk := booted (Mkfs.image fun _ => 0)

theorem allocated_imageFs {n : UInt16} : imageFs.Allocated n ↔ n = INODE_ROOT := by
  have hb : imageFs.dev sb.inodeBitmapStart = Block.zero.setBit 0 := rfl
  have hz : Block.zero.bit n.toNat = false := by simp [Block.bit, Block.byte_zero]
  rw [FsState.Allocated, hb, Block.bit_setBit (by decide), hz, Bool.false_or, decide_eq_true_eq]
  exact ⟨fun h => UInt16.toNat.inj h, fun h => by rw [h]; rfl⟩

theorem view_imageFs (n : UInt16) : imageFs.view n = inodeAt imageFs.dev n :=
  view_uncached fun _ h => absurd h (UInt32.lt_irrefl 0)

theorem root_imageFs : (inodeAt imageFs.dev INODE_ROOT).type = FT_DIR ∧
    (inodeAt imageFs.dev INODE_ROOT).nlink = 1 ∧
    (inodeAt imageFs.dev INODE_ROOT).addrs 0 = 131 := by decide +kernel

theorem entries_imageFs : ∀ k, k < DIRENT_PER_BLOCK →
    ∀ e ∈ (imageFs.dev 131).entry k, e.2 = INODE_ROOT := by decide +kernel

theorem fileSystem_imageFs : FileSystem imageFs := by
  have hroot : imageFs.Allocated INODE_ROOT ∧ (imageFs.view INODE_ROOT).nlink ≠ 0 := by
    rw [view_imageFs, root_imageFs.2.1]
    exact ⟨allocated_imageFs.mpr rfl, by decide⟩
  refine ⟨fun _ => rfl, fun i _ h => absurd h (UInt32.lt_irrefl 0), fun n k c m hn _ hk he => ?_,
    hroot, fun p i h => nomatch h⟩
  rw [allocated_imageFs.mp hn, FsState.dirOf, view_imageFs, root_imageFs.2.2] at he
  have hm : m = INODE_ROOT := entries_imageFs k hk (c, m) he
  rw [hm]
  exact hroot

/-- The same with the root cached under `ref` references and every process in it. -/
def rootCached (ref : UInt32) : FsState Disk :=
  { imageFs.setIp 0
      { d := inodeAt imageFs.dev INODE_ROOT, inodeNum := INODE_ROOT, ref, valid := true, slk := false }
    with procs := fun _ => { filelist := fun _ => none, cwd := some 0 } }

section RootCached

variable {ref : UInt32}

theorem ref_rootCached {i : IId} (h : 0 < ((rootCached ref).icache i).ref) : i = 0 := by
  by_contra hi
  rw [show (rootCached ref).icache i = imageFs.icache i from upd_of_ne hi] at h
  exact UInt32.lt_irrefl 0 h

theorem unique_rootCached : (rootCached ref).Unique := fun _ _ hi hj _ =>
  (ref_rootCached hi).trans (ref_rootCached hj).symm

theorem view_rootCached (h : 0 < ref) (n : UInt16) : (rootCached ref).view n = imageFs.view n := by
  rw [view_imageFs]
  by_cases hn : n = INODE_ROOT
  · rw [hn]
    exact @view_cached _ _ 0 unique_rootCached h
  · refine view_uncached fun i hi e => hn ?_
    rw [ref_rootCached hi] at e
    exact e.symm

theorem fileSystem_rootCached (h : 0 < ref) : FileSystem (rootCached ref) := by
  have hview := view_rootCached h
  have hdir : ∀ n, (rootCached ref).dirOf n = imageFs.dirOf n := fun n => by
    rw [FsState.dirOf, hview]
    rfl
  refine ⟨fun i => ?_, unique_rootCached, fun n k c m hn ht hk he => ?_, ?_, fun p i hi => ?_⟩
  · by_cases hi : i = 0
    · rw [hi]; rfl
    · rw [show (rootCached ref).icache i = imageFs.icache i from upd_of_ne hi]; rfl
  · rw [hview] at ht ⊢
    rw [hdir] at he
    exact fileSystem_imageFs.linked n k c m hn ht hk he
  · rw [hview]
    exact fileSystem_imageFs.root
  · cases hi
    exact ⟨h, fileSystem_imageFs.root.1⟩

end RootCached

/-- From the root the paths `./..` and `/./a` are walked: the first leads back to the root, which
has one more reference then, the second to nothing. -/
theorem path_walk_agrees_root :
    (∃ r s', pathToInode 0 [46, 47, 46, 46] (rootCached 5) = .ok r s' ∧
      TakesRef (rootCached 5) s' r ∧ r.map (fun i => (s'.icache i).inodeNum) = some INODE_ROOT) ∧
    ∃ s', pathToInode 0 [47, 46, 47, 97] (rootCached 5) = .ok none s' ∧
      TakesRef (rootCached 5) s' none := by
  have h := path_walk_agrees (rootCached 5) (fileSystem_rootCached (by decide))
    ⟨1, 2, by decide, rfl, rfl⟩ (by decide) 0
  constructor
  · have hres : (rootCached 5).resolve ((rootCached 5).startOf 0 [46, 47, 46, 46])
        (components [46, 47, 46, 46]) = some INODE_ROOT := by decide +kernel
    have := (h [46, 47, 46, 46]).1
    rwa [hres] at this
  · have hres : (rootCached 5).resolve ((rootCached 5).startOf 0 [47, 46, 47, 97])
        (components [47, 46, 47, 97]) = none := by decide +kernel
    obtain ⟨r, s', hrun, htakes, hr⟩ := (h [47, 46, 47, 97]).1
    rw [hres, Option.map_eq_none_iff] at hr
    subst hr
    exact ⟨s', hrun, htakes⟩

/-- A count at its maximum: `path_to_inode("/")` returns the root with the count zero, and on
`/.` the lock of the root then panics. -/
theorem walk_wraps_count : FileSystem (rootCached 0xFFFFFFFF) ∧
    (∃ i j, i ≠ j ∧ ((rootCached 0xFFFFFFFF).icache i).ref = 0 ∧
      ((rootCached 0xFFFFFFFF).icache j).ref = 0) ∧
    (∃ r s', pathToInode 0 [47] (rootCached 0xFFFFFFFF) = .ok r s' ∧
      ¬ TakesRef (rootCached 0xFFFFFFFF) s' r) ∧
    ∃ s', pathToInode 0 [47, 46] (rootCached 0xFFFFFFFF) =
      .error (.panic "inode_lock: invalid inode") s' := by
  refine ⟨fileSystem_rootCached (by decide), ⟨1, 2, by decide, rfl, rfl⟩, ⟨some 0, _, rfl, ?_⟩, ⟨_, rfl⟩⟩
  rintro ⟨h, -⟩
  exact absurd (h 0) (by decide)

end Fs
end WhuOS
