import WhuOS.Fs.Split

/-!
# WhuOS.Fs.Contents

A file as an array of bytes. The specification is a list: a write replaces a part of it and may make
it longer.

* `Written`, `wp_inodeWriteData` — what one write does to the file and to everything else.
* `Created`, `inodeCreate_ok`    — a new file.
* `Holding`                      — the file holds the bytes of the list, and the rest of the file
  system is as it was when the file was created.
* `file_is_array`                — any sequence of writes.
-/

namespace WhuOS
namespace Fs

open Lib Kern

variable {z : Bool}

/-! ## One write -/

/-- Inode number `n` is in the inode region. -/
def InRegion (n : UInt16) : Prop := n.toNat < sb.inodeBlocks * INODE_PER_BLOCK

theorem InRegion.block_lt {n : UInt16} (h : InRegion n) :
    inodeBlock n < sb.dataBitmapStart ∧ sb.inodeBitmapStart < inodeBlock n := by
  simp only [InRegion, inodeBlock, sb, INODE_PER_BLOCK, BLOCK_SIZE, INODE_DISK_SIZE] at *
  omega

/-- The bytes `g` were written from `off` on, `n` of them; positions `N` of the file were filled. Of the
inode only `addrs` and `size` changed, and it is on the disk; no other inode changed. -/
structure Written (s t : FsState (Blocks z)) (ip : IId) (g : Nat → UInt8) (off n : Nat)
    (N : Finset (List Nat)) : Prop where
  wf : t.Wf ip
  grows : Grows s t ip N
  onPaths : ∀ q ∈ N, OnBytes off (off + n) q
  there : ∀ pos, off ≤ pos → pos < off + n →
    ∃ b, t.node ip (path (pos / BLOCK_SIZE)) = some (.block b)
  bytes : ∀ pos, pos / BLOCK_SIZE < MAX_BLOCKS →
    byteAt (t.icache ip).d.addrs t.dev pos =
      if off ≤ pos ∧ pos < off + n then g pos else byteAt (s.icache ip).d.addrs s.dev pos
  size : (t.icache ip).d.size.toNat = max (s.icache ip).d.size.toNat (off + n)
  icache : t.icache = upd s.icache ip { s.icache ip with
    d := { (s.icache ip).d with addrs := (t.icache ip).d.addrs, size := (t.icache ip).d.size } }
  ftable : t.ftable = s.ftable
  procs : t.procs = s.procs
  low : ∀ x, x < sb.dataBitmapStart → x ≠ inodeBlock (s.icache ip).inodeNum → t.dev x = s.dev x
  inodes : ∀ m, InRegion m → m ≠ (s.icache ip).inodeNum → inodeAt t.dev m = inodeAt s.dev m

section Write

variable {s t : FsState (Blocks z)} {ip : IId}

variable {T : FsState (Blocks z) → FsState (Blocks z)}

theorem node_blind (hT : Blind T ip) (hw : s.Wf ip)
    {p : List Nat} (hp : IsPos p) : (T s).node ip p = s.node ip p := by
  refine Paths.walk_congr isPos_closed (fun q j y hq hy => ?_) p hp
  unfold entries
  rw [rawEntry_blind hT hw (isPos_closed _ _ hq) hy]

theorem grows_blind (hT : Blind T ip) (hw : s.Wf ip) :
    Grows s (T s) ip ∅ where
  old := fun p hp _ => node_blind hT hw hp
  empty := by simp
  new := by simp
  taken := fun n => by
    unfold FsState.taken
    rw [hT.dev _ _ (Nat.le_refl _)]
    simp
  others := fun x hx _ => hT.dev s x (Nat.le_trans (by decide) hx)

theorem byteAt_blind (hT : Blind T ip) (hw : s.Wf ip)
    {pos : Nat} (hpos : pos / BLOCK_SIZE < MAX_BLOCKS) :
    byteAt ((T s).icache ip).d.addrs (T s).dev pos = byteAt (s.icache ip).d.addrs s.dev pos := by
  have hp := (path_spec hpos).1
  have hnode := node_blind hT hw hp
  rw [byteAt, byteAt, ← FsState.node, ← FsState.node, hnode]
  cases hc : s.node ip (path (pos / BLOCK_SIZE)) with
  | none => rfl
  | some y =>
    cases y with
    | inode => rfl
    | block c =>
      simp only
      rw [hT.dev _ _ (hw.sound.inUse _ _ hp hc).bitmap_le]

theorem inodeAt_put {d : Blocks z} {n m : UInt16} (hm : m ≠ n)
    (hb : inodeBlock n ≠ sb.dataBitmapStart) (i : Dinode) :
    inodeAt (d.store (inodeBlock n) ((d (inodeBlock n)).putInode (n.toNat % INODE_PER_BLOCK) i)) m =
      inodeAt d m := by
  unfold inodeAt
  by_cases hblk : inodeBlock m = inodeBlock n
  · rw [hblk, Blocks.store_same, Block.getInode_putInode_other (Nat.mod_lt _ (by decide))]
    intro he
    refine hm (UInt16.toNat_inj.mp ?_)
    simp only [inodeBlock, INODE_PER_BLOCK, BLOCK_SIZE, INODE_DISK_SIZE] at hblk he
    omega
  · rw [Blocks.store_of_apart ⟨hblk, .inr (.inl hb)⟩]

theorem wp_inodeWriteData {offset len : UInt32} {src : Nat → UInt8} (hw : s.Wf ip)
    (held : (s.icache ip).slk = true) (hreg : InRegion (s.icache ip).inodeNum)
    (hoff : offset.toNat ≤ (s.icache ip).d.size.toNat)
    (hmax : offset.toNat + len.toNat ≤ MAX_BLOCKS * BLOCK_SIZE) :
    wp (inodeWriteData ip offset len src)
      (fun r t => r = len ∧ ∃ N, Written s t ip (fun pos => src (pos - offset.toNat)) offset.toNat
        len.toNat N)
      (PokesOut s ip offset.toNat len.toNat) s := by
  have hlt : MAX_BLOCKS * BLOCK_SIZE < 2 ^ 32 := by decide
  have hpoke := @wp_pokeBytes z ip (fun pos => src (pos - offset.toNat)) len.toNat offset.toNat s hw hmax
  unfold wp at hpoke ⊢
  rw [inodeWriteData_run hw held hoff hmax]
  cases hrun : pokeBytes ip (fun pos => src (pos - offset.toNat)) offset.toNat len.toNat s with
  | error e t => rw [hrun] at hpoke; exact hpoke
  | ok _ t =>
    rw [hrun] at hpoke
    obtain ⟨N, hp⟩ := hpoke
    obtain ⟨hsize, hslk, hnum⟩ := hp.frame.size
    simp only [true_and]
    generalize hm : UInt32.ofNat (max (s.icache ip).d.size.toNat (offset.toNat + len.toNat)) = m
    have hmn : m.toNat = max (s.icache ip).d.size.toNat (offset.toNat + len.toNat) := by
      have := (s.icache ip).d.size.toNat_lt
      rw [← hm, UInt32.toNat_ofNat', Nat.mod_eq_of_lt (by omega)]
    have hreg' : InRegion (t.icache ip).inodeNum := hnum ▸ hreg
    have hT := @blind_patch z ip m _ ((t.icache ip).inodeNum.toNat % INODE_PER_BLOCK)
      { (t.icache ip).d with size := m } hreg'.block_lt.1
    have hu := flush_resize t ip m
    have hip : ((t.resize ip m).flush ip).icache ip =
        { t.icache ip with d := { (t.icache ip).d with size := m } } := by
      simp [FsState.flush, FsState.resize]
    refine ⟨N ∪ ∅, ?_⟩
    have hgrows := hp.grows.trans (grows_blind hT hp.wf)
    have hdev : ((t.resize ip m).flush ip).dev =
        t.dev.store (inodeBlock (t.icache ip).inodeNum)
          ((t.dev (inodeBlock (t.icache ip).inodeNum)).putInode
            ((t.icache ip).inodeNum.toNat % INODE_PER_BLOCK) { (t.icache ip).d with size := m }) := by
      simp [FsState.flush, FsState.resize]
    have hblk := hreg'.block_lt.1
    have hicache := congrArg FsState.icache hp.frame.inode
    have hftable := congrArg FsState.ftable hp.frame.inode
    have hprocs := congrArg FsState.procs hp.frame.inode
    exact
      { wf := by rw [hu]; exact wf_blind hT hp.wf
        grows := by rw [hu]; exact hgrows
        onPaths := fun q hq => hp.onPaths q (by simpa using hq)
        there := fun pos h1 h2 => by
          obtain ⟨b, hb⟩ := hp.there pos h1 h2
          have hpos : pos / BLOCK_SIZE < MAX_BLOCKS :=
            Nat.div_lt_of_lt_mul (by rw [Nat.mul_comm]; omega)
          exact ⟨b, by rw [hu]; exact (node_blind hT hp.wf (path_spec hpos).1).trans hb⟩
        bytes := fun pos hpos => by
          rw [hu]
          exact (byteAt_blind hT hp.wf hpos).trans (hp.bytes pos hpos)
        size := by rw [hip]; exact hmn
        icache := by
          rw [hip]
          show upd t.icache ip _ = _
          rw [hicache]
          simp only [upd_upd, upd_same]
        ftable := hftable
        procs := hprocs
        low := fun x hx hne => by
          rw [hdev, Blocks.store_of_apart ⟨by rw [hnum]; exact hne, .inr (.inl (Nat.ne_of_lt hblk))⟩,
            hp.frame.low x hx]
        inodes := fun n hn hne => by
          rw [hdev, inodeAt_put (by rw [hnum]; exact hne) (Nat.ne_of_lt hblk), inodeAt, inodeAt,
            hp.frame.low _ hn.block_lt.1] }

end Write

/-! ## A new file -/

/-- `inode_create` has made the inode `d` with the number `n`, the first that was free. -/
structure Created (s t : FsState (Blocks z)) (ip : IId) (d : Dinode) (n : Nat) : Prop where
  first : (s.dev sb.inodeBitmapStart).firstClear = some n
  inode : t.icache ip = { (s.icache ip) with
    d := d, inodeNum := UInt16.ofNat n, ref := (s.icache ip).ref + 1, valid := true, slk := false }
  used : 0 < (s.icache ip).ref + 1
  cached : 0 < (s.icache ip).ref → (s.icache ip).inodeNum = UInt16.ofNat n
  others : ∀ i, i ≠ ip → t.icache i = s.icache i
  ftable : t.ftable = s.ftable
  procs : t.procs = s.procs
  dev : t.dev = (s.dev.store sb.inodeBitmapStart ((s.dev sb.inodeBitmapStart).setBit n)).store
    (inodeBlock (UInt16.ofNat n))
    ((s.dev.store sb.inodeBitmapStart ((s.dev sb.inodeBitmapStart).setBit n)
      (inodeBlock (UInt16.ofNat n))).putInode ((UInt16.ofNat n).toNat % INODE_PER_BLOCK) d)

/-- The inode that `inode_create` fills in. -/
def newInode (type major minor : UInt16) : Dinode :=
  { type, major, minor, nlink := 1, size := 0, addrs := fun _ => 0 }

section Create

variable {s t : FsState (Blocks z)} {ip : IId}

theorem inodeAlloc_ok {n : UInt16} (h : inodeAlloc n s = .ok ip t) :
    ∃ m : Inode, t = s.setIp ip m ∧ m.inodeNum = n ∧ m.ref = (s.icache ip).ref + 1 ∧
      m.slk = (s.icache ip).slk ∧ (0 < (s.icache ip).ref → (s.icache ip).inodeNum = n) := by
  cases hc : findCached s n with
  | some i =>
    rw [inodeAlloc_cached hc] at h
    cases h
    exact ⟨_, rfl, (findCached_some hc).2, rfl, rfl, fun _ => (findCached_some hc).2⟩
  | none =>
    cases he : findEmpty s with
    | none => simp [inodeAlloc, bind_run, hc, he] at h
    | some i =>
      rw [inodeAlloc_new hc he] at h
      cases h
      have h0 := findEmpty_some he
      exact ⟨_, rfl, rfl, by simp [h0], rfl, fun hpos => absurd hpos (by rw [h0]; decide)⟩

theorem inodeCreate_ok {type major minor : UInt16} (htype : type ≠ FT_DIR)
    (h : inodeCreate type major minor s = .ok ip t) :
    ∃ n, Created s t ip (newInode type major minor) n := by
  unfold inodeCreate at h
  obtain ⟨num, s1, hnum, h⟩ := bind_ok.mp h
  rw [bitmapAllocInode, bind_run, bitmapSearchAndSet_run, Block.searchAndSet_eq] at hnum
  cases hfirst : (s.dev sb.inodeBitmapStart).firstClear with
  | none => rw [hfirst] at hnum; cases hnum
  | some n =>
    rw [hfirst] at hnum
    cases hnum
    obtain ⟨jp, s2, halloc, h⟩ := bind_ok.mp h
    obtain ⟨m, rfl, hm, href, hslk, hcached⟩ := inodeAlloc_ok halloc
    obtain ⟨_, s3, hlock, h⟩ := bind_ok.mp h
    generalize hs1 : s.put sb.inodeBitmapStart ((s.dev sb.inodeBitmapStart).setBit n) = s1 at *
    have hpos := inodeLock_used hlock
    have href' : 0 < (s.icache jp).ref + 1 := by
      rw [FsState.setIp_icache, upd_same, href, ← hs1] at hpos
      exact hpos
    cases hl : m.slk with
    | true =>
      rw [inodeLock_hang hpos (by rw [FsState.setIp_icache, upd_same]; exact hl)] at hlock
      cases hlock
    | false =>
      rw [inodeLock_run hpos (by rw [FsState.setIp_icache, upd_same]; exact hl)] at hlock
      cases hlock
      rw [bind_of_ok (modIp_run _ _ _), bind_of_ok (inodeRw_write (by simp [FsState.lock])),
        if_neg htype] at h
      beta_reduce at h
      rw [bind_of_ok (inodeUnlock_run (by simp [FsState.flush, FsState.lock]))] at h
      cases h
      subst hs1
      refine ⟨n, hfirst, ?_, href', ?_, ?_, rfl, rfl, ?_⟩
      · simp [FsState.flush, FsState.lock, newInode, hm, href]
      · exact hcached
      · intro i hi
        simp [FsState.flush, FsState.lock, hi]
      · simp [FsState.flush, FsState.lock, newInode, hm]

end Create

/-! ## The specification -/

/-- The bytes `l` replace those from `off` on. -/
def overwrite (r : List UInt8) (off : Nat) (l : List UInt8) : List UInt8 :=
  r.take off ++ l ++ r.drop (off + l.length)

theorem length_overwrite {r l : List UInt8} {off : Nat} (h : off ≤ r.length) :
    (overwrite r off l).length = max r.length (off + l.length) := by
  simp only [overwrite, List.length_append, List.length_take, List.length_drop]
  omega

theorem getD_overwrite {r l : List UInt8} {off : Nat} (h : off ≤ r.length) (pos : Nat) :
    (overwrite r off l).getD pos 0 =
      if off ≤ pos ∧ pos < off + l.length then l.getD (pos - off) 0 else r.getD pos 0 := by
  have htake : (r.take off).length = off := by rw [List.length_take]; omega
  simp only [overwrite, List.append_assoc]
  by_cases h1 : pos < off
  · rw [List.getD_append _ _ _ _ (by omega), if_neg (by omega)]
    simp only [List.getD_eq_getElem?_getD, List.getElem?_take_of_lt h1]
  · rw [List.getD_append_right _ _ _ _ (by omega), htake]
    by_cases h2 : pos < off + l.length
    · rw [List.getD_append _ _ _ _ (by omega), if_pos (by omega)]
    · rw [List.getD_append_right _ _ _ _ (by omega), if_neg (by omega)]
      simp only [List.getD_eq_getElem?_getD, List.getElem?_drop]
      congr 2
      omega

abbrev Write := UInt32 × List UInt8

def arrayAfter (ws : List Write) : List UInt8 := ws.foldl (fun r w => overwrite r w.1.toNat w.2) []

/-- Each write begins inside the array, or at its end, and ends below `INODE_MAXSIZE`. -/
def Accepted (r : List UInt8) : List Write → Prop
  | [] => True
  | w :: ws => w.1.toNat ≤ r.length ∧ w.1.toNat + w.2.length ≤ INODE_MAXSIZE.toNat ∧
    Accepted (overwrite r w.1.toNat w.2) ws

/-- Where the last byte that is written ends. -/
def maxEnd (ws : List Write) : Nat := ws.foldr (fun w m => max (w.1.toNat + w.2.length) m) 0

theorem length_foldl_overwrite : ∀ (ws : List Write) (r : List UInt8), Accepted r ws →
    (ws.foldl (fun r w => overwrite r w.1.toNat w.2) r).length = max r.length (maxEnd ws) := by
  intro ws
  induction ws with
  | nil => intro r _; simp [maxEnd]
  | cons w ws ih =>
    intro r h
    rw [List.foldl_cons, ih _ h.2.2, length_overwrite h.1]
    simp only [maxEnd, List.foldr_cons]
    omega

/-- `inode_lock`, `inode_write_data` and `inode_unlock`, for one write after the other; the results
are those of `inode_write_data`. -/
def writeAll (ip : IId) : List Write → FsM (Blocks z) (List UInt32)
  | [] => return []
  | w :: ws => do
    inodeLock ip
    let n ← inodeWriteData ip w.1 (lenOf w.2) (byteOf w.2)
    inodeUnlock ip
    let rest ← writeAll ip ws
    return n :: rest

/-- `inode_read_data` with the lock taken for it. -/
def lockedRead (ip : IId) (offset len : UInt32) : FsM (Blocks z) (List UInt8) := do
  inodeLock ip
  let bytes ← inodeReadData ip offset len
  inodeUnlock ip
  return bytes

/-! ## A file that holds an array -/

/-- Since the state `s` the file of `ip` has come to hold the bytes `r`; it is not locked. Its
positions `N` were filled, and nothing else has changed. -/
structure Holding (s t : FsState (Blocks z)) (ip : IId) (r : List UInt8) (N : Finset (List Nat)) :
    Prop where
  wf : t.Wf ip
  grows : Grows s t ip N
  onPaths : ∀ q ∈ N, OnBytes 0 r.length q
  there : ∀ pos, pos < r.length → ∃ b, t.node ip (path (pos / BLOCK_SIZE)) = some (.block b)
  bytes : ∀ pos, pos < r.length → byteAt (t.icache ip).d.addrs t.dev pos = r.getD pos 0
  size : (t.icache ip).d.size.toNat = r.length
  bound : r.length ≤ MAX_BLOCKS * BLOCK_SIZE
  icache : t.icache = upd s.icache ip { s.icache ip with
    d := { (s.icache ip).d with addrs := (t.icache ip).d.addrs, size := (t.icache ip).d.size } }
  ftable : t.ftable = s.ftable
  procs : t.procs = s.procs
  low : ∀ x, x < sb.dataBitmapStart → x ≠ inodeBlock (s.icache ip).inodeNum → t.dev x = s.dev x
  inodes : ∀ m, InRegion m → m ≠ (s.icache ip).inodeNum → inodeAt t.dev m = inodeAt s.dev m

section Holding

variable {s t : FsState (Blocks z)} {ip : IId} {r : List UInt8} {N : Finset (List Nat)}

theorem Grows.congr {s' t' : FsState (Blocks z)} (h : Grows s t ip N)
    (hs : ∀ p, s'.node ip p = s.node ip p) (hsd : s'.dev = s.dev)
    (ht : ∀ p, t'.node ip p = t.node ip p) (htd : t'.dev = t.dev) : Grows s' t' ip N where
  old := fun p hp hN => by rw [ht, hs, h.old p hp hN]
  empty := fun p hN => by rw [hs]; exact h.empty p hN
  new := fun p hN => by simp only [ht, FsState.taken, hsd]; exact h.new p hN
  taken := fun m => by simp only [ht, FsState.taken, hsd, htd]; exact h.taken m
  others := fun x hx hout => by
    rw [htd, hsd]
    exact h.others x hx fun p hp => by rw [← ht]; exact hout p hp

theorem Written.unlocked {u : FsState (Blocks z)} {g : Nat → UInt8} {off n : Nat}
    (h : Written (s.setIp ip { s.icache ip with slk := true }) u ip g off n N)
    (hl : (s.icache ip).slk = false) :
    Written s (u.setIp ip { u.icache ip with slk := false }) ip g off n N := by
  have hs : ((s.setIp ip { s.icache ip with slk := true }).icache ip).d = (s.icache ip).d := by
    simp
  have hu : ((u.setIp ip { u.icache ip with slk := false }).icache ip).d = (u.icache ip).d := by
    simp
  have hsn : ∀ p, (s.setIp ip { s.icache ip with slk := true }).node ip p = s.node ip p := fun p => by
    rw [FsState.node, hs]; rfl
  have hun : ∀ p, (u.setIp ip { u.icache ip with slk := false }).node ip p = u.node ip p := fun p => by
    rw [FsState.node, hu]; rfl
  exact
    { wf := ⟨by rw [hu]; exact h.wf.sound, h.wf.fresh⟩
      grows := h.grows.congr (fun p => (hsn p).symm) rfl hun rfl
      onPaths := h.onPaths
      there := fun pos h1 h2 => by rw [hun]; exact h.there pos h1 h2
      bytes := fun pos hpos => by rw [hu]; rw [← hs]; exact h.bytes pos hpos
      size := by rw [hu, ← hs]; exact h.size
      icache := by
        rw [hu, FsState.setIp_icache, h.icache]
        simp [← hl]
      ftable := h.ftable
      procs := h.procs
      low := fun x hx hne => h.low x hx (by simpa using hne)
      inodes := fun m hm hne => h.inodes m hm (by simpa using hne) }

/-- What the file was made with, and will keep. -/
structure Fresh (s : FsState (Blocks z)) (ip : IId) : Prop where
  ref : 0 < (s.icache ip).ref
  valid : (s.icache ip).valid = true
  unlocked : (s.icache ip).slk = false
  region : InRegion (s.icache ip).inodeNum

theorem Fresh.holding (hf : Fresh s ip) (h : Holding s t ip r N) : Fresh t ip := by
  have hip : t.icache ip = { s.icache ip with
      d := { (s.icache ip).d with addrs := (t.icache ip).d.addrs, size := (t.icache ip).d.size } } := by
    conv_lhs => rw [h.icache]
    rw [upd_same]
  exact ⟨by rw [hip]; exact hf.ref, by rw [hip]; exact hf.valid, by rw [hip]; exact hf.unlocked,
    by rw [hip]; exact hf.region⟩

theorem lock_eq (hf : Fresh s ip) : inodeLock ip s = .ok ()
    (s.setIp ip { s.icache ip with slk := true }) := by
  rw [inodeLock_run hf.ref hf.unlocked, FsState.lock, hf.valid, if_pos rfl]
  simp only [← hf.valid]

theorem unlock_lock (hf : Fresh s ip) : (s.setIp ip { s.icache ip with slk := true }).setIp ip
    { (s.setIp ip { s.icache ip with slk := true }).icache ip with slk := false } = s := by
  have hsame : { s.icache ip with slk := false } = s.icache ip := by rw [← hf.unlocked]
  simp [FsState.setIp, hsame]

theorem Holding.extend {u : FsState (Blocks z)} {g : Nat → UInt8} {off : Nat} {l : List UInt8}
    {N' : Finset (List Nat)} (h : Holding s t ip r N) (hw : Written t u ip g off l.length N')
    (hg : ∀ i, i < l.length → g (off + i) = l.getD i 0) (hoff : off ≤ r.length)
    (hmax : off + l.length ≤ MAX_BLOCKS * BLOCK_SIZE) :
    Holding s u ip (overwrite r off l) (N ∪ N') := by
  have hol := @length_overwrite r l off hoff
  have hbound := h.bound
  have hmb : ∀ pos, pos < r.length → pos / BLOCK_SIZE < MAX_BLOCKS := fun pos hpos =>
    Nat.div_lt_of_lt_mul (by rw [Nat.mul_comm]; omega)
  have hnum : (t.icache ip).inodeNum = (s.icache ip).inodeNum := by rw [h.icache]; simp
  exact
    { wf := hw.wf
      grows := h.grows.trans hw.grows
      onPaths := fun q hq => by
        rw [hol]
        rcases Finset.mem_union.mp hq with hq | hq
        · exact (h.onPaths q hq).mono (Nat.le_refl _) (by omega)
        · exact (hw.onPaths q hq).mono (Nat.zero_le _) (by omega)
      there := fun pos hpos => by
        rw [hol] at hpos
        by_cases hlt : pos < r.length
        · obtain ⟨b, hb⟩ := h.there pos hlt
          exact ⟨b, hw.grows.keeps (path_spec (hmb pos hlt)).1 hb⟩
        · exact hw.there pos (by omega) (by omega)
      bytes := fun pos hpos => by
        rw [hol] at hpos
        rw [hw.bytes pos (Nat.div_lt_of_lt_mul (by rw [Nat.mul_comm]; omega)), getD_overwrite hoff]
        split
        · rw [← hg (pos - off) (by omega), show off + (pos - off) = pos by omega]
        · exact h.bytes pos (by omega)
      size := by rw [hw.size, h.size, hol]
      bound := by
        rw [hol]
        omega
      icache := by
        rw [hw.icache, h.icache]
        simp only [upd_upd, upd_same]
      ftable := hw.ftable.trans h.ftable
      procs := hw.procs.trans h.procs
      low := fun x hx hne => by rw [hw.low x hx (by rw [hnum]; exact hne), h.low x hx hne]
      inodes := fun m hm hne => by rw [hw.inodes m hm (by rw [hnum]; exact hne), h.inodes m hm hne] }

theorem Holding.wp_locked (hf : Fresh s ip) (h : Holding s t ip r N) {off len : UInt32}
    {src : Nat → UInt8} (hoff : off.toNat ≤ r.length)
    (hmax : off.toNat + len.toNat ≤ MAX_BLOCKS * BLOCK_SIZE) :
    wp (inodeWriteData ip off len src)
      (fun n u => n = len ∧ ∃ N', Written (t.setIp ip { t.icache ip with slk := true }) u ip
        (fun pos => src (pos - off.toNat)) off.toNat len.toNat N')
      (PokesOut (t.setIp ip { t.icache ip with slk := true }) ip off.toNat len.toNat)
      (t.setIp ip { t.icache ip with slk := true }) := by
  have hft := hf.holding h
  have hd : ((t.setIp ip { t.icache ip with slk := true }).icache ip).d = (t.icache ip).d := by simp
  exact wp_inodeWriteData ⟨by rw [hd]; exact h.wf.sound, h.wf.fresh⟩ (by simp)
    (by simpa using hft.region) (by rw [hd, h.size]; exact hoff) hmax

theorem Holding.write (hf : Fresh s ip) (h : Holding s t ip r N) {off : UInt32} {l : List UInt8} {M : Nat}
    (hoff : off.toNat ≤ r.length) (hmax : off.toNat + l.length ≤ INODE_MAXSIZE.toNat)
    (hM : max r.length (off.toNat + l.length) ≤ M) (henough : s.Enough ip 0 M) :
    ∃ u N', inodeLock ip t = .ok () (t.setIp ip { t.icache ip with slk := true }) ∧
      inodeWriteData ip off (lenOf l) (byteOf l) (t.setIp ip { t.icache ip with slk := true }) =
        .ok (lenOf l) u ∧ (u.icache ip).slk = true ∧
      Holding s (u.setIp ip { u.icache ip with slk := false }) ip (overwrite r off.toNat l) N' := by
  have hft := hf.holding h
  rw [toNat_maxsize] at hmax
  have hlen : (lenOf l).toNat = l.length := toNat_lenOf (by omega)
  have hd : ((t.setIp ip { t.icache ip with slk := true }).icache ip).d = (t.icache ip).d := by simp
  have hnode : ∀ p, (t.setIp ip { t.icache ip with slk := true }).node ip p = t.node ip p := fun p => by
    rw [FsState.node, hd]; rfl
  have hwp := @Holding.wp_locked z s t ip r N hf h off (lenOf l) (byteOf l) hoff (by rw [hlen]; omega)
  rw [hlen] at hwp
  obtain ⟨_, u, hrun, rfl, N', hw⟩ := wp_returns hwp fun e u hout => by
    obtain ⟨he, ⟨N2, hg2, hon2⟩, hall, q, hq, hq', hnone⟩ := hout
    refine @FsState.Enough.not_out z s u ip 0 M e henough ⟨he, ⟨N ∪ N2, h.grows.trans
      (hg2.congr (fun p => (hnode p).symm) rfl (fun _ => rfl) rfl), fun p hp => ?_⟩, hall, q, hq,
      hq'.mono (Nat.zero_le _) (by omega), hnone⟩
    rcases Finset.mem_union.mp hp with hp | hp
    · exact (h.onPaths p hp).mono (Nat.le_refl _) (by omega)
    · exact (hon2 p hp).mono (Nat.zero_le _) (by omega)
  have hslk : (u.icache ip).slk = true := by
    rw [hw.icache]
    simp
  exact ⟨u, N ∪ N', lock_eq hft, hrun, hslk, h.extend (hw.unlocked hft.unlocked)
    (fun i _ => by rw [Nat.add_sub_cancel_left]; rfl) hoff hmax⟩

end Holding

section Run

variable {s t : FsState (Blocks z)} {ip : IId} {r : List UInt8} {N : Finset (List Nat)}

theorem writeAll_run (hf : Fresh s ip) {M : Nat} (henough : s.Enough ip 0 M) : ∀ (ws : List Write)
    {t : FsState (Blocks z)} {r : List UInt8} {N : Finset (List Nat)}, Holding s t ip r N →
    Accepted r ws → max r.length (maxEnd ws) ≤ M →
    ∃ u N', writeAll ip ws t = .ok (ws.map fun w => lenOf w.2) u ∧
      Holding s u ip (ws.foldl (fun r w => overwrite r w.1.toNat w.2) r) N' := by
  intro ws
  induction ws with
  | nil => intro t r N h _ _; exact ⟨t, N, rfl, h⟩
  | cons w ws ih =>
    intro t r N h hacc hM
    obtain ⟨hoff, hmax, hacc⟩ := hacc
    simp only [maxEnd, List.foldr_cons] at hM
    obtain ⟨u, N1, hlock, hrun, hslk, h1⟩ := h.write hf hoff hmax (by omega) henough
    obtain ⟨v, N2, hrest, h2⟩ := ih h1 hacc (by rw [length_overwrite hoff, maxEnd]; omega)
    refine ⟨v, N2, ?_, h2⟩
    rw [writeAll, bind_of_ok hlock, bind_of_ok hrun, bind_of_ok (inodeUnlock_run hslk),
      bind_of_ok hrest]
    rfl

theorem fileBytes_eq (h : Holding s t ip r N) (off len : Nat) :
    fileBytes (t.icache ip).d.addrs t.dev off (clamp (t.icache ip).d.size.toNat off len) =
      (r.drop off).take len := by
  rw [h.size]
  have hlen : clamp r.length off len = min len (r.length - off) := by
    unfold clamp
    split
    · omega
    · rfl
  refine List.ext_getElem ?_ fun i h1 h2 => ?_
  · rw [fileBytes, List.length_map, List.length_range, List.length_take, List.length_drop, hlen]
  · rw [fileBytes, List.length_map, List.length_range, hlen] at h1
    simp only [fileBytes, List.getElem_map, List.getElem_range, List.getElem_take, List.getElem_drop]
    rw [h.bytes _ (by omega), List.getD_eq_getElem _ _ (by omega)]

theorem Holding.read (hf : Fresh s ip) (h : Holding s t ip r N) {offset len : UInt32}
    (hlt : offset.toNat + len.toNat < 2 ^ 32) :
    lockedRead ip offset len t = .ok ((r.drop offset.toNat).take len.toNat) t := by
  have hft := hf.holding h
  have hd : ((t.setIp ip { t.icache ip with slk := true }).icache ip).d = (t.icache ip).d := by simp
  have hnode : ∀ p, (t.setIp ip { t.icache ip with slk := true }).node ip p = t.node ip p := fun p => by
    rw [FsState.node, hd]; rfl
  have hread : Readable (t.setIp ip { t.icache ip with slk := true }) ip :=
    { held := by simp
      size := by
        rw [hd, h.size, toNat_maxsize]
        exact h.bound
      there := fun pos hpos => by
        rw [hd, h.size] at hpos
        obtain ⟨b, hb⟩ := h.there pos hpos
        exact ⟨b, by rw [hnode, hb]⟩ }
  have hrun := inodeReadData_run hread fun _ (hw : Wraps offset len _) => absurd hw.1 (by omega)
  rw [hd, FsState.setIp_dev, fileBytes_eq h] at hrun
  rw [lockedRead, bind_of_ok (lock_eq hft), bind_of_ok hrun,
    bind_of_ok (inodeUnlock_run (by simp)), unlock_lock hft]
  rfl

/-! ## The other files -/

theorem byteAt_congr {addrs : Fin N_ADDRS → UInt32} {d d' : Blocks z}
    (h : ∀ p b, IsPos p → nodeAt addrs d p = some (.block b) → d' b = d b) {pos : Nat}
    (hpos : pos / BLOCK_SIZE < MAX_BLOCKS) : byteAt addrs d' pos = byteAt addrs d pos := by
  have hp := (path_spec hpos).1
  unfold byteAt
  rw [nodeAt_congr h hp]
  cases hc : nodeAt addrs d (path (pos / BLOCK_SIZE)) with
  | none => rfl
  | some y =>
    cases y with
    | inode => rfl
    | block b => simp only [h _ b hp hc]

/-- Inode `n` has the same fields and bytes in both states. -/
def SameContents (s t : FsState (Blocks z)) (n : UInt16) : Prop :=
  t.view n = s.view n ∧ ∀ pos, pos < INODE_MAXSIZE.toNat →
    byteAt (t.view n).addrs t.dev pos = byteAt (s.view n).addrs s.dev pos

theorem nodeAt_zero {d : Blocks z} {p : List Nat} {x : TreeNode}
    (h : nodeAt (fun _ => 0) d p = some x) : p = [] := by
  cases p with
  | nil => rfl
  | cons k q =>
    have h0 : Paths.walk (entries (fun _ => 0) d) .inode ([k] ++ q) = some x := h
    obtain ⟨y, hy⟩ := Paths.walk_of_append h0
    have h1 : Paths.walk (entries (fun _ => 0) d) .inode ([] ++ [k]) =
        entries (fun _ => 0) d .inode k := Paths.walk_snoc_of rfl
    rw [List.nil_append, hy] at h1
    cases h1

variable {d : Dinode} {n : Nat}

namespace Created

theorem lt (h : Created s t ip d n) : n < BIT_PER_BLOCK := (Block.firstClear_some h.first).1

theorem toNat_number (h : Created s t ip d n) : (UInt16.ofNat n).toNat = n := by
  have := h.lt
  rw [UInt16.toNat_ofNat']
  simp only [BIT_PER_BLOCK, BLOCK_SIZE] at *
  omega

theorem number (h : Created s t ip d n) : (t.icache ip).inodeNum = UInt16.ofNat n := by rw [h.inode]

theorem dev_other (h : Created s t ip d n) (hreg : InRegion (UInt16.ofNat n)) {x : Nat}
    (hx : x ≠ sb.inodeBitmapStart) (hx' : x ≠ inodeBlock (UInt16.ofNat n)) : t.dev x = s.dev x := by
  rw [h.dev, Blocks.store_of_apart ⟨hx', .inr (.inl (Nat.ne_of_lt hreg.block_lt.1))⟩,
    Blocks.store_of_apart ⟨hx, .inr (.inl (by decide))⟩]

theorem dev_data (h : Created s t ip d n) (hreg : InRegion (UInt16.ofNat n)) {x : Nat}
    (hx : sb.dataBitmapStart ≤ x) : t.dev x = s.dev x := by
  have hb := hreg.block_lt
  refine h.dev_other hreg ?_ (by omega)
  simp only [sb] at *
  omega

theorem inodes (h : Created s t ip d n) (hreg : InRegion (UInt16.ofNat n)) {m : UInt16}
    (hm : InRegion m) (hne : m ≠ UInt16.ofNat n) : inodeAt t.dev m = inodeAt s.dev m := by
  rw [h.dev, inodeAt_put hne (Nat.ne_of_lt hreg.block_lt.1)]
  unfold inodeAt
  rw [Blocks.store_of_apart ⟨Nat.ne_of_gt hm.block_lt.2, .inr (.inl (by decide))⟩]

theorem fresh (h : Created s t ip d n) (hreg : InRegion (UInt16.ofNat n)) : Fresh t ip where
  ref := by rw [h.inode]; exact h.used
  valid := by rw [h.inode]
  unlocked := by rw [h.inode]
  region := by rw [h.number]; exact hreg

theorem holding (h : Created s t ip d n) (ha : d.addrs = fun _ => 0) (hs : d.size = 0)
    (hf : FreshZero t.dev) : Holding t t ip [] ∅ where
  wf :=
    { sound := by
        rw [h.inode]
        simp only [ha]
        exact ⟨fun p q x _ _ hp hq => by rw [nodeAt_zero hp, nodeAt_zero hq],
          fun p b _ hb => absurd (nodeAt_zero hb) (nodeAt_block hb)⟩
      fresh := hf }
  grows := .refl t ip
  onPaths := by simp
  there := fun pos hpos => absurd hpos (Nat.not_lt_zero _)
  bytes := fun pos hpos => absurd hpos (Nat.not_lt_zero _)
  size := by rw [h.inode]; simp [hs]
  bound := Nat.zero_le _
  icache := (upd_self _ _).symm
  ftable := rfl
  procs := rfl
  low := fun _ _ _ => rfl
  inodes := fun _ _ _ => rfl

theorem view_other {u : FsState (Blocks z)} (h : Created s t ip d n) (hreg : InRegion (UInt16.ofNat n))
    (hu : Holding t u ip r N) {m : UInt16} (hm : InRegion m) (hne : m ≠ UInt16.ofNat n) :
    u.view m = s.view m := by
  have hnum : (u.icache ip).inodeNum = UInt16.ofNat n := by
    rw [hu.icache, upd_same, ← h.number]
  have hother : ∀ i, i ≠ ip → u.icache i = s.icache i := fun i hi => by
    rw [hu.icache, upd_of_ne hi, h.others i hi]
  have hfind : findCached u m = findCached s m := by
    unfold findCached
    congr 1
    funext i
    by_cases hi : i = ip
    · subst hi
      have h1 : ((u.icache i).inodeNum == m) = false := by
        rw [hnum]
        exact beq_eq_false_iff_ne.mpr hne.symm
      have h2 : (decide (0 < (s.icache i).ref) && (s.icache i).inodeNum == m) = false := by
        by_cases hpos : 0 < (s.icache i).ref
        · rw [h.cached hpos]
          simp [beq_eq_false_iff_ne.mpr hne.symm]
        · simp [hpos]
      rw [h1, h2, Bool.and_false]
    · rw [hother i hi]
  have hdisk : inodeAt u.dev m = inodeAt s.dev m := by
    rw [hu.inodes m hm (by rw [h.number]; exact hne), h.inodes hreg hm hne]
  unfold FsState.view
  rw [hfind, hdisk]
  cases hc : findCached s m with
  | none => rfl
  | some i =>
    obtain ⟨hpos, hi⟩ := findCached_some hc
    have hip : i ≠ ip := by
      rintro rfl
      exact hne (hi.symm.trans (h.cached hpos))
    simp only [hother i hip]

theorem block_other {u : FsState (Blocks z)} (h : Created s t ip d n) (hreg : InRegion (UInt16.ofNat n))
    (ha : d.addrs = fun _ => 0) (hu : Holding t u ip r N) {b : Nat} (hb : InUse s.dev b) :
    u.dev b = s.dev b := by
  rw [hu.grows.others b hb.1, h.dev_data hreg hb.bitmap_le]
  intro p hp hnode
  have hempty : t.node ip p = none := by
    cases hc : t.node ip p with
    | none => rfl
    | some x =>
      have := hc
      rw [FsState.node, h.inode] at this
      simp only [ha] at this
      exact absurd (nodeAt_zero this) (nodeAt_block hnode)
  have hN : p ∈ N := by
    by_contra hN
    rw [hu.grows.old p hp hN, hempty] at hnode
    cases hnode
  obtain ⟨m, hm, hfree⟩ := hu.grows.new p hN
  rw [hnode] at hm
  injection hm with hm
  injection hm with hm
  have h2 := hb.2
  rw [hm, Nat.add_sub_cancel_left, ← h.dev_data hreg (Nat.le_refl _)] at h2
  exact hfree h2

end Created

end Run

/-- A file is an array of bytes. Take a file that `inode_create` has just made, with a number in the
inode region, and any writes that begin inside it and end below `INODE_MAXSIZE`, with enough free
blocks. All of them are done in full; then a read returns the bytes that the array has from `offset`
on, at most `len` of them; the size is where the last byte ends; and every other inode whose blocks
were taken when the file was made has kept its fields and bytes. -/
theorem file_is_array (s s1 : FsState (Blocks true)) (ip : IId) (major minor : UInt16)
    (ws : List Write) (hc : inodeCreate FT_FILE major minor s = .ok ip s1)
    (hreg : InRegion (s1.icache ip).inodeNum) (hacc : Accepted [] ws)
    (henough : s1.Enough ip 0 (maxEnd ws)) :
    ∃ t, writeAll ip ws s1 = .ok (ws.map fun w => lenOf w.2) t ∧
      (∀ offset len : UInt32, offset.toNat + len.toNat < 2 ^ 32 →
        lockedRead ip offset len t =
          .ok (((arrayAfter ws).drop offset.toNat).take len.toNat) t) ∧
      (t.icache ip).d.size.toNat = maxEnd ws ∧
      ∀ n, InRegion n → n ≠ (s1.icache ip).inodeNum →
        (∀ p b, IsPos p → nodeAt (s.view n).addrs s.dev p = some (.block b) → InUse s.dev b) →
        SameContents s t n := by
  obtain ⟨n, hcr⟩ := inodeCreate_ok (by decide) hc
  rw [hcr.number] at hreg ⊢
  have hf := hcr.fresh hreg
  obtain ⟨t, N, hrun, ht⟩ := writeAll_run hf henough ws (hcr.holding rfl rfl (.inl rfl)) hacc
    (by simp)
  refine ⟨t, hrun, fun offset len hlt => ht.read hf hlt, ?_, fun m hm hne hblocks => ?_⟩
  · rw [ht.size, length_foldl_overwrite ws [] hacc]
    simp
  · have hview := hcr.view_other hreg ht hm hne
    refine ⟨hview, fun pos hpos => ?_⟩
    rw [toNat_maxsize] at hpos
    rw [hview]
    refine byteAt_congr (fun p b hp hb => ?_) (Nat.div_lt_of_lt_mul (by rw [Nat.mul_comm]; omega))
    exact hcr.block_other hreg rfl ht (hblocks p b hp hb)

/-- A disk of zeros, with an empty cache. -/
def blank : FsState (Blocks true) where
  dev := fun _ => Block.zero
  icache := fun _ =>
    { d := { type := 0, major := 0, minor := 0, nlink := 0, size := 0, addrs := fun _ => 0 }
      inodeNum := 0, ref := 0, valid := false, slk := false }
  ftable := fun _ =>
    { type := .unused, readable := false, writable := false, ref := 0, major := 0, offset := 0,
      ip := none }
  procs := fun _ => { filelist := fun _ => none, cwd := none }

theorem create_blank : ∃ s, inodeCreate FT_FILE 0 0 blank = .ok 0 s ∧
    (s.icache 0).inodeNum = 0 ∧ (s.icache 0).ref = 1 ∧ ∀ n ≤ BLOCK_SIZE, s.Enough 0 0 n := by
  have hrun : ∃ s, inodeCreate FT_FILE 0 0 blank = .ok 0 s := ⟨_, rfl⟩
  obtain ⟨s, hs⟩ := hrun
  obtain ⟨n, hcr⟩ := inodeCreate_ok (by decide) hs
  have hn : n = 0 := Option.some.inj (hcr.first.symm.trans rfl)
  subst hn
  refine ⟨s, hs, hcr.number, by rw [hcr.inode]; rfl, fun m hm => ?_⟩
  have hpos : s.missing 0 0 (0 + m) ⊆ {[], [0]} := fun q hq => by
    obtain ⟨pos, -, hlt, hpre⟩ := mem_positions.mp (Finset.mem_filter.mp hq).1
    rw [Nat.div_eq_of_lt (by omega)] at hpre
    have hinit := List.mem_inits _ _ |>.mpr hpre
    simpa [path, digits] using hinit
  have hfree : {0, 1} ⊆ s.free := fun k hk => by
    refine Finset.mem_filter.mpr ⟨Finset.mem_range.mpr ?_, ?_⟩
    · simp only [Finset.mem_insert, Finset.mem_singleton, BIT_PER_BLOCK, BLOCK_SIZE] at *
      omega
    · rw [hcr.dev_data (by unfold InRegion; decide) (Nat.le_refl _)]
      simp [blank, Block.bit, Block.byte_zero]
  calc (s.missing 0 0 (0 + m)).card
      ≤ ({[], [0]} : Finset (List Nat)).card := Finset.card_le_card hpos
    _ = ({0, 1} : Finset Nat).card := by decide
    _ ≤ s.free.card := Finset.card_le_card hfree

/-- Two bytes are written into the new file, then the second and a third. -/
theorem file_is_array_three : ∃ s t, inodeCreate FT_FILE 0 0 blank = .ok 0 s ∧
    writeAll 0 [(0, [7, 8]), (1, [9, 10])] s = .ok [2, 2] t ∧
    lockedRead 0 0 5 t = .ok [7, 9, 10] t ∧ SameContents blank t 1 := by
  obtain ⟨s, hs, hnum, -, henough⟩ := create_blank
  have hacc : Accepted [] [(0, [7, 8]), (1, [9, 10])] := by
    simp only [Accepted, overwrite]
    decide
  obtain ⟨t, hw, hr, -, ho⟩ := file_is_array blank s 0 0 0 [(0, [7, 8]), (1, [9, 10])] hs
    (by rw [hnum]; unfold InRegion; decide) hacc (henough _ (by decide))
  refine ⟨s, t, hs, hw, hr 0 5 (by decide), ho 1 (by unfold InRegion; decide) (by rw [hnum]; decide) ?_⟩
  have haddrs : (blank.view 1).addrs = fun _ => 0 := by decide
  rw [haddrs]
  exact fun p b hp hb => absurd (nodeAt_zero hb) (nodeAt_block hb)

end Fs
end WhuOS
