import WhuOS.Fs.Access
import WhuOS.Fs.Cache
import WhuOS.Fs.File

/-!
# WhuOS.Fs.Split

One write against two: cutting a write anywhere leaves the same file system, down to the order in
which blocks are allocated. The first of two writes sets the size and writes the inode before the
second begins; the lookups of the second do not notice (`Blind`). Reads of a file one after the other
return what one long read returns.
-/

namespace WhuOS
namespace Fs

open Lib Kern

variable {z : Bool}

/-! ## What the lookups do not notice -/

/-- A change of the state that leaves `addrs`, the data bitmap and the data blocks alone. -/
structure Blind (T : FsState (Blocks z) → FsState (Blocks z)) (ip : IId) : Prop where
  dev : ∀ s x, sb.dataBitmapStart ≤ x → (T s).dev x = s.dev x
  addrs : ∀ s, ((T s).icache ip).d.addrs = (s.icache ip).d.addrs
  put : ∀ s b blk, sb.dataBitmapStart ≤ b → T (s.put b blk) = (T s).put b blk
  link : ∀ s k v, T (s.link ip .inode k v) = (T s).link ip .inode k v

section Blind

variable {T : FsState (Blocks z) → FsState (Blocks z)} {ip : IId} {s : FsState (Blocks z)}

theorem InUse.bitmap_le {d : Blocks z} {b : Nat} (h : InUse d b) : sb.dataBitmapStart ≤ b :=
  Nat.le_trans (by decide) h.1

variable {p : List Nat} {x : TreeNode}

theorem rawEntry_blind (hT : Blind T ip) (hw : s.Wf ip) (hpos : IsPos p)
    (hp : s.node ip p = some x) (i : Nat) :
    rawEntry ((T s).icache ip).d.addrs (T s).dev x i = rawEntry (s.icache ip).d.addrs s.dev x i := by
  cases x with
  | inode => simp only [rawEntry]; rw [hT.addrs]
  | block b =>
    simp only [rawEntry]
    rw [hT.dev _ _ (hw.sound.inUse p b hpos hp).bitmap_le]

theorem grow_blind (hT : Blind T ip) (hw : s.Wf ip) (hpos : IsPos p)
    (hp : s.node ip p = some x) (i n : Nat) : (T s).grow ip x i n = T (s.grow ip x i n) := by
  have htake : (T s).takeBlock n = T (s.takeBlock n) := by
    rw [FsState.takeBlock, FsState.takeBlock, hT.put _ _ _ (Nat.le_refl _),
      hT.dev _ _ (Nat.le_refl _)]
  rw [FsState.grow, FsState.grow, htake]
  cases x with
  | inode => rw [hT.link]
  | block b =>
    have hb := (hw.sound.inUse p b hpos hp).bitmap_le
    simp only [FsState.link]
    rw [hT.put _ _ _ hb, hT.dev _ _ hb]

theorem allocEntry_blind (hT : Blind T ip) (hw : s.Wf ip) (hpos : IsPos p)
    (hp : s.node ip p = some x) (i : Nat) :
    allocEntry (ref ip x i) (T s) = mapState T (allocEntry (ref ip x i) s) := by
  rw [allocEntry_run, allocEntry_run, rawEntry_blind hT hw hpos hp, hT.dev _ _ (Nat.le_refl _)]
  split
  · cases (s.dev sb.dataBitmapStart).firstClear with
    | none => rfl
    | some n =>
      simp only
      rw [grow_blind hT hw hpos hp]
      rfl
  · rfl

theorem readEntry_blind (hT : Blind T ip) (hw : s.Wf ip) (hpos : IsPos p)
    (hp : s.node ip p = some x) (i : Nat) :
    readEntry (ref ip x i) (T s) = mapState T (readEntry (ref ip x i) s) := by
  rw [readEntry_ref, readEntry_ref, rawEntry_blind hT hw hpos hp]
  rfl

theorem locateBlock_blind (hT : Blind T ip) : ∀ (l : Nat) {s : FsState (Blocks z)} {p full : List Nat}
    {x : TreeNode} {i bn : Nat}, s.Wf ip → s.node ip p = some x → full = p ++ i :: digits l bn →
    IsPos full → locateBlock l (ref ip x i) bn (T s) = mapState T (locateBlock l (ref ip x i) bn s) := by
  intro l
  induction l with
  | zero =>
    intro s p full x i bn hw hp hfull hpos
    have hnil : full = p ++ [i] ++ [] := by rw [List.append_nil]; exact hfull
    have hpi : IsPos (p ++ [i]) := (hnil ▸ hpos).of_append
    refine bind_mapState (allocEntry_blind hT hw (isPos_closed _ _ hpi) hp i) fun _ s' hrun => ?_
    obtain ⟨⟨N, hf⟩, hp', -⟩ := wp_ok (wp_allocEntry hw hp hpi hnil) hrun
    exact readEntry_blind hT hf.wf (isPos_closed _ _ hpi) hp' i
  | succ l ih =>
    intro s p full x i bn hw hp hfull hpos
    have hfull' : full = p ++ [i] ++ bn / ENTRY_PER_BLOCK ^ l :: digits l (bn % ENTRY_PER_BLOCK ^ l) := by
      rw [hfull, digits, List.append_assoc, List.singleton_append]
    have hpi : IsPos (p ++ [i]) := (hfull' ▸ hpos).of_append
    refine bind_mapState (allocEntry_blind hT hw (isPos_closed _ _ hpi) hp i) fun _ s' hrun => ?_
    obtain ⟨⟨N, hf⟩, hp', b, hb⟩ := wp_ok (wp_allocEntry hw hp hpi hfull') hrun
    refine bind_mapState (readEntry_blind hT hf.wf (isPos_closed _ _ hpi) hp' i) fun v s2 hv => ?_
    rw [readEntry_ref] at hv
    cases hv
    rw [rawEntry_of_node hp' hb]
    refine bind_mapState rfl fun buf s3 hbuf => ?_
    cases hbuf
    exact bind_mapState (ih hf.wf hb hfull' hpos) fun _ _ _ => rfl

theorem locate_blind (hT : Blind T ip) (hw : s.Wf ip) {bn : Nat} (hbn : bn < MAX_BLOCKS) :
    inodeLocateBlock ip bn (T s) = mapState T (inodeLocateBlock ip bn s) := by
  obtain ⟨l, k, r, hpath, hrun⟩ := @inodeLocateBlock_eq z ip bn hbn
  rw [hrun]
  exact locateBlock_blind hT l hw rfl hpath (path_spec hbn).1

theorem pokeByte_blind (hT : Blind T ip) (hw : s.Wf ip) {off : Nat} (v : UInt8)
    (hoff : off / BLOCK_SIZE < MAX_BLOCKS) :
    pokeByte ip off v (T s) = mapState T (pokeByte ip off v s) := by
  refine bind_mapState (locate_blind hT hw hoff) fun b s' hrun => ?_
  obtain ⟨⟨N, hf⟩, hnode⟩ := wp_ok (wp_locate hw hoff) hrun
  have hb := (hf.wf.sound.inUse _ _ (path_spec hoff).1 hnode).bitmap_le
  rw [bind_run, bind_run]
  simp only [bufData_run, bufSet_run, hT.dev _ _ hb, mapState, hT.put _ _ _ hb]

theorem pokeBytes_blind (hT : Blind T ip) {g : Nat → UInt8} : ∀ (n : Nat) {off : Nat}
    {s : FsState (Blocks z)}, s.Wf ip → off + n ≤ MAX_BLOCKS * BLOCK_SIZE →
    pokeBytes ip g off n (T s) = mapState T (pokeBytes ip g off n s) := by
  intro n
  induction n with
  | zero => intro off s _ _; rfl
  | succ n ih =>
    intro off s hw hmax
    have hoff : off / BLOCK_SIZE < MAX_BLOCKS := Nat.div_lt_of_lt_mul (by rw [Nat.mul_comm]; omega)
    refine bind_mapState (pokeByte_blind hT hw (g off) hoff) fun _ s' hrun => ?_
    obtain ⟨N, hp⟩ := wp_ok (wp_pokeByte hw hoff) hrun
    exact ih hp.wf (by omega)

end Blind

/-! ## The inode is written in between -/

/-- The size is set, and the inode `n` put in place `i` of block `b`. -/
def FsState.patch (s : FsState (Blocks z)) (ip : IId) (m : UInt32) (b i : Nat) (n : Dinode) :
    FsState (Blocks z) :=
  (s.resize ip m).put b ((s.dev b).putInode i n)

theorem store_comm (d : Blocks z) {b c : Nat} (hb : b < sb.dataBitmapStart)
    (hc : sb.dataBitmapStart ≤ c) (x y : Block) : (d.store c x).store b y = (d.store b y).store c x := by
  have hbs : b < sb.dataStart := Nat.lt_trans hb (by decide)
  have hbne : b ≠ sb.dataBitmapStart := Nat.ne_of_lt hb
  funext w
  by_cases hw : w = b
  · subst hw
    rw [Blocks.store_same, Blocks.store_of_apart ⟨by omega, .inr (.inr hbs)⟩, Blocks.store_same]
  · have ha : Blocks.Apart z b w := ⟨hw, .inr (.inl hbne)⟩
    have hfresh : (d.store b y).fresh x w = d.fresh x w := by
      unfold Blocks.fresh
      rw [Blocks.store_of_apart (b := b) ⟨hbne.symm, .inr (.inl hbne)⟩]
    have hsame : d.store b y w = d w := Blocks.store_of_apart ha
    rw [Blocks.store_of_apart ha]
    show (if w = c then x else if z && c == sb.dataBitmapStart && d.fresh x w then Block.zero else d w) =
      if w = c then x
      else if z && c == sb.dataBitmapStart && (d.store b y).fresh x w then Block.zero
      else d.store b y w
    rw [hfresh, hsame]

section Patch

variable {ip : IId} {m : UInt32} {b i : Nat} {n : Dinode}

theorem blind_patch (hb : b < sb.dataBitmapStart) :
    Blind (fun s : FsState (Blocks z) => s.patch ip m b i n) ip where
  dev := fun s x hx => Blocks.store_of_apart ⟨by omega, .inr (.inl (Nat.ne_of_lt hb))⟩
  addrs := fun s => by simp [FsState.patch, FsState.resize]
  put := fun s c blk hc => by
    have hbs : b < sb.dataStart := Nat.lt_trans hb (by decide)
    have hold : s.dev.store c blk b = s.dev b := Blocks.store_of_apart ⟨by omega, .inr (.inr hbs)⟩
    show { s with dev := (s.dev.store c blk).store b ((s.dev.store c blk b).putInode i n), icache := _ } =
      { s with dev := (s.dev.store b ((s.dev b).putInode i n)).store c blk, icache := _ }
    rw [hold, store_comm _ hb hc]
    rfl
  link := fun s k v => by
    simp [FsState.patch, FsState.resize, FsState.link, FsState.setIp, FsState.put]

theorem flush_resize (s : FsState (Blocks z)) (ip : IId) (m : UInt32) :
    (s.resize ip m).flush ip = s.patch ip m (inodeBlock (s.icache ip).inodeNum)
      ((s.icache ip).inodeNum.toNat % INODE_PER_BLOCK) { (s.icache ip).d with size := m } := by
  simp [FsState.flush, FsState.patch, FsState.resize]

theorem flush_patch (s : FsState (Blocks z)) {m' : UInt32}
    (hb : inodeBlock (s.icache ip).inodeNum ≠ sb.dataBitmapStart) :
    (((s.patch ip m (inodeBlock (s.icache ip).inodeNum)
      ((s.icache ip).inodeNum.toNat % INODE_PER_BLOCK) n).resize ip m').flush ip) =
      (s.resize ip m').flush ip := by
  simp only [FsState.flush, FsState.patch, FsState.resize, FsState.put_icache, FsState.setIp_icache,
    upd_same, FsState.put_dev, FsState.setIp_dev, Blocks.store_same, Block.putInode_putInode]
  have hagain := FsState.put_again (s.setIp ip { s.icache ip with d := { (s.icache ip).d with size := m' } })
    hb ((s.dev (inodeBlock (s.icache ip).inodeNum)).putInode
      ((s.icache ip).inodeNum.toNat % INODE_PER_BLOCK) n)
  simp only [FsState.put, FsState.setIp, upd_upd] at hagain ⊢
  exact hagain _

end Patch

/-! ## Two writes -/

section Writes

variable {s : FsState (Blocks z)} {ip : IId}

theorem wf_blind {T : FsState (Blocks z) → FsState (Blocks z)} (hT : Blind T ip) (hw : s.Wf ip) :
    (T s).Wf ip := by
  have hnode : ∀ p, IsPos p → (T s).node ip p = s.node ip p := by
    refine Paths.walk_congr isPos_closed fun q j y hq hy => ?_
    unfold entries
    rw [rawEntry_blind hT hw (isPos_closed _ _ hq) hy]
  have hbit := hT.dev s _ (Nat.le_refl _)
  refine ⟨⟨hw.sound.sep.congr hnode, fun p b hp hb => ?_⟩, ?_⟩
  · obtain ⟨h1, h2⟩ := hw.sound.inUse p b hp ((hnode p hp).symm.trans hb)
    exact ⟨h1, by rw [hbit]; exact h2⟩
  · rcases hw.fresh with hz | hf
    · exact .inl hz
    · refine .inr fun n hn hfree => ?_
      rw [hbit] at hfree
      rw [hT.dev s _ (by simp only [sb]; omega), hf n hn hfree]

theorem pokeBytes_congr {g g' : Nat → UInt8} : ∀ (n : Nat) {off : Nat},
    (∀ pos, off ≤ pos → pos < off + n → g pos = g' pos) →
    (pokeBytes ip g off n : FsM (Blocks z) Unit) = pokeBytes ip g' off n := by
  intro n
  induction n with
  | zero => intro off _; rfl
  | succ n ih =>
    intro off h
    rw [pokeBytes, pokeBytes, h off (Nat.le_refl _) (by omega),
      ih fun pos h1 h2 => h pos (by omega) (by omega)]

/-- The number of bytes, and the bytes, as `inode_write_data` gets them. -/
def lenOf (l : List UInt8) : UInt32 := UInt32.ofNat l.length

def byteOf (l : List UInt8) (i : Nat) : UInt8 := l.getD i 0

theorem toNat_lenOf {l : List UInt8} (h : l.length ≤ MAX_BLOCKS * BLOCK_SIZE) :
    (lenOf l).toNat = l.length := by
  have hlt : MAX_BLOCKS * BLOCK_SIZE < 2 ^ 32 := by decide
  rw [lenOf, UInt32.toNat_ofNat', Nat.mod_eq_of_lt (by omega)]

/-- A write right after one that has set the size and written the inode: the inode that it writes
replaces the other one, so it ends as if the size had only been set now. -/
theorem write_after_flush {m offset len : UInt32} {src : Nat → UInt8} (hw : s.Wf ip)
    (held : (s.icache ip).slk = true)
    (hib : inodeBlock (s.icache ip).inodeNum < sb.dataBitmapStart) (hoff : offset.toNat ≤ m.toNat)
    (hmax : offset.toNat + len.toNat ≤ MAX_BLOCKS * BLOCK_SIZE) :
    inodeWriteData ip offset len src ((s.resize ip m).flush ip) =
      match pokeBytes ip (fun pos => src (pos - offset.toNat)) offset.toNat len.toNat s with
      | .ok _ t => .ok len ((t.resize ip (UInt32.ofNat
          (max m.toNat (offset.toNat + len.toNat)))).flush ip)
      | .error e t => .error e (t.patch ip m (inodeBlock (s.icache ip).inodeNum)
          ((s.icache ip).inodeNum.toNat % INODE_PER_BLOCK) { (s.icache ip).d with size := m }) := by
  have hT := @blind_patch z ip m _ ((s.icache ip).inodeNum.toNat % INODE_PER_BLOCK)
    { (s.icache ip).d with size := m } hib
  have hu := flush_resize s ip m
  have hip : ((s.resize ip m).flush ip).icache ip =
      { s.icache ip with d := { (s.icache ip).d with size := m } } := by
    simp [FsState.flush, FsState.resize]
  rw [inodeWriteData_run (by rw [hu]; exact wf_blind hT hw) (by rw [hip]; exact held)
    (by rw [hip]; exact hoff) hmax, hip, hu, pokeBytes_blind hT len.toNat hw hmax]
  cases hrun : pokeBytes ip (fun pos => src (pos - offset.toNat)) offset.toNat len.toNat s with
  | error e t => rfl
  | ok _ t =>
    obtain ⟨N, hp⟩ := wp_ok (wp_pokeBytes len.toNat hw hmax) hrun
    have hnum := hp.frame.size.2.2
    simp only [mapState]
    rw [← hnum, flush_patch t (by rw [hnum]; exact Nat.ne_of_lt hib)]

theorem pokeBytes_append (a b : List UInt8) (off : Nat) (s : FsState (Blocks z)) :
    pokeBytes ip (fun pos => byteOf (a ++ b) (pos - off)) off (a.length + b.length) s =
      (pokeBytes ip (fun pos => byteOf a (pos - off)) off a.length >>= fun _ =>
        pokeBytes ip (fun pos => byteOf b (pos - (off + a.length))) (off + a.length) b.length) s := by
  have ha : (pokeBytes ip (fun pos => byteOf (a ++ b) (pos - off)) off a.length : FsM (Blocks z) Unit) =
      pokeBytes ip (fun pos => byteOf a (pos - off)) off a.length :=
    pokeBytes_congr _ fun pos h1 h2 => by
      simp only [byteOf]
      rw [List.getD_append _ _ _ _ (by omega)]
  have hb : (pokeBytes ip (fun pos => byteOf (a ++ b) (pos - off)) (off + a.length) b.length :
      FsM (Blocks z) Unit) =
      pokeBytes ip (fun pos => byteOf b (pos - (off + a.length))) (off + a.length) b.length :=
    pokeBytes_congr _ fun pos h1 h2 => by
      simp only [byteOf]
      rw [List.getD_append_right _ _ _ _ (by omega), Nat.sub_sub]
  rw [pokeBytes_add, ha, hb]

theorem write_append_iff (h : WellFormed s ip) (hf : FreshZero s.dev) {offset : UInt32}
    {a b : List UInt8} (hoff : offset.toNat ≤ (s.icache ip).d.size.toNat)
    (hmax : offset.toNat + (a ++ b).length ≤ INODE_MAXSIZE.toNat) (t : FsState (Blocks z)) :
    inodeWriteData ip offset (lenOf (a ++ b)) (byteOf (a ++ b)) s = .ok (lenOf (a ++ b)) t ↔
      ∃ u, inodeWriteData ip offset (lenOf a) (byteOf a) s = .ok (lenOf a) u ∧
        inodeWriteData ip (offset + lenOf a) (lenOf b) (byteOf b) u = .ok (lenOf b) t := by
  have hlt : MAX_BLOCKS * BLOCK_SIZE < 2 ^ 32 := by decide
  rw [toNat_maxsize, List.length_append] at hmax
  have hA : (lenOf a).toNat = a.length := toNat_lenOf (by omega)
  have hB : (lenOf b).toNat = b.length := toNat_lenOf (by omega)
  have hAB : (lenOf (a ++ b)).toNat = a.length + b.length := by
    rw [toNat_lenOf (by rw [List.length_append]; omega), List.length_append]
  have hoffA : (offset + lenOf a).toNat = offset.toNat + a.length := by
    rw [toNat_add_of_lt (by omega), hA]
  have hwf : s.Wf ip := ⟨h.sound, hf⟩
  rw [inodeWriteData_run hwf h.held hoff (by rw [hAB]; omega),
    inodeWriteData_run hwf h.held hoff (by rw [hA]; omega), hAB, hA, pokeBytes_append, bind_run]
  cases ha : pokeBytes ip (fun pos => byteOf a (pos - offset.toNat)) offset.toNat a.length s with
  | error e s1 =>
    constructor
    · intro he; cases he
    · rintro ⟨u, he, -⟩; cases he
  | ok _ s1 =>
    obtain ⟨N, hp⟩ := wp_ok (wp_pokeBytes a.length hwf (by omega)) ha
    obtain ⟨-, hslk, hnum⟩ := hp.frame.size
    have hib : inodeBlock (s1.icache ip).inodeNum < sb.dataBitmapStart := by
      have := h.number
      rw [hnum]
      simp only [inodeBlock, sb, INODE_PER_BLOCK, BLOCK_SIZE, INODE_DISK_SIZE] at *
      omega
    have hm : (UInt32.ofNat (max (s.icache ip).d.size.toNat (offset.toNat + a.length))).toNat =
        max (s.icache ip).d.size.toNat (offset.toNat + a.length) := by
      have := (s.icache ip).d.size.toNat_lt
      rw [UInt32.toNat_ofNat', Nat.mod_eq_of_lt (by omega)]
    have hsecond := @write_after_flush z s1 ip (UInt32.ofNat (max (s.icache ip).d.size.toNat
      (offset.toNat + a.length))) (offset + lenOf a) (lenOf b) (byteOf b) hp.wf (hslk.trans h.held)
      hib (by rw [hoffA, hm]; omega) (by rw [hoffA, hB]; omega)
    rw [hoffA, hB, hm] at hsecond
    have hend : max (max (s.icache ip).d.size.toNat (offset.toNat + a.length))
        (offset.toNat + a.length + b.length) =
        max (s.icache ip).d.size.toNat (offset.toNat + (a.length + b.length)) := by omega
    rw [hend] at hsecond
    cases hb : pokeBytes ip (fun pos => byteOf b (pos - (offset.toNat + a.length)))
      (offset.toNat + a.length) b.length s1 with
    | error e s2 =>
      rw [hb] at hsecond
      constructor
      · intro he
        simp only [hb] at he
        cases he
      · rintro ⟨u, hu, he⟩
        injection hu with _ hu
        rw [← hu, hsecond] at he
        cases he
    | ok _ s2 =>
      simp only [hb] at hsecond
      constructor
      · intro he
        simp only [hb] at he
        injection he with _ he
        exact ⟨_, rfl, by rw [hsecond, he]⟩
      · rintro ⟨u, hu, he⟩
        injection hu with _ hu
        rw [← hu, hsecond] at he
        injection he with _ he
        simp only [hb, he]

end Writes

/-! ## Many reads -/

/-- `file_read`, with the bytes that are copied to `dst`. -/
def fileReadBytes (f : FileId) (len : UInt32) (dev : List UInt8) : FsM (Blocks z) (List UInt8) := do
  let file ← getFile f
  if !file.readable then return []
  match file.type, file.ip with
  | .unused, _ => return []
  | .device, _ => return dev
  | _, none => throw .fault
  | _, some ip =>
    inodeLock ip
    let bytes ← inodeReadData ip file.offset len
    modFile f fun file => { file with offset := file.offset + UInt32.ofNat bytes.length }
    inodeUnlock ip
    return bytes

/-- `file_read` is this function with the bytes counted. -/
theorem fileRead_eq (f : FileId) (len : UInt32) (dev : List UInt8) :
    (fileRead f len (UInt32.ofNat dev.length) : FsM (Blocks z) UInt32) =
      (fun bytes => UInt32.ofNat bytes.length) <$> fileReadBytes f len dev := by
  simp only [fileRead, fileReadBytes, map_bind]
  congr 1
  funext file
  split
  · simp
  generalize file.type = type, file.ip = inode
  cases type <;> cases inode <;> first | rfl | simp

/-- One `file_read` after the other, and all their bytes. -/
def readAll (f : FileId) : List UInt32 → FsM (Blocks z) (List UInt8)
  | [] => return []
  | len :: lens => do
    let bytes ← fileReadBytes f len []
    let rest ← readAll f lens
    return bytes ++ rest

def total (lens : List UInt32) : Nat := (lens.map UInt32.toNat).sum

/-- The file is open for reading on `ip`, whose blocks are there. -/
structure OpenAt (s : FsState (Blocks z)) (f : FileId) (ip : IId) : Prop where
  readable : (s.ftable f).readable = true
  type : (s.ftable f).type = .file ∨ (s.ftable f).type = .dir
  inode : (s.ftable f).ip = some ip
  ref : 0 < (s.icache ip).ref
  unlocked : (s.icache ip).slk = false
  there : Readable (s.lock ip) ip

section Reads

variable {s : FsState (Blocks z)} {f : FileId} {ip : IId}

theorem clamp_add {size o a b : Nat} :
    clamp size o (a + b) = clamp size o a + clamp size (o + clamp size o a) b := by
  unfold clamp
  split
  · rw [if_pos (by omega)]
  · rw [if_neg (by omega)]
    omega

theorem clamp_le {size o a : Nat} : clamp size o a ≤ a := by
  unfold clamp
  split <;> omega

theorem fileReadBytes_run (h : OpenAt s f ip) {len : UInt32}
    (hlt : (s.ftable f).offset.toNat + len.toNat < 2 ^ 32) :
    ∃ s', fileReadBytes f len [] s = .ok (fileBytes ((s.lock ip).icache ip).d.addrs s.dev
        (s.ftable f).offset.toNat
        (clamp ((s.lock ip).icache ip).d.size.toNat (s.ftable f).offset.toNat len.toNat)) s' ∧
      OpenAt s' f ip ∧ (s'.lock ip).icache ip = (s.lock ip).icache ip ∧ s'.dev = s.dev ∧
      (s'.ftable f).offset.toNat = (s.ftable f).offset.toNat +
        clamp ((s.lock ip).icache ip).d.size.toNat (s.ftable f).offset.toNat len.toNat := by
  have hnw : (s.ftable f).offset.toNat ≤ ((s.lock ip).icache ip).d.size.toNat →
      ¬ Wraps (s.ftable f).offset len ((s.lock ip).icache ip).d.size := fun _ hw =>
    absurd hw.1 (by omega)
  have hread := inodeReadData_run h.there hnw
  have hdev : (s.lock ip).dev = s.dev := rfl
  rw [hdev] at hread
  have hcl := @clamp_le ((s.lock ip).icache ip).d.size.toNat (s.ftable f).offset.toNat len.toNat
  generalize hbytes : fileBytes ((s.lock ip).icache ip).d.addrs s.dev (s.ftable f).offset.toNat
    (clamp ((s.lock ip).icache ip).d.size.toNat (s.ftable f).offset.toNat len.toNat) = bytes at *
  have hlen : bytes.length =
      clamp ((s.lock ip).icache ip).d.size.toNat (s.ftable f).offset.toNat len.toNat := by
    rw [← hbytes, fileBytes, List.length_map, List.length_range]
  -- the state after the read: unlocked again, with the offset moved on
  let s1 : FsState (Blocks z) := { s.lock ip with
    ftable := upd s.ftable f { s.ftable f with
      offset := (s.ftable f).offset + UInt32.ofNat bytes.length } }
  let s2 := s1.setIp ip { s1.icache ip with slk := false }
  have hrun : fileReadBytes f len [] s = .ok bytes s2 := by
    have hget : (getFile f : FsM (Blocks z) File) s = .ok (s.ftable f) s := rfl
    have hmod : (modFile f fun file => { file with
        offset := file.offset + UInt32.ofNat bytes.length } : FsM (Blocks z) Unit) (s.lock ip) =
        .ok () s1 := rfl
    have hheld : (s1.icache ip).slk = true := h.there.held
    rw [fileReadBytes, bind_of_ok hget]
    rcases h.type with ht | ht
    all_goals
      simp only [h.readable, ht, h.inode, Bool.not_true, Bool.false_eq_true, if_false]
      rw [bind_of_ok (inodeLock_run h.ref h.unlocked), bind_of_ok hread, bind_of_ok hmod,
        bind_of_ok (inodeUnlock_run hheld)]
      rfl
  have hip : s2.icache ip = { (s.lock ip).icache ip with slk := false } := by
    simp [s2, s1]
  have hlock : (s2.lock ip).icache ip = (s.lock ip).icache ip := by
    rw [FsState.lock, FsState.setIp_icache, upd_same, hip]
    simp [FsState.lock]
  have hfile : s2.ftable f = { s.ftable f with
      offset := (s.ftable f).offset + UInt32.ofNat bytes.length } := by
    simp [s2, s1]
  have hnode : ∀ p, (s2.lock ip).node ip p = (s.lock ip).node ip p := fun p => by
    rw [FsState.node, FsState.node, hlock]
    rfl
  refine ⟨s2, hrun, ?_, hlock, rfl, ?_⟩
  · exact
      { readable := by rw [hfile]; exact h.readable
        type := by rw [hfile]; exact h.type
        inode := by rw [hfile]; exact h.inode
        ref := by rw [hip]; simpa [FsState.lock] using h.ref
        unlocked := by rw [hip]
        there :=
          { held := by rw [hlock]; exact h.there.held
            size := by rw [hlock]; exact h.there.size
            there := fun pos hpos => by
              rw [hlock] at hpos
              obtain ⟨b, hb⟩ := h.there.there pos hpos
              exact ⟨b, by rw [hnode, hb]⟩ } }
  · rw [hfile, ← hlen]
    have hof : (UInt32.ofNat bytes.length).toNat = bytes.length := by
      rw [UInt32.toNat_ofNat', Nat.mod_eq_of_lt (by omega)]
    rw [toNat_add_of_lt (by omega), hof]

theorem readAll_run : ∀ (lens : List UInt32) {s : FsState (Blocks z)}, OpenAt s f ip →
    (s.ftable f).offset.toNat + total lens < 2 ^ 32 →
    ∃ s', readAll f lens s = .ok (fileBytes ((s.lock ip).icache ip).d.addrs s.dev
      (s.ftable f).offset.toNat
      (clamp ((s.lock ip).icache ip).d.size.toNat (s.ftable f).offset.toNat (total lens))) s' := by
  intro lens
  induction lens with
  | nil =>
    intro s _ _
    have h0 : clamp ((s.lock ip).icache ip).d.size.toNat (s.ftable f).offset.toNat 0 = 0 :=
      Nat.le_zero.mp clamp_le
    refine ⟨s, ?_⟩
    rw [show total [] = 0 from rfl, h0]
    rfl
  | cons len lens ih =>
    intro s h hlt
    have htotal : total (len :: lens) = len.toNat + total lens := by simp [total]
    rw [htotal] at hlt ⊢
    obtain ⟨s1, hrun, h1, hlock, hdev, hoff⟩ := @fileReadBytes_run z s f ip h len (by omega)
    have hcl := @clamp_le ((s.lock ip).icache ip).d.size.toNat (s.ftable f).offset.toNat len.toNat
    obtain ⟨s2, hrest⟩ := ih h1 (by rw [hoff]; omega)
    refine ⟨s2, ?_⟩
    rw [readAll, bind_of_ok hrun, bind_of_ok hrest, hlock, hdev, hoff, clamp_add, fileBytes_add]
    rfl

end Reads

/-- Cutting up requests. A write of `a ++ b` that is accepted returns in the state in which writes of
`a` and then of `b` return. Reads of an open file one after the other return the bytes that one read
of the total length returns. -/
theorem requests_split :
    (∀ (s : FsState (Blocks true)) (ip : IId) (offset : UInt32) (a b : List UInt8)
      (t : FsState (Blocks true)), WellFormed s ip →
      offset.toNat ≤ (s.icache ip).d.size.toNat →
      offset.toNat + (a ++ b).length ≤ INODE_MAXSIZE.toNat →
      (inodeWriteData ip offset (lenOf (a ++ b)) (byteOf (a ++ b)) s = .ok (lenOf (a ++ b)) t ↔
        ∃ u, inodeWriteData ip offset (lenOf a) (byteOf a) s = .ok (lenOf a) u ∧
          inodeWriteData ip (offset + lenOf a) (lenOf b) (byteOf b) u = .ok (lenOf b) t)) ∧
    ∀ (s : FsState (Blocks true)) (f : FileId) (ip : IId) (lens : List UInt32), OpenAt s f ip →
      (s.ftable f).offset.toNat + total lens < 2 ^ 32 →
      ∃ bytes s', readAll f lens s = .ok bytes s' ∧
        inodeReadData ip (s.ftable f).offset (UInt32.ofNat (total lens)) (s.lock ip) =
          .ok bytes (s.lock ip) := by
  refine ⟨fun s ip offset a b t h hoff hmax => write_append_iff h (.inl rfl) hoff hmax t,
    fun s f ip lens h hlt => ?_⟩
  obtain ⟨s', hrun⟩ := readAll_run lens h hlt
  have htot : (UInt32.ofNat (total lens)).toNat = total lens := by
    rw [UInt32.toNat_ofNat', Nat.mod_eq_of_lt (by omega)]
  refine ⟨_, s', hrun, ?_⟩
  rw [inodeReadData_run h.there fun _ hw => absurd hw.1 (by rw [htot]; omega), htot]
  rfl

/-- The file of one byte, on a disk that gives out blocks of zeros. -/
def zeroedByte : FsState (Blocks true) := { oneByte with dev := oneByte.dev }

theorem wellFormed_zeroedByte : WellFormed zeroedByte 0 where
  held := rfl
  size := by decide
  there := oneByte_there
  number := by decide
  sound := ⟨wellFormed_oneByte.sound.sep, wellFormed_oneByte.sound.inUse⟩

def openByte : FsState (Blocks true) :=
  { zeroedByte with
    icache := fun i => { zeroedByte.icache i with slk := false }
    ftable := fun _ =>
      { type := .file, readable := true, writable := false, ref := 1, major := 0, offset := 0,
        ip := some 0 } }

theorem openAt_openByte : OpenAt openByte 0 0 :=
  ⟨rfl, .inl rfl, rfl, by decide, rfl, ⟨rfl, by decide, oneByte_there⟩⟩

/-- Two bytes are appended at once or one by one, and read one by one or at once. -/
theorem requests_split_two :
    (∃ t u, inodeWriteData 0 1 (lenOf [7, 8]) (byteOf [7, 8]) zeroedByte = .ok (lenOf [7, 8]) t ∧
      inodeWriteData 0 1 (lenOf [7]) (byteOf [7]) zeroedByte = .ok (lenOf [7]) u ∧
      inodeWriteData 0 (1 + lenOf [7]) (lenOf [8]) (byteOf [8]) u = .ok (lenOf [8]) t) ∧
    ∃ bytes s', readAll 0 [1, 1] openByte = .ok bytes s' ∧
      inodeReadData 0 0 2 (openByte.lock 0) = .ok bytes (openByte.lock 0) := by
  constructor
  · have hserved : Served zeroedByte 0 1 (lenOf [7, 8]) :=
      .inr ⟨by decide, fun h => absurd h (by decide)⟩
    have hnone : zeroedByte.missing 0 1 (1 + 2) = ∅ := by decide
    have hwhole := @whole_of_served _ zeroedByte 0 1 (lenOf [7, 8]) (byteOf [7, 8])
      wellFormed_zeroedByte (.inl rfl) hserved fun _ => by
        show (zeroedByte.missing 0 1 (1 + 2)).card ≤ _
        rw [hnone]
        exact Nat.zero_le _
    rw [WholeOrNothing, if_neg (by decide)] at hwhole
    obtain ⟨t, ht, -⟩ := hwhole
    obtain ⟨u, hu, ht'⟩ := (requests_split.1 zeroedByte 0 1 [7] [8] t wellFormed_zeroedByte
      (by decide) (by decide)).mp ht
    exact ⟨t, u, ht, hu, ht'⟩
  · exact requests_split.2 openByte 0 0 [1, 1] openAt_openByte (by decide)

end Fs
end WhuOS
