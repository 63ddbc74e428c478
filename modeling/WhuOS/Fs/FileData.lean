import WhuOS.Fs.BlockMap

/-!
# WhuOS.Fs.FileData

`inode_read_data` and `inode_write_data` work block by block; here they are related to the bytes of
the file (`byteAt`).

* `pokeBytes`          — one byte after the other, each with its own lookup.
* `writeLoop_eq`       — the loop of `inode_write_data` ends in the same state.
* `wp_pokeBytes`       — which bytes change, and which positions are filled.
* `readLoop_eq`        — the loop of `inode_read_data`.
-/

namespace WhuOS
namespace Fs

open Lib Kern

variable {z : Bool}

/-! ## Writing to a data block -/

namespace FsState

theorem put_again (s : FsState (Blocks z)) {b : Nat} (hb : b ≠ sb.dataBitmapStart) (x y : Block) :
    (s.put b x).put b y = s.put b y := by
  have hd : (s.dev.store b x).store b y = s.dev.store b y := by
    funext w
    by_cases hw : w = b
    · subst hw; rw [Blocks.store_same, Blocks.store_same]
    · have ha : Blocks.Apart z b w := ⟨hw, .inr (.inl hb)⟩
      rw [Blocks.store_of_apart ha, Blocks.store_of_apart ha, Blocks.store_of_apart ha]
  show { s with dev := (s.dev.store b x).store b y } = _
  rw [hd]
  rfl

end FsState

section Leaf

variable {s : FsState (Blocks z)} {ip : IId} {q : List Nat} {b : Nat}

/-- Block `b` is at a position for data. -/
structure DataAt (s : FsState (Blocks z)) (ip : IId) (q : List Nat) (b : Nat) : Prop where
  wf : s.Wf ip
  pos : IsPos q
  leaf : IsLeaf q
  node : s.node ip q = some (.block b)

namespace DataAt

variable (h : DataAt s ip q b) (blk : Block)
include h

theorem inUse : InUse s.dev b := h.wf.sound.inUse q b h.pos h.node

theorem dev_other {x : Nat} (hx : x ≠ b) : (s.put b blk).dev x = s.dev x :=
  Blocks.store_of_apart ⟨hx, .inr (.inl h.inUse.ne_bitmap)⟩

theorem bitmap : (s.put b blk).dev sb.dataBitmapStart = s.dev sb.dataBitmapStart :=
  h.dev_other blk h.inUse.ne_bitmap.symm

theorem node_put {p : List Nat} (hp : IsPos p) : (s.put b blk).node ip p = s.node ip p := by
  refine Paths.walk_congr isPos_closed ?_ p hp
  intro p j y hp hy
  unfold entries
  cases y with
  | inode => rfl
  | block c =>
    have hne : c ≠ b := by
      rintro rfl
      have := h.wf.sound.sep p q _ (isPos_closed _ _ hp) h.pos hy h.node
      exact hp.not_leaf (this ▸ h.leaf)
    simp only [rawEntry]
    rw [h.dev_other blk hne]

theorem wf_put : (s.put b blk).Wf ip where
  sound :=
    { sep := h.wf.sound.sep.congr fun p hp => h.node_put blk hp
      inUse := fun p c hp hc => by
        obtain ⟨h1, h2⟩ := h.wf.sound.inUse p c hp ((h.node_put blk hp).symm.trans hc)
        exact ⟨h1, by rw [h.bitmap]; exact h2⟩ }
  fresh := by
    rcases h.wf.fresh with hz | hf
    · exact .inl hz
    · refine .inr fun n hn hfree => ?_
      rw [h.bitmap] at hfree
      rw [h.dev_other, hf n hn hfree]
      rintro rfl
      have hm := h.inUse.2
      rw [Nat.add_sub_cancel_left] at hm
      exact hfree hm

theorem grows_put : Grows s (s.put b blk) ip ∅ where
  old := fun p hp _ => h.node_put blk hp
  empty := by simp
  new := by simp
  taken := fun n => by
    unfold FsState.taken
    rw [h.bitmap]
    simp
  others := fun x _ hout => h.dev_other blk fun he =>
    hout q h.pos (by rw [h.node_put blk h.pos, h.node, he])

theorem onlyAddrs_put : OnlyAddrs s (s.put b blk) ip where
  low := fun x hx => h.dev_other blk fun he => by
    have h1 := h.inUse.1
    simp only [sb] at *
    omega
  inode := by
    show _ = { s with dev := _, icache := upd s.icache ip (s.icache ip) }
    rw [upd_self]
    rfl

theorem byteAt_put {bn pos : Nat} (hq : q = path bn) (hbn : bn < MAX_BLOCKS)
    (hpos : pos / BLOCK_SIZE < MAX_BLOCKS) :
    byteAt ((s.put b blk).icache ip).d.addrs (s.put b blk).dev pos =
      if pos / BLOCK_SIZE = bn then blk.byte (pos % BLOCK_SIZE)
      else byteAt (s.icache ip).d.addrs s.dev pos := by
  have hp := (path_spec hpos).1
  rw [byteAt, byteAt, ← FsState.node, ← FsState.node, h.node_put blk hp]
  split_ifs with he
  · rw [he, ← hq, h.node]
    simp only
    rw [FsState.put_dev, Blocks.store_same]
  · cases hc : s.node ip (path (pos / BLOCK_SIZE)) with
    | none => rfl
    | some y =>
      cases y with
      | inode => rfl
      | block c =>
        simp only
        rw [h.dev_other]
        rintro rfl
        have := h.wf.sound.sep _ _ _ hp h.pos hc h.node
        exact he (path_injective hpos hbn (this.trans hq))

end DataAt

end Leaf

/-! ## Byte by byte -/

/-- Write one byte of the file, with a lookup of its block. -/
def pokeByte (ip : IId) (off : Nat) (v : UInt8) : FsM (Blocks z) Unit := do
  let blockNum ← inodeLocateBlock ip (off / BLOCK_SIZE)
  let d ← bufData blockNum.toNat
  bufSet blockNum.toNat (d.blit (off % BLOCK_SIZE) 1 fun _ => v)

/-- Write `n` bytes from `off` on; byte `pos` of the file becomes `g pos`. -/
def pokeBytes (ip : IId) (g : Nat → UInt8) : Nat → Nat → FsM (Blocks z) Unit
  | _, 0 => return ()
  | off, n + 1 => do
    pokeByte ip off (g off)
    pokeBytes ip g (off + 1) n

section Poke

variable {s t : FsState (Blocks z)} {ip : IId} {g : Nat → UInt8}

theorem pokeBytes_add : ∀ (n m off : Nat) (s : FsState (Blocks z)),
    pokeBytes ip g off (n + m) s = (pokeBytes ip g off n >>= fun _ => pokeBytes ip g (off + n) m) s := by
  intro n
  induction n with
  | zero => intro m off s; rw [Nat.zero_add]; rfl
  | succ n ih =>
    intro m off s
    rw [show n + 1 + m = (n + m) + 1 by omega, pokeBytes, pokeBytes, bind_assoc, bind_run, bind_run]
    cases pokeByte ip off (g off) s with
    | error e s' => rfl
    | ok u s' => simp only; rw [ih, show off + 1 + n = off + (n + 1) by omega]

theorem pokeBytes_error {off n : Nat} {e : Stop} (hn : 0 < n)
    (h : inodeLocateBlock ip (off / BLOCK_SIZE) s = .error e t) :
    pokeBytes ip g off n s = .error e t := by
  cases n with
  | zero => omega
  | succ n =>
    rw [pokeBytes]
    exact bind_of_error (bind_of_error h)

theorem blit_blit_one {d : Block} {o n : Nat} {src : Nat → UInt8} :
    (d.blit o n src).blit (o + n) 1 (fun _ => src n) = d.blit o (n + 1) src := by
  funext i
  simp only [Block.blit]
  by_cases h1 : o + n ≤ i.val ∧ i.val < o + n + 1
  · rw [if_pos h1, if_pos (by omega), show i.val - o = n by omega]
  · rw [if_neg h1]
    by_cases h2 : o ≤ i.val ∧ i.val < o + n
    · rw [if_pos h2, if_pos (by omega)]
    · rw [if_neg h2, if_neg (by omega)]

theorem pokeBytes_block {off : Nat} {v : UInt32} (hoff : off / BLOCK_SIZE < MAX_BLOCKS)
    (hlocate : inodeLocateBlock ip (off / BLOCK_SIZE) s = .ok v t)
    (hd : DataAt t ip (path (off / BLOCK_SIZE)) v.toNat) : ∀ n, off % BLOCK_SIZE + (n + 1) ≤ BLOCK_SIZE →
    pokeBytes ip g off (n + 1) s = .ok () (t.put v.toNat
      ((t.dev v.toNat).blit (off % BLOCK_SIZE) (n + 1) fun i => g (off + i))) := by
  have hbit := hd.inUse.ne_bitmap
  intro n
  induction n with
  | zero =>
    intro _
    have hone : (t.dev v.toNat).blit (off % BLOCK_SIZE) 1 (fun _ => g off) =
        (t.dev v.toNat).blit (off % BLOCK_SIZE) 1 fun i => g (off + i) := by
      funext i
      simp only [Block.blit]
      by_cases hi : off % BLOCK_SIZE ≤ i.val ∧ i.val < off % BLOCK_SIZE + 1
      · rw [if_pos hi, if_pos hi, show i.val - off % BLOCK_SIZE = 0 by omega, Nat.add_zero]
      · rw [if_neg hi, if_neg hi]
    rw [pokeBytes, bind_run, pokeByte, bind_of_ok hlocate]
    simp only [bind_run, bufData_run, bufSet_run, pokeBytes, pure_run, Nat.zero_add, hone]
  | succ n ih =>
    intro hn
    rw [pokeBytes_add, bind_of_ok (ih (by omega))]
    have hsame : (off + (n + 1)) / BLOCK_SIZE = off / BLOCK_SIZE := by
      simp only [BLOCK_SIZE] at *; omega
    have hmod : (off + (n + 1)) % BLOCK_SIZE = off % BLOCK_SIZE + (n + 1) := by
      simp only [BLOCK_SIZE] at *; omega
    -- the block is still at its position
    obtain ⟨w, hw, hagain⟩ := locate_there hoff ((hd.node_put _ hd.pos).trans hd.node)
    rw [pokeBytes, bind_run, pokeByte, hsame, bind_of_ok hagain, hmod, hw]
    simp only [bind_run, bufData_run, bufSet_run, pokeBytes, pure_run, FsState.put_dev,
      Blocks.store_same]
    rw [FsState.put_again _ hbit, blit_blit_one]

/-- `q` is on the way to a byte from `lo` to before `hi`. -/
def OnBytes (lo hi : Nat) (q : List Nat) : Prop :=
  ∃ pos, lo ≤ pos ∧ pos < hi ∧ q <+: path (pos / BLOCK_SIZE)

/-- The bytes from `off` on were written; positions on the way to them were filled. -/
structure Pokes (s s' : FsState (Blocks z)) (ip : IId) (g : Nat → UInt8) (off n : Nat)
    (N : Finset (List Nat)) : Prop where
  wf : s'.Wf ip
  grows : Grows s s' ip N
  frame : OnlyAddrs s s' ip
  onPaths : ∀ q ∈ N, OnBytes off (off + n) q
  there : ∀ pos, off ≤ pos → pos < off + n →
    ∃ b, s'.node ip (path (pos / BLOCK_SIZE)) = some (.block b)
  bytes : ∀ pos, pos / BLOCK_SIZE < MAX_BLOCKS →
    byteAt (s'.icache ip).d.addrs s'.dev pos =
      if off ≤ pos ∧ pos < off + n then g pos else byteAt (s.icache ip).d.addrs s.dev pos

/-- No data block is left for a position on the way to the bytes. -/
def PokesOut (s : FsState (Blocks z)) (ip : IId) (off n : Nat) (e : Stop) (s' : FsState (Blocks z)) :
    Prop :=
  e = noBit ∧ (∃ N, Grows s s' ip N ∧ ∀ q ∈ N, OnBytes off (off + n) q) ∧
    (∀ m, m < BIT_PER_BLOCK → m ∈ s'.taken) ∧
    ∃ q, IsPos q ∧ OnBytes off (off + n) q ∧ s'.node ip q = none

theorem OnBytes.mono {lo hi lo' hi' : Nat} {q : List Nat} (h : OnBytes lo hi q) (hlo : lo' ≤ lo)
    (hhi : hi ≤ hi') : OnBytes lo' hi' q := by
  obtain ⟨pos, h1, h2, h3⟩ := h
  exact ⟨pos, by omega, by omega, h3⟩

theorem wp_pokeByte {off : Nat} (hw : s.Wf ip) (hoff : off / BLOCK_SIZE < MAX_BLOCKS) :
    wp (pokeByte ip off (g off)) (fun _ s' => ∃ N, Pokes s s' ip g off 1 N) (PokesOut s ip off 1) s := by
  simp only [pokeByte, wp_bind]
  refine wp_conseq (wp_locate hw hoff) ?_ ?_
  · rintro v t ⟨⟨N, hf⟩, hnode⟩
    obtain ⟨hpos, hleaf⟩ := path_spec hoff
    have hd : DataAt t ip (path (off / BLOCK_SIZE)) v.toNat := ⟨hf.wf, hpos, hleaf, hnode⟩
    refine wp_of_ok (bufData_run _ _) (wp_of_ok (bufSet_run _ _ _) ⟨N ∪ ∅, hd.wf_put _,
      hf.grows.trans (hd.grows_put _), hf.frame.trans (hd.onlyAddrs_put _), ?_, ?_, ?_⟩)
    · intro q hq
      exact ⟨off, Nat.le_refl _, Nat.lt_succ_self _, hf.onPath q (by simpa using hq)⟩
    · intro pos h1 h2
      rw [show pos = off by omega]
      exact ⟨_, (hd.node_put _ hpos).trans hnode⟩
    · intro pos hp
      rw [hd.byteAt_put _ rfl hoff hp, hf.bytes pos hp,
        Block.byte_blit (by simp only [BLOCK_SIZE]; omega)]
      by_cases he : off ≤ pos ∧ pos < off + 1
      · have : pos = off := by omega
        subst this
        have hin := @Bytes.write_inside (t.dev v.toNat).byte (pos % BLOCK_SIZE) 1 0
          (fun _ => g pos) Nat.one_pos
        rw [if_pos rfl, if_pos he]
        exact hin
      · rw [if_neg he]
        split_ifs with hb
        · rw [Bytes.write_outside (by simp only [BLOCK_SIZE] at *; omega), ← hf.bytes pos hp, byteAt, hb,
            ← FsState.node, hnode]
        · rfl
  · rintro e t ⟨he, ⟨N, hf⟩, hall, q, hq, hon, hnone⟩
    refine ⟨he, ⟨N, hf.grows, fun q hq => ?_⟩, hall, q, hq, ?_, hnone⟩
    · exact ⟨off, Nat.le_refl _, Nat.lt_succ_self _, hf.onPath q hq⟩
    · exact ⟨off, Nat.le_refl _, Nat.lt_succ_self _, hon⟩

theorem Pokes.nil (hw : s.Wf ip) (off : Nat) : Pokes s s ip g off 0 ∅ where
  wf := hw
  grows := .refl s ip
  frame := .refl s ip
  onPaths := by simp
  there := fun pos h1 h2 => by omega
  bytes := fun pos _ => by rw [if_neg (by omega)]

theorem Pokes.append {s' s'' : FsState (Blocks z)} {off n m : Nat} {N N' : Finset (List Nat)}
    (hmax : (off + n + m) ≤ MAX_BLOCKS * BLOCK_SIZE)
    (h : Pokes s s' ip g off n N) (h' : Pokes s' s'' ip g (off + n) m N') :
    Pokes s s'' ip g off (n + m) (N ∪ N') where
  wf := h'.wf
  grows := h.grows.trans h'.grows
  frame := h.frame.trans h'.frame
  onPaths := fun q hq => by
    rcases Finset.mem_union.mp hq with hq | hq
    · exact (h.onPaths q hq).mono (Nat.le_refl _) (by omega)
    · exact (h'.onPaths q hq).mono (by omega) (by omega)
  there := fun pos h1 h2 => by
    by_cases hp : pos < off + n
    · obtain ⟨b, hb⟩ := h.there pos h1 hp
      have hmax' : pos / BLOCK_SIZE < MAX_BLOCKS := Nat.div_lt_of_lt_mul (by rw [Nat.mul_comm]; omega)
      exact ⟨b, h'.grows.keeps (path_spec hmax').1 hb⟩
    · exact h'.there pos (by omega) (by omega)
  bytes := fun pos hp => by
    rw [h'.bytes pos hp, h.bytes pos hp]
    by_cases h1 : off + n ≤ pos ∧ pos < off + n + m
    · rw [if_pos h1, if_pos (by omega)]
    · rw [if_neg h1]
      by_cases h2 : off ≤ pos ∧ pos < off + n
      · rw [if_pos h2, if_pos (by omega)]
      · rw [if_neg h2, if_neg (by omega)]

theorem PokesOut.after {s' : FsState (Blocks z)} {off n m : Nat} {N : Finset (List Nat)} {e : Stop}
    {s'' : FsState (Blocks z)} (h : Pokes s s' ip g off n N) (h' : PokesOut s' ip (off + n) m e s'') :
    PokesOut s ip off (n + m) e s'' := by
  obtain ⟨he, ⟨N', hg, hon⟩, hall, q, hq, hq', hnone⟩ := h'
  refine ⟨he, ⟨N ∪ N', h.grows.trans hg, fun q hq => ?_⟩, hall, q, hq,
    hq'.mono (by omega) (by omega), hnone⟩
  rcases Finset.mem_union.mp hq with hq | hq
  · exact (h.onPaths q hq).mono (Nat.le_refl _) (by omega)
  · exact (hon q hq).mono (by omega) (by omega)

theorem wp_pokeBytes : ∀ (n : Nat) {off : Nat} {s : FsState (Blocks z)}, s.Wf ip →
    off + n ≤ MAX_BLOCKS * BLOCK_SIZE →
    wp (pokeBytes ip g off n) (fun _ s' => ∃ N, Pokes s s' ip g off n N) (PokesOut s ip off n) s := by
  intro n
  induction n with
  | zero => intro off s hw _; exact ⟨∅, .nil hw off⟩
  | succ n ih =>
    intro off s hw hmax
    have hoff : off / BLOCK_SIZE < MAX_BLOCKS := Nat.div_lt_of_lt_mul (by rw [Nat.mul_comm]; omega)
    rw [pokeBytes, wp_bind, Nat.add_comm n 1]
    refine wp_conseq (wp_pokeByte hw hoff) ?_ ?_
    · rintro _ t ⟨N, h1⟩
      refine wp_conseq (ih h1.wf (by omega)) ?_ fun e s'' h => .after h1 h
      rintro _ u ⟨N', h2⟩
      exact ⟨N ∪ N', h1.append (by omega) h2⟩
    · rintro e t ⟨he, ⟨N, hg, hon⟩, hall, q, hq, hq', hnone⟩
      exact ⟨he, ⟨N, hg, fun q hq => (hon q hq).mono (Nat.le_refl _) (by omega)⟩, hall, q, hq,
        hq'.mono (Nat.le_refl _) (by omega), hnone⟩

end Poke

/-! ## The loops -/

theorem toNat_chunk {offset len total : UInt32} (h : total.toNat ≤ len.toNat) :
    (if 1024 - offset % 1024 > len - total then len - total else 1024 - offset % 1024).toNat =
      min (BLOCK_SIZE - offset.toNat % BLOCK_SIZE) (len.toNat - total.toNat) := by
  have h1 : (offset % 1024).toNat = offset.toNat % 1024 := by rw [UInt32.toNat_mod]; rfl
  have hlt : offset.toNat % 1024 < 1024 := Nat.mod_lt _ (by decide)
  have h2 : (1024 - offset % 1024 : UInt32).toNat = 1024 - offset.toNat % 1024 := by
    rw [UInt32.toNat_sub_of_le _ _ (by rw [UInt32.le_iff_toNat_le, h1]; exact hlt.le), h1]
    rfl
  have h3 : (len - total).toNat = len.toNat - total.toNat :=
    UInt32.toNat_sub_of_le _ _ (by rw [UInt32.le_iff_toNat_le]; exact h)
  simp only [BLOCK_SIZE]
  split
  · rename_i hgt
    rw [gt_iff_lt, UInt32.lt_iff_toNat_lt, h2, h3] at hgt
    rw [h3]
    omega
  · rename_i hgt
    rw [gt_iff_lt, UInt32.lt_iff_toNat_lt, h2, h3] at hgt
    rw [h2]
    omega

theorem toNat_add_of_lt {a b : UInt32} (h : a.toNat + b.toNat < 2 ^ 32) :
    (a + b).toNat = a.toNat + b.toNat := by
  rw [UInt32.toNat_add, Nat.mod_eq_of_lt h]

section Loops

variable {s : FsState (Blocks z)} {ip : IId} {g : Nat → UInt8}

theorem blit_congr {d : Block} {o n : Nat} {f g : Nat → UInt8} (h : ∀ i, i < n → f i = g i) :
    d.blit o n f = d.blit o n g := by
  funext i
  simp only [Block.blit]
  split
  · exact h _ (by omega)
  · rfl

theorem writeLoop_eq {len : UInt32} {src : Nat → UInt8} : ∀ (fuel : Nat) {offset total : UInt32}
    {s : FsState (Blocks z)}, s.Wf ip → total.toNat ≤ len.toNat → len.toNat - total.toNat ≤ fuel →
    offset.toNat + (len.toNat - total.toNat) ≤ MAX_BLOCKS * BLOCK_SIZE →
    (∀ i, i < len.toNat - total.toNat → g (offset.toNat + i) = src (total.toNat + i)) →
    writeLoop ip len src fuel offset total s =
      match pokeBytes ip g offset.toNat (len.toNat - total.toNat) s with
      | .ok _ t => .ok (UInt32.ofNat (offset.toNat + (len.toNat - total.toNat)), len) t
      | .error e t => .error e t := by
  intro fuel
  induction fuel with
  | zero =>
    intro offset total s _ hle hfuel _ _
    have h0 : len.toNat - total.toNat = 0 := by omega
    have heq : total = len := UInt32.toNat_inj.mp (by omega)
    rw [h0, Nat.add_zero, UInt32.ofNat_toNat]
    simp only [writeLoop, pokeBytes, pure_run, heq]
  | succ fuel ih =>
    intro offset total s hw hle hfuel hmax hg
    by_cases hlt : total < len
    · have hlt' := UInt32.lt_iff_toNat_lt.mp hlt
      have hmaxlt : MAX_BLOCKS * BLOCK_SIZE < 2 ^ 32 := by decide
      have hoff : offset.toNat / BLOCK_SIZE < MAX_BLOCKS :=
        Nat.div_lt_of_lt_mul (by rw [Nat.mul_comm]; omega)
      have hmod : (offset % 1024).toNat = offset.toNat % BLOCK_SIZE := by rw [UInt32.toNat_mod]; rfl
      have hw' := @toNat_chunk offset len total hle
      rw [writeLoop, if_pos hlt]
      simp only
      -- one pass writes `w` bytes
      generalize (if 1024 - offset % 1024 > len - total then len - total
        else 1024 - offset % 1024) = w at hw' ⊢
      have hmodlt : offset.toNat % BLOCK_SIZE < BLOCK_SIZE := Nat.mod_lt _ (by decide)
      have hw0 : 0 < w.toNat := by omega
      have hoffw : (offset + w).toNat = offset.toNat + w.toNat := toNat_add_of_lt (by omega)
      have htotw : (total + w).toNat = total.toNat + w.toNat :=
        toNat_add_of_lt (by have := len.toNat_lt; omega)
      have hsplit : len.toNat - total.toNat = w.toNat + (len.toNat - (total + w).toNat) := by omega
      rw [hsplit, pokeBytes_add]
      cases hloc : inodeLocateBlock ip (offset.toNat / BLOCK_SIZE) s with
      | error e t =>
        rw [bind_of_error hloc, bind_of_error (pokeBytes_error hw0 hloc)]
      | ok v t =>
        have hpost := wp_ok (wp_locate hw hoff) hloc
        obtain ⟨⟨N, hf⟩, hnode⟩ := hpost
        obtain ⟨hpos, hleaf⟩ := path_spec hoff
        have hd : DataAt t ip (path (offset.toNat / BLOCK_SIZE)) v.toNat := ⟨hf.wf, hpos, hleaf, hnode⟩
        have hblk := @pokeBytes_block z s t ip g offset.toNat v hoff hloc hd (w.toNat - 1) (by omega)
        rw [show w.toNat - 1 + 1 = w.toNat by omega] at hblk
        rw [bind_of_ok hloc, bind_of_ok hblk]
        simp only [bind_run, bufRead_run, bufData_run, bufSet_run, bufWrite_run, bufRelease_run]
        rw [hmod, blit_congr fun i hi => (hg i (by omega)).symm]
        have hih := ih (hd.wf_put ((t.dev v.toNat).blit (offset.toNat % BLOCK_SIZE) w.toNat
            fun i => g (offset.toNat + i))) (show (total + w).toNat ≤ len.toNat by omega) (by omega)
          (show (offset + w).toNat + (len.toNat - (total + w).toNat) ≤ _ by omega)
          (fun i hi => by
            rw [hoffw, htotw, Nat.add_assoc, hg _ (by omega), Nat.add_assoc])
        rw [hih, hoffw, show offset.toNat + w.toNat + (len.toNat - (total + w).toNat) =
          offset.toNat + (w.toNat + (len.toNat - (total + w).toNat)) by omega]
    · have hnlt := mt UInt32.lt_iff_toNat_lt.mpr hlt
      have h0 : len.toNat - total.toNat = 0 := by omega
      have heq : total = len := UInt32.toNat_inj.mp (by omega)
      rw [h0, writeLoop, if_neg hlt]
      simp only [pokeBytes, pure_run, Nat.add_zero, UInt32.ofNat_toNat, heq]

/-- A write that returns has gone through all of the request, inside the largest file. -/
theorem writeLoop_total {len : UInt32} {src : Nat → UInt8} : ∀ (fuel : Nat) {offset total : UInt32}
    {s s' : FsState (Blocks z)} {r : UInt32 × UInt32}, total.toNat ≤ len.toNat →
    len.toNat - total.toNat ≤ fuel → writeLoop ip len src fuel offset total s = .ok r s' →
    r.2 = len ∧ (offset.toNat ≤ MAX_BLOCKS * BLOCK_SIZE →
      offset.toNat + (len.toNat - total.toNat) ≤ MAX_BLOCKS * BLOCK_SIZE) := by
  intro fuel
  induction fuel with
  | zero =>
    intro offset total s s' r hle hfuel h
    cases h
    exact ⟨UInt32.toNat_inj.mp (by simp only; omega), fun ho => by omega⟩
  | succ fuel ih =>
    intro offset total s s' r hle hfuel h
    by_cases hlt : total < len
    · have hlt' := UInt32.lt_iff_toNat_lt.mp hlt
      have hw := @toNat_chunk offset len total hle
      have hmodlt : offset.toNat % BLOCK_SIZE < BLOCK_SIZE := Nat.mod_lt _ (by decide)
      rw [writeLoop, if_pos hlt] at h
      simp only at h
      generalize (if 1024 - offset % 1024 > len - total then len - total
        else 1024 - offset % 1024) = w at hw h
      have htotw : (total + w).toNat = total.toNat + w.toNat :=
        toNat_add_of_lt (by have := len.toNat_lt; omega)
      obtain ⟨v, t, hloc, h⟩ := bind_ok.mp h
      simp only [bind_run, bufRead_run, bufData_run, bufSet_run, bufWrite_run, bufRelease_run] at h
      obtain ⟨htot, hbound⟩ := ih (by omega) (by omega) h
      refine ⟨htot, fun _ => ?_⟩
      -- the block was found, so the pass ends inside the largest file
      have hbn : offset.toNat / BLOCK_SIZE < MAX_BLOCKS := by
        by_contra hge
        rw [inodeLocateBlock_overflow (Nat.not_lt.mp hge)] at hloc
        cases hloc
      have hend : offset.toNat + w.toNat ≤ MAX_BLOCKS * BLOCK_SIZE := by
        simp only [MAX_BLOCKS, N_ADDRS_1, N_ADDRS_2, N_ADDRS_3, ENTRY_PER_BLOCK, BLOCK_SIZE] at *
        omega
      have hmax : MAX_BLOCKS * BLOCK_SIZE < 2 ^ 32 := by decide
      have hoffw : (offset + w).toNat = offset.toNat + w.toNat := toNat_add_of_lt (by omega)
      have := hbound (by omega)
      omega
    · have hnlt := mt UInt32.lt_iff_toNat_lt.mpr hlt
      rw [writeLoop, if_neg hlt] at h
      cases h
      exact ⟨UInt32.toNat_inj.mp (by simp only; omega), fun ho => by omega⟩

/-- The `n` bytes of the file from `off` on. -/
def fileBytes (addrs : Fin N_ADDRS → UInt32) (d : Blocks z) (off n : Nat) : List UInt8 :=
  (List.range n).map fun i => byteAt addrs d (off + i)

theorem fileBytes_add (addrs : Fin N_ADDRS → UInt32) (d : Blocks z) (off n m : Nat) :
    fileBytes addrs d off (n + m) = fileBytes addrs d off n ++ fileBytes addrs d (off + n) m := by
  simp only [fileBytes, List.range_add, List.map_append, List.map_map, Function.comp_def,
    Nat.add_assoc]

/-- Where the blocks are there, a read changes nothing and returns the bytes of the file. -/
theorem readLoop_eq {len : UInt32} : ∀ (fuel : Nat) {offset total : UInt32} {acc : List UInt8},
    total.toNat ≤ len.toNat → len.toNat - total.toNat ≤ fuel →
    offset.toNat + (len.toNat - total.toNat) ≤ MAX_BLOCKS * BLOCK_SIZE →
    (∀ pos, offset.toNat ≤ pos → pos < offset.toNat + (len.toNat - total.toNat) →
      ∃ b, s.node ip (path (pos / BLOCK_SIZE)) = some (.block b)) →
    readLoop ip len fuel offset total acc s =
      .ok (acc ++ fileBytes (s.icache ip).d.addrs s.dev offset.toNat (len.toNat - total.toNat)) s := by
  intro fuel
  induction fuel with
  | zero =>
    intro offset total acc hle hfuel _ _
    rw [show len.toNat - total.toNat = 0 by omega]
    simp only [readLoop, pure_run, fileBytes, List.range_zero, List.map_nil, List.append_nil]
  | succ fuel ih =>
    intro offset total acc hle hfuel hmax hthere
    by_cases hlt : total < len
    · have hlt' := UInt32.lt_iff_toNat_lt.mp hlt
      have hmaxlt : MAX_BLOCKS * BLOCK_SIZE < 2 ^ 32 := by decide
      have hoff : offset.toNat / BLOCK_SIZE < MAX_BLOCKS :=
        Nat.div_lt_of_lt_mul (by rw [Nat.mul_comm]; omega)
      have hmod : (offset % 1024).toNat = offset.toNat % BLOCK_SIZE := by rw [UInt32.toNat_mod]; rfl
      have hw := @toNat_chunk offset len total hle
      have hmodlt : offset.toNat % BLOCK_SIZE < BLOCK_SIZE := Nat.mod_lt _ (by decide)
      obtain ⟨b, hb⟩ := hthere offset.toNat (Nat.le_refl _) (by omega)
      obtain ⟨v, rfl, hloc⟩ := locate_there hoff hb
      rw [readLoop, if_pos hlt]
      simp only
      generalize (if 1024 - offset % 1024 > len - total then len - total
        else 1024 - offset % 1024) = w at hw ⊢
      have hoffw : (offset + w).toNat = offset.toNat + w.toNat := toNat_add_of_lt (by omega)
      have htotw : (total + w).toNat = total.toNat + w.toNat :=
        toNat_add_of_lt (by have := len.toNat_lt; omega)
      -- the bytes of this pass are in one block
      have hbytes : (List.range w.toNat).map (fun i => (s.dev v.toNat).byte ((offset % 1024).toNat + i)) =
          fileBytes (s.icache ip).d.addrs s.dev offset.toNat w.toNat := by
        refine List.map_congr_left fun i hi => ?_
        rw [List.mem_range] at hi
        have hdiv : (offset.toNat + i) / BLOCK_SIZE = offset.toNat / BLOCK_SIZE := by
          simp only [BLOCK_SIZE] at *; omega
        have hmodi : (offset.toNat + i) % BLOCK_SIZE = offset.toNat % BLOCK_SIZE + i := by
          simp only [BLOCK_SIZE] at *; omega
        rw [byteAt, hdiv, hmodi, hmod, ← FsState.node, hb]
      rw [bind_of_ok hloc]
      simp only [bind_run, bufRead_run, bufData_run, bufRelease_run]
      rw [hbytes, ih (by omega) (by omega) (by omega) (fun pos h1 h2 => hthere pos (by omega) (by omega)),
        show len.toNat - total.toNat = w.toNat + (len.toNat - (total + w).toNat) by omega,
        fileBytes_add, List.append_assoc, hoffw]
    · have hnlt := mt UInt32.lt_iff_toNat_lt.mpr hlt
      rw [readLoop, if_neg hlt, show len.toNat - total.toNat = 0 by omega]
      simp only [pure_run, fileBytes, List.range_zero, List.map_nil, List.append_nil]

theorem readLoop_length {len : UInt32} : ∀ (fuel : Nat) {offset total : UInt32} {acc r : List UInt8}
    {s s' : FsState (Blocks z)}, total.toNat ≤ len.toNat → len.toNat - total.toNat ≤ fuel →
    readLoop ip len fuel offset total acc s = .ok r s' →
    r.length = acc.length + (len.toNat - total.toNat) := by
  intro fuel
  induction fuel with
  | zero =>
    intro offset total acc r s s' hle hfuel h
    cases h
    omega
  | succ fuel ih =>
    intro offset total acc r s s' hle hfuel h
    by_cases hlt : total < len
    · have hlt' := UInt32.lt_iff_toNat_lt.mp hlt
      have hw := @toNat_chunk offset len total hle
      have hmodlt : offset.toNat % BLOCK_SIZE < BLOCK_SIZE := Nat.mod_lt _ (by decide)
      rw [readLoop, if_pos hlt] at h
      simp only at h
      generalize (if 1024 - offset % 1024 > len - total then len - total
        else 1024 - offset % 1024) = w at hw h
      have htotw : (total + w).toNat = total.toNat + w.toNat :=
        toNat_add_of_lt (by have := len.toNat_lt; omega)
      obtain ⟨v, t, -, h⟩ := bind_ok.mp h
      simp only [bind_run, bufRead_run, bufData_run, bufRelease_run] at h
      have := ih (by omega) (by omega) h
      simp only [List.length_append, List.length_map, List.length_range] at this
      omega
    · have hnlt := mt UInt32.lt_iff_toNat_lt.mpr hlt
      rw [readLoop, if_neg hlt] at h
      cases h
      omega

end Loops

end Fs
end WhuOS
