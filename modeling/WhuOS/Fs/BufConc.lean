import Mathlib.Algebra.BigOperators.Group.Finset.Piecewise
import Mathlib.Algebra.Order.BigOperators.Group.Finset
import WhuOS.Lib.Run
import WhuOS.Fs.Buf

/-!
# WhuOS.Fs.BufConc

`buf_read`, `buf_write` and `buf_release` called by `n` processes at once. The atomic steps are the
sections under `lk_buf_cache`, taking and releasing a buffer's sleeplock, and a disk transfer.

`buf_read` publishes the new `block_num` under `lk_buf_cache` and only then takes the sleeplock to
fill the buffer, so a second reader of the same block can take the sleeplock first and get the data
of the block the buffer held before (`stale_read_reachable`). `OwnerFirst` excludes that order,
and releasing a buffer whose changes were not written; `read_returns_block` says that nothing else
can go wrong.
-/

namespace WhuOS
namespace Fs
namespace BufConc

open Lib

/-- Where a process is inside the three functions. -/
inductive Pc where
  /-- In none of them; it may hold buffers. -/
  | idle
  /-- `buf_read(b)` found the block in buffer `i` and is at `sleeplock_acquire`. -/
  | hit (i : BufId) (b : Nat)
  /-- `buf_read(b)` gave buffer `i` to the block and is at `sleeplock_acquire`. -/
  | miss (i : BufId) (b : Nat)
  /-- `buf_read(b)` holds the sleeplock of `i` and is at `virtio_disk_rw`. -/
  | loading (i : BufId) (b : Nat)
  /-- `buf_release` gave up the sleeplock of `i` and is at `spinlock_acquire`. -/
  | releasing (i : BufId)
  deriving DecidableEq

structure State (n : Nat) where
  cache : Cache (Fin n)
  /-- Number of blocks of the disk; the driver panics on a request past it. -/
  size : Nat
  disk : Nat → Block
  pc : Fin n → Pc

inductive Act (n : Nat) where
  /-- Call `buf_read(b)` and run its section under `lk_buf_cache`. -/
  | read (p : Fin n) (b : Nat)
  /-- Take the sleeplock `buf_read` waits for. -/
  | acquire (p : Fin n)
  /-- The disk read of `buf_read`. -/
  | load (p : Fin n)
  /-- The holder of buffer `i` changes its bytes. -/
  | modify (p : Fin n) (i : BufId) (d : Block)
  /-- `buf_write` of buffer `i`: the disk write. -/
  | write (p : Fin n) (i : BufId)
  /-- `buf_release` of buffer `i`: give up the sleeplock. -/
  | release (p : Fin n) (i : BufId)
  /-- The section of `buf_release` under `lk_buf_cache`. -/
  | unref (p : Fin n)

variable {n : Nat}

def State.goto (s : State n) (p : Fin n) (pc : Pc) : State n :=
  { s with pc := Function.update s.pc p pc }

def State.setBuf (s : State n) (i : BufId) (b : Buf (Fin n)) : State n :=
  { s with cache := s.cache.setBuf i b }

/-- A process outside `buf_read` and `buf_release` that holds the sleeplock of `i`. -/
def Holds (s : State n) (p : Fin n) (i : BufId) : Prop :=
  s.pc p = .idle ∧ (s.cache.bufs i).slk = some p

instance (s : State n) (p : Fin n) (i : BufId) : Decidable (Holds s p i) :=
  inferInstanceAs (Decidable (_ ∧ _))

/-- `sleeplock_acquire` of buffer `i` by `p`, which then goes on at `pc`. -/
def lock (s : State n) (p : Fin n) (i : BufId) (pc : Pc) : Option (State n) :=
  if (s.cache.bufs i).slk = none then
    some ((s.setBuf i { s.cache.bufs i with slk := some p }).goto p pc)
  else none

def step (s : State n) : Act n → Option (State n)
  | .read p b =>
    if s.pc p = .idle then
      match bufGet s.cache b with
      | some (.hit i, c) => some ({ s with cache := c }.goto p (.hit i b))
      | some (.miss i, c) => some ({ s with cache := c }.goto p (.miss i b))
      | _ => none
    else none
  | .acquire p =>
    match s.pc p with
    | .hit i _ => lock s p i .idle
    | .miss i b => lock s p i (.loading i b)
    | _ => none
  | .load p =>
    match s.pc p with
    | .loading i _ =>
      let b := s.cache.bufs i
      if b.blockNum < s.size then
        some ((s.setBuf i { b with data := s.disk b.blockNum }).goto p .idle)
      else none
    | _ => none
  | .modify p i d =>
    if Holds s p i then some (s.setBuf i { s.cache.bufs i with data := d }) else none
  | .write p i =>
    let b := s.cache.bufs i
    if Holds s p i ∧ b.blockNum < s.size then
      some { s with disk := Function.update s.disk b.blockNum b.data }
    else none
  | .release p i =>
    if Holds s p i then
      some ((s.setBuf i { s.cache.bufs i with slk := none }).goto p (.releasing i))
    else none
  | .unref p =>
    match s.pc p with
    | .releasing i =>
      match bufUnref s.cache i with
      | some c => some ({ s with cache := c }.goto p .idle)
      | none => none
    | _ => none

/-- The buffer and the requested block, when the step makes `buf_read` return. -/
def returns (s : State n) : Act n → Option (BufId × Nat)
  | .acquire p =>
    match s.pc p with
    | .hit i b => some (i, b)
    | _ => none
  | .load p =>
    match s.pc p with
    | .loading i b => some (i, b)
    | _ => none
  | _ => none

/-- After `buf_init`, on a disk with any contents. -/
def boot (n size : Nat) (disk : Nat → Block) : Option (State n) :=
  bufInit.map fun c => { cache := c, size, disk, pc := fun _ => .idle }

/-- The buffer that `buf_read(b)` hands out is the one of block `b`, with the bytes that the last
`buf_write` of `b` put on the disk. -/
def ReturnsBlock (s : State n) (i : BufId) (b : Nat) : Prop :=
  (s.cache.bufs i).blockNum = b ∧ (s.cache.bufs i).data = s.disk b

/-! ## The condition -/

/-- The buffer a process has claimed for a block but not locked yet. -/
@[grind] def Pc.filling : Pc → Option BufId
  | .miss i _ => some i
  | _ => none

/-- The buffer `buf_read` works on and the block it was asked for. -/
@[grind] def Pc.wants : Pc → Option (BufId × Nat)
  | .hit i b => some (i, b)
  | .miss i b => some (i, b)
  | .loading i b => some (i, b)
  | _ => none

/-- The step asks for a real block, takes the sleeplock of a cached buffer only when no process is
still on its way to fill it, and releases a buffer only when its bytes are on the disk. -/
def OwnerFirst (s : State n) : Act n → Prop
  | .read _ b => b ≠ BLOCK_NUM_UNUSED
  | .acquire p =>
    match s.pc p with
    | .hit i _ => ∀ q, (s.pc q).filling ≠ some i
    | _ => True
  | .release _ i => (s.cache.bufs i).data = s.disk (s.cache.bufs i).blockNum
  | _ => True

/-! ## State updates -/

@[simp, grind =] theorem goto_cache (s : State n) (p : Fin n) (v : Pc) : (s.goto p v).cache = s.cache := rfl
@[simp, grind =] theorem goto_disk (s : State n) (p : Fin n) (v : Pc) : (s.goto p v).disk = s.disk := rfl
@[simp, grind =] theorem goto_pc (s : State n) (p q : Fin n) (v : Pc) :
    (s.goto p v).pc q = if q = p then v else s.pc q := Function.update_apply ..
@[simp, grind =] theorem setBuf_pc (s : State n) (i : BufId) (b : Buf (Fin n)) :
    (s.setBuf i b).pc = s.pc := rfl
@[simp, grind =] theorem setBuf_disk (s : State n) (i : BufId) (b : Buf (Fin n)) :
    (s.setBuf i b).disk = s.disk := rfl
@[simp, grind =] theorem setBuf_cache (s : State n) (i : BufId) (b : Buf (Fin n)) :
    (s.setBuf i b).cache = s.cache.setBuf i b := rfl

@[grind =] theorem bufs_setBuf (c : Cache (Fin n)) (i j : BufId) (b : Buf (Fin n)) :
    (c.setBuf i b).bufs j = if j = i then b else c.bufs j := Function.update_apply ..

/-- References to buffer `i` that a process holds besides the sleeplock. -/
@[grind] def Pc.uses (i : BufId) : Pc → Nat
  | .hit j _ => if j = i then 1 else 0
  | .miss j _ => if j = i then 1 else 0
  | .releasing j => if j = i then 1 else 0
  | _ => 0

/-- All references to buffer `i`: one for the holder, one for each process on its way in or out. -/
def users (s : State n) (i : BufId) : Nat :=
  (s.cache.bufs i).slk.elim 0 (fun _ => 1) + ∑ p, (s.pc p).uses i

theorem sum_uses_goto (s : State n) (p : Fin n) (v : Pc) (i : BufId) :
    (∑ q, ((s.goto p v).pc q).uses i) + (s.pc p).uses i = (∑ q, (s.pc q).uses i) + v.uses i := by
  have h : ∀ q, ((s.goto p v).pc q).uses i =
      Function.update (fun q => (s.pc q).uses i) p (v.uses i) q := by
    intro q
    by_cases hq : q = p
    · subst hq; simp
    · simp [hq]
  rw [Finset.sum_congr rfl (fun q _ => h q), Finset.sum_update_of_mem (Finset.mem_univ p),
    ← Finset.add_sum_erase _ (fun q => (s.pc q).uses i) (Finset.mem_univ p), Finset.sdiff_singleton_eq_erase]
  omega

theorem uses_le_users (s : State n) (p : Fin n) (i : BufId) : (s.pc p).uses i ≤ users s i := by
  have := Finset.single_le_sum (f := fun q => (s.pc q).uses i) (fun _ _ => Nat.zero_le _)
    (Finset.mem_univ p)
  unfold users
  omega

/-! ## The invariant -/

structure Inv (s : State n) : Prop where
  ring : ∃ l, Ordered s.cache l
  uniq : ∀ i j, (s.cache.bufs i).blockNum = (s.cache.bufs j).blockNum →
    (s.cache.bufs i).blockNum ≠ BLOCK_NUM_UNUSED → i = j
  refs : ∀ i, (s.cache.bufs i).bufRef = users s i
  tag : ∀ p i b, (s.pc p).wants = some (i, b) →
    (s.cache.bufs i).blockNum = b ∧ b ≠ BLOCK_NUM_UNUSED
  loads : ∀ p i b, s.pc p = .loading i b → (s.cache.bufs i).slk = some p
  /-- Only one process fills a buffer, and nobody locks it before. -/
  fillsOne : ∀ p q i, (s.pc p).filling = some i → (s.pc q).filling = some i → p = q
  fillsFree : ∀ p i, (s.pc p).filling = some i → (s.cache.bufs i).slk = none
  named : ∀ i, (s.cache.bufs i).slk ≠ none → (s.cache.bufs i).blockNum ≠ BLOCK_NUM_UNUSED
  /-- A buffer that nobody holds or fills is the disk block. -/
  fresh : ∀ i, (s.cache.bufs i).blockNum ≠ BLOCK_NUM_UNUSED → (s.cache.bufs i).slk = none →
    (∀ p, (s.pc p).filling ≠ some i) → (s.cache.bufs i).data = s.disk (s.cache.bufs i).blockNum

theorem unused_of_ref {s : State n} (h : Inv s) {i : BufId} (hr : (s.cache.bufs i).bufRef = 0) :
    (s.cache.bufs i).slk = none ∧ ∀ p b, (s.pc p).wants ≠ some (i, b) := by
  have hu : users s i = 0 := by rw [← h.refs i, hr]
  have hslk : (s.cache.bufs i).slk = none := by
    cases he : (s.cache.bufs i).slk with
    | none => rfl
    | some p => simp [users, he] at hu
  refine ⟨hslk, ?_⟩
  intro p b hw
  have hle := uses_le_users s p i
  cases hpc : s.pc p with
  | idle => simp [hpc, Pc.wants] at hw
  | releasing j => simp [hpc, Pc.wants] at hw
  | hit j c =>
    simp only [hpc, Pc.wants, Option.some.injEq, Prod.mk.injEq] at hw
    simp [hpc, Pc.uses, hw.1] at hle; omega
  | miss j c =>
    simp only [hpc, Pc.wants, Option.some.injEq, Prod.mk.injEq] at hw
    simp [hpc, Pc.uses, hw.1] at hle; omega
  | loading j c =>
    simp only [hpc, Pc.wants, Option.some.injEq, Prod.mk.injEq] at hw
    have := h.loads p j c hpc
    rw [hw.1, hslk] at this; cases this

theorem wants_of_filling {v : Pc} {i : BufId} (h : v.filling = some i) :
    ∃ b, v.wants = some (i, b) := by
  cases v <;> simp_all [Pc.filling, Pc.wants]

/-! ## One lemma per step -/

/-- `t` is `s` with process `p` at `v` and buffer `i` replaced by `b`; the ring may be reordered. -/
structure Moved (s t : State n) (p : Fin n) (v : Pc) (i : BufId) (b : Buf (Fin n)) : Prop where
  ring : ∃ l, Ordered t.cache l
  pc : ∀ q, t.pc q = if q = p then v else s.pc q
  bufs : ∀ j, t.cache.bufs j = if j = i then b else s.cache.bufs j

section Steps

variable {s t : State n} {p : Fin n} {i : BufId} {v : Pc} {b : Buf (Fin n)}

theorem moved_of_ordered {l : List BufId} (hl : Ordered s.cache l) :
    Moved s ((s.setBuf i b).goto p v) p v i b :=
  ⟨⟨l, ordered_congr hl rfl⟩, fun _ => goto_pc .., fun _ => bufs_setBuf ..⟩

theorem moved_setBuf (h : Inv s) : Moved s ((s.setBuf i b).goto p v) p v i b := by
  obtain ⟨l, hl⟩ := h.ring
  exact moved_of_ordered hl

theorem users_moved (hm : Moved s t p v i b) (j : BufId) :
    users t j + (s.pc p).uses j + (s.cache.bufs j).slk.elim 0 (fun _ => 1) =
      users s j + v.uses j + (if j = i then b.slk else (s.cache.bufs j).slk).elim 0 (fun _ => 1) := by
  have hsum := sum_uses_goto s p v j
  have hpc : ∀ q, ((s.goto p v).pc q).uses j = (t.pc q).uses j := by
    intro q; rw [hm.pc, goto_pc]
  rw [Finset.sum_congr rfl (fun q _ => hpc q)] at hsum
  have hb : (t.cache.bufs j).slk = if j = i then b.slk else (s.cache.bufs j).slk := by
    rw [hm.bufs]; split <;> rfl
  simp only [users, hb]
  omega

theorem inv_hit {c : Nat} (h : Inv s) (hp : s.pc p = .idle) (hb : (s.cache.bufs i).blockNum = c)
    (hu : c ≠ BLOCK_NUM_UNUSED) (hd : t.disk = s.disk)
    (hm : Moved s t p (.hit i c) i
      { s.cache.bufs i with bufRef := (s.cache.bufs i).bufRef + 1 }) : Inv t := by
  have hpc := hm.pc
  have hbuf := hm.bufs
  constructor
  · exact hm.ring
  · intro j k; grind [h.uniq j k]
  · intro j; grind [users_moved hm j, h.refs j]
  · intro q j c; grind [h.tag q j c]
  · intro q j c; grind [h.loads q j c]
  · intro q r j; grind [h.fillsOne q r j]
  · intro q j; grind [h.fillsFree q j]
  · intro j; grind [h.named j]
  · intro j; grind [h.fresh j]

theorem inv_miss {c : Nat} (h : Inv s) (hp : s.pc p = .idle)
    (hnew : ∀ j, (s.cache.bufs j).blockNum ≠ c) (hr : (s.cache.bufs i).bufRef = 0)
    (hu : c ≠ BLOCK_NUM_UNUSED) (hd : t.disk = s.disk)
    (hm : Moved s t p (.miss i c) i { s.cache.bufs i with blockNum := c, bufRef := 1 }) :
    Inv t := by
  have hpc := hm.pc
  have hbuf := hm.bufs
  -- nobody refers to the victim, so renaming it breaks no other process
  obtain ⟨hslk, hwants⟩ := unused_of_ref h hr
  have hfill : ∀ q, (s.pc q).filling ≠ some i := by
    intro q hf
    obtain ⟨b, hb⟩ := wants_of_filling hf
    exact hwants q b hb
  constructor
  · exact hm.ring
  · intro j k; grind [h.uniq j k, hnew j, hnew k]
  · intro j; grind [users_moved hm j, h.refs j]
  · intro q j b; grind [h.tag q j b, hwants q b]
  · intro q j b; grind [h.loads q j b]
  · intro q r j; grind [h.fillsOne q r j, hfill q, hfill r]
  · intro q j; grind [h.fillsFree q j]
  · intro j; grind [h.named j]
  · intro j hj hs hf; grind [h.fresh j, hf p]

theorem inv_lock_hit {c : Nat} (h : Inv s) (hp : s.pc p = .hit i c)
    (hfree : (s.cache.bufs i).slk = none) (hown : ∀ q, (s.pc q).filling ≠ some i)
    (hd : t.disk = s.disk)
    (hm : Moved s t p .idle i { s.cache.bufs i with slk := some p }) : Inv t := by
  have hpc := hm.pc
  have hbuf := hm.bufs
  have htag := h.tag p i c (by simp [hp, Pc.wants])
  constructor
  · exact hm.ring
  · intro j k; grind [h.uniq j k]
  · intro j; grind [users_moved hm j, h.refs j]
  · intro q j b; grind [h.tag q j b]
  · intro q j b; grind [h.loads q j b]
  · intro q r j; grind [h.fillsOne q r j]
  · intro q j; grind [h.fillsFree q j, hown q]
  · intro j; grind [h.named j]
  · intro j; grind [h.fresh j]

theorem inv_lock_miss {c : Nat} (h : Inv s) (hp : s.pc p = .miss i c)
    (hfree : (s.cache.bufs i).slk = none) (hd : t.disk = s.disk)
    (hm : Moved s t p (.loading i c) i { s.cache.bufs i with slk := some p }) : Inv t := by
  have hpc := hm.pc
  have hbuf := hm.bufs
  have htag := h.tag p i c (by simp [hp, Pc.wants])
  have hfill : (s.pc p).filling = some i := by simp [hp, Pc.filling]
  constructor
  · exact hm.ring
  · intro j k; grind [h.uniq j k]
  · intro j; grind [users_moved hm j, h.refs j]
  · intro q j b; grind [h.tag q j b]
  · intro q j b; grind [h.loads q j b]
  · intro q r j; grind [h.fillsOne q r j]
  · intro q j; grind [h.fillsFree q j, h.fillsOne p q i]
  · intro j; grind [h.named j]
  · intro j; grind [h.fresh j]

theorem inv_fill {d : Block} (h : Inv s) (hp : (s.cache.bufs i).slk = some p)
    (hv : s.pc p = .idle ∨ ∃ c, s.pc p = .loading i c) (hd : t.disk = s.disk)
    (hm : Moved s t p .idle i { s.cache.bufs i with data := d }) : Inv t := by
  have hpc := hm.pc
  have hbuf := hm.bufs
  constructor
  · exact hm.ring
  · intro j k; grind [h.uniq j k]
  · intro j; grind [users_moved hm j, h.refs j]
  · intro q j b; grind [h.tag q j b]
  · intro q j b; grind [h.loads q j b]
  · intro q r j; grind [h.fillsOne q r j]
  · intro q j; grind [h.fillsFree q j]
  · intro j; grind [h.named j]
  · intro j; grind [h.fresh j]

theorem inv_release (h : Inv s) (hp : Holds s p i)
    (hw : (s.cache.bufs i).data = s.disk (s.cache.bufs i).blockNum) (hd : t.disk = s.disk)
    (hm : Moved s t p (.releasing i) i { s.cache.bufs i with slk := none }) : Inv t := by
  have hpc := hm.pc
  have hbuf := hm.bufs
  obtain ⟨hidle, hslk⟩ := hp
  constructor
  · exact hm.ring
  · intro j k; grind [h.uniq j k]
  · intro j; grind [users_moved hm j, h.refs j]
  · intro q j b; grind [h.tag q j b]
  · intro q j b; grind [h.loads q j b]
  · intro q r j; grind [h.fillsOne q r j]
  · intro q j; grind [h.fillsFree q j]
  · intro j; grind [h.named j]
  · intro j; grind [h.fresh j]

theorem inv_unref (h : Inv s) (hp : s.pc p = .releasing i) (hd : t.disk = s.disk)
    (hm : Moved s t p .idle i { s.cache.bufs i with bufRef := (s.cache.bufs i).bufRef - 1 }) :
    Inv t := by
  have hpc := hm.pc
  have hbuf := hm.bufs
  constructor
  · exact hm.ring
  · intro j k; grind [h.uniq j k]
  · intro j; grind [users_moved hm j, h.refs j, uses_le_users s p j]
  · intro q j b; grind [h.tag q j b]
  · intro q j b; grind [h.loads q j b]
  · intro q r j; grind [h.fillsOne q r j]
  · intro q j; grind [h.fillsFree q j]
  · intro j; grind [h.named j]
  · intro j; grind [h.fresh j]

theorem inv_write (h : Inv s) (hp : Holds s p i) :
    Inv { s with disk := Function.update s.disk (s.cache.bufs i).blockNum (s.cache.bufs i).data } := by
  refine ⟨h.ring, h.uniq, h.refs, h.tag, h.loads, h.fillsOne, h.fillsFree, h.named, ?_⟩
  intro j hj hs hf
  have hne : (s.cache.bufs j).blockNum ≠ (s.cache.bufs i).blockNum := by
    intro he
    have := h.uniq j i he hj
    subst this
    rw [hp.2] at hs; cases hs
  have hdisk := h.fresh j hj hs hf
  rw [← Function.update_of_ne hne (s.cache.bufs i).data s.disk] at hdisk
  exact hdisk

theorem lock_eq {v : Pc} (hl : lock s p i v = some t) :
    (s.cache.bufs i).slk = none ∧
      t = (s.setBuf i { s.cache.bufs i with slk := some p }).goto p v := by
  unfold lock at hl
  split at hl
  · rename_i hs; cases hl; exact ⟨hs, rfl⟩
  · cases hl

theorem inv_read {b : Nat} (h : Inv s) (hu : b ≠ BLOCK_NUM_UNUSED)
    (hs : step s (.read p b) = some t) : Inv t := by
  obtain ⟨l, hl⟩ := h.ring
  simp only [step] at hs
  split at hs
  case isFalse => cases hs
  case isTrue hp =>
    split at hs
    · rename_i i c hg; cases hs
      cases bufGet_cases hl hg with
      | hit _ hb => exact inv_hit h hp hb hu rfl (moved_setBuf h)
    · rename_i i c hg; cases hs
      cases bufGet_cases hl hg with
      | miss _ hb hr => exact inv_miss h hp hb hr hu rfl (moved_setBuf h)
    · cases hs

theorem inv_acquire (h : Inv s) (hok : OwnerFirst s (.acquire p))
    (hs : step s (.acquire p) = some t) : Inv t := by
  simp only [step] at hs
  split at hs
  · rename_i i b hp
    obtain ⟨hfree, rfl⟩ := lock_eq hs
    have hown : ∀ q, (s.pc q).filling ≠ some i := by simpa only [OwnerFirst, hp] using hok
    exact inv_lock_hit h hp hfree hown rfl (moved_setBuf h)
  · rename_i i b hp
    obtain ⟨hfree, rfl⟩ := lock_eq hs
    exact inv_lock_miss h hp hfree rfl (moved_setBuf h)
  · cases hs

theorem inv_load (h : Inv s) (hs : step s (.load p) = some t) : Inv t := by
  simp only [step] at hs
  split at hs
  · rename_i i b hp
    split at hs
    · cases hs
      exact inv_fill h (h.loads p i b hp) (.inr ⟨b, hp⟩) rfl (moved_setBuf h)
    · cases hs
  · cases hs

theorem inv_unref_step (h : Inv s) (hs : step s (.unref p) = some t) : Inv t := by
  obtain ⟨l, hl⟩ := h.ring
  simp only [step] at hs
  split at hs
  · rename_i i hp
    obtain ⟨c, l', hc, hl', hb⟩ := bufUnref_spec hl i
    rw [hc] at hs; cases hs
    refine inv_unref h hp rfl ⟨⟨l', ordered_congr hl' rfl⟩, fun q => goto_pc .., fun j => ?_⟩
    rw [goto_cache]; simp only [hb, bufs_setBuf]
  · cases hs

end Steps

theorem inv_step (s : State n) (a : Act n) (t : State n) (h : Inv s) (hok : OwnerFirst s a)
    (hs : step s a = some t) : Inv t := by
  cases a with
  | read p b => exact inv_read h hok hs
  | acquire p => exact inv_acquire h hok hs
  | load p => exact inv_load h hs
  | modify p i d =>
    simp only [step] at hs
    split at hs
    · rename_i hp; cases hs
      have hself : s.setBuf i { s.cache.bufs i with data := d } =
          (s.setBuf i { s.cache.bufs i with data := d }).goto p .idle := by
        simp [State.goto, State.setBuf, ← hp.1]
      rw [hself]
      exact inv_fill h hp.2 (.inl hp.1) rfl (moved_setBuf h)
    · cases hs
  | write p i =>
    simp only [step] at hs
    split at hs
    · rename_i hp; cases hs; exact inv_write h hp.1
    · cases hs
  | release p i =>
    simp only [step] at hs
    split at hs
    · rename_i hp; cases hs; exact inv_release h hp hok rfl (moved_setBuf h)
    · cases hs
  | unref p => exact inv_unref_step h hs

theorem boot_eq (n size : Nat) (disk : Nat → Block) : ∃ s : State n, boot n size disk = some s ∧
    Ordered s.cache (List.finRange N_BLOCK_BUF) ∧
    (∀ i, s.cache.bufs i = ⟨none, BLOCK_NUM_UNUSED, Block.zero, 0⟩) ∧
    (∀ p, s.pc p = .idle) ∧ s.disk = disk ∧ s.size = size := by
  obtain ⟨c, hc, hl, hb⟩ := bufInit_spec (π := Fin n)
  exact ⟨⟨c, size, disk, fun _ => .idle⟩, by simp [boot, hc], hl, hb, fun _ => rfl, rfl, rfl⟩

theorem inv_boot {size : Nat} {disk : Nat → Block} {s : State n} (h : boot n size disk = some s) :
    Inv s := by
  obtain ⟨s', hs', hl, hb, hpc, -, -⟩ := boot_eq n size disk
  rw [h] at hs'; cases hs'
  refine ⟨⟨_, hl⟩, ?_, ?_, ?_, ?_, ?_, ?_, ?_, ?_⟩
  · intro i j _ hne; simp [hb] at hne
  · intro i; simp [hb, users, hpc, Pc.uses]
  · intro p i b hw; simp [hpc, Pc.wants] at hw
  · intro p i b hw; simp [hpc] at hw
  · intro p q i hf; simp [hpc, Pc.filling] at hf
  · intro p i hf; simp [hpc, Pc.filling] at hf
  · intro i hs; simp [hb] at hs
  · intro i hne; simp [hb] at hne

theorem returns_step {s t : State n} {a : Act n} {i : BufId} {b : Nat} (h : Inv s)
    (hok : OwnerFirst s a) (hs : step s a = some t) (hr : returns s a = some (i, b)) :
    ReturnsBlock t i b := by
  cases a with
  | acquire p =>
    cases hp : s.pc p with
    | hit j c =>
      simp only [returns, hp, Option.some.injEq, Prod.mk.injEq] at hr
      obtain ⟨rfl, rfl⟩ := hr
      simp only [step, hp] at hs
      obtain ⟨hfree, rfl⟩ := lock_eq hs
      have hown : ∀ q, (s.pc q).filling ≠ some j := by simpa only [OwnerFirst, hp] using hok
      obtain ⟨htag, hu⟩ := h.tag p j c (by simp [hp, Pc.wants])
      -- nobody fills or holds the buffer, so it still is the disk block
      have hfresh := h.fresh j (htag ▸ hu) hfree hown
      exact ⟨by simpa using htag, by simpa [htag] using hfresh⟩
    | _ => simp [returns, hp] at hr
  | load p =>
    cases hp : s.pc p with
    | loading j c =>
      simp only [returns, hp, Option.some.injEq, Prod.mk.injEq] at hr
      obtain ⟨rfl, rfl⟩ := hr
      obtain ⟨htag, -⟩ := h.tag p j c (by simp [hp, Pc.wants])
      simp only [step, hp] at hs
      split at hs
      · cases hs; exact ⟨by simpa using htag, by simp [htag]⟩
      · cases hs
    | _ => simp [returns, hp] at hr
  | _ => cases hr

/-- Whenever `buf_read(b)` returns, in a run whose steps meet `OwnerFirst`, it returns the buffer of
block `b` with the content of the disk. -/
theorem read_returns_block {size : Nat} {disk : Nat → Block} {s₀ s t : State n} {as : List (Act n)}
    {a : Act n} {i : BufId} {b : Nat} (hboot : boot n size disk = some s₀)
    (hok : RunOk step OwnerFirst s₀ as) (hrun : run step s₀ as = some s)
    (hoka : OwnerFirst s a) (hs : step s a = some t) (hret : returns s a = some (i, b)) :
    ReturnsBlock t i b :=
  returns_step (run_inv inv_step as (inv_boot hboot) hok hrun) hoka hs hret

/-! ## The first reads after boot -/

section FirstReads

variable {size b : Nat} {disk : Nat → Block} {s₀ : State n}

theorem first_read (hboot : boot n size disk = some s₀) (hb : b ≠ BLOCK_NUM_UNUSED) (p : Fin n) :
    ∃ i, step s₀ (.read p b) =
      some ((s₀.setBuf i { s₀.cache.bufs i with blockNum := b, bufRef := 1 }).goto p (.miss i b)) := by
  obtain ⟨s', hs', hl, hbufs, hpc, -, -⟩ := boot_eq n size disk
  rw [hboot] at hs'; cases hs'
  obtain ⟨g, c, hg, hspec⟩ := bufGet_spec hl b
  cases hspec with
  | hit i hi => rw [hbufs] at hi; exact absurd hi.symm hb
  | full _ hr => exact absurd (by rw [hbufs]) (hr 0)
  | miss i _ _ => exact ⟨i, by simp only [step, hpc, if_true, hg]; rfl⟩

/-- The first reader changes the block, writes it and gives it back, and then a second one reads it. -/
theorem next_reader (hboot : boot n size disk = some s₀) (hb : b ≠ BLOCK_NUM_UNUSED)
    (hsize : b < size) {p q : Fin n} (hpq : p ≠ q) (d : Block) :
    ∃ s t i, RunOk step OwnerFirst s₀ [.read p b, .acquire p, .load p, .modify p i d, .write p i,
        .release p i, .read q b] ∧
      run step s₀ [.read p b, .acquire p, .load p, .modify p i d, .write p i, .release p i,
        .read q b] = some s ∧ OwnerFirst s (.acquire q) ∧ step s (.acquire q) = some t ∧
      returns s (.acquire q) = some (i, b) ∧ t.disk b = d := by
  obtain ⟨i, h1⟩ := first_read hboot hb p
  obtain ⟨s', hs', hl, hbufs, hpc, -, hsz⟩ := boot_eq n size disk
  rw [hboot] at hs'; cases hs'
  let s1 := (s₀.setBuf i { s₀.cache.bufs i with blockNum := b, bufRef := 1 }).goto p (.miss i b)
  let s2 := (s1.setBuf i { s1.cache.bufs i with slk := some p }).goto p (.loading i b)
  let s3 := (s2.setBuf i { s2.cache.bufs i with data := s2.disk b }).goto p .idle
  let s4 := s3.setBuf i { s3.cache.bufs i with data := d }
  let s5 : State n := { s4 with disk := Function.update s4.disk b d }
  let s6 := (s5.setBuf i { s5.cache.bufs i with slk := none }).goto p (.releasing i)
  have h1 : step s₀ (.read p b) = some s1 := h1
  have hb1 : s1.cache.bufs i = ⟨none, b, Block.zero, 1⟩ := by simp [s1, hbufs]
  have hb2 : s2.cache.bufs i = ⟨some p, b, Block.zero, 1⟩ := by simp [s2, hb1]
  have hb4 : s4.cache.bufs i = ⟨some p, b, d, 1⟩ := by simp [s4, s3, hb2]
  have hb6 : s6.cache.bufs i = ⟨none, b, d, 1⟩ := by simp [s6, s5, hb4]
  have h2 : step s1 (.acquire p) = some s2 := by
    simp only [step, show s1.pc p = .miss i b by simp [s1], lock, hb1, if_true]
    simp [s2, hb1]
  have h3 : step s2 (.load p) = some s3 := by
    have hlt : b < s2.size := by have : s2.size = s₀.size := rfl; omega
    simp only [step, show s2.pc p = .loading i b by simp [s2], hb2, hlt, if_true]
    simp [s3, hb2]
  have hp3 : s3.pc p = .idle := by simp [s3]
  have h4 : step s3 (.modify p i d) = some s4 :=
    if_pos ⟨hp3, by simp [s3, hb2]⟩
  have h5 : step s4 (.write p i) = some s5 := by
    have hlt : b < s4.size := by have : s4.size = s₀.size := rfl; omega
    simp only [step, Holds, hb4, hlt, show s4.pc p = .idle from hp3, and_self, if_true]
    rfl
  have h6 : step s5 (.release p i) = some s6 :=
    if_pos ⟨hp3, by rw [show s5.cache.bufs i = _ from hb4]⟩
  have hq6 : s6.pc q = .idle := by simp [s6, s5, s4, s3, s2, s1, hpq.symm, hpc]
  -- the second reader finds the buffer
  obtain ⟨g, c, hg, hspec⟩ := bufGet_spec (c := s6.cache) (ordered_congr hl rfl) b
  cases hspec with
  | full hn _ => exact absurd (by rw [hb6]) (hn i)
  | miss _ hn _ => exact absurd (by rw [hb6]) (hn i)
  | hit j hj =>
    have hji : j = i := by
      by_contra hne
      have : s6.cache.bufs j = s₀.cache.bufs j := by
        simp [s6, s5, s4, s3, s2, s1, Cache.setBuf_other _ _ hne]
      rw [this, hbufs] at hj
      exact hb hj.symm
    subst hji
    let s7 := (s6.setBuf j { s6.cache.bufs j with bufRef := (s6.cache.bufs j).bufRef + 1 }).goto q
      (.hit j b)
    have h7 : step s6 (.read q b) = some s7 := by simp only [step, hq6, if_true, hg]; rfl
    have hq7 : s7.pc q = .hit j b := by simp [s7]
    have hb7 : s7.cache.bufs j = ⟨none, b, d, 2⟩ := by simp [s7, hb6]
    refine ⟨s7, (s7.setBuf j { s7.cache.bufs j with slk := some q }).goto q .idle, j, ?_, ?_, ?_, ?_,
      ?_, ?_⟩
    · simp only [RunOk, h1, h2, h3, h4, h5, h6, h7]
      refine ⟨hb, by simp [OwnerFirst, s1], trivial, trivial, trivial, ?_, hb, trivial⟩
      rw [OwnerFirst, show s5.cache.bufs j = _ from hb4]
      simp [s5]
    · simp only [run, h1, h2, h3, h4, h5, h6, h7]
    · rw [OwnerFirst, hq7]
      intro r
      by_cases hr : r = q
      · simp [hr, hq7, Pc.filling]
      · by_cases hr' : r = p
        · simp [hr', s7, s6, hpq, Pc.filling]
        · simp [s7, s6, s5, s4, s3, s2, s1, hr, hr', hpc, Pc.filling]
    · simp only [step, hq7, lock, hb7, if_true]
    · simp only [returns, hq7]
    · simp [s7, s6, s5]

/-- A second reader of the same block finds that buffer, can lock it before the first one has
filled it, and gets what `buf_init` left there. -/
theorem second_reader (hboot : boot n size disk = some s₀) (hb : b ≠ BLOCK_NUM_UNUSED)
    {p q : Fin n} (hpq : p ≠ q) :
    ∃ s t i, run step s₀ [.read p b, .read q b] = some s ∧ step s (.acquire q) = some t ∧
      returns s (.acquire q) = some (i, b) ∧ (t.cache.bufs i).data = Block.zero ∧
      t.disk = disk := by
  obtain ⟨i, h1⟩ := first_read hboot hb p
  obtain ⟨s', hs', hl, hbufs, hpc, hdisk, -⟩ := boot_eq n size disk
  rw [hboot] at hs'; cases hs'
  have hother : ∀ j, j ≠ i → (s₀.cache.bufs j).blockNum ≠ b := by
    intro j _; rw [hbufs]; exact hb.symm
  generalize hs1 : (s₀.setBuf i { s₀.cache.bufs i with blockNum := b, bufRef := 1 }).goto p
    (.miss i b) = s1 at h1
  have hb1 : ∀ j, s1.cache.bufs j =
      if j = i then { s₀.cache.bufs i with blockNum := b, bufRef := 1 } else s₀.cache.bufs j := by
    intro j; rw [← hs1]; exact bufs_setBuf ..
  have hq1 : s1.pc q = .idle := by rw [← hs1]; simp [hpq.symm, hpc]
  obtain ⟨g, c, hg, hspec⟩ := bufGet_spec (c := s1.cache) (ordered_congr hl (by rw [← hs1]; rfl)) b
  cases hspec with
  | full hn _ => exact absurd (by simp [hb1]) (hn i)
  | miss _ hn _ => exact absurd (by simp [hb1]) (hn i)
  | hit j hj =>
    have hji : j = i := by
      by_contra hne
      rw [hb1, if_neg hne] at hj
      exact hother j hne hj
    subst hji
    let s2 := (s1.setBuf j { s1.cache.bufs j with bufRef := (s1.cache.bufs j).bufRef + 1 }).goto q
      (.hit j b)
    have h2 : step s1 (.read q b) = some s2 := by simp only [step, hq1, if_true, hg]; rfl
    have hs2 : s2.cache.bufs j = ⟨none, b, Block.zero, 2⟩ := by simp [s2, hb1, hbufs]
    have hq2 : s2.pc q = .hit j b := by simp [s2]
    refine ⟨s2, (s2.setBuf j { s2.cache.bufs j with slk := some q }).goto q .idle, j, ?_, ?_, ?_,
      ?_, ?_⟩
    · simp only [run, h1, h2]
    · simp only [step, hq2, lock, hs2, if_true]
    · simp only [returns, hq2]
    · simp [hs2]
    · rw [← hdisk]; simp [s2, ← hs1]

end FirstReads

/-- Process 0 changes block 5, writes it and gives it back, and process 1 gets the new bytes. -/
theorem read_returns_block_next : ∃ (s₀ s t : State 2) (i : BufId),
    boot 2 8192 (fun _ _ => 1) = some s₀ ∧
      run step s₀ [.read 0 5, .acquire 0, .load 0, .modify 0 i fun _ => 2, .write 0 i, .release 0 i,
        .read 1 5] = some s ∧ step s (.acquire 1) = some t ∧ returns s (.acquire 1) = some (i, 5) ∧
      ReturnsBlock t i 5 ∧ t.disk 5 = fun _ => 2 := by
  obtain ⟨s₀, hboot, -⟩ := boot_eq 2 8192 (fun _ _ => 1)
  obtain ⟨s, t, i, hok, hrun, howner, hs, hret, hdisk⟩ := next_reader hboot (b := 5) (by decide)
    (by decide) (show (0 : Fin 2) ≠ 1 by decide) fun _ => 2
  exact ⟨s₀, s, t, i, hboot, hrun, hs, hret,
    read_returns_block (a := .acquire 1) hboot hok hrun howner hs hret, hdisk⟩

/-- Two processes ask for the same uncached block; the second one takes the sleeplock first. -/
theorem stale_read_reachable :
    ¬ ∀ (n size : Nat) (disk : Nat → Block) (s₀ s t : State n) (as : List (Act n)) (a : Act n)
        (i : BufId) (b : Nat), boot n size disk = some s₀ → run step s₀ as = some s →
        step s a = some t → returns s a = some (i, b) → ReturnsBlock t i b := by
  intro h
  obtain ⟨s₀, hboot, -⟩ := boot_eq 2 8192 (fun _ _ => 1)
  obtain ⟨s, t, i, hrun, hs, hret, hzero, hdisk⟩ :=
    second_reader hboot (b := 5) (by decide) (p := 0) (q := 1) (by decide)
  have hret := h _ _ _ _ _ _ _ _ _ _ hboot hrun hs hret
  have := hret.2
  rw [hzero, hdisk] at this
  exact absurd (congrFun this 0) (by decide)

end BufConc
end Fs
end WhuOS
