import WhuOS.Lib.Ring
import WhuOS.Fs.Block

/-!
# WhuOS.Fs.Buf

The buffer cache of `kernel/fs/buf.c`: 64 buffers in a ring through `head_buf`, most recently
released first. This module has the cache itself and the sections of `buf_read` and `buf_release`
under `lk_buf_cache`; who holds a buffer's sleeplock is of an arbitrary type `π`.

`Ordered c l` says that the ring visits all buffers in the order `l`; every section keeps it, and
under it the two searches of `buf_read` are `List.find?` (`get_cases`).
-/

namespace WhuOS
namespace Fs

open Lib

abbrev N_BLOCK_BUF : Nat := 64
def BLOCK_NUM_UNUSED : Nat := 0xFFFFFFFF

abbrev BufId := Fin N_BLOCK_BUF

/-- A node of the ring: `head_buf`, or an entry of `buf_cache[]`. -/
inductive Node where
  | head
  | buf (i : BufId)
  deriving DecidableEq

/-- `buf_t`; `slk` is the holder of the sleeplock. -/
structure Buf (π : Type) where
  slk : Option π
  blockNum : Nat
  data : Block
  bufRef : Nat

structure Cache (π : Type) where
  bufs : BufId → Buf π
  links : Links Node

variable {π : Type}

def Cache.setBuf (c : Cache π) (i : BufId) (b : Buf π) : Cache π :=
  { c with bufs := Function.update c.bufs i b }

@[simp] theorem Cache.setBuf_links (c : Cache π) (i : BufId) (b : Buf π) :
    (c.setBuf i b).links = c.links := rfl
@[simp] theorem Cache.setBuf_self (c : Cache π) (i : BufId) (b : Buf π) :
    (c.setBuf i b).bufs i = b := by simp [Cache.setBuf]
variable {i : BufId} {c c' : Cache π} {l : List BufId} {b : Nat}

theorem Cache.setBuf_other (c : Cache π) {j : BufId} (b : Buf π) (h : j ≠ i) :
    (c.setBuf i b).bufs j = c.bufs j := by simp [Cache.setBuf, Function.update_of_ne h]

def insertHead (c : Links Node) (i : BufId) (headNext : Bool) : Option (Links Node) :=
  let c := c.unlink (.buf i)
  if headNext then c.pushFront .head (.buf i) else c.pushBack .head (.buf i)

/-- The loop of `buf_init` over the entries `is`. -/
def bufInitLoop : List BufId → Cache π → Option (Cache π)
  | [], c => some c
  | i :: is, c =>
    let c := c.setBuf i ⟨none, BLOCK_NUM_UNUSED, (c.bufs i).data, 0⟩
    match insertHead c.links i false with
    | some links => bufInitLoop is { c with links }
    | none => none

/-- `buf_init` on the zeroed static data. -/
def bufInit : Option (Cache π) :=
  bufInitLoop (List.finRange N_BLOCK_BUF)
    { bufs := fun _ => ⟨none, 0, Block.zero, 0⟩
      links :=
        { next := fun a => if a = .head then some .head else none
          prev := fun a => if a = .head then some .head else none } }

/-- What the section of `buf_read` under `lk_buf_cache` finds. -/
inductive Got where
  /-- The block is cached in buffer `i`. -/
  | hit (i : BufId)
  /-- Buffer `i` was free and is given to the block; its data is still to be read. -/
  | miss (i : BufId)
  /-- Every buffer is referenced: `panic("buf_read: no free buf")`. -/
  | full
  deriving DecidableEq

/-- Does the node hold block `b`? -/
def holdsBlock (c : Cache π) (b : Nat) : Node → Bool
  | .head => false
  | .buf i => (c.bufs i).blockNum = b

/-- Is the node a buffer without references? -/
def unreferenced (c : Cache π) : Node → Bool
  | .head => false
  | .buf i => (c.bufs i).bufRef = 0

/-- The section of `buf_read` under `lk_buf_cache`; `none` if the ring does not end. -/
def bufGet (c : Cache π) (b : Nat) : Option (Got × Cache π) :=
  match searchNext c.links .head (holdsBlock c b) (N_BLOCK_BUF + 1) with
  | none => none
  | some (some (.buf i)) =>
    some (.hit i, c.setBuf i { c.bufs i with bufRef := (c.bufs i).bufRef + 1 })
  | some _ =>
    match searchPrev c.links .head (unreferenced c) (N_BLOCK_BUF + 1) with
    | none => none
    | some (some (.buf i)) =>
      some (.miss i, c.setBuf i { c.bufs i with blockNum := b, bufRef := 1 })
    | some _ => some (.full, c)

/-- The section of `buf_release` under `lk_buf_cache`. -/
def bufUnref (c : Cache π) (i : BufId) : Option (Cache π) :=
  let c := c.setBuf i { c.bufs i with bufRef := (c.bufs i).bufRef - 1 }
  if (c.bufs i).bufRef = 0 then
    match insertHead c.links i true with
    | some links => some { c with links }
    | none => none
  else some c

/-! ## The order of the ring -/

/-- The ring visits every buffer exactly once, in the order `l` from `head_buf.next`. -/
structure Ordered (c : Cache π) (l : List BufId) : Prop where
  ring : IsRing c.links .head (l.map Node.buf)
  all : ∀ i, i ∈ l
  len : l.length = N_BLOCK_BUF

theorem ordered_congr (h : Ordered c l)
    (hl : c'.links = c.links) : Ordered c' l :=
  ⟨hl ▸ h.ring, h.all, h.len⟩

theorem ring_nodup {c : Links Node} (h : IsRing c .head (l.map Node.buf)) :
    l.Nodup := by
  have := (List.nodup_cons.mp h.nodup).2
  exact List.Nodup.of_map _ this

theorem insertHead_front {c : Links Node}
    (h : IsRing c .head (l.map Node.buf)) (hi : i ∈ l) :
    ∃ c', insertHead c i true = some c' ∧ IsRing c' .head ((i :: l.erase i).map Node.buf) := by
  obtain ⟨l₁, l₂, hnot, rfl, herase⟩ := List.exists_erase_eq hi
  have hnd := ring_nodup h
  have hu : IsRing (c.unlink (.buf i)) .head ((l₁ ++ l₂).map Node.buf) := by
    have hr : IsRing c .head (l₁.map Node.buf ++ .buf i :: l₂.map Node.buf) := by simpa using h
    simpa using isRing_unlink hr
  have hni : i ∉ l₁ ++ l₂ := by
    have := (List.nodup_middle.mp hnd)
    exact (List.nodup_cons.mp this).1
  obtain ⟨c', hc, hr⟩ := isRing_pushFront (x := .buf i) hu (by simpa using hni)
  refine ⟨c', by simpa [insertHead] using hc, ?_⟩
  rw [herase]; simpa using hr

theorem insertHead_back {c : Links Node}
    (h : IsRing c .head (l.map Node.buf)) (hi : i ∉ l) (hn : c.next (.buf i) = none) :
    ∃ c', insertHead c i false = some c' ∧ IsRing c' .head ((l ++ [i]).map Node.buf) := by
  have hu : c.unlink (.buf i) = c := by simp [Links.unlink, hn]
  obtain ⟨c', hc, hr⟩ := isRing_pushBack (x := .buf i) h (by simpa using hi)
  exact ⟨c', by simpa [insertHead, hu] using hc, by simpa using hr⟩

theorem insertHead_next {c c' : Links Node} {j : BufId}
    (h : IsRing c .head (l.map Node.buf)) (hn : c.next (.buf i) = none)
    (hc : insertHead c i false = some c') (hj : j ∉ l) (hij : j ≠ i) :
    c'.next (.buf j) = c.next (.buf j) := by
  obtain ⟨p, hp, hpl⟩ := seg_prev h.seg
  have hpj : Node.buf j ≠ p := by
    rintro rfl
    have := List.mem_of_getLast? hpl
    simp [hj] at this
  simp only [insertHead, Links.unlink, hn, Links.pushBack, Links.pushFront, Links.flip, hp,
    Bool.false_eq_true, if_false] at hc
  simp [Links.setNext, Links.setPrev, hp] at hc
  subst hc
  simp [Links.flip, hpj, hij]

theorem bufInitLoop_spec :
    ∀ (is l : List BufId) (c : Cache π), IsRing c.links .head (l.map Node.buf) → (l ++ is).Nodup →
      (∀ i ∈ is, c.links.next (.buf i) = none) →
      ∃ c', bufInitLoop is c = some c' ∧ IsRing c'.links .head ((l ++ is).map Node.buf) ∧
        ∀ i, c'.bufs i = if i ∈ is then ⟨none, BLOCK_NUM_UNUSED, (c.bufs i).data, 0⟩ else c.bufs i := by
  intro is
  induction is with
  | nil => intro l c h _ _; exact ⟨c, rfl, by simpa using h, by simp⟩
  | cons i is ih =>
    intro l c h hnd hnone
    have hil : i ∉ l := fun hm => (List.nodup_append.mp hnd).2.2 i hm i (by simp) rfl
    have hiis : i ∉ is := (List.nodup_cons.mp (List.nodup_append.mp hnd).2.1).1
    obtain ⟨links, hins, hring⟩ := insertHead_back h hil (hnone i (by simp))
    have hrest : ∀ j ∈ is, links.next (.buf j) = none := by
      intro j hj
      have hjl : j ∉ l := fun hm => (List.nodup_append.mp hnd).2.2 j hm j (by simp [hj]) rfl
      have hji : j ≠ i := fun he => hiis (he ▸ hj)
      rw [insertHead_next h (hnone i (by simp)) hins hjl hji]
      exact hnone j (by simp [hj])
    obtain ⟨c', hc', hr', hb'⟩ := ih (l ++ [i])
      { c.setBuf i ⟨none, BLOCK_NUM_UNUSED, (c.bufs i).data, 0⟩ with links } hring
      (by simpa using hnd) hrest
    refine ⟨c', ?_, by simpa using hr', ?_⟩
    · simp only [bufInitLoop, Cache.setBuf_links, hins]; exact hc'
    · intro j
      rw [hb' j]
      by_cases hji : j = i
      · subst hji; simp [hiis]
      · simp [Cache.setBuf_other _ _ hji, hji]

theorem bufInit_spec : ∃ c : Cache π, bufInit = some c ∧ Ordered c (List.finRange N_BLOCK_BUF) ∧
    ∀ i, c.bufs i = ⟨none, BLOCK_NUM_UNUSED, Block.zero, 0⟩ := by
  obtain ⟨c, hc, hr, hb⟩ := bufInitLoop_spec (π := π) (List.finRange N_BLOCK_BUF) []
    { bufs := fun _ => ⟨none, 0, Block.zero, 0⟩
      links :=
        { next := fun a => if a = .head then some .head else none
          prev := fun a => if a = .head then some .head else none } }
    (isRing_nil (by simp) (by simp)) (by simpa using List.nodup_finRange _) (by simp)
  exact ⟨c, hc, ⟨by simpa using hr, List.mem_finRange, List.length_finRange⟩, by simpa using hb⟩

/-! ## The sections of `buf_read` and `buf_release` -/

theorem find?_map_buf (P : Node → Bool) (l : List BufId) :
    (l.map Node.buf).find? P = (l.find? (fun i => P (.buf i))).map Node.buf := by
  rw [List.find?_map]; rfl

theorem searchNext_buf (h : Ordered c l) (P : Node → Bool) :
    searchNext c.links .head P (N_BLOCK_BUF + 1) =
      some ((l.find? (fun i => P (.buf i))).map Node.buf) := by
  rw [searchNext_eq h.ring (by simp [h.len]), find?_map_buf]

theorem searchPrev_buf (h : Ordered c l) (P : Node → Bool) :
    searchPrev c.links .head P (N_BLOCK_BUF + 1) =
      some ((l.reverse.find? (fun i => P (.buf i))).map Node.buf) := by
  rw [searchPrev_eq h.ring (by simp [h.len]), ← List.map_reverse, find?_map_buf]

/-- What the section of `buf_read` can do. -/
inductive GetSpec (c : Cache π) (b : Nat) : Got → Cache π → Prop
  | hit (i : BufId) (hb : (c.bufs i).blockNum = b) :
      GetSpec c b (.hit i) (c.setBuf i { c.bufs i with bufRef := (c.bufs i).bufRef + 1 })
  | miss (i : BufId) (hb : ∀ j, (c.bufs j).blockNum ≠ b) (hr : (c.bufs i).bufRef = 0) :
      GetSpec c b (.miss i) (c.setBuf i { c.bufs i with blockNum := b, bufRef := 1 })
  | full (hb : ∀ j, (c.bufs j).blockNum ≠ b) (hr : ∀ j, (c.bufs j).bufRef ≠ 0) :
      GetSpec c b .full c

theorem bufGet_spec (h : Ordered c l) (b : Nat) :
    ∃ g c', bufGet c b = some (g, c') ∧ GetSpec c b g c' := by
  unfold bufGet
  rw [searchNext_buf h]
  cases hf : l.find? (fun i => holdsBlock c b (.buf i)) with
  | some i =>
    have hb : (c.bufs i).blockNum = b := by simpa [holdsBlock] using List.find?_some hf
    exact ⟨_, _, rfl, .hit i hb⟩
  | none =>
    have hb : ∀ j, (c.bufs j).blockNum ≠ b := by
      intro j
      have := List.find?_eq_none.mp hf j (h.all j)
      simpa [holdsBlock] using this
    simp only [Option.map_none]
    rw [searchPrev_buf h]
    cases hv : l.reverse.find? (fun i => unreferenced c (.buf i)) with
    | some i =>
      have hr : (c.bufs i).bufRef = 0 := by simpa [unreferenced] using List.find?_some hv
      exact ⟨_, _, rfl, .miss i hb hr⟩
    | none =>
      have hr : ∀ j, (c.bufs j).bufRef ≠ 0 := by
        intro j
        have := List.find?_eq_none.mp hv j (by simpa using h.all j)
        simpa [unreferenced] using this
      exact ⟨_, _, rfl, .full hb hr⟩

theorem bufGet_cases {g : Got} (h : Ordered c l)
    (hg : bufGet c b = some (g, c')) : GetSpec c b g c' := by
  obtain ⟨g', c'', he, hs⟩ := bufGet_spec h b
  rw [hg] at he; cases he; exact hs

theorem getSpec_links {g : Got} (h : GetSpec c b g c') :
    c'.links = c.links := by cases h <;> rfl

/-- The buffer that `buf_read` gives to another block is the last one without references. -/
theorem bufGet_victim {v : BufId} (h : Ordered c l)
    (hg : bufGet c b = some (.miss v, c')) :
    ∃ l₁ l₂, l = l₁ ++ v :: l₂ ∧ ∀ i ∈ l₂, (c.bufs i).bufRef ≠ 0 := by
  unfold bufGet at hg
  rw [searchNext_buf h] at hg
  cases hf : l.find? (fun i => holdsBlock c b (.buf i)) with
  | some i => rw [hf] at hg; simp at hg
  | none =>
    rw [hf, Option.map_none] at hg
    simp only at hg
    rw [searchPrev_buf h] at hg
    cases hv : l.reverse.find? (fun i => unreferenced c (.buf i)) with
    | none => rw [hv] at hg; simp at hg
    | some i =>
      rw [hv, Option.map_some] at hg
      simp only [Option.some.injEq, Prod.mk.injEq, Got.miss.injEq] at hg
      obtain ⟨rfl, -⟩ := hg
      obtain ⟨-, as, bs, heq, hne⟩ := List.find?_eq_some_iff_append.mp hv
      refine ⟨bs.reverse, as.reverse, ?_, fun j hj => ?_⟩
      · rw [← List.reverse_reverse l, heq]; simp
      · simpa [unreferenced] using hne j (List.mem_reverse.mp hj)

/-- The order of the ring after `buf_release` of buffer `i`: to the front, if it was the last
reference. -/
def orderAfter (c : Cache π) (l : List BufId) (i : BufId) : List BufId :=
  if (c.bufs i).bufRef - 1 = 0 then i :: l.erase i else l

theorem bufUnref_order (h : Ordered c l) (i : BufId) :
    ∃ c', bufUnref c i = some c' ∧ Ordered c' (orderAfter c l i) ∧
      c'.bufs = (c.setBuf i { c.bufs i with bufRef := (c.bufs i).bufRef - 1 }).bufs := by
  unfold bufUnref orderAfter
  simp only [Cache.setBuf_self, Cache.setBuf_links]
  split
  · obtain ⟨links, hins, hring⟩ := insertHead_front h.ring (h.all i)
    rw [hins]
    refine ⟨_, rfl, ⟨hring, ?_, ?_⟩, rfl⟩
    · intro j
      by_cases hj : j = i
      · simp [hj]
      · exact List.mem_cons_of_mem i ((List.mem_erase_of_ne hj).mpr (h.all j))
    · have hlen := List.length_erase_of_mem (h.all i)
      have hl := h.len
      simp only [List.length_cons, hlen, hl]
      rfl
  · exact ⟨_, rfl, ordered_congr h rfl, rfl⟩

/-- The section of `buf_release` always ends; it keeps the ring and only counts down. -/
theorem bufUnref_spec (h : Ordered c l) (i : BufId) :
    ∃ c' l', bufUnref c i = some c' ∧ Ordered c' l' ∧
      c'.bufs = (c.setBuf i { c.bufs i with bufRef := (c.bufs i).bufRef - 1 }).bufs := by
  obtain ⟨c', hc, hl, hb⟩ := bufUnref_order h i
  exact ⟨c', _, hc, hl, hb⟩

end Fs
end WhuOS
