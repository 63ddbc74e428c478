import WhuOS.Lib.Count
import WhuOS.Fs.BufConc

/-!
# WhuOS.Fs.Lru

The buffer cache over whole runs: any sequence of the sections of `buf_read` and `buf_release` under
`lk_buf_cache`, which is any interleaving of the calls, with what the holders of the buffers do in
between. The history of a run is a list of events, the most recent one first.

* `CacheRun c h`      — the cache `c` is reached with the history `h`.
* `cache_structured`  — the ring, the block numbers and the reference counts, for every such run
  and for every run of the processes of `Fs.BufConc`.
* `Fresher`           — the order of the ring is the order of the last falls to `buf_ref = 0`; the
  invariant behind `lru_exact`.
-/

namespace WhuOS
namespace Fs

open Lib

/-! ## Histories -/

inductive CacheEvent where
  /-- `buf_read` handed out buffer `i`. -/
  | got (i : BufId)
  /-- `buf_release` of buffer `i`. -/
  | released (i : BufId)
  deriving DecidableEq

abbrev History := List CacheEvent

/-- The results of `buf_read` on buffer `i` that are not yet released. -/
def unreleased : History → BufId → Nat
  | [], _ => 0
  | .got j :: h, i => unreleased h i + if j = i then 1 else 0
  | .released j :: h, i => unreleased h i - if j = i then 1 else 0

/-- When the last unreleased result on buffer `i` was released, the last time that happened. -/
def lastFall : History → BufId → Option Nat
  | [], _ => none
  | .got _ :: h, i => lastFall h i
  | .released j :: h, i =>
    if j = i ∧ unreleased (.released j :: h) i = 0 then some h.length else lastFall h i

theorem lastFall_lt {i : BufId} {t : Nat} : ∀ {h : History}, lastFall h i = some t → t < h.length := by
  intro h
  induction h with
  | nil => intro ht; cases ht
  | cons e h ih =>
    intro ht
    rw [List.length_cons]
    cases e with
    | got j =>
      have := ih ht
      omega
    | released j =>
      rw [lastFall] at ht
      split at ht
      · cases ht; omega
      · have := ih ht
        omega

theorem released_of_lastFall {i : BufId} {t : Nat} :
    ∀ {h : History}, lastFall h i = some t → .released i ∈ h := by
  intro h
  induction h with
  | nil => intro ht; cases ht
  | cons e h ih =>
    intro ht
    cases e with
    | got j => exact List.mem_cons_of_mem _ (ih ht)
    | released j =>
      rw [lastFall] at ht
      split at ht
      · rename_i hj
        rw [hj.1]
        exact List.mem_cons_self
      · exact List.mem_cons_of_mem _ (ih ht)

theorem lastFall_of_released {i : BufId} :
    ∀ {h : History}, .released i ∈ h → unreleased h i = 0 → ∃ t, lastFall h i = some t := by
  intro h
  induction h with
  | nil => intro hm; cases hm
  | cons e h ih =>
    intro hm h0
    cases e with
    | got j =>
      rw [unreleased] at h0
      exact ih ((List.mem_cons.mp hm).resolve_left (by simp)) (by omega)
    | released j =>
      by_cases hj : j = i
      · exact ⟨h.length, if_pos ⟨hj, h0⟩⟩
      · rw [lastFall, if_neg fun hc => hj hc.1]
        rw [unreleased, if_neg hj] at h0
        refine ih ((List.mem_cons.mp hm).resolve_left fun he => hj ?_) h0
        cases he; rfl

/-! ## Runs -/

/-- The buffer that `buf_read` returns. -/
def Got.buf : Got → Option BufId
  | .hit i => some i
  | .miss i => some i
  | .full => none

variable {π : Type}

/-- The cache `c` is reached after `buf_init` with the history `h`. -/
inductive CacheRun : Cache π → History → Prop
  | init {c : Cache π} : bufInit = some c → CacheRun c []
  | read {c c' : Cache π} {h : History} {b : Nat} {g : Got} {i : BufId} : CacheRun c h →
      bufGet c b = some (g, c') → g.buf = some i → CacheRun c' (.got i :: h)
  | release {c c' : Cache π} {h : History} {i : BufId} : CacheRun c h →
      0 < unreleased h i → bufUnref c i = some c' → CacheRun c' (.released i :: h)
  /-- Outside `lk_buf_cache` sleeplocks and data change. -/
  | holder {c c' : Cache π} {h : History} : CacheRun c h → c'.links = c.links →
      (∀ i, (c'.bufs i).blockNum = (c.bufs i).blockNum ∧ (c'.bufs i).bufRef = (c.bufs i).bufRef) →
      CacheRun c' h

/-- `j` fell before `i` did, or never. -/
def Fresher (h : History) (i j : BufId) : Prop :=
  ∀ t, lastFall h j = some t → ∃ t', lastFall h i = some t' ∧ t < t'

/-- The ring is in the order of the last falls, and the counts are right. -/
structure LruInv (c : Cache π) (h : History) : Prop where
  order : ∃ l, Ordered c l ∧ l.Pairwise (Fresher h)
  refs : ∀ i, (c.bufs i).bufRef = unreleased h i

section Steps

variable {c c' : Cache π} {h : History} {i : BufId}

theorem lastFall_kept (hi : unreleased h i - 1 ≠ 0) (j : BufId) :
    lastFall (.released i :: h) j = lastFall h j := by
  rw [lastFall, if_neg]
  rintro ⟨rfl, h0⟩
  rw [unreleased, if_pos rfl] at h0
  exact hi h0

theorem lastFall_other {j : BufId} (hij : i ≠ j) : lastFall (.released i :: h) j = lastFall h j := by
  rw [lastFall, if_neg fun hc => hij hc.1]

theorem pairwise_front {l : List BufId} (hnd : l.Nodup) (hp : l.Pairwise (Fresher h))
    (hi : unreleased h i - 1 = 0) : (i :: l.erase i).Pairwise (Fresher (.released i :: h)) := by
  have hnow : lastFall (.released i :: h) i = some h.length := by
    rw [lastFall, if_pos ⟨rfl, by rw [unreleased, if_pos rfl]; exact hi⟩]
  have hne : ∀ j ∈ l.erase i, i ≠ j := fun j hj he => (hnd.mem_erase_iff.mp hj).1 he.symm
  refine List.pairwise_cons.mpr ⟨fun j hj t ht => ?_, ?_⟩
  · rw [lastFall_other (hne j hj)] at ht
    exact ⟨_, hnow, lastFall_lt ht⟩
  · refine (hp.sublist List.erase_sublist).imp_of_mem fun {a b} ha hb hab t ht => ?_
    rw [lastFall_other (hne b hb)] at ht
    rw [lastFall_other (hne a ha)]
    exact hab t ht

theorem LruInv.read {b : Nat} {g : Got} (hi : LruInv c h) (hg : bufGet c b = some (g, c'))
    (hb : g.buf = some i) : LruInv c' (.got i :: h) := by
  obtain ⟨l, hl, hp⟩ := hi.order
  have hs := bufGet_cases hl hg
  refine ⟨⟨l, ordered_congr hl (getSpec_links hs), hp⟩, fun j => ?_⟩
  have hrefs := hi.refs j
  cases hs with
  | hit k _ =>
    cases hb
    by_cases hj : j = i
    · subst hj; simp [unreleased, hrefs]
    · rw [Cache.setBuf_other _ _ hj, hrefs, unreleased, if_neg (Ne.symm hj), Nat.add_zero]
  | miss k _ h0 =>
    cases hb
    by_cases hj : j = i
    · subst hj
      rw [hrefs] at h0
      simp [unreleased, h0]
    · rw [Cache.setBuf_other _ _ hj, hrefs, unreleased, if_neg (Ne.symm hj), Nat.add_zero]
  | full _ _ => cases hb

theorem LruInv.release (hi : LruInv c h) (hu : bufUnref c i = some c') :
    LruInv c' (.released i :: h) := by
  obtain ⟨l, hl, hp⟩ := hi.order
  obtain ⟨c'', hc, hl', hb⟩ := bufUnref_order hl i
  rw [hu, Option.some.injEq] at hc
  subst hc
  refine ⟨⟨_, hl', ?_⟩, fun j => ?_⟩
  · unfold orderAfter
    rw [hi.refs i]
    split
    · rename_i h0
      exact pairwise_front (ring_nodup hl.ring) hp h0
    · rename_i h0
      refine hp.imp fun {a b} hab t ht => ?_
      rw [lastFall_kept h0] at ht ⊢
      exact hab t ht
  · rw [hb]
    by_cases hj : j = i
    · subst hj; simp [unreleased, hi.refs j]
    · rw [Cache.setBuf_other _ _ hj, hi.refs j, unreleased, if_neg (Ne.symm hj), Nat.sub_zero]

theorem LruInv.init (hc : bufInit = some c) : LruInv c [] := by
  obtain ⟨c', hc', hl, hb⟩ := bufInit_spec (π := π)
  rw [hc, Option.some.injEq] at hc'
  subst hc'
  refine ⟨⟨_, hl, List.pairwise_of_forall fun _ _ _ ht => by cases ht⟩, fun i => ?_⟩
  rw [hb]; rfl

end Steps

section Runs

variable {c c' : Cache π} {h : History}

theorem CacheRun.inv (hr : CacheRun c h) : LruInv c h := by
  induction hr with
  | init hc => exact .init hc
  | read _ hg hb ih => exact ih.read hg hb
  | release _ _ hu ih => exact ih.release hu
  | holder _ hl hb ih =>
    obtain ⟨l, ho, hp⟩ := ih.order
    exact ⟨⟨l, ordered_congr ho hl, hp⟩, fun i => by rw [(hb i).2, ih.refs i]⟩

/-! ## The structure of the cache -/

/-- No two buffers carry the same block. -/
def OnePerBlock (c : Cache π) : Prop :=
  ∀ i j, (c.bufs i).blockNum = (c.bufs j).blockNum → (c.bufs i).blockNum ≠ BLOCK_NUM_UNUSED → i = j

theorem OnePerBlock.congr (hd : OnePerBlock c) (hb : ∀ i, (c'.bufs i).blockNum = (c.bufs i).blockNum) :
    OnePerBlock c' := by
  intro i j
  rw [hb, hb]
  exact hd i j

/-- `buf_read` changes the block number of at most one buffer, which has no references. -/
theorem getSpec_blockNum {b : Nat} {g : Got} (hs : GetSpec c b g c') {i : BufId}
    (hi : 0 < (c.bufs i).bufRef) : (c'.bufs i).blockNum = (c.bufs i).blockNum := by
  cases hs with
  | hit k _ =>
    by_cases hk : i = k
    · subst hk; simp
    · rw [Cache.setBuf_other _ _ hk]
  | miss k _ h0 =>
    rw [Cache.setBuf_other _ _ (by rintro rfl; omega)]
  | full _ _ => rfl

theorem OnePerBlock.read {b : Nat} {g : Got} (hd : OnePerBlock c) (hs : GetSpec c b g c') :
    OnePerBlock c' := by
  cases hs with
  | hit k _ =>
    refine hd.congr fun i => ?_
    by_cases hk : i = k
    · subst hk; simp
    · rw [Cache.setBuf_other _ _ hk]
  | full _ _ => exact hd
  | miss k hb _ =>
    intro i j heq hne
    by_cases hi : i = k <;> by_cases hj : j = k
    · rw [hi, hj]
    · subst hi
      rw [Cache.setBuf_self, Cache.setBuf_other _ _ hj] at heq
      exact (hb j heq.symm).elim
    · subst hj
      rw [Cache.setBuf_self, Cache.setBuf_other _ _ hi] at heq
      exact (hb i heq).elim
    · rw [Cache.setBuf_other _ _ hi] at heq hne
      rw [Cache.setBuf_other _ _ hj] at heq
      exact hd i j heq hne

theorem bufUnref_blockNum {l : List BufId} (ho : Ordered c l) {i : BufId}
    (hu : bufUnref c i = some c') (j : BufId) : (c'.bufs j).blockNum = (c.bufs j).blockNum := by
  obtain ⟨c'', hc, -, hb⟩ := bufUnref_order ho i
  rw [hu, Option.some.injEq] at hc
  rw [hc, hb]
  by_cases hj : j = i
  · subst hj; simp
  · rw [Cache.setBuf_other _ _ hj]

theorem CacheRun.onePerBlock (hr : CacheRun c h) : OnePerBlock c := by
  induction hr with
  | init hc =>
    obtain ⟨c', hc', -, hb⟩ := bufInit_spec (π := π)
    rw [hc, Option.some.injEq] at hc'
    intro i j _ hne
    rw [hc', hb] at hne
    exact (hne rfl).elim
  | read hr hg _ ih =>
    obtain ⟨l, hl, -⟩ := hr.inv.order
    exact ih.read (bufGet_cases hl hg)
  | release hr _ hu ih =>
    obtain ⟨l, hl, -⟩ := hr.inv.order
    exact ih.congr (bufUnref_blockNum hl hu)
  | holder _ _ hb ih => exact ih.congr fun i => (hb i).1

end Runs

/-- The ring visits each buffer once and `next` and `prev` are inverse, no block is cached twice,
the counts are `refs`, and the two sections always end and leave the block number of every
referenced buffer alone. -/
structure Structured (c : Cache π) (refs : BufId → Nat) : Prop where
  ring : ∃ l, Ordered c l ∧ l.Nodup
  inverse : ∀ x y, c.links.next x = some y ↔ c.links.prev y = some x
  onePerBlock : OnePerBlock c
  refs : ∀ i, (c.bufs i).bufRef = refs i
  read : ∀ b, ∃ g c', bufGet c b = some (g, c') ∧
    ∀ i, 0 < (c.bufs i).bufRef → (c'.bufs i).blockNum = (c.bufs i).blockNum
  release : ∀ i, ∃ c', bufUnref c i = some c' ∧
    ∀ j, (c'.bufs j).blockNum = (c.bufs j).blockNum

theorem CacheRun.structured {c : Cache π} {h : History}
    (hr : CacheRun c h) : Structured c (unreleased h) := by
  obtain ⟨l, hl, -⟩ := hr.inv.order
  have hmem : ∀ x, x ∈ Node.head :: l.map Node.buf := by
    intro x
    cases x with
    | head => simp
    | buf i => simpa using hl.all i
  refine ⟨⟨l, hl, ring_nodup hl.ring⟩, fun x y => hl.ring.next_iff_prev (hmem x) (hmem y),
    hr.onePerBlock, hr.inv.refs, fun b => ?_, fun i => ?_⟩
  · obtain ⟨g, c', hg, hs⟩ := bufGet_spec hl b
    exact ⟨g, c', hg, fun i hi => getSpec_blockNum hs hi⟩
  · obtain ⟨c', hu, -⟩ := bufUnref_order hl i
    exact ⟨c', hu, bufUnref_blockNum hl hu⟩

/-! ## The processes of `Fs.BufConc` -/

namespace BufConc

variable {n : Nat}

/-- The references of the processes are what the history has not released. -/
def Traced (s : State n) : Prop := ∃ h, CacheRun s.cache h ∧ ∀ i, unreleased h i = users s i

theorem Traced.boot {size : Nat} {disk : Nat → Block} {s : State n}
    (h : boot n size disk = some s) : Traced s := by
  obtain ⟨c, hc, -, hb⟩ := bufInit_spec (π := Fin n)
  rw [BufConc.boot, hc] at h
  cases h
  exact ⟨[], .init hc, fun i => by simp [unreleased, users, hb, Pc.uses]⟩

section Steps

variable {s t : State n} {p : Fin n} {v : Pc} {i : BufId} {b : Buf (Fin n)}

theorem Traced.ordered (h : Traced s) : ∃ l, Ordered s.cache l := by
  obtain ⟨_, hrun, -⟩ := h
  obtain ⟨l, hl, -⟩ := hrun.inv.order
  exact ⟨l, hl⟩

/-- A process takes or gives up a sleeplock, or changes the data of a buffer: the references stay
the same, although the one of the process may now be counted elsewhere. -/
theorem Traced.setBuf (h : Traced s) (hn : b.blockNum = (s.cache.bufs i).blockNum)
    (hr : b.bufRef = (s.cache.bufs i).bufRef)
    (hu : ∀ j, v.uses j + (if j = i then b.slk else (s.cache.bufs j).slk).elim 0 (fun _ => 1) =
      (s.pc p).uses j + (s.cache.bufs j).slk.elim 0 fun _ => 1) :
    Traced ((s.setBuf i b).goto p v) := by
  obtain ⟨l, hl⟩ := h.ordered
  obtain ⟨hist, hrun, hrefs⟩ := h
  refine ⟨hist, .holder hrun rfl fun j => ?_, fun j => ?_⟩
  · rw [goto_cache, setBuf_cache, bufs_setBuf]
    by_cases hj : j = i
    · rw [if_pos hj, hj]; exact ⟨hn, hr⟩
    · rw [if_neg hj]; exact ⟨rfl, rfl⟩
  · have hm := users_moved (moved_of_ordered (p := p) (v := v) (i := i) (b := b) hl) j
    have := hu j
    rw [hrefs j]
    omega

theorem Traced.read {b : Nat} (h : Traced s) (hs : step s (.read p b) = some t) : Traced t := by
  obtain ⟨l, hl⟩ := h.ordered
  obtain ⟨hist, hrun, hrefs⟩ := h
  simp only [step] at hs
  split at hs
  case isFalse => cases hs
  case isTrue hp =>
    split at hs
    · rename_i i c hg
      cases hs
      cases bufGet_cases hl hg with
      | hit _ hb =>
        refine ⟨_, .read hrun hg rfl, fun j => ?_⟩
        have hm := users_moved (moved_of_ordered (p := p) (v := .hit i b) (i := i)
          (b := { s.cache.bufs i with bufRef := (s.cache.bufs i).bufRef + 1 }) hl) j
        show _ = users ((s.setBuf i _).goto p (.hit i b)) j
        grind [hrefs j, unreleased]
    · rename_i i c hg
      cases hs
      cases bufGet_cases hl hg with
      | miss _ hb hr =>
        refine ⟨_, .read hrun hg rfl, fun j => ?_⟩
        have hm := users_moved (moved_of_ordered (p := p) (v := .miss i b) (i := i)
          (b := { s.cache.bufs i with blockNum := b, bufRef := 1 }) hl) j
        show _ = users ((s.setBuf i _).goto p (.miss i b)) j
        grind [hrefs j, unreleased]
    · cases hs

theorem Traced.unref (h : Traced s) (hs : step s (.unref p) = some t) : Traced t := by
  obtain ⟨l, hl⟩ := h.ordered
  obtain ⟨hist, hrun, hrefs⟩ := h
  simp only [step] at hs
  split at hs
  · rename_i i hp
    obtain ⟨c, hc, hl', hb⟩ := bufUnref_order hl i
    rw [hc] at hs; cases hs
    have hpos : 0 < unreleased hist i := by
      have := uses_le_users s p i
      rw [hrefs i]
      simp only [hp, Pc.uses, if_true] at this
      omega
    refine ⟨_, .release hrun hpos hc, fun j => ?_⟩
    have hm : Moved s ({ s with cache := c }.goto p .idle) p .idle i
        { s.cache.bufs i with bufRef := (s.cache.bufs i).bufRef - 1 } :=
      ⟨⟨_, ordered_congr hl' rfl⟩, fun q => goto_pc .., fun j => by
        rw [goto_cache]; simp only [hb, bufs_setBuf]⟩
    grind [hrefs j, unreleased, users_moved hm j]
  · cases hs

theorem Traced.acquire (h : Traced s) (hs : step s (.acquire p) = some t) : Traced t := by
  simp only [step] at hs
  split at hs
  · rename_i i b hp
    obtain ⟨hfree, rfl⟩ := lock_eq hs
    refine h.setBuf rfl rfl fun j => ?_
    rw [hp]
    by_cases hj : j = i
    · subst hj; simp [Pc.uses, hfree]
    · simp [Pc.uses, hj, Ne.symm hj]
  · rename_i i b hp
    obtain ⟨hfree, rfl⟩ := lock_eq hs
    refine h.setBuf rfl rfl fun j => ?_
    rw [hp]
    by_cases hj : j = i
    · subst hj; simp [Pc.uses, hfree]
    · simp [Pc.uses, hj, Ne.symm hj]
  · cases hs

theorem Traced.load (h : Traced s) (hs : step s (.load p) = some t) : Traced t := by
  simp only [step] at hs
  split at hs
  · rename_i i b hp
    split at hs
    · cases hs
      refine h.setBuf rfl rfl fun j => ?_
      rw [hp]
      by_cases hj : j = i
      · subst hj; simp [Pc.uses]
      · simp [Pc.uses, hj]
    · cases hs
  · cases hs

theorem Traced.release (h : Traced s) (hs : step s (.release p i) = some t) : Traced t := by
  simp only [step] at hs
  split at hs
  · rename_i hp
    obtain ⟨hidle, hslk⟩ := hp
    cases hs
    refine h.setBuf rfl rfl fun j => ?_
    rw [hidle]
    by_cases hj : j = i
    · subst hj; simp [Pc.uses, hslk]
    · simp [Pc.uses, hj, Ne.symm hj]
  · cases hs

theorem Traced.modify {d : Block} (h : Traced s) (hs : step s (.modify p i d) = some t) :
    Traced t := by
  simp only [step] at hs
  split at hs
  · rename_i hp
    cases hs
    have hself : s.setBuf i { s.cache.bufs i with data := d } =
        (s.setBuf i { s.cache.bufs i with data := d }).goto p .idle := by
      simp [State.goto, State.setBuf, ← hp.1]
    rw [hself]
    refine h.setBuf rfl rfl fun j => ?_
    rw [hp.1]
    by_cases hj : j = i
    · subst hj; simp [Pc.uses]
    · simp [Pc.uses, hj]
  · cases hs

end Steps

theorem traced_step (s : State n) (a : Act n) (t : State n) (h : Traced s) (_ : True)
    (hs : step s a = some t) : Traced t := by
  cases a with
  | read p b => exact h.read hs
  | acquire p => exact h.acquire hs
  | load p => exact h.load hs
  | modify p i d => exact h.modify hs
  | write p i =>
    simp only [step] at hs
    split at hs
    · cases hs; exact h
    · cases hs
  | release p i => exact h.release hs
  | unref p => exact h.unref hs

theorem traced_run {size : Nat} {disk : Nat → Block} {s₀ s : State n} {as : List (Act n)}
    (hboot : BufConc.boot n size disk = some s₀) (hrun : run step s₀ as = some s) : Traced s :=
  run_inv traced_step as (.boot hboot) (runOk_true as s₀) hrun

end BufConc

/-- Every reachable cache is structured, with the number of unreleased results of each buffer as its
count; so is the cache of `n` processes that call the functions in any interleaving, with the
references that the processes have as the counts. -/
theorem cache_structured :
    (∀ (c : Cache π) (h : History), CacheRun c h → Structured c (unreleased h)) ∧
    ∀ (n size : Nat) (disk : Nat → Block) (s₀ s : BufConc.State n) (as : List (BufConc.Act n)),
      BufConc.boot n size disk = some s₀ → run BufConc.step s₀ as = some s →
      Structured s.cache (BufConc.users s) := by
  refine ⟨fun c h hr => hr.structured, fun n size disk s₀ s as hboot hrun => ?_⟩
  obtain ⟨h, hr, hu⟩ := BufConc.traced_run hboot hrun
  rw [show BufConc.users s = unreleased h from funext fun i => (hu i).symm]
  exact hr.structured

/-- The blocks below `k` are read one after the other and kept. -/
theorem cacheRun_filled : ∀ k, k ≤ N_BLOCK_BUF → ∃ (c : Cache π) (h : History), CacheRun c h ∧
    (∀ i, (c.bufs i).blockNum < k ∨ (c.bufs i).blockNum = BLOCK_NUM_UNUSED) ∧
    (∀ i, (c.bufs i).bufRef ≤ 1) ∧ (count fun i => (c.bufs i).bufRef = 0) + k = N_BLOCK_BUF := by
  intro k
  induction k with
  | zero =>
    intro _
    obtain ⟨c, hc, hl, hb⟩ := bufInit_spec (π := π)
    refine ⟨c, [], .init hc, fun i => .inr (by rw [hb]), fun i => by rw [hb]; exact Nat.zero_le _, ?_⟩
    simp only [hb]
    rfl
  | succ k ih =>
    intro hk
    obtain ⟨c, h, hr, hnum, hle, hcount⟩ := ih (by omega)
    obtain ⟨l, hl, -⟩ := hr.inv.order
    obtain ⟨g, c', hg, hs⟩ := bufGet_spec hl k
    cases hs with
    | hit i hi =>
      have := hnum i
      simp only [hi, BLOCK_NUM_UNUSED, N_BLOCK_BUF] at this hk
      omega
    | full _ h0 =>
      rw [count_eq_zero h0] at hcount
      omega
    | miss i _ h0 =>
      refine ⟨c.setBuf i { c.bufs i with blockNum := k, bufRef := 1 }, .got i :: h, .read hr hg rfl,
        fun j => ?_, fun j => ?_, ?_⟩
      · by_cases hj : j = i
        · rw [hj, Cache.setBuf_self]
          exact .inl (Nat.lt_succ_self k)
        · rw [Cache.setBuf_other _ _ hj]
          exact (hnum j).imp_left Nat.lt_succ_of_lt
      · by_cases hj : j = i
        · rw [hj, Cache.setBuf_self]
        · rw [Cache.setBuf_other _ _ hj]
          exact hle j
      · have := count_change (p := fun j => (c.bufs j).bufRef = 0)
          (q := fun j => ((c.setBuf i { c.bufs i with blockNum := k, bufRef := 1 }).bufs j).bufRef = 0) i
          fun j hj => by rw [Cache.setBuf_other _ _ hj]
        rw [if_pos h0, Cache.setBuf_self, if_neg Nat.one_ne_zero] at this
        omega

/-- The buffers `is` are given back, each by its only user. -/
theorem cacheRun_drained : ∀ (is : List BufId) (c : Cache π) (h : History), CacheRun c h → is.Nodup →
    (∀ i ∈ is, (c.bufs i).bufRef = 1) → ∃ (c' : Cache π) (h' : History), CacheRun c' h' ∧
      (∀ e ∈ h, e ∈ h') ∧ (∀ i ∈ is, (c'.bufs i).bufRef = 0 ∧ .released i ∈ h') ∧
      (∀ i, i ∉ is → (c'.bufs i).bufRef = (c.bufs i).bufRef) ∧
      ∀ i, (c'.bufs i).blockNum = (c.bufs i).blockNum := by
  intro is
  induction is with
  | nil => exact fun c h hr _ _ => ⟨c, h, hr, fun _ he => he, by simp, fun _ _ => rfl, fun _ => rfl⟩
  | cons i is ih =>
    intro c h hr hnd href
    obtain ⟨hi, hnd⟩ := List.nodup_cons.mp hnd
    obtain ⟨l, hl, -⟩ := hr.inv.order
    obtain ⟨c1, hu, -, hb⟩ := bufUnref_order hl i
    have hone := href i List.mem_cons_self
    have hbi : (c1.bufs i).bufRef = 0 := by rw [hb, Cache.setBuf_self, hone]
    have hother : ∀ j, j ≠ i → (c1.bufs j).bufRef = (c.bufs j).bufRef := fun j hj => by
      rw [hb, Cache.setBuf_other _ _ hj]
    obtain ⟨c2, h2, hr2, hkeep, hzero, hrest, hnum⟩ := ih c1 _
      (.release hr (by rw [← hr.inv.refs i, hone]; exact Nat.one_pos) hu) hnd fun j hj => by
        rw [hother j (by rintro rfl; exact hi hj)]
        exact href j (List.mem_cons_of_mem _ hj)
    refine ⟨c2, h2, hr2, fun e he => hkeep e (List.mem_cons_of_mem _ he), fun j hj => ?_,
      fun j hj => ?_, fun j => (hnum j).trans (bufUnref_blockNum hl hu j)⟩
    · rcases List.mem_cons.mp hj with rfl | hj
      · exact ⟨(hrest j hi).trans hbi, hkeep _ List.mem_cons_self⟩
      · exact hzero j hj
    · obtain ⟨hji, hj⟩ := not_or.mp (mt List.mem_cons.mpr hj)
      rw [hrest j hj, hother j hji]

/-- A run after which every buffer was released. -/
theorem cacheRun_released : ∃ (c : Cache π) (h : History), CacheRun c h ∧
    (∀ i, (c.bufs i).bufRef = 0 ∧ .released i ∈ h) ∧
    ∀ i, (c.bufs i).blockNum < N_BLOCK_BUF ∨ (c.bufs i).blockNum = BLOCK_NUM_UNUSED := by
  obtain ⟨c, h, hr, hnum, hle, hcount⟩ := cacheRun_filled (π := π) N_BLOCK_BUF le_rfl
  have hone : ∀ i, (c.bufs i).bufRef = 1 := fun i => by
    have h0 : (c.bufs i).bufRef ≠ 0 := fun h0 => by
      have := count_pos (p := fun i => (c.bufs i).bufRef = 0) h0
      omega
    have := hle i
    omega
  obtain ⟨c', h', hr', -, hrel, -, hnum'⟩ := cacheRun_drained (List.finRange N_BLOCK_BUF) c h hr
    (List.nodup_finRange _) fun i _ => hone i
  exact ⟨c', h', hr', fun i => hrel i (List.mem_finRange i), fun i => by rw [hnum']; exact hnum i⟩

/-- After 64 blocks were read and all of them released; and with two processes that read one block. -/
theorem cache_structured_released : (∃ (c : Cache Unit) (h : History), CacheRun c h ∧
    (∀ i, .released i ∈ h) ∧ Structured c (unreleased h)) ∧
    ∃ s₀ s, BufConc.boot 2 8192 (fun _ _ => 1) = some s₀ ∧
      run BufConc.step s₀ [.read 0 5, .read 1 5] = some s ∧ Structured s.cache (BufConc.users s) := by
  obtain ⟨c, h, hr, hrel, -⟩ := cacheRun_released (π := Unit)
  obtain ⟨s₀, hboot, -⟩ := BufConc.boot_eq 2 8192 (fun _ _ => 1)
  obtain ⟨s, -, -, hrun, -⟩ := BufConc.second_reader hboot (b := 5) (by decide) (p := 0) (q := 1) (by decide)
  have hconc := (cache_structured (π := Unit)).2 2 8192 _ s₀ s _ hboot hrun
  exact ⟨⟨c, h, hr, fun i => (hrel i).2, cache_structured.1 c h hr⟩, s₀, s, hboot, hrun, hconc⟩

/-! ## Least recently used -/

/-- Among the unreferenced buffers `v` was never released, or else all of them were and `v` is the
one whose last fall to `buf_ref = 0` is the oldest. -/
def LeastRecent (c : Cache π) (h : History) (v : BufId) : Prop :=
  (c.bufs v).bufRef = 0 ∧
  ((∃ i, (c.bufs i).bufRef = 0 ∧ .released i ∉ h) → .released v ∉ h) ∧
  ((∀ i, (c.bufs i).bufRef = 0 → .released i ∈ h) → ∃ t, lastFall h v = some t ∧
    ∀ i, i ≠ v → (c.bufs i).bufRef = 0 → ∃ t', lastFall h i = some t' ∧ t < t')

theorem leastRecent_of_last {c : Cache π} {h : History} {v : BufId} {l₁ l₂ : List BufId}
    (hi : LruInv c h) (hl : Ordered c (l₁ ++ v :: l₂)) (hp : (l₁ ++ v :: l₂).Pairwise (Fresher h))
    (hv : (c.bufs v).bufRef = 0) (hlast : ∀ i ∈ l₂, (c.bufs i).bufRef ≠ 0) : LeastRecent c h v := by
  -- every other unreferenced buffer stands before the victim
  have hbefore : ∀ i, i ≠ v → (c.bufs i).bufRef = 0 → Fresher h i v := by
    intro i hne h0
    have hmem := hl.all i
    rw [List.mem_append, List.mem_cons] at hmem
    rcases hmem with hm | rfl | hm
    · exact (List.pairwise_append.mp hp).2.2 i hm v (by simp)
    · exact (hne rfl).elim
    · exact (hlast i hm h0).elim
  have hfell : ∀ i, (c.bufs i).bufRef = 0 → .released i ∈ h → ∃ t, lastFall h i = some t :=
    fun i h0 hm => lastFall_of_released hm (by rw [← hi.refs i, h0])
  refine ⟨hv, fun ⟨i, h0, hnever⟩ hrel => ?_, fun hall => ?_⟩
  · obtain ⟨t, ht⟩ := hfell v hv hrel
    by_cases hiv : i = v
    · exact hnever (hiv ▸ hrel)
    · obtain ⟨t', ht', -⟩ := hbefore i hiv h0 t ht
      exact hnever (released_of_lastFall ht')
  · obtain ⟨t, ht⟩ := hfell v hv (hall v hv)
    exact ⟨t, ht, fun i hiv h0 => hbefore i hiv h0 t ht⟩

/-- A miss recycles the least recently used buffer; `buf_read` panics only when every buffer is
referenced. -/
theorem lru_exact {c : Cache π} {h : History} (hr : CacheRun c h) {b : Nat}
    (hmiss : ∀ i, (c.bufs i).blockNum ≠ b) :
    ∃ g c', bufGet c b = some (g, c') ∧
      ((∃ v, g = .miss v ∧ LeastRecent c h v) ∨ g = .full ∧ ∀ i, (c.bufs i).bufRef ≠ 0) := by
  obtain ⟨l, hl, hp⟩ := hr.inv.order
  obtain ⟨g, c', hg, hs⟩ := bufGet_spec hl b
  refine ⟨g, c', hg, ?_⟩
  cases hs with
  | hit i hb => exact (hmiss i hb).elim
  | full _ h0 => exact .inr ⟨rfl, h0⟩
  | miss v _ h0 =>
    obtain ⟨l₁, l₂, rfl, hlast⟩ := bufGet_victim hl hg
    exact .inl ⟨v, rfl, leastRecent_of_last hr.inv hl hp h0 hlast⟩

/-- All buffers were released, and the one released first is taken for block 100. -/
theorem lru_exact_released : ∃ (c : Cache Unit) (h : History), CacheRun c h ∧
    (∀ i, .released i ∈ h) ∧ ∃ v c' t, bufGet c 100 = some (.miss v, c') ∧ lastFall h v = some t ∧
      ∀ i, i ≠ v → ∃ t', lastFall h i = some t' ∧ t < t' := by
  obtain ⟨c, h, hr, hrel, hnum⟩ := cacheRun_released (π := Unit)
  have hmiss : ∀ i, (c.bufs i).blockNum ≠ 100 := fun i => by
    have := hnum i
    simp only [BLOCK_NUM_UNUSED, N_BLOCK_BUF] at this
    omega
  obtain ⟨g, c', hg, ⟨v, rfl, -, -, hlast⟩ | ⟨-, hfull⟩⟩ := lru_exact hr hmiss
  · obtain ⟨t, ht, hv⟩ := hlast fun i _ => (hrel i).2
    exact ⟨c, h, hr, fun i => (hrel i).2, v, c', t, hg, ht, fun i hi => hv i hi (hrel i).1⟩
  · exact absurd (hrel 0).1 (hfull 0)

end Fs
end WhuOS
