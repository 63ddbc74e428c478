import WhuOS.Lib.Bytes
import WhuOS.Lib.Kern
import WhuOS.Fs.Path

/-!
# WhuOS.Fs.Tokens

`skip_element` on pointers: every byte that it reads and writes is recorded, so that staying inside
the path and inside `name[0, 30)` can be talked about.

* `StrAt m p l`       — the bytes `l` and a NUL stand at `p`.
* `wp_skipElementPtr` — the pointer function does to the memory what `skipElement` does to the list.
* `wp_tokens`         — called until it returns 0, it gives the components of the path in order.
-/

namespace WhuOS
namespace Fs

open Lib Kern

/-! ## The model -/

structure StrState where
  mem : Bytes
  /-- History variables: the addresses read and written. -/
  reads : List Nat
  writes : List Nat

abbrev StrM := Kern StrState

def readChar (p : Nat) : StrM UInt8 := do
  modify fun s => { s with reads := p :: s.reads }
  return (← get).mem p

def writeChar (p : Nat) (c : UInt8) : StrM Unit :=
  modify fun s => { s with mem := s.mem.write p 1 fun _ => c, writes := p :: s.writes }

/-- `memmove(dst, src, n)` between ranges that do not overlap. -/
def moveChars (dst src n : Nat) : StrM Unit :=
  modify fun s =>
    { s with
      mem := s.mem.write dst n fun i => s.mem (src + i)
      reads := (List.range n).map (src + ·) ++ s.reads
      writes := (List.range n).map (dst + ·) ++ s.writes }

/-- `while(cont(*path)) path++;` -/
def skipWhile (cont : UInt8 → Bool) : Nat → Nat → StrM Nat
  | 0, _ => throw .hang
  | fuel + 1, path => do
    if cont (← readChar path) then skipWhile cont fuel (path + 1) else return path

/-- The `len` bytes of an element into `name`: cut to 30 bytes, or with a NUL after them. -/
def storeName (name s : Nat) (len : Int) : StrM Unit :=
  if len ≥ DIR_NAME_LEN then moveChars name s DIR_NAME_LEN
  else do
    moveChars name s (len % 2 ^ 32).toNat
    writeChar (name + (len % 2 ^ 64).toNat) 0

/-- `skip_element(path, name)`; the length of the element is an `int`. -/
def skipElementPtr (fuel path name : Nat) : StrM (Option Nat) := do
  let path ← skipWhile (· == SLASH) fuel path
  if (← readChar path) = 0 then return none
  let s := path
  let path ← skipWhile (fun c => c != SLASH && c != 0) fuel path
  storeName name s (Int.bmod (path - s) (2 ^ 32))
  let path ← skipWhile (· == SLASH) fuel path
  return some path

/-- The loop of `search_inode` as far as the path is concerned: what each call leaves in `name`, up
to a NUL or 30 bytes, and the pointer that it returns. -/
def tokens (fuel name : Nat) : Nat → Nat → StrM (List (List UInt8 × Nat))
  | 0, _ => throw .hang
  | calls + 1, path => do
    match ← skipElementPtr fuel path name with
    | none => return []
    | some path =>
      let s ← get
      let elem := cstr (fun i => s.mem (name + i)) DIR_NAME_LEN
      return (elem, path) :: (← tokens fuel name calls path)

/-! ## Strings in memory -/

/-- The string `l` stands at `p`, with its NUL. -/
def StrAt (m : Bytes) : Nat → List UInt8 → Prop
  | p, [] => m p = 0
  | p, c :: l => m p = c ∧ c ≠ 0 ∧ StrAt m (p + 1) l

section Strings

variable {m m' : Bytes}

theorem StrAt.congr : ∀ {l : List UInt8} {p : Nat}, StrAt m p l →
    (∀ a, p ≤ a → a ≤ p + l.length → m' a = m a) → StrAt m' p l := by
  intro l
  induction l with
  | nil =>
    intro p h heq
    exact (heq p (Nat.le_refl p) (Nat.le_add_right p _)).trans h
  | cons c l ih =>
    intro p h heq
    obtain ⟨h1, h2, h3⟩ := h
    rw [List.length_cons] at heq
    exact ⟨(heq p (by omega) (by omega)).trans h1, h2, ih h3 fun a ha hb => heq a (by omega) (by omega)⟩

theorem StrAt.noNul : ∀ {l : List UInt8} {p : Nat}, StrAt m p l → 0 ∉ l := by
  intro l
  induction l with
  | nil => intro p _; simp
  | cons c l ih =>
    intro p h hm
    rcases List.mem_cons.mp hm with h0 | h0
    · exact h.2.1 h0.symm
    · exact ih h.2.2 h0

theorem StrAt.byte : ∀ {l : List UInt8} {p i : Nat}, StrAt m p l → i < l.length →
    m (p + i) = l.getD i 0 := by
  intro l
  induction l with
  | nil => intro p i _ hi; simp at hi
  | cons c l ih =>
    intro p i h hi
    cases i with
    | zero => exact h.1
    | succ i =>
      rw [List.length_cons] at hi
      rw [← Nat.add_assoc, Nat.add_right_comm, List.getD_cons_succ]
      exact ih h.2.2 (by omega)

theorem StrAt.head {p : Nat} {l : List UInt8} (h : StrAt m p l) : m p = l.headD 0 := by
  cases l with
  | nil => exact h
  | cons c l => exact h.1

theorem StrAt.drop {w l : List UInt8} : ∀ {p : Nat}, StrAt m p (w ++ l) → StrAt m (p + w.length) l := by
  induction w with
  | nil => intro p h; exact h
  | cons c w ih =>
    intro p h
    have := ih h.2.2
    rwa [List.length_cons, show p + (w.length + 1) = p + 1 + w.length by omega]

/-- What is read of a buffer that starts with `w`, and has a NUL after it if there is room. -/
theorem cstrFrom_of_start {q : CharPtr} : ∀ {n i : Nat} {w : List UInt8}, 0 ∉ w →
    (∀ j, j < w.length → j < n → q (i + j) = w.getD j 0) → (n ≤ w.length ∨ q (i + w.length) = 0) →
    cstrFrom q i n = w.take n := by
  intro n
  induction n with
  | zero => intro i w _ _ _; rfl
  | succ n ih =>
    intro i w h0 hw hend
    cases w with
    | nil =>
      have hq : q i = 0 := by
        rcases hend with h | h
        · simp at h
        · exact h
      simp [cstrFrom, hq]
    | cons c w =>
      have hc : q i = c := hw 0 (by simp) (by omega)
      have hc0 : c ≠ 0 := fun h => h0 (by rw [h]; exact List.mem_cons_self)
      rw [cstrFrom, hc, if_neg hc0, List.take_succ_cons]
      congr 1
      refine ih (fun hm => h0 (List.mem_cons_of_mem c hm)) (fun j hj hn => ?_) ?_
      · have := hw (j + 1) (by rw [List.length_cons]; omega) (by omega)
        rwa [List.getD_cons_succ, show i + (j + 1) = i + 1 + j by omega] at this
      · rcases hend with h | h
        · rw [List.length_cons] at h
          exact .inl (by omega)
        · rw [List.length_cons] at h
          exact .inr (by rwa [show i + (w.length + 1) = i + 1 + w.length by omega] at h)

end Strings

/-! ## Accesses -/

/-- All reads so far are in `[lo, hi]`, and all writes in `name[0, 30)`. -/
structure InBounds (lo hi name : Nat) (s : StrState) : Prop where
  reads : ∀ a ∈ s.reads, lo ≤ a ∧ a ≤ hi
  writes : ∀ a ∈ s.writes, name ≤ a ∧ a < name + DIR_NAME_LEN

section Wp

variable {s : StrState} {lo hi name : Nat} {E : Stop → StrState → Prop}

theorem wp_readChar {p : Nat} {Q : UInt8 → StrState → Prop} :
    wp (readChar p) Q E s ↔ Q (s.mem p) { s with reads := p :: s.reads } := Iff.rfl

theorem wp_writeChar {p : Nat} {c : UInt8} {Q : Unit → StrState → Prop} :
    wp (writeChar p c) Q E s ↔
      Q () { s with mem := s.mem.write p 1 fun _ => c, writes := p :: s.writes } := Iff.rfl

theorem wp_moveChars {dst src n : Nat} {Q : Unit → StrState → Prop} :
    wp (moveChars dst src n) Q E s ↔ Q ()
      { mem := s.mem.write dst n fun i => s.mem (src + i)
        reads := (List.range n).map (src + ·) ++ s.reads
        writes := (List.range n).map (dst + ·) ++ s.writes } := Iff.rfl

theorem InBounds.read {p : Nat} (h : InBounds lo hi name s) (hp : lo ≤ p ∧ p ≤ hi) :
    InBounds lo hi name { s with reads := p :: s.reads } := by
  refine ⟨fun a ha => ?_, h.writes⟩
  rcases List.mem_cons.mp ha with rfl | ha
  · exact hp
  · exact h.reads a ha

theorem wp_skipWhile {cont : UInt8 → Bool} (h0 : cont 0 = false) : ∀ {fuel p : Nat} {l : List UInt8}
    {s : StrState}, StrAt s.mem p l → l.length < fuel → lo ≤ p → p + l.length = hi →
    InBounds lo hi name s →
    wp (skipWhile cont fuel p) (fun q t => q = p + (l.takeWhile cont).length ∧
      t.mem = s.mem ∧ InBounds lo hi name t) (fun _ _ => False) s := by
  intro fuel
  induction fuel with
  | zero => intro p l s _ hf; omega
  | succ fuel ih =>
    intro p l s h hf hlo hhi hb
    simp only [skipWhile, wp_bind, wp_readChar]
    have hb' := hb.read (p := p) (by omega)
    cases l with
    | nil =>
      have hp : s.mem p = 0 := h
      rw [hp, h0]
      exact ⟨rfl, rfl, hb'⟩
    | cons c l =>
      obtain ⟨hp, -, hrest⟩ := h
      rw [List.length_cons] at hf hhi
      rw [hp]
      cases hc : cont c with
      | false =>
        simp only [Bool.false_eq_true, if_false, wp_pure]
        exact ⟨by rw [List.takeWhile_cons_of_neg (by simp [hc])]; rfl, trivial, hb'⟩
      | true =>
        simp only [if_true]
        refine wp_conseq (ih (p := p + 1) (l := l) hrest (by omega) (by omega) (by omega) hb')
          ?_ fun _ _ h => h
        rintro q t ⟨hq, hm, ht⟩
        refine ⟨?_, hm, ht⟩
        rw [List.takeWhile_cons_of_pos hc, List.length_cons]
        omega

theorem skipElement_parts {l : List UInt8} (h0 : 0 ∉ l) :
    (skipElement l = none ∧ l.dropWhile (· == SLASH) = []) ∨
    ∃ (n : Name) (w l' : List UInt8), skipElement l = some (n, l'.dropWhile (· == SLASH)) ∧
      l.dropWhile (· == SLASH) = w ++ l' ∧
      w = (l.dropWhile (· == SLASH)).takeWhile (fun c => c != SLASH && c != 0) ∧
      w ≠ [] ∧ n.bytes = w.take DIR_NAME_LEN := by
  have hhead := List.head?_dropWhile_not (· == SLASH) l
  have hmem : ∀ c ∈ l.dropWhile (· == SLASH), c ≠ 0 := fun c hc hz =>
    h0 (hz ▸ (List.dropWhile_sublist _).subset hc)
  generalize hl : l.dropWhile (· == SLASH) = l₁ at hhead hmem
  have hsplit := List.takeWhile_append_dropWhile (p := fun c => c != SLASH && c != 0) (l := l₁)
  by_cases hw : l₁.takeWhile (fun c => c != SLASH && c != 0) = []
  · refine .inl ⟨by simp [skipElement, hl, hw], ?_⟩
    cases l₁ with
    | nil => rfl
    | cons c l₁ =>
      have hc : c ≠ SLASH := by simpa using hhead
      have hc0 := hmem c (by simp)
      simp [hc, hc0] at hw
  · refine .inr ⟨⟨(l₁.takeWhile (fun c => c != SLASH && c != 0)).take DIR_NAME_LEN, ?_, ?_, ?_⟩, _, _,
      ?_, hsplit.symm, rfl, hw, rfl⟩
    · simpa [DIR_NAME_LEN] using hw
    · exact List.length_take_le _ _
    · exact fun h => by simpa using List.mem_takeWhile_imp (List.mem_of_mem_take h)
    · unfold skipElement
      simp only [hl]
      rw [dif_pos hw]
      have hdrop : l₁.drop (l₁.takeWhile (fun c => c != SLASH && c != 0)).length =
          l₁.dropWhile (fun c => c != SLASH && c != 0) :=
        (congrArg (List.drop _) hsplit.symm).trans List.drop_left
      rw [hdrop]

theorem InBounds.move {src n : Nat} (h : InBounds lo hi name s) (hs : lo ≤ src ∧ src + n ≤ hi)
    (hn : n ≤ DIR_NAME_LEN) (m : Bytes) :
    InBounds lo hi name
      { mem := m
        reads := (List.range n).map (src + ·) ++ s.reads
        writes := (List.range n).map (name + ·) ++ s.writes } := by
  refine ⟨fun a ha => ?_, fun a ha => ?_⟩
  · rcases List.mem_append.mp ha with ha | ha
    · obtain ⟨i, hi, rfl⟩ := List.mem_map.mp ha
      rw [List.mem_range] at hi
      omega
    · exact h.reads a ha
  · rcases List.mem_append.mp ha with ha | ha
    · obtain ⟨i, hi, rfl⟩ := List.mem_map.mp ha
      rw [List.mem_range] at hi
      omega
    · exact h.writes a ha

/-- The element `w` at `q` is stored in `name`, cut to 30 bytes or with a NUL after it. -/
theorem wp_storeName {q : Nat} {w l : List UInt8} (h : StrAt s.mem q (w ++ l))
    (hlen : w.length < 2 ^ 31) (hlo : lo ≤ q) (hhi : q + w.length ≤ hi)
    (hb : InBounds lo hi name s) :
    wp (storeName name q (Int.bmod ((q + w.length : Nat) - q) (2 ^ 32)))
      (fun _ t => InBounds lo hi name t ∧
        (∀ a, a < name ∨ name + DIR_NAME_LEN ≤ a → t.mem a = s.mem a) ∧
        cstr (fun i => t.mem (name + i)) DIR_NAME_LEN = w.take DIR_NAME_LEN)
      E s := by
  have hint : Int.bmod ((q + w.length : Nat) - q) (2 ^ 32) = w.length := by
    rw [show ((q + w.length : Nat) - q : Int) = w.length by omega]
    exact Int.bmod_eq_of_le (by omega) (by omega)
  have h32 : ((w.length : Int) % 2 ^ 32).toNat = w.length := by omega
  have h64 : ((w.length : Int) % 2 ^ 64).toNat = w.length := by omega
  have h0 : 0 ∉ w := fun hm => h.noNul (List.mem_append_left l hm)
  have hbyte : ∀ j, j < w.length → s.mem (q + j) = w.getD j 0 := by
    intro j hj
    rw [h.byte (by rw [List.length_append]; omega), List.getD_append _ _ _ _ hj]
  rw [storeName, hint, h32, h64]
  by_cases hge : (w.length : Int) ≥ DIR_NAME_LEN
  · rw [if_pos hge, wp_moveChars]
    have hn : DIR_NAME_LEN ≤ w.length := by omega
    refine ⟨hb.move (by omega) (Nat.le_refl _) _, fun a ha => ?_, ?_⟩
    · dsimp only
      rw [Bytes.write_outside ha]
    · refine cstrFrom_of_start h0 (fun j hj hn => ?_) (.inl hn)
      dsimp only
      rw [Nat.zero_add, Bytes.write_inside hn, hbyte j hj]
  · rw [if_neg hge, wp_bind, wp_moveChars, wp_writeChar]
    have hn : w.length < DIR_NAME_LEN := by omega
    have hb' := hb.move (n := w.length) (show lo ≤ q ∧ q + w.length ≤ hi by omega) (by omega)
      (s.mem.write name w.length fun i => s.mem (q + i))
    refine ⟨⟨hb'.reads, fun a ha => ?_⟩, fun a ha => ?_, ?_⟩
    · rcases List.mem_cons.mp ha with rfl | ha
      · omega
      · exact hb'.writes a ha
    · dsimp only
      rw [Bytes.write_outside (by omega), Bytes.write_outside (by omega)]
    · refine cstrFrom_of_start h0 (fun j hj _ => ?_) (.inr ?_)
      · dsimp only
        rw [Nat.zero_add, Bytes.write_outside (by omega), Bytes.write_inside hj, hbyte j hj]
      · rw [Nat.zero_add]
        have := @Bytes.write_inside (s.mem.write name w.length fun i => s.mem (q + i))
          (name + w.length) 1 0 (fun _ => 0) (by omega)
        rwa [Nat.add_zero] at this

/-- One call of `skip_element` on the string `l` at `p`: the result is that of the list function. -/
theorem wp_skipElementPtr {fuel p : Nat} {l : List UInt8} (h : StrAt s.mem p l)
    (hfuel : l.length < fuel) (hlen : l.length < 2 ^ 31) (hlo : lo ≤ p) (hhi : p + l.length = hi)
    (hsep : name + DIR_NAME_LEN ≤ lo ∨ hi < name) (hb : InBounds lo hi name s) :
    wp (skipElementPtr fuel p name) (fun r t => InBounds lo hi name t ∧
      (∀ a, a < name ∨ name + DIR_NAME_LEN ≤ a → t.mem a = s.mem a) ∧
      match skipElement l with
      | none => r = none
      | some (n, l') => ∃ q, r = some q ∧ lo ≤ q ∧ q + l'.length = hi ∧ StrAt t.mem q l' ∧
          cstr (fun i => t.mem (name + i)) DIR_NAME_LEN = n.bytes) (fun _ _ => False) s := by
  have hsplit := List.takeWhile_append_dropWhile (p := (· == SLASH)) (l := l)
  have hlen₁ := congrArg List.length hsplit
  rw [List.length_append] at hlen₁
  unfold skipElementPtr
  rw [wp_bind]
  refine wp_conseq (wp_skipWhile (by decide) h hfuel hlo hhi hb) ?_ fun _ _ h => h
  rintro _ s₁ ⟨rfl, hm₁, hb₁⟩
  have hat : StrAt s₁.mem (p + (l.takeWhile (· == SLASH)).length) (l.dropWhile (· == SLASH)) := by
    rw [hm₁]
    refine StrAt.drop ?_
    rwa [hsplit]
  rw [wp_bind, wp_readChar, hat.head]
  have hb₁' := hb₁.read (p := p + (l.takeWhile (· == SLASH)).length) (by omega)
  rcases skipElement_parts h.noNul with ⟨hnone, hnil⟩ | ⟨n, w, l', hsome, hwl, hw, hne, hn⟩
  · rw [hnil, hnone]
    exact ⟨hb₁', fun a _ => by rw [hm₁], rfl⟩
  · have hc0 : (l.dropWhile (· == SLASH)).headD 0 ≠ 0 := by
      cases hd : l.dropWhile (· == SLASH) with
      | nil => rw [hd] at hwl; simp at hwl; exact (hne hwl.1).elim
      | cons c r => rw [hd] at hat; exact hat.2.1
    rw [if_neg hc0, wp_bind]
    have hlen₂ := congrArg List.length hwl
    rw [List.length_append] at hlen₂
    refine wp_conseq (wp_skipWhile (l := l.dropWhile (· == SLASH)) (by decide) hat (by omega)
      (by omega) (by omega) hb₁') ?_ fun _ _ h => h
    rintro _ s₂ ⟨rfl, hm₂, hb₂⟩
    rw [← hw, wp_bind]
    rw [hwl] at hat
    have hat₂ : StrAt s₂.mem (p + (l.takeWhile (· == SLASH)).length) (w ++ l') := by rwa [hm₂]
    refine wp_conseq (wp_storeName hat₂ (by omega) (by omega) (by omega) hb₂) ?_ fun _ _ h => h
    rintro _ s₃ ⟨hb₃, hout, hname⟩
    -- the rest of the path is not in `name`
    have hat₃ : StrAt s₃.mem (p + (l.takeWhile (· == SLASH)).length + w.length) l' :=
      (hat₂.drop).congr fun a ha hb => hout a (by omega)
    rw [wp_bind]
    refine wp_conseq (wp_skipWhile (by decide) hat₃ (by omega) (by omega) (by omega) hb₃) ?_
      fun _ _ h => h
    rintro _ s₄ ⟨rfl, hm₄, hb₄⟩
    have hsplit' := List.takeWhile_append_dropWhile (p := (· == SLASH)) (l := l')
    have hlen₃ := congrArg List.length hsplit'
    rw [List.length_append] at hlen₃
    have hat₄ : StrAt s₄.mem (p + (l.takeWhile (· == SLASH)).length + w.length +
        (l'.takeWhile (· == SLASH)).length) (l'.dropWhile (· == SLASH)) := by
      rw [hm₄]
      refine StrAt.drop ?_
      rwa [hsplit']
    rw [hsome]
    refine ⟨hb₄, fun a ha => ?_, _, rfl, by omega, by omega, hat₄, ?_⟩
    · rw [hm₄, hout a ha, hm₂]
      exact congrFun hm₁ a
    · rw [hm₄, hname, hn]

end Wp

/-! ## The components of a path -/

theorem mem_of_mem_splitOn {a c : UInt8} {w : List UInt8} : ∀ {l : List UInt8},
    w ∈ l.splitOn a → c ∈ w → c ∈ l := by
  intro l
  induction l generalizing w with
  | nil =>
    intro hw hc
    rw [List.splitOn_nil, List.mem_singleton] at hw
    rw [hw] at hc
    exact hc
  | cons x l ih =>
    intro hw hc
    rw [List.splitOn_cons_eq_if_modifyHead] at hw
    split at hw
    · rcases List.mem_cons.mp hw with rfl | hw
      · cases hc
      · exact List.mem_cons_of_mem x (ih hw hc)
    · cases hs : l.splitOn a with
      | nil => exact (List.splitOn_ne_nil a l hs).elim
      | cons v ws =>
        rw [hs] at hw ih
        rcases List.mem_cons.mp hw with rfl | hw
        · rcases List.mem_cons.mp hc with rfl | hc
          · exact List.mem_cons_self
          · exact List.mem_cons_of_mem x (ih List.mem_cons_self hc)
        · exact List.mem_cons_of_mem x (ih (List.mem_cons_of_mem v hw) hc)

/-- The non-empty runs between the slashes, each cut to its first 30 bytes. -/
def runs (l : List UInt8) : List (List UInt8) :=
  ((l.splitOn SLASH).filter (· ≠ [])).map (List.take DIR_NAME_LEN)

theorem components_bytes {l : List UInt8} (h0 : 0 ∉ l) : (components l).map Name.bytes = runs l := by
  have hl : l.takeWhile (· != 0) = l := by
    rw [List.takeWhile_eq_self_iff]
    intro c hc
    simpa using fun h : c = 0 => h0 (h ▸ hc)
  rw [components, namesOf, hl, runs]
  have hws : ∀ w ∈ l.splitOn SLASH, 0 ∉ w := fun w hw h => h0 (mem_of_mem_splitOn hw h)
  generalize l.splitOn SLASH = ws at hws
  induction ws with
  | nil => rfl
  | cons w ws ih =>
    have ih' := ih fun v hv => hws v (List.mem_cons_of_mem w hv)
    by_cases hw : w = []
    · subst hw
      rw [List.filterMap_cons_none elementName_nil, ih', List.filter_cons_of_neg (by simp)]
    · have hn : elementName w = some ⟨w.take DIR_NAME_LEN, by simpa [DIR_NAME_LEN] using hw,
          List.length_take_le _ _, fun h => hws w List.mem_cons_self (List.mem_of_mem_take h)⟩ :=
        elementName_eq (hws w List.mem_cons_self) rfl
      rw [List.filterMap_cons_some hn, List.map_cons, ih', List.filter_cons_of_pos (by simpa using hw),
        List.map_cons]

/-- A string that does not start with a slash is empty exactly if it has no component. -/
theorem headD_iff {l : List UInt8} (h0 : 0 ∉ l) (h : l.head? ≠ some SLASH) :
    runs l = [] ↔ l.headD 0 = 0 := by
  rw [← components_bytes h0, List.map_eq_nil_iff, ← atEnd_iff h]
  cases l with
  | nil => simp [atEnd]
  | cons c l => simp [atEnd]

/-- After each call the returned pointer is at the first of the remaining components, or at the NUL
if there are none. -/
def PointsOn (m : Bytes) (hi : Nat) : List (List UInt8 × Nat) → Prop
  | [] => True
  | (_, q) :: r =>
    (∃ l, StrAt m q l ∧ q + l.length = hi ∧ l.head? ≠ some SLASH ∧ runs l = r.map Prod.fst) ∧
      (m q = 0 ↔ r = []) ∧ PointsOn m hi r

theorem PointsOn.congr {m m' : Bytes} {lo hi : Nat} (hm : ∀ a, lo ≤ a → a ≤ hi → m' a = m a) :
    ∀ {r : List (List UInt8 × Nat)}, (∀ x ∈ r, lo ≤ x.2 ∧ x.2 ≤ hi) → PointsOn m hi r →
      PointsOn m' hi r := by
  intro r
  induction r with
  | nil => intro _ _; trivial
  | cons x r ih =>
    intro hin h
    obtain ⟨⟨l, hl, hlen, hhead, hruns⟩, hz, hr⟩ := h
    have hx := hin x List.mem_cons_self
    refine ⟨⟨l, hl.congr fun a ha hb => hm a (by omega) (by omega), hlen, hhead, hruns⟩, ?_,
      ih (fun y hy => hin y (List.mem_cons_of_mem x hy)) hr⟩
    rw [hm x.2 hx.1 hx.2]
    exact hz

/-- The calls in a row. The bytes of the path stay as they are, `name` being elsewhere. -/
theorem wp_tokens {lo hi name fuel : Nat} (hsep : name + DIR_NAME_LEN ≤ lo ∨ hi < name) :
    ∀ {calls p : Nat} {l : List UInt8} {s : StrState}, StrAt s.mem p l → l.length < calls →
      l.length < fuel → l.length < 2 ^ 31 → lo ≤ p → p + l.length = hi → InBounds lo hi name s →
      wp (tokens fuel name calls p) (fun r t => InBounds lo hi name t ∧
        r.map Prod.fst = runs l ∧ (∀ x ∈ r, lo ≤ x.2 ∧ x.2 ≤ hi) ∧ PointsOn s.mem hi r)
        (fun _ _ => False) s := by
  intro calls
  induction calls with
  | zero => intro p l s _ hc; omega
  | succ calls ih =>
    intro p l s h hc hf hlen hlo hhi hb
    simp only [tokens, wp_bind]
    refine wp_conseq (wp_skipElementPtr h hf hlen hlo hhi hsep hb) ?_ fun _ _ h => h
    rintro r t ⟨hb₁, hout, hr⟩
    cases hs : skipElement l with
    | none =>
      rw [hs] at hr
      simp only at hr
      subst hr
      refine ⟨hb₁, ?_, fun _ hx => (by cases hx), trivial⟩
      rw [← components_bytes h.noNul, skipElement_none hs]
      rfl
    | some res =>
      obtain ⟨n, l'⟩ := res
      rw [hs] at hr
      simp only at hr
      obtain ⟨q, rfl, hqlo, hqhi, hat, hname⟩ := hr
      obtain ⟨hcomp, hshort, hhead⟩ := skipElement_some hs
      have hruns : runs l = n.bytes :: runs l' := by
        rw [← components_bytes h.noNul, ← components_bytes hat.noNul, hcomp, List.map_cons]
      simp only [wp_get, wp_bind]
      refine wp_conseq (ih hat (by omega) (by omega) (by omega) hqlo hqhi hb₁) ?_
        fun _ _ h => h
      rintro rs t' ⟨hb₂, hnames, hin, hpts⟩
      have hsame : ∀ a, lo ≤ a → a ≤ hi → s.mem a = t.mem a := fun a h1 h2 =>
        (hout a (by omega)).symm
      refine ⟨hb₂, ?_, ?_, ⟨l', ?_, hqhi, hhead, hnames.symm⟩, ?_, hpts.congr hsame hin⟩
      · rw [List.map_cons, hnames, hruns, hname]
      · intro x hx
        rcases List.mem_cons.mp hx with rfl | hx
        · exact ⟨hqlo, by simp only; omega⟩
        · exact hin x hx
      · exact hat.congr fun a h1 h2 => hsame a (by omega) (by omega)
      · rw [hsame q hqlo (by omega), hat.head, ← headD_iff hat.noNul hhead, ← hnames, List.map_eq_nil_iff]

/-- For every string `l` at `path` and a buffer `name` outside of it, `skip_element` called until it
returns 0 stores the non-empty runs between the slashes, each cut to 30 bytes, in order; the pointer
that it returns is at the next component or, after the last one, at the NUL; all reads are inside the
string with its NUL, and all writes inside `name[0, 30)`. -/
theorem path_tokenised (m : Bytes) (path name : Nat) (l : List UInt8) (hstr : StrAt m path l)
    (hlen : l.length < 2 ^ 31) (hsep : name + DIR_NAME_LEN ≤ path ∨ path + l.length < name)
    (fuel : Nat) (hfuel : l.length < fuel) :
    wp (tokens fuel name fuel path) (fun r t =>
      r.map Prod.fst = runs l ∧ PointsOn m (path + l.length) r ∧
      (∀ a ∈ t.reads, path ≤ a ∧ a ≤ path + l.length) ∧
      ∀ a ∈ t.writes, name ≤ a ∧ a < name + DIR_NAME_LEN) (fun _ _ => False) ⟨m, [], []⟩ := by
  refine wp_conseq (wp_tokens hsep (s := ⟨m, [], []⟩) hstr hfuel hfuel hlen (Nat.le_refl _) rfl
    ⟨by simp, by simp⟩) ?_ fun _ _ h => h
  rintro r t ⟨hb, hnames, -, hpts⟩
  exact ⟨hnames, hpts, hb.reads, hb.writes⟩

/-- The path `//ab/c/`, at address 100. -/
theorem path_tokenised_two :
    wp (tokens 8 0 8 100) (fun r t =>
      r.map Prod.fst = runs [47, 47, 97, 98, 47, 99, 47] ∧
      PointsOn (fun a => [47, 47, 97, 98, 47, 99, 47].getD (a - 100) 0) 107 r ∧
      (∀ a ∈ t.reads, 100 ≤ a ∧ a ≤ 107) ∧ ∀ a ∈ t.writes, 0 ≤ a ∧ a < 0 + DIR_NAME_LEN)
      (fun _ _ => False) ⟨fun a => [47, 47, 97, 98, 47, 99, 47].getD (a - 100) 0, [], []⟩ :=
  path_tokenised _ 100 0 [47, 47, 97, 98, 47, 99, 47] (by simp [StrAt]) (by decide) (by decide) 8
    (by decide)

example : runs [47, 47, 97, 98, 47, 99, 47] = [[97, 98], [99]] := by decide

end Fs
end WhuOS
