import Mathlib.Data.List.TakeWhile
import Mathlib.Order.Interval.Set.Basic

/-!
# WhuOS.Lib.Intervals

A set of natural numbers as a list of intervals, in order and with a gap after each one. A set has
one such list (`Separated.ext`), so what is done to the list is known once it is known what is done
to the set.

* `remove` — takes a part out of the interval that contains it.
* `adjoin` — adds an interval, joined to its neighbours where they touch.
* `enter`  — does the same in a list that need not be in order.
-/

namespace WhuOS
namespace Lib

/-- `[start, start + len)`. -/
@[ext] structure Interval where
  start : Nat
  len : Nat
  deriving DecidableEq

namespace Interval

def stop (x : Interval) : Nat := x.start + x.len

end Interval

/-- The numbers in the intervals. -/
def points (xs : List Interval) : Set Nat := { v | ∃ x ∈ xs, x.start ≤ v ∧ v < x.stop }

/-- In order, with a gap between any two, and none empty. -/
structure Separated (xs : List Interval) : Prop where
  apart : xs.Pairwise fun x y => x.stop < y.start
  pos : ∀ x ∈ xs, 0 < x.len

namespace Separated

variable {x y : Interval} {xs ys : List Interval}

theorem nil : Separated [] := ⟨List.Pairwise.nil, by simp⟩

theorem cons_iff :
    Separated (x :: xs) ↔ 0 < x.len ∧ (∀ y ∈ xs, x.stop < y.start) ∧ Separated xs := by
  constructor
  · intro h
    obtain ⟨h1, h2⟩ := List.pairwise_cons.mp h.apart
    exact ⟨h.pos x (by simp), h1, h2, fun y hy => h.pos y (by simp [hy])⟩
  · rintro ⟨hx, h1, h⟩
    refine ⟨List.pairwise_cons.mpr ⟨h1, h.apart⟩, fun y hy => ?_⟩
    rcases List.mem_cons.mp hy with rfl | hy
    · exact hx
    · exact h.pos y hy

theorem tail (h : Separated (x :: xs)) : Separated xs := (cons_iff.mp h).2.2

end Separated

theorem mem_points {v : Nat} {xs : List Interval} :
    v ∈ points xs ↔ ∃ x ∈ xs, x.start ≤ v ∧ v < x.stop := Iff.rfl

@[simp] theorem points_nil : points [] = ∅ := by
  ext v; simp [mem_points]

theorem points_cons (x : Interval) (xs : List Interval) :
    points (x :: xs) = Set.Ico x.start x.stop ∪ points xs := by
  ext v
  simp [mem_points]

theorem points_append (xs ys : List Interval) : points (xs ++ ys) = points xs ∪ points ys := by
  ext v
  simp only [mem_points, List.mem_append, Set.mem_union, or_and_right, exists_or]

namespace Separated

variable {x y : Interval} {xs ys : List Interval}

/-- The points of the first interval, and those of the others, which come after a gap. -/
theorem lt_of_mem_tail (h : Separated (x :: xs)) {v : Nat} (hv : v ∈ points xs) : x.stop < v := by
  obtain ⟨y, hy, h1, -⟩ := hv
  have := (cons_iff.mp h).2.1 y hy
  omega

theorem head_eq (hx : Separated (x :: xs)) (hy : Separated (y :: ys))
    (h : points (x :: xs) = points (y :: ys)) : x.start = y.start := by
  -- the least point of either list
  have hle : ∀ {x y : Interval} {xs ys : List Interval}, Separated (x :: xs) →
      Separated (y :: ys) → points (x :: xs) = points (y :: ys) → y.start ≤ x.start := by
    intro x y xs ys hx hy h
    have hpos := (cons_iff.mp hx).1
    have hmem : x.start ∈ points (y :: ys) := by
      rw [← h, points_cons]
      exact .inl ⟨Nat.le_refl _, by simp only [Interval.stop]; omega⟩
    rw [points_cons] at hmem
    rcases hmem with hm | hm
    · exact hm.1
    · have := hy.lt_of_mem_tail hm
      simp only [Interval.stop] at this
      omega
  exact Nat.le_antisymm (hle hy hx h.symm) (hle hx hy h)

/-- The number just after an interval is in none of them. -/
theorem stop_notMem (h : Separated (x :: xs)) : x.stop ∉ points (x :: xs) := by
  rw [points_cons]
  rintro (hm | hm)
  · exact Nat.lt_irrefl _ hm.2
  · exact Nat.lt_irrefl _ (h.lt_of_mem_tail hm)

theorem head_stop_le (hx : Separated (x :: xs)) (hy : Separated (y :: ys))
    (h : points (x :: xs) = points (y :: ys)) : x.stop ≤ y.stop := by
  by_contra hlt
  have hs := head_eq hx hy h
  have hpos := (cons_iff.mp hy).1
  refine hy.stop_notMem ?_
  rw [← h, points_cons]
  refine .inl ⟨?_, by omega⟩
  simp only [Interval.stop] at *
  omega

theorem points_tail (hx : Separated (x :: xs)) :
    points xs = points (x :: xs) \ Set.Ico x.start x.stop := by
  rw [points_cons, Set.union_sdiff_left]
  ext v
  refine ⟨fun hv => ⟨hv, fun hm => ?_⟩, fun hv => hv.1⟩
  have := hx.lt_of_mem_tail hv
  have := hm.2
  omega

/-- **A set has one list.** -/
theorem ext : ∀ {xs ys : List Interval}, Separated xs → Separated ys → points xs = points ys →
    xs = ys := by
  intro xs
  induction xs with
  | nil =>
    intro ys _ hy h
    cases ys with
    | nil => rfl
    | cons y ys =>
      have hpos := (cons_iff.mp hy).1
      have hm : y.start ∈ points (y :: ys) := by
        rw [points_cons]
        exact .inl ⟨Nat.le_refl _, by simp only [Interval.stop]; omega⟩
      rw [← h] at hm
      simp at hm
  | cons x xs ih =>
    intro ys hx hy h
    cases ys with
    | nil =>
      have hpos := (cons_iff.mp hx).1
      have hm : x.start ∈ points (x :: xs) := by
        rw [points_cons]
        exact .inl ⟨Nat.le_refl _, by simp only [Interval.stop]; omega⟩
      rw [h] at hm
      simp at hm
    | cons y ys =>
      have h1 := head_eq hx hy h
      have h2 := Nat.le_antisymm (head_stop_le hx hy h) (head_stop_le hy hx h.symm)
      obtain rfl : x = y := by
        refine Interval.ext h1 ?_
        simp only [Interval.stop] at h2
        omega
      rw [ih hx.tail hy.tail (by rw [hx.points_tail, hy.points_tail, h])]

end Separated

/-! ## Taking a part out -/

/-- What is left of `x` without `[a, a + n)`. -/
def cut (a n : Nat) (x : Interval) : List Interval :=
  (if x.start < a then [⟨x.start, a - x.start⟩] else []) ++
    if a + n < x.stop then [⟨a + n, x.stop - (a + n)⟩] else []

/-- Does `x` contain `[a, a + n)`? -/
def Interval.Contains (x : Interval) (a n : Nat) : Prop := x.start ≤ a ∧ a + n ≤ x.stop

instance (x : Interval) (a n : Nat) : Decidable (x.Contains a n) := inferInstanceAs (Decidable (_ ∧ _))

def remove (a n : Nat) : List Interval → List Interval
  | [] => []
  | x :: xs => if x.Contains a n then cut a n x ++ xs else x :: remove a n xs

theorem mem_cut {a n : Nat} {x y : Interval} :
    y ∈ cut a n x ↔ x.start < a ∧ y = ⟨x.start, a - x.start⟩ ∨
      a + n < x.stop ∧ y = ⟨a + n, x.stop - (a + n)⟩ := by
  simp only [cut, List.mem_append]
  refine or_congr ?_ ?_ <;> split <;> simp [*]

/-- The pieces lie inside. -/
theorem inside_of_mem_cut {a n : Nat} {x y : Interval} (hc : x.Contains a n) (h : y ∈ cut a n x) :
    x.start ≤ y.start ∧ y.stop ≤ x.stop ∧ y.len ≤ x.len := by
  obtain ⟨h1, h2⟩ := hc
  rcases mem_cut.mp h with ⟨hlt, rfl⟩ | ⟨hlt, rfl⟩
  · simp only [Interval.stop] at *; omega
  · simp only [Interval.stop] at *; omega

theorem points_cut {a n : Nat} {x : Interval} (hc : x.Contains a n) :
    points (cut a n x) = Set.Ico x.start x.stop \ Set.Ico a (a + n) := by
  obtain ⟨h1, h2⟩ := hc
  ext v
  simp only [mem_points, mem_cut, Set.mem_sdiff, Set.mem_Ico]
  constructor
  · rintro ⟨y, ⟨hlt, rfl⟩ | ⟨hlt, rfl⟩, hv⟩
    · simp only [Interval.stop] at *; omega
    · simp only [Interval.stop] at *; omega
  · rintro ⟨hv, hno⟩
    rcases Nat.lt_or_ge v a with hlt | hge
    · refine ⟨_, .inl ⟨by omega, rfl⟩, ?_⟩
      simp only [Interval.stop] at *; omega
    · refine ⟨_, .inr ⟨by omega, rfl⟩, ?_⟩
      simp only [Interval.stop] at *; omega

theorem separated_cut {a n : Nat} {x : Interval} (hn : 0 < n) : Separated (cut a n x) := by
  refine ⟨?_, fun y hy => ?_⟩
  · simp only [cut]
    split <;> split <;> simp [Interval.stop]
    omega
  · rcases mem_cut.mp hy with ⟨hlt, rfl⟩ | ⟨hlt, rfl⟩ <;> simp only <;> omega

theorem Separated.append {xs ys : List Interval} (hx : Separated xs) (hy : Separated ys)
    (h : ∀ x ∈ xs, ∀ y ∈ ys, x.stop < y.start) : Separated (xs ++ ys) := by
  refine ⟨List.pairwise_append.mpr ⟨hx.apart, hy.apart, h⟩, fun z hz => ?_⟩
  rcases List.mem_append.mp hz with hz | hz
  · exact hx.pos z hz
  · exact hy.pos z hz

section Remove

variable {a n : Nat}

theorem exists_contains_tail {x : Interval} {xs : List Interval}
    (h : ∃ y ∈ x :: xs, y.Contains a n) (hx : ¬ x.Contains a n) : ∃ y ∈ xs, y.Contains a n := by
  obtain ⟨y, hy, hc⟩ := h
  rcases List.mem_cons.mp hy with rfl | hy
  · exact absurd hc hx
  · exact ⟨y, hy, hc⟩

/-- The intervals that are left lie inside old ones. -/
theorem inside_of_mem_remove {y : Interval} : ∀ {xs : List Interval}, y ∈ remove a n xs →
    ∃ x ∈ xs, x.start ≤ y.start ∧ y.stop ≤ x.stop ∧ y.len ≤ x.len := by
  intro xs
  induction xs with
  | nil => intro h; cases h
  | cons x xs ih =>
    intro hy
    simp only [remove] at hy
    split at hy
    · rename_i hc
      rcases List.mem_append.mp hy with hy | hy
      · exact ⟨x, by simp, inside_of_mem_cut hc hy⟩
      · exact ⟨y, by simp [hy], Nat.le_refl _, Nat.le_refl _, Nat.le_refl _⟩
    · rcases List.mem_cons.mp hy with rfl | hy
      · exact ⟨y, by simp, Nat.le_refl _, Nat.le_refl _, Nat.le_refl _⟩
      · obtain ⟨z, hz, h⟩ := ih hy
        exact ⟨z, by simp [hz], h⟩

/-- An interval that is left is an old one or a piece of one that contained the part. -/
theorem mem_remove_cases {y : Interval} : ∀ {xs : List Interval}, y ∈ remove a n xs →
    y ∈ xs ∨ ∃ x ∈ xs, x.Contains a n ∧ y ∈ cut a n x := by
  intro xs
  induction xs with
  | nil => intro h; cases h
  | cons x xs ih =>
    intro hy
    simp only [remove] at hy
    split at hy
    · rename_i hc
      rcases List.mem_append.mp hy with hy | hy
      · exact .inr ⟨x, by simp, hc, hy⟩
      · exact .inl (by simp [hy])
    · rcases List.mem_cons.mp hy with rfl | hy
      · exact .inl (by simp)
      · rcases ih hy with h | ⟨z, hz, h⟩
        · exact .inl (by simp [h])
        · exact .inr ⟨z, by simp [hz], h⟩

theorem Separated.remove (hn : 0 < n) : ∀ {xs : List Interval}, Separated xs →
    Separated (remove a n xs) := by
  intro xs
  induction xs with
  | nil => intro h; exact h
  | cons x xs ih =>
    intro h
    obtain ⟨hx, hgap, htail⟩ := cons_iff.mp h
    simp only [Lib.remove]
    split
    · rename_i hc
      refine (separated_cut hn).append htail fun y hy z hz => ?_
      have := (inside_of_mem_cut hc hy).2.1
      have := hgap z hz
      omega
    · refine cons_iff.mpr ⟨hx, fun y hy => ?_, ih htail⟩
      obtain ⟨z, hz, h1, -⟩ := inside_of_mem_remove hy
      have := hgap z hz
      omega

theorem points_remove : ∀ {xs : List Interval}, Separated xs →
    (∃ x ∈ xs, x.Contains a n) → points (remove a n xs) = points xs \ Set.Ico a (a + n) := by
  intro xs
  induction xs with
  | nil => rintro - ⟨x, hx, -⟩; cases hx
  | cons x xs ih =>
    intro h hex
    simp only [remove]
    split
    · rename_i hc
      rw [points_append, points_cut hc, points_cons, Set.union_sdiff_distrib]
      congr 1
      ext v
      refine ⟨fun hv => ⟨hv, fun hm => ?_⟩, fun hv => hv.1⟩
      have := h.lt_of_mem_tail hv
      have := hc.2
      have := hm.2
      omega
    · rename_i hc
      rw [points_cons, ih h.tail (exists_contains_tail hex hc), points_cons,
        Set.union_sdiff_distrib]
      congr 1
      -- `x` is apart from the interval that contains the part
      obtain ⟨y, hy, hyc⟩ := exists_contains_tail hex hc
      have hgap := (Separated.cons_iff.mp h).2.1 y hy
      ext v
      refine ⟨fun hv => ⟨hv, fun hm => ?_⟩, fun hv => hv.1⟩
      have := hv.2
      have := hm.1
      have := hyc.1
      omega

/-- Intervals with no number of the part lie beside it. -/
theorem Separated.beside {xs : List Interval} (h : Separated xs) (hn : 0 < n)
    (hout : ∀ v ∈ points xs, v ∉ Set.Ico a (a + n)) :
    ∀ x ∈ xs, a + n ≤ x.start ∨ x.stop ≤ a := by
  intro x hx
  -- otherwise the greater of the two starts is a number of both
  by_contra hover
  have hpos := h.pos x hx
  have hmem : max a x.start ∈ points xs :=
    ⟨x, hx, Nat.le_max_right .., by simp only [Interval.stop] at *; omega⟩
  exact hout _ hmem ⟨Nat.le_max_left .., by simp only [Interval.stop] at *; omega⟩

/-- What is left has no number of the part, if the part was in one interval or beside all. -/
theorem Separated.mem_points_remove {xs : List Interval} (h : Separated xs) {v : Nat}
    (hpart : (∃ x ∈ xs, x.Contains a n) ∨ ∀ x ∈ xs, a + n ≤ x.start ∨ x.stop ≤ a)
    (hv : v ∈ points (Lib.remove a n xs)) : v ∈ points xs ∧ v ∉ Set.Ico a (a + n) := by
  rcases hpart with hin | hbeside
  · rw [points_remove h hin] at hv
    exact hv
  · obtain ⟨y, hy, h1, h2⟩ := hv
    obtain ⟨x, hx, hstart, hstop, -⟩ := inside_of_mem_remove hy
    refine ⟨⟨x, hx, by omega, by omega⟩, fun hm => ?_⟩
    have := hm.1
    have := hm.2
    rcases hbeside x hx with hb | hb <;> omega

end Remove

/-! ## Adding an interval -/

/-- `x` in front of the list, joined to the first interval if they touch. -/
def push (x : Interval) : List Interval → List Interval
  | [] => [x]
  | y :: ys => if x.stop = y.start then ⟨x.start, x.len + y.len⟩ :: ys else x :: y :: ys

def adjoin (x : Interval) : List Interval → List Interval
  | [] => [x]
  | y :: ys => if x.start < y.start then push x (y :: ys) else push y (adjoin x ys)

section Adjoin

variable {x : Interval} {xs : List Interval}

theorem points_push (x : Interval) (xs : List Interval) :
    points (push x xs) = Set.Ico x.start x.stop ∪ points xs := by
  cases xs with
  | nil => exact points_cons x []
  | cons y ys =>
    simp only [push]
    split
    · rename_i he
      rw [points_cons, points_cons, ← Set.union_assoc]
      congr 1
      ext v
      simp only [Set.mem_union, Set.mem_Ico, Interval.stop] at *
      omega
    · exact points_cons ..

theorem points_adjoin : ∀ xs : List Interval,
    points (adjoin x xs) = points xs ∪ Set.Ico x.start x.stop := by
  intro xs
  induction xs with
  | nil => rw [adjoin, points_cons, Set.union_comm]
  | cons y ys ih =>
    simp only [adjoin]
    split
    · rw [points_push, Set.union_comm]
    · rw [points_push, ih, points_cons, Set.union_assoc]

/-- The intervals after `push` start where old ones did. -/
theorem start_of_mem_push {y : Interval} (h : y ∈ push x xs) :
    y.start = x.start ∨ ∃ z ∈ xs, y.start = z.start := by
  cases xs with
  | nil => simp only [push, List.mem_singleton] at h; exact .inl (by rw [h])
  | cons z zs =>
    simp only [push] at h
    split at h <;> rcases List.mem_cons.mp h with rfl | h
    · exact .inl rfl
    · exact .inr ⟨y, by simp [h], rfl⟩
    · exact .inl rfl
    · exact .inr ⟨y, h, rfl⟩

theorem start_of_mem_adjoin : ∀ {xs : List Interval} {y : Interval}, y ∈ adjoin x xs →
    y.start = x.start ∨ ∃ z ∈ xs, y.start = z.start := by
  intro xs
  induction xs with
  | nil => intro y h; simp only [adjoin, List.mem_singleton] at h; exact .inl (by rw [h])
  | cons z zs ih =>
    intro y h
    simp only [adjoin] at h
    split at h
    · exact start_of_mem_push h
    · rcases start_of_mem_push h with h | ⟨w, hw, h⟩
      · exact .inr ⟨z, by simp, h⟩
      · rcases ih hw with h' | ⟨u, hu, h'⟩
        · exact .inl (h.trans h')
        · exact .inr ⟨u, by simp [hu], h.trans h'⟩

theorem Separated.push (hx : 0 < x.len) (h : Separated xs) (hle : ∀ y ∈ xs, x.stop ≤ y.start) :
    Separated (push x xs) := by
  cases xs with
  | nil => exact cons_iff.mpr ⟨hx, by simp, nil⟩
  | cons y ys =>
    obtain ⟨hy, hgap, htail⟩ := cons_iff.mp h
    simp only [Lib.push]
    split
    · rename_i he
      refine cons_iff.mpr ⟨by simp only; omega, fun z hz => ?_, htail⟩
      have := hgap z hz
      simp only [Interval.stop] at *
      omega
    · rename_i hne
      refine cons_iff.mpr ⟨hx, fun z hz => ?_, h⟩
      have hle' := hle y (by simp)
      rcases List.mem_cons.mp hz with rfl | hz
      · omega
      · have := hgap z hz
        simp only [Interval.stop] at *
        omega

theorem Separated.adjoin (hx : 0 < x.len) : ∀ {xs : List Interval}, Separated xs →
    (∀ y ∈ xs, x.stop ≤ y.start ∨ y.stop ≤ x.start) → Separated (adjoin x xs) := by
  intro xs
  induction xs with
  | nil => intro _ _; exact cons_iff.mpr ⟨hx, by simp, nil⟩
  | cons y ys ih =>
    intro h hdis
    obtain ⟨hy, hgap, htail⟩ := cons_iff.mp h
    have hdis' := hdis y (by simp)
    simp only [Lib.adjoin]
    split
    · refine h.push hx fun z hz => ?_
      rcases List.mem_cons.mp hz with rfl | hz
      · simp only [Interval.stop] at *; omega
      · have := hgap z hz
        simp only [Interval.stop] at *
        omega
    · refine (ih htail fun z hz => hdis z (by simp [hz])).push hy fun z hz => ?_
      rcases start_of_mem_adjoin hz with he | ⟨w, hw, he⟩
      · simp only [Interval.stop] at *; omega
      · have := hgap w hw
        omega

/-- The last interval before `x` is joined to the rest, those before it are not. -/
theorem adjoin_append {y : Interval} {ys : List Interval} : ∀ {xs : List Interval},
    Separated (xs ++ y :: ys) → (∀ z ∈ xs, z.start ≤ x.start) → y.start ≤ x.start →
    (∀ z ∈ ys, x.start < z.start) →
    adjoin x (xs ++ y :: ys) = xs ++ push y (push x ys) := by
  intro xs h hxs hy hys
  have hlast : adjoin x (y :: ys) = push y (push x ys) := by
    simp only [adjoin, if_neg (Nat.not_lt.mpr hy)]
    cases ys with
    | nil => rfl
    | cons z zs => simp only [adjoin, if_pos (hys z (by simp))]
  induction xs with
  | nil => exact hlast
  | cons z zs ih =>
    obtain ⟨-, hgap, htail⟩ := Separated.cons_iff.mp h
    simp only [List.cons_append, adjoin, if_neg (Nat.not_lt.mpr (hxs z (by simp)))]
    rw [ih htail fun w hw => hxs w (by simp [hw])]
    -- the next interval starts where it did
    have hnext : ∀ w ∈ (zs ++ push y (push x ys)).head?, z.stop < w.start := by
      intro w hw
      cases zs with
      | nil =>
        have hs : w.start = y.start := by
          revert hw
          simp only [List.nil_append]
          cases push x ys with
          | nil => simp only [push]; rintro ⟨⟩; rfl
          | cons u us => simp only [push]; split <;> rintro ⟨⟩ <;> rfl
        rw [hs]
        exact hgap y (by simp)
      | cons u us => cases hw; exact hgap w (by simp)
    cases hl : zs ++ push y (push x ys) with
    | nil => rfl
    | cons w ws =>
      have := hnext w (by rw [hl]; rfl)
      simp only [push, if_neg (Nat.ne_of_lt this)]

theorem adjoin_of_lt {ys : List Interval} (h : ∀ y ∈ ys, x.start < y.start) :
    adjoin x ys = push x ys := by
  cases ys with
  | nil => rfl
  | cons y ys => simp only [adjoin, if_pos (h y (by simp))]

end Adjoin

/-! ## Adding an interval to a list in any order -/

section Place

variable {α β : Type} {a : Nat} {l : List α}

/-- The entries before and after the place of `a`. The search for it passes the first entry unless that
starts above `a`, and the others as long as they start below. -/
def place (start : α → Nat) (a : Nat) : List α → List α × List α
  | [] => ([], [])
  | x :: xs =>
    if a < start x then ([], x :: xs)
    else (x :: xs.takeWhile (start · < a), xs.dropWhile (start · < a))

theorem place_append (start : α → Nat) (a : Nat) (l : List α) :
    (place start a l).1 ++ (place start a l).2 = l := by
  cases l with
  | nil => rfl
  | cons x xs =>
    simp only [place]
    split
    · rfl
    · rw [List.cons_append, List.takeWhile_append_dropWhile]

theorem place_map (start : β → Nat) (g : α → β) (a : Nat) (l : List α) :
    place start a (l.map g) =
      ((place (start ∘ g) a l).1.map g, (place (start ∘ g) a l).2.map g) := by
  cases l with
  | nil => rfl
  | cons x xs =>
    simp only [place, List.map_cons, Function.comp_apply]
    split
    · rfl
    · rw [List.takeWhile_map, List.dropWhile_map]
      rfl

/-- What comes before starts at `a` at most. -/
theorem place_before (start : α → Nat) {x : α} (h : x ∈ (place start a l).1) : start x ≤ a := by
  cases l with
  | nil => cases h
  | cons y ys =>
    simp only [place] at h
    split at h
    · cases h
    · rcases List.mem_cons.mp h with rfl | h
      · omega
      · have := List.mem_takeWhile_imp h
        simp only [decide_eq_true_eq] at this
        omega

/-- What comes next starts at `a` at least. -/
theorem place_after (start : α → Nat) {x : α} (h : x ∈ (place start a l).2.head?) :
    a ≤ start x := by
  cases l with
  | nil => cases h
  | cons y ys =>
    simp only [place] at h
    split at h
    · cases h; omega
    · have := List.head?_dropWhile_not (start · < a) ys
      rw [Option.mem_def] at h
      rw [h] at this
      simpa using this

/-- `rest` after `xs`, whose last interval is joined to it if they touch. -/
def pushAfter (xs rest : List Interval) : List Interval :=
  match xs.getLast? with
  | none => rest
  | some y => xs.dropLast ++ push y rest

/-- `x` at its place, joined to its neighbours where they touch. -/
def enter (x : Interval) (xs : List Interval) : List Interval :=
  pushAfter (place Interval.start x.start xs).1 (push x (place Interval.start x.start xs).2)

theorem pushAfter_nil (rest : List Interval) : pushAfter [] rest = rest := rfl

theorem pushAfter_concat (xs : List Interval) (y : Interval) (rest : List Interval) :
    pushAfter (xs ++ [y]) rest = xs ++ push y rest := by
  simp [pushAfter]

/-- The length of the interval that `x` ends up in. -/
def mergedLen (x : Interval) (xs : List Interval) : Nat :=
  let around := place Interval.start x.start xs
  (around.1.getLast?.elim 0 fun y => if y.stop = x.start then y.len else 0) + x.len +
    around.2.head?.elim 0 fun y => if x.stop = y.start then y.len else 0

/-- That interval starts where `x` or the one before it does and ends where `x` or the next one does;
the others are old ones. -/
theorem enter_cases (x : Interval) (xs : List Interval) : ∃ z ∈ enter x xs, z.len = mergedLen x xs ∧
    (z.start = x.start ∨ ∃ y ∈ xs, y.start ≤ x.start ∧ y.start = z.start) ∧
    (z.stop = x.stop ∨ ∃ y ∈ xs, y.start = x.stop ∧ y.stop = z.stop) ∧
    ∀ y ∈ enter x xs, y = z ∨ y ∈ xs := by
  have hmem := place_append Interval.start x.start xs
  have hbefore := fun y => place_before (a := x.start) (l := xs) Interval.start (x := y)
  rw [enter, mergedLen]
  generalize (place Interval.start x.start xs).1 = pre at *
  generalize (place Interval.start x.start xs).2 = post at *
  subst hmem
  -- first the next interval, then the one before
  obtain ⟨w, post', hpush, hw, hlen, hstop, hsub⟩ : ∃ w post', push x post = w :: post' ∧
      w.start = x.start ∧
      w.len = x.len + (post.head?.elim 0 fun y => if x.stop = y.start then y.len else 0) ∧
      (w.stop = x.stop ∨ ∃ y ∈ post, y.start = x.stop ∧ y.stop = w.stop) ∧ ∀ y ∈ post', y ∈ post := by
    cases post with
    | nil => exact ⟨x, [], rfl, rfl, rfl, .inl rfl, by simp⟩
    | cons y ys =>
      by_cases ht : x.stop = y.start
      · refine ⟨⟨x.start, x.len + y.len⟩, ys, by simp only [push, if_pos ht], rfl, ?_, .inr ⟨y, by simp, ht.symm, ?_⟩,
          fun z hz => by simp [hz]⟩
        · simp [ht]
        · simp only [Interval.stop] at *; omega
      · exact ⟨x, y :: ys, by simp only [push, if_neg ht], rfl, by simp [ht], .inl rfl, fun z hz => hz⟩
  rw [hpush]
  have hstop' : w.stop = x.stop ∨ ∃ y ∈ pre ++ post, y.start = x.stop ∧ y.stop = w.stop :=
    hstop.imp id fun ⟨y, hy, h⟩ => ⟨y, by simp [hy], h⟩
  rcases List.eq_nil_or_concat pre with rfl | ⟨pre, y, rfl⟩
  · refine ⟨w, by simp [pushAfter_nil], by simp [hlen], .inl hw, hstop', fun z hz => ?_⟩
    rw [pushAfter_nil] at hz
    rcases List.mem_cons.mp hz with rfl | hz
    · exact .inl rfl
    · exact .inr (by simp [hsub z hz])
  · rw [List.concat_eq_append] at *
    rw [pushAfter_concat]
    by_cases ht : y.stop = w.start
    · rw [push, if_pos ht]
      refine ⟨⟨y.start, y.len + w.len⟩, by simp, ?_, .inr ⟨y, by simp, hbefore y (by simp), rfl⟩, ?_,
        fun z hz => ?_⟩
      · rw [hw] at ht
        simp [ht, hlen, Nat.add_assoc]
      · have he : (⟨y.start, y.len + w.len⟩ : Interval).stop = w.stop := by
          simp only [Interval.stop] at *; omega
        rwa [he]
      · rcases List.mem_append.mp hz with hz | hz
        · exact .inr (by simp [hz])
        · rcases List.mem_cons.mp hz with rfl | hz
          · exact .inl rfl
          · exact .inr (by simp [hsub z hz])
    · rw [push, if_neg ht]
      refine ⟨w, by simp, ?_, .inl hw, hstop', fun z hz => ?_⟩
      · rw [hw] at ht
        simp [ht, hlen]
      · rcases List.mem_append.mp hz with hz | hz
        · exact .inr (by simp [hz])
        · rcases List.mem_cons.mp hz with rfl | hz
          · exact .inr (by simp)
          · rcases List.mem_cons.mp hz with rfl | hz
            · exact .inl rfl
            · exact .inr (by simp [hsub z hz])

/-- In a list in order it is the same as `adjoin`. -/
theorem Separated.enter_eq {x : Interval} {xs : List Interval} (h : Separated xs)
    (hne : ∀ y ∈ xs, y.start ≠ x.start) : enter x xs = Lib.adjoin x xs := by
  have happ := place_append Interval.start x.start xs
  have hbefore : ∀ y ∈ (place Interval.start x.start xs).1, y.start ≤ x.start := fun y hy =>
    place_before _ hy
  have hafter : ∀ y ∈ (place Interval.start x.start xs).2, x.start < y.start := by
    intro y hy
    have hsep := h
    rw [← happ] at hsep hne
    have hsep2 := (List.pairwise_append.mp hsep.apart).2.1
    cases hp : (place Interval.start x.start xs).2 with
    | nil => rw [hp] at hy; cases hy
    | cons z zs =>
      have hz : x.start ≤ z.start := place_after _ (by rw [hp]; rfl)
      have hzne := hne z (by rw [hp]; simp)
      rw [hp] at hy hsep2
      rcases List.mem_cons.mp hy with rfl | hy
      · omega
      · have := List.rel_of_pairwise_cons hsep2 hy
        simp only [Interval.stop] at this
        omega
  rw [enter]
  generalize (place Interval.start x.start xs).1 = pre at *
  generalize (place Interval.start x.start xs).2 = post at *
  subst happ
  rcases List.eq_nil_or_concat pre with rfl | ⟨pre, y, rfl⟩
  · rw [pushAfter_nil, List.nil_append, adjoin_of_lt hafter]
  · rw [List.concat_eq_append] at *
    rw [pushAfter_concat]
    rw [List.append_assoc, List.singleton_append] at h ⊢
    exact (adjoin_append h (fun z hz => hbefore z (by simp [hz])) (hbefore y (by simp)) hafter).symm

end Place

end Lib
end WhuOS
