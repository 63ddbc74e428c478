import Mathlib.Logic.Function.Basic
import Mathlib.Data.List.Nodup

/-!
# WhuOS.Lib.Ring

A circular doubly linked list with a head node, as C code keeps it: two pointer fields per node,
`none` for a null pointer.

* `Seg c a l b`    — from `a` the `next` pointers lead through `l` to `b`, and `prev` leads back.
* `IsRing c h l`   — the ring through the head `h` visits the nodes `l` once each.
* `isRing_unlink`, `isRing_pushFront`, `isRing_pushBack` — what the pointer updates do to the list
  of nodes.
* `searchNext_eq`, `searchPrev_eq` — a search along the pointers is `List.find?` on the nodes.
-/

namespace WhuOS
namespace Lib

/-- The pointer fields of all nodes. -/
structure Links (α : Type) where
  next : α → Option α
  prev : α → Option α

/-- The same list read in the other direction. -/
def Links.flip {α : Type} (c : Links α) : Links α := ⟨c.prev, c.next⟩

section Seg

variable {α : Type} {c c' : Links α}

/-- From `a` through the nodes `l` to `b`. -/
def Seg (c : Links α) : α → List α → α → Prop
  | a, [], b => c.next a = some b ∧ c.prev b = some a
  | a, x :: l, b => c.next a = some x ∧ c.prev x = some a ∧ Seg c x l b

variable {b : α} {l : List α}

theorem seg_append {x : α} {l₂ : List α} :
    ∀ {l₁ : List α} {a : α}, Seg c a (l₁ ++ x :: l₂) b ↔ Seg c a l₁ x ∧ Seg c x l₂ b := by
  intro l₁
  induction l₁ with
  | nil => intro a; simp [Seg, and_assoc]
  | cons y l ih => intro a; simp [Seg, ih, and_assoc]

theorem seg_flip :
    ∀ {l : List α} {a : α}, Seg c a l b → Seg c.flip b l.reverse a := by
  intro l
  induction l with
  | nil => intro a h; exact ⟨h.2, h.1⟩
  | cons y l ih =>
    intro a h
    rw [List.reverse_cons, seg_append]
    exact ⟨ih h.2.2, h.2.1, h.1⟩

/-- A segment only reads `next` of its nodes but the last, and `prev` of its nodes but the
first. -/
theorem seg_congr :
    ∀ {l : List α} {a : α}, Seg c a l b → (∀ x ∈ a :: l, c'.next x = c.next x) →
      (∀ x ∈ b :: l, c'.prev x = c.prev x) → Seg c' a l b := by
  intro l
  induction l with
  | nil =>
    intro a h hn hp
    exact ⟨by rw [hn a (by simp)]; exact h.1, by rw [hp b (by simp)]; exact h.2⟩
  | cons y l ih =>
    intro a h hn hp
    obtain ⟨h1, h2, h3⟩ := h
    refine ⟨by rw [hn a (by simp)]; exact h1, by rw [hp y (by simp)]; exact h2, ih h3 ?_ ?_⟩
    · intro x hx; exact hn x (List.mem_cons_of_mem a hx)
    · intro x hx; exact hp x (by rcases List.mem_cons.mp hx with rfl | hx <;> simp_all)

/-- `prev` of the end of a segment is its last node. -/
theorem seg_prev :
    ∀ {l : List α} {a : α}, Seg c a l b → ∃ p, c.prev b = some p ∧ (a :: l).getLast? = some p := by
  intro l
  induction l with
  | nil => intro a h; exact ⟨a, h.2, by simp⟩
  | cons y l ih =>
    intro a h
    obtain ⟨p, hb, hl⟩ := ih h.2.2
    exact ⟨p, hb, by rw [List.getLast?_cons_cons]; exact hl⟩

/-- Every node of a segment but its end has a successor, which leads back to it. -/
theorem seg_next {x : α} : ∀ {l : List α} {a : α}, Seg c a l b → x ∈ a :: l →
    ∃ y, c.next x = some y ∧ c.prev y = some x := by
  intro l
  induction l with
  | nil =>
    intro a h hx
    obtain rfl := List.mem_singleton.mp hx
    exact ⟨b, h⟩
  | cons y l ih =>
    intro a h hx
    rcases List.mem_cons.mp hx with rfl | hx
    · exact ⟨y, h.1, h.2.1⟩
    · exact ih h.2.2 hx

/-- Redirect the last edge of a segment to `n`. -/
theorem seg_redirect {x n p : α} :
    ∀ {l : List α} {a : α}, Seg c a l x → (a :: l).Nodup → (a :: l).getLast? = some p →
      c'.next p = some n → c'.prev n = some p → (∀ y ∈ a :: l, y ≠ p → c'.next y = c.next y) →
      (∀ y ∈ l, c'.prev y = c.prev y) → Seg c' a l n := by
  intro l
  induction l with
  | nil =>
    intro a _ _ hl hn hp _ _
    have : a = p := by simpa using hl
    subst this; exact ⟨hn, hp⟩
  | cons y l ih =>
    intro a h hnd hl hn hp hno hpo
    have hl' : (y :: l).getLast? = some p := by rw [List.getLast?_cons_cons] at hl; exact hl
    have hap : a ≠ p := fun he => (List.nodup_cons.mp hnd).1 (he ▸ List.mem_of_getLast? hl')
    refine ⟨by rw [hno a (by simp) hap]; exact h.1, by rw [hpo y (by simp)]; exact h.2.1, ?_⟩
    exact ih h.2.2 (List.nodup_cons.mp hnd).2 hl' hn hp
      (fun z hz => hno z (List.mem_cons_of_mem a hz)) (fun z hz => hpo z (List.mem_cons_of_mem y hz))

/-- The ring through the head `h` visits the nodes `l`, once each. -/
structure IsRing (c : Links α) (h : α) (l : List α) : Prop where
  nodup : (h :: l).Nodup
  seg : Seg c h l h

theorem isRing_nil {h : α} (hn : c.next h = some h) (hp : c.prev h = some h) : IsRing c h [] :=
  ⟨by simp, hn, hp⟩

theorem isRing_flip {h : α} (hr : IsRing c h l) : IsRing c.flip h l.reverse := by
  refine ⟨?_, seg_flip hr.seg⟩
  rw [List.nodup_cons, List.mem_reverse, List.nodup_reverse, ← List.nodup_cons]
  exact hr.nodup

theorem IsRing.prev_of_next {h x y : α} (hr : IsRing c h l) (hx : x ∈ h :: l)
    (hn : c.next x = some y) : c.prev y = some x := by
  obtain ⟨y', hn', hp⟩ := seg_next hr.seg hx
  rw [hn, Option.some.injEq] at hn'
  rwa [hn']

/-- On the nodes of a ring `next` and `prev` are inverse to each other. -/
theorem IsRing.next_iff_prev {h x y : α} (hr : IsRing c h l) (hx : x ∈ h :: l)
    (hy : y ∈ h :: l) : c.next x = some y ↔ c.prev y = some x :=
  ⟨hr.prev_of_next hx, (isRing_flip hr).prev_of_next (by simpa using hy)⟩

end Seg

section Update

variable {α : Type} [DecidableEq α]

namespace Links

def setNext (c : Links α) (a : α) (b : Option α) : Links α :=
  { c with next := Function.update c.next a b }

def setPrev (c : Links α) (a : α) (b : Option α) : Links α :=
  { c with prev := Function.update c.prev a b }

@[simp] theorem setNext_next (c : Links α) (a y : α) (b : Option α) :
    (c.setNext a b).next y = if y = a then b else c.next y := Function.update_apply ..
@[simp] theorem setNext_prev (c : Links α) (a : α) (b : Option α) :
    (c.setNext a b).prev = c.prev := rfl
@[simp] theorem setPrev_prev (c : Links α) (a y : α) (b : Option α) :
    (c.setPrev a b).prev y = if y = a then b else c.prev y := Function.update_apply ..
@[simp] theorem setPrev_next (c : Links α) (a : α) (b : Option α) :
    (c.setPrev a b).next = c.next := rfl

/-- Take `x` out, if both its pointers are set. -/
def unlink (c : Links α) (x : α) : Links α :=
  match c.next x, c.prev x with
  | some n, some p => (c.setPrev n (some p)).setNext p (some n)
  | _, _ => c

/-- Put `x` between the head and its successor; `none` when the successor is a null pointer. -/
def pushFront (c : Links α) (h x : α) : Option (Links α) :=
  let c := (c.setPrev x (some h)).setNext x (c.next h)
  match c.next h with
  | some n => some ((c.setPrev n (some x)).setNext h (some x))
  | none => none

/-- Put `x` between the head and its predecessor: `pushFront` with the pointers exchanged. -/
def pushBack (c : Links α) (h x : α) : Option (Links α) :=
  (c.flip.pushFront h x).map flip

end Links

variable {c : Links α} {h x : α}

/-- Taking out a node of the ring. -/
theorem isRing_unlink {l₁ l₂ : List α} (hr : IsRing c h (l₁ ++ x :: l₂)) :
    IsRing (c.unlink x) h (l₁ ++ l₂) := by
  obtain ⟨hs1, hs2⟩ := seg_append.mp hr.seg
  obtain ⟨p, hp, hpl⟩ := seg_prev hs1
  have hpm : p ∈ h :: l₁ := List.mem_of_getLast? hpl
  have hnd : (h :: (l₁ ++ l₂)).Nodup := hr.nodup.sublist
    (List.Sublist.cons_cons h (List.Sublist.append_left (List.sublist_cons_self x l₂) l₁))
  obtain ⟨hh, hnd'⟩ := List.nodup_cons.mp hnd
  obtain ⟨hnd1, hnd2, hdisj⟩ := List.nodup_append.mp hnd'
  have hh1 : h ∉ l₁ := fun hm => hh (List.mem_append_left _ hm)
  refine ⟨hnd, ?_⟩
  cases l₂ with
  | nil =>
    have hu : c.unlink x = (c.setPrev h (some p)).setNext p (some h) := by
      simp [Links.unlink, hs2.1, hp]
    rw [hu, List.append_nil]
    refine seg_redirect hs1 (List.nodup_cons.mpr ⟨hh1, hnd1⟩) hpl (by simp) (by simp) ?_ ?_
    · intro y _ hy; simp [hy]
    · intro y hy
      have : y ≠ h := fun he => hh1 (he ▸ hy)
      simp [this]
  | cons n l₂ =>
    have hu : c.unlink x = (c.setPrev n (some p)).setNext p (some n) := by
      simp [Links.unlink, hs2.1, hp]
    rw [hu, seg_append]
    constructor
    · refine seg_redirect hs1 (List.nodup_cons.mpr ⟨hh1, hnd1⟩) hpl (by simp) (by simp) ?_ ?_
      · intro y _ hy; simp [hy]
      · intro y hy
        have : y ≠ n := fun he => hdisj y hy n (by simp) he
        simp [this]
    · refine seg_congr hs2.2.2 ?_ ?_
      · intro y hy
        have : y ≠ p := by
          rintro rfl
          rcases List.mem_cons.mp hpm with rfl | hm
          · exact hh (List.mem_append_right _ hy)
          · exact hdisj y hm y hy rfl
        simp [this]
      · intro y hy
        have : y ≠ n := by
          rintro rfl
          rcases List.mem_cons.mp hy with rfl | hm
          · exact hh (by simp)
          · exact (List.nodup_cons.mp hnd2).1 hm
        simp [this]

variable {l : List α} {P : α → Bool}

/-- A new node right after the head. -/
theorem isRing_pushFront (hr : IsRing c h l) (hx : x ∉ h :: l) :
    ∃ c', c.pushFront h x = some c' ∧ IsRing c' h (x :: l) := by
  have hxh : x ≠ h := fun he => hx (by simp [he])
  have hnd : (h :: x :: l).Nodup := by
    obtain ⟨hh, hl⟩ := List.nodup_cons.mp hr.nodup
    simp only [List.mem_cons, not_or, List.nodup_cons] at hx ⊢
    exact ⟨⟨fun he => hxh he.symm, hh⟩, hx.2, hl⟩
  cases l with
  | nil =>
    have hn := hr.seg.1
    refine ⟨_, by simp [Links.pushFront, hxh.symm, hn]; rfl, hnd, ?_⟩
    simp [Seg, hxh]
  | cons n l =>
    have hn := hr.seg.1
    have hxn : x ≠ n := fun he => hx (by simp [he])
    refine ⟨_, by simp [Links.pushFront, hxh.symm, hn]; rfl, hnd, ?_⟩
    refine ⟨by simp, by simp [hxn], by simp [hxh], by simp, ?_⟩
    refine seg_congr hr.seg.2.2 ?_ ?_
    · intro y hy
      have h1 : y ≠ h := by rintro rfl; exact (List.nodup_cons.mp hr.nodup).1 hy
      have h2 : y ≠ x := by rintro rfl; exact hx (List.mem_cons_of_mem h hy)
      simp [h1, h2]
    · intro y hy
      have h1 : y ≠ n := by
        rintro rfl
        rcases List.mem_cons.mp hy with rfl | hm
        · exact (List.nodup_cons.mp hr.nodup).1 (by simp)
        · exact (List.nodup_cons.mp (List.nodup_cons.mp hr.nodup).2).1 hm
      have h2 : y ≠ x := by
        rintro rfl; exact hx (by rcases List.mem_cons.mp hy with rfl | hm <;> simp_all)
      simp [h1, h2]

/-- A new node right before the head. -/
theorem isRing_pushBack (hr : IsRing c h l) (hx : x ∉ h :: l) :
    ∃ c', c.pushBack h x = some c' ∧ IsRing c' h (l ++ [x]) := by
  obtain ⟨c', hc, hr'⟩ := isRing_pushFront (x := x) (isRing_flip hr) (by simpa using hx)
  refine ⟨c'.flip, by simp [Links.pushBack, hc], ?_⟩
  simpa using isRing_flip hr'

/-! ## Searching along the pointers -/

/-- Follow `ptr` until the head comes up again or a node satisfies `P`. `none`: a null pointer, or
out of fuel. -/
def search (ptr : α → Option α) (h : α) (P : α → Bool) : Nat → Option α → Option (Option α)
  | 0, _ => none
  | _ + 1, none => none
  | fuel + 1, some a =>
    if a = h then some none
    else if P a then some (some a)
    else search ptr h P fuel (ptr a)

/-- `for (a = head.next; a != &head; a = a->next)`. -/
def searchNext (c : Links α) (h : α) (P : α → Bool) (fuel : Nat) : Option (Option α) :=
  search c.next h P fuel (c.next h)

/-- `for (a = head.prev; a != &head; a = a->prev)`. -/
def searchPrev (c : Links α) (h : α) (P : α → Bool) (fuel : Nat) : Option (Option α) :=
  search c.prev h P fuel (c.prev h)

theorem search_seg :
    ∀ {l : List α} {a : α} {fuel : Nat}, Seg c a l h → h ∉ l → l.length < fuel →
      search c.next h P fuel (c.next a) = some (l.find? P) := by
  intro l
  induction l with
  | nil =>
    intro a fuel hs _ hf
    obtain ⟨f, rfl⟩ : ∃ f, fuel = f + 1 := ⟨fuel - 1, by simp at hf; omega⟩
    simp [search, hs.1]
  | cons y l ih =>
    intro a fuel hs hh hf
    obtain ⟨f, rfl⟩ : ∃ f, fuel = f + 1 := ⟨fuel - 1, by simp at hf; omega⟩
    have hyh : y ≠ h := fun he => hh (by simp [he])
    have hlen : l.length < f := by simpa using hf
    have ih' := ih hs.2.2 (fun hm => hh (List.mem_cons_of_mem y hm)) hlen
    simp only [hs.1, search, if_neg hyh, ih']
    by_cases hP : P y = true <;> simp [hP]

theorem searchNext_eq {fuel : Nat} (hr : IsRing c h l)
    (hf : l.length < fuel) : searchNext c h P fuel = some (l.find? P) :=
  search_seg hr.seg (List.nodup_cons.mp hr.nodup).1 hf

theorem searchPrev_eq {fuel : Nat} (hr : IsRing c h l)
    (hf : l.length < fuel) : searchPrev c h P fuel = some (l.reverse.find? P) :=
  searchNext_eq (isRing_flip hr) (by simpa using hf)

end Update

end Lib
end WhuOS
