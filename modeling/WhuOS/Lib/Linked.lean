import Mathlib.Data.List.Nodup

/-!
# WhuOS.Lib.Linked

Singly linked lists: `Linked next o l e` says that the links from `o` go through the cells `l` and
then to `e`.
-/

namespace WhuOS
namespace Lib

variable {α : Type}

def Linked (next : α → Option α) : Option α → List α → Option α → Prop
  | o, [], e => o = e
  | o, a :: l, e => o = some a ∧ Linked next (next a) l e

namespace Linked

variable {next next' : α → Option α} {o e : Option α} {a : α} {l l' : List α}

theorem append_iff : ∀ {l : List α} {o : Option α}, Linked next o (l ++ l') e ↔
    ∃ m, Linked next o l m ∧ Linked next m l' e := by
  intro l
  induction l with
  | nil => intro o; simp [Linked]
  | cons a l ih => intro o; simp only [List.cons_append, Linked, ih, exists_and_left, and_assoc]

theorem concat_iff : Linked next o (l ++ [a]) e ↔ Linked next o l (some a) ∧ next a = e := by
  rw [append_iff]
  simp [Linked]

/-- Only the links of the cells matter. -/
theorem congr : ∀ {l : List α} {o : Option α}, Linked next o l e →
    (∀ a ∈ l, next' a = next a) → Linked next' o l e := by
  intro l
  induction l with
  | nil => intro o h _; exact h
  | cons a l ih =>
    intro o h hs
    refine ⟨h.1, ?_⟩
    rw [hs a (by simp)]
    exact ih h.2 fun b hb => hs b (by simp [hb])

theorem head_eq (h : Linked next o l none) : o = l.head? := by
  cases l with
  | nil => exact h
  | cons a l => exact h.1

theorem unique : ∀ {l l' : List α} {o : Option α}, Linked next o l none → Linked next o l' none →
    l = l' := by
  intro l
  induction l with
  | nil =>
    intro l' o h h'
    cases l' with
    | nil => rfl
    | cons b l' => rw [show o = none from h] at h'; cases h'.1
  | cons a l ih =>
    intro l' o h h'
    cases l' with
    | nil => rw [show o = none from h'] at h; cases h.1
    | cons b l' =>
      have hab : a = b := Option.some.inj (h.1.symm.trans h'.1)
      subst hab
      rw [ih h.2 h'.2]

/-- A list that ends has no cell twice. -/
theorem nodup : ∀ {l : List α} {o : Option α}, Linked next o l none → l.Nodup := by
  intro l
  induction l with
  | nil => intro o _; exact List.nodup_nil
  | cons a l ih =>
    intro o h
    refine List.nodup_cons.mpr ⟨fun ha => ?_, ih h.2⟩
    -- the list after the second `a` is the list after the first one
    obtain ⟨l1, l2, rfl⟩ := List.append_of_mem ha
    obtain ⟨m, -, hm⟩ := append_iff.mp h.2
    have := congrArg List.length (h.2.unique hm.2)
    simp only [List.length_append, List.length_cons] at this
    omega

end Linked

end Lib
end WhuOS
