import Mathlib.Data.List.Induction

/-!
# WhuOS.Lib.Paths

Nodes that point at nodes, and the paths from a root. The entries of a node are only looked at
along the paths of a set `V` that is closed under prefixes: a node at the end of such a path may hold
anything.

* `walk`       — the node at the end of a path.
* `walk_congr` — nodes that agree where the paths go.
* `walk_link`  — one entry that was empty now points at a node with no entries.
* `Sep`        — no node is at the end of two paths.
-/

namespace WhuOS
namespace Lib
namespace Paths

variable {ν ι : Type}

def walk (h : ν → ι → Option ν) (r : ν) (p : List ι) : Option ν := p.foldlM h r

variable {h h' : ν → ι → Option ν} {r x v : ν} {p q : List ι} {i : ι}

@[simp] theorem walk_nil : walk h r [] = some r := rfl

theorem walk_append : walk h r (p ++ q) = (walk h r p).bind fun x => walk h x q := by
  simp only [walk, List.foldlM_append]
  rfl

theorem walk_snoc : walk h r (p ++ [i]) = (walk h r p).bind fun x => h x i := by
  rw [walk_append]
  congr 1
  funext x
  simp [walk]

theorem walk_snoc_of (hp : walk h r p = some x) : walk h r (p ++ [i]) = h x i := by
  rw [walk_snoc, hp]
  rfl

/-- What is on the way to a node is there. -/
theorem walk_of_append (hx : walk h r (p ++ q) = some x) : ∃ y, walk h r p = some y := by
  rw [walk_append] at hx
  cases hp : walk h r p with
  | none => rw [hp] at hx; cases hx
  | some y => exact ⟨y, rfl⟩

/-- A set of paths with all prefixes. -/
def Closed (V : List ι → Prop) : Prop := ∀ p i, V (p ++ [i]) → V p

variable {V : List ι → Prop}

/-- Nodes with the same entries along the paths. -/
theorem walk_congr (hV : Closed V)
    (hh : ∀ q j y, V (q ++ [j]) → walk h r q = some y → h' y j = h y j) :
    ∀ q, V q → walk h' r q = walk h r q := by
  intro q
  induction q using List.reverseRecOn with
  | nil => intro _; rfl
  | append_singleton q j ih =>
    intro hq
    rw [walk_snoc, walk_snoc, ih (hV q j hq)]
    cases hy : walk h r q with
    | none => rfl
    | some y => exact hh q j y hq hy

/-- The entry at `p ++ [i]` was empty and now points at `v`, which has no entries. -/
theorem walk_link [DecidableEq ι] (hV : Closed V) (hp : walk h r p = some x) (hnone : h x i = none)
    (hv : h' x i = some v) (hleaf : ∀ j, h' v j = none)
    (hh : ∀ q j y, V (q ++ [j]) → walk h r q = some y → ¬ (q = p ∧ j = i) → h' y j = h y j) :
    ∀ q, V q → walk h' r q = if q = p ++ [i] then some v else walk h r q := by
  intro q
  induction q using List.reverseRecOn with
  | nil =>
    intro _
    rw [if_neg (by simp)]
    rfl
  | append_singleton q j ih =>
    intro hq
    have hold : walk h r (p ++ [i]) = none := by rw [walk_snoc_of hp, hnone]
    rw [walk_snoc, ih (hV q j hq)]
    by_cases hqi : q = p ++ [i]
    · -- below the new node
      have hne : ¬ q ++ [j] = p ++ [i] := by
        intro he
        have := congrArg List.length he
        simp [hqi] at this
      rw [if_pos hqi, if_neg hne, walk_snoc, hqi, hold]
      exact hleaf j
    · rw [if_neg hqi, walk_snoc]
      cases hy : walk h r q with
      | none =>
        have hne : ¬ q ++ [j] = p ++ [i] := by
          intro he
          rw [(List.append_inj' he rfl).1, hp] at hy
          cases hy
        rw [if_neg hne]
        rfl
      | some y =>
        show h' y j = if q ++ [j] = p ++ [i] then some v else h y j
        by_cases he : q = p ∧ j = i
        · obtain ⟨rfl, rfl⟩ := he
          rw [hp] at hy
          cases hy
          rw [if_pos rfl, hv]
        · have hne : ¬ q ++ [j] = p ++ [i] := by
            intro he'
            obtain ⟨h1, h2⟩ := List.append_inj' he' rfl
            exact he ⟨h1, by simpa using h2⟩
          rw [if_neg hne, hh q j y hq hy he]

/-- No node is at the end of two paths. -/
def Sep (h : ν → ι → Option ν) (r : ν) (V : List ι → Prop) : Prop :=
  ∀ p q x, V p → V q → walk h r p = some x → walk h r q = some x → p = q

theorem Sep.congr (hs : Sep h r V) (hw : ∀ q, V q → walk h' r q = walk h r q) : Sep h' r V := by
  intro p q x hp hq h1 h2
  rw [hw p hp] at h1
  rw [hw q hq] at h2
  exact hs p q x hp hq h1 h2

/-- A node that no path led to is put at the end of one. -/
theorem Sep.link [DecidableEq ι] (hs : Sep h r V) (hv : ∀ q, V q → walk h r q ≠ some v)
    (hw : ∀ q, V q → walk h' r q = if q = p then some v else walk h r q) : Sep h' r V := by
  intro a b x ha hb h1 h2
  rw [hw a ha] at h1
  rw [hw b hb] at h2
  split at h1
  · split at h2
    · rename_i e1 e2; rw [e1, e2]
    · cases h1; exact absurd h2 (hv b hb)
  · split at h2
    · cases h2; exact absurd h1 (hv a ha)
    · exact hs a b x ha hb h1 h2

end Paths
end Lib
end WhuOS
