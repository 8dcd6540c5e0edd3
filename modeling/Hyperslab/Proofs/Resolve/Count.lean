import Mathlib.Data.List.Forall2
import Hyperslab.Proofs.Grid.Partition
import Hyperslab.Proofs.Resolve.Computed

/-!
# Counts of elements

How many elements a variable, a section and the part of a section in a chunk have is multiplied up
without a check. For a variable that is accepted and a section that fits it every build comes to the
exact numbers: the size of the variable is an offset after each of its dimensions, and a section
selects no more along a dimension than there is.

## Main statements

- `Section.countElements_of_validate`: the count of a section
- `ChunkGrid.countElements_of_mem_intersecting`: the count of a part of it
-/

namespace Hyperslab

/-- Where the size of a variable is an offset after each dimension, so is the number of elements of
anything that is no longer along any of them. -/
theorem product_of_bytesWithin {b : Build} {n size bytes : Nat} {counts : List Nat} {shape : Shape}
    (hle : List.Forall₂ (· ≤ ·) counts shape) (h : bytesWithin? size shape = some bytes)
    (hn : n ≤ size) : b.product n counts = .ok (n * elementCount counts) := by
  induction hle generalizing n size with
  | nil =>
    rw [elementCount_nil, Nat.mul_one]
    rfl
  | @cons count length counts shape hcount _ ih =>
    rw [bytesWithin?, Option.bind_eq_bind, Option.bind_eq_some_iff] at h
    obtain ⟨_, hsize, hrest⟩ := h
    obtain ⟨hmax, rfl⟩ := Offset.checked_eq_some_iff.1 hsize
    have hproduct : n * count ≤ size * length := Nat.mul_le_mul hn hcount
    rw [Build.product, Build.mul_of_le (Nat.le_trans hproduct hmax), elementCount_cons,
      ← Nat.mul_assoc]
    exact ih hrest hproduct

theorem SectionRange.count_le_of_inBounds {r : SectionRange} {n : Nat} (h : r.inBounds n = true) :
    r.count ≤ n := by
  by_cases hcount : r.count = 0
  · exact hcount ▸ Nat.zero_le n
  · exact (within_of_inBounds h hcount).count_le

namespace Section

theorem counts_le_of_checkBounds {dimension : Nat} {ranges : List SectionRange} {shape : Shape}
    (h : checkBounds dimension ranges shape = .ok ()) (hlength : ranges.length = shape.length) :
    List.Forall₂ (· ≤ ·) (ranges.map (·.count)) shape := by
  induction ranges generalizing shape dimension with
  | nil =>
    rw [List.length_eq_zero_iff.1 hlength.symm]
    exact .nil
  | cons range ranges ih =>
    obtain ⟨n, shape, rfl⟩ := List.exists_cons_of_length_eq_add_one hlength.symm
    rw [checkBounds] at h
    split at h
    · exact .cons (SectionRange.count_le_of_inBounds ‹_›) (ih h (Nat.succ.inj hlength))
    · cases h

variable {a : Build} {d : Descriptor a} {s : Section}

/-- Every build counts the elements of a section that fits its variable. -/
theorem countElements_of_validate (hs : s.validate d.shape = .ok ()) (b : Build) :
    s.countElements b = .ok s.totalCount := by
  obtain ⟨hsize, -, hbytes, -⟩ := StorageMetadata.of_check d.accepted
  rw [validate] at hs
  split at hs
  · have hproduct := product_of_bytesWithin (b := b) (counts_le_of_checkBounds hs ‹_›) hbytes
      (Nat.pos_of_ne_zero hsize)
    rwa [Nat.one_mul] at hproduct
  · cases hs

end Section

/-- Every build counts the elements of the part of such a section in a chunk. -/
theorem ChunkGrid.countElements_of_mem_intersecting {d : Descriptor} {s : Section} {grid : ChunkGrid}
    {part : ChunkIntersection} (hlayout : d.layout.chunkShape? = some grid.chunkShape)
    (hshape : grid.arrayShape = d.shape) (hs : s.validate d.shape = .ok ())
    (hpart : part ∈ grid.intersecting s) (b : Build) :
    part.countElements b = .ok part.numElements := by
  by_cases hne : s.totalCount = 0
  · rw [intersecting_eq_nil (.inr (Section.isEmpty_iff.2 hne))] at hpart
    cases hpart
  · have hselects := selects_part hlayout hshape hs hne hpart
    have hpos : ∀ n ∈ part.localRanges.map (·.count), 0 < n := by
      intro n hn
      obtain ⟨range, hrange, rfl⟩ := List.mem_map.1 hn
      exact hselects.count_pos range hrange
    rw [ChunkIntersection.countElements,
      Build.product_of_le hpos (by rw [Nat.one_mul]; exact hselects.counts_le), Nat.one_mul]
    rfl

end Hyperslab
