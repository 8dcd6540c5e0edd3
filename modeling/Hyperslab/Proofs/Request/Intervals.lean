import Mathlib.Combinatorics.Enumerative.DoubleCounting
import Hyperslab.Proofs.Stream.Chain

/-!
# Maximal intervals of offsets

A set of offsets falls into intervals of neighbours, each as long as the set allows. Ranges that lie
one after the other and never touch are the maximal intervals of the offsets that they hold, so a
list of ranges that is built from front to back has to join the next range to the last one where
they touch, and has to append it everywhere else.

## Main definitions

- `ByteRange.MaximalIn`: a range is a maximal interval of a set of offsets
- `MaximalIntervals`: ranges are all the maximal intervals of a set, in increasing order
- `Joined`: ranges apart from each other that hold a list of offsets

## Main statements

- `Joined.concat`, `Joined.extend`: the two ways to add a range
- `Joined.maximalIntervals`: ranges apart from each other are maximal
- `MaximalIntervals.length_le`: the same offsets are not held by fewer ranges
-/

namespace Hyperslab

/-- The offsets of the range are in the set, and neither the one before it nor the one after it
is. -/
structure ByteRange.MaximalIn (r : ByteRange) (offsets : List Nat) : Prop where
  length_pos : 0 < r.length
  subset : ∀ o ∈ r.offsets, o ∈ offsets
  before : ∀ o, o + 1 = r.offset → o ∉ offsets
  after : r.offset + r.length ∉ offsets

/-- Each range ends before the next one starts, with at least one offset between them. -/
def Apart (ranges : List ByteRange) : Prop :=
  ranges.Pairwise fun q r => q.offset + q.length < r.offset

/-- The ranges are the maximal intervals of a set of offsets, all of them and in increasing order.
No two of them touch. -/
structure MaximalIntervals (ranges : List ByteRange) (offsets : List Nat) : Prop where
  apart : Apart ranges
  mem_iff : ∀ r, r ∈ ranges ↔ r.MaximalIn offsets

/-- The ranges hold the offsets of a list in its order, and are apart from each other. -/
structure Joined (ranges : List ByteRange) (offsets : List Nat) : Prop where
  apart : Apart ranges
  length_pos : ∀ r ∈ ranges, 0 < r.length
  offsets_eq : chainOffsets ranges = offsets

variable {ranges : List ByteRange} {offsets : List Nat} {q r : ByteRange}

/-- Of ranges apart from each other, only a range itself reaches to it from either side. -/
theorem Apart.eq_of_touch (h : Apart ranges) (hq : q ∈ ranges) (hr : r ∈ ranges)
    (hqr : q.offset ≤ r.offset + r.length) (hrq : r.offset ≤ q.offset + q.length) : q = r := by
  obtain ⟨m, hm, rfl⟩ := List.getElem_of_mem hq
  obtain ⟨n, hn, rfl⟩ := List.getElem_of_mem hr
  rw [Apart, List.pairwise_iff_getElem] at h
  rcases Nat.lt_trichotomy m n with hlt | rfl | hlt
  · have hapart := h m n hm hn hlt
    omega
  · rfl
  · have hapart := h n m hn hm hlt
    omega

namespace Joined

theorem nil : Joined [] [] :=
  ⟨.nil, nofun, rfl⟩

theorem singleton (hr : 0 < r.length) : Joined [r] r.offsets :=
  ⟨List.pairwise_singleton _ _, by simpa using hr, List.append_nil _⟩

/-- A range that starts after the last one, and does not touch it, is one more. -/
theorem concat (h : Joined (ranges ++ [q]) offsets) (hr : 0 < r.length)
    (hgap : q.offset + q.length < r.offset) :
    Joined (ranges ++ [q] ++ [r]) (offsets ++ r.offsets) := by
  refine ⟨List.pairwise_append.2 ⟨h.apart, List.pairwise_singleton _ _, ?_⟩, ?_, ?_⟩
  · simp only [List.mem_append, List.mem_singleton, forall_eq]
    rintro s (hs | rfl)
    · have hapart := (List.pairwise_append.1 h.apart).2.2 s hs q (List.mem_singleton_self q)
      omega
    · exact hgap
  · simp only [List.mem_append (t := [r]), List.mem_singleton]
    rintro s (hs | rfl)
    · exact h.length_pos s hs
    · exact hr
  · rw [chainOffsets_append, h.offsets_eq, chainOffsets_cons, chainOffsets_nil, List.append_nil]

/-- A range that starts where the last one ends makes it longer. -/
theorem extend (h : Joined (ranges ++ [q]) offsets) (n : Nat) :
    Joined (ranges ++ [{ q with length := q.length + n }])
      (offsets ++ List.range' (q.offset + q.length) n) := by
  obtain ⟨hranges, -, hlast⟩ := List.pairwise_append.1 h.apart
  refine ⟨List.pairwise_append.2 ⟨hranges, List.pairwise_singleton _ _, ?_⟩, ?_, ?_⟩
  · simp only [List.mem_singleton, forall_eq] at hlast ⊢
    exact hlast
  · intro s hs
    rcases List.mem_append.1 hs with hs | hs
    · exact h.length_pos s (List.mem_append_left _ hs)
    · have hq := h.length_pos q (List.mem_append_right _ (List.mem_singleton_self q))
      rw [List.mem_singleton.1 hs]
      exact Nat.add_pos_left hq n
  · rw [← h.offsets_eq]
    simp only [chainOffsets_append, chainOffsets_cons, chainOffsets_nil, List.append_nil,
      ByteRange.offsets, List.append_assoc, List.range'_append_1]

/-- An offset of the list is in one of the ranges. -/
theorem exists_range (h : Joined ranges offsets) {o : Nat} (ho : o ∈ offsets) :
    ∃ q ∈ ranges, q.offset ≤ o ∧ o < q.offset + q.length := by
  rw [← h.offsets_eq] at ho
  obtain ⟨q, hq, hmem⟩ := List.mem_flatMap.1 ho
  exact ⟨q, hq, ByteRange.mem_offsets.1 hmem⟩

theorem mem_offsets (h : Joined ranges offsets) (hr : r ∈ ranges) {o : Nat} (hfrom : r.offset ≤ o)
    (hto : o < r.offset + r.length) : o ∈ offsets := by
  rw [← h.offsets_eq]
  exact List.mem_flatMap.2 ⟨r, hr, ByteRange.mem_offsets.2 ⟨hfrom, hto⟩⟩

/-- An offset of the list that touches one of the ranges is in it. -/
theorem within_of_touch (h : Joined ranges offsets) (hr : r ∈ ranges) {o : Nat} (ho : o ∈ offsets)
    (hfrom : r.offset ≤ o + 1) (hto : o ≤ r.offset + r.length) :
    r.offset ≤ o ∧ o < r.offset + r.length := by
  obtain ⟨q, hq, hqfrom, hqto⟩ := h.exists_range ho
  obtain rfl := h.apart.eq_of_touch hq hr (by omega) (by omega)
  exact ⟨hqfrom, hqto⟩

theorem maximalIn (h : Joined ranges offsets) (hr : r ∈ ranges) : r.MaximalIn offsets := by
  have hpos := h.length_pos r hr
  refine ⟨hpos, fun o ho => ?_, fun o ho hmem => ?_, fun hmem => ?_⟩
  · obtain ⟨hfrom, hto⟩ := ByteRange.mem_offsets.1 ho
    exact h.mem_offsets hr hfrom hto
  · have hin := h.within_of_touch hr hmem (by omega) (by omega)
    omega
  · have hin := h.within_of_touch hr hmem (by omega) (by omega)
    omega

/-- Ranges apart from each other are the maximal intervals of what they hold. -/
theorem maximalIntervals (h : Joined ranges offsets) : MaximalIntervals ranges offsets := by
  refine ⟨h.apart, fun r => ⟨fun hr => h.maximalIn hr, fun hmax => ?_⟩⟩
  have hpos := hmax.length_pos
  -- the range that holds the first offset starts and ends where the maximal one does
  obtain ⟨q, hq, hfrom, hto⟩ := h.exists_range
    (hmax.subset r.offset (ByteRange.mem_offsets.2 ⟨Nat.le_refl _, by omega⟩))
  have hstart : q.offset = r.offset := by
    rcases Nat.lt_or_eq_of_le hfrom with hlt | heq
    · exact absurd (h.mem_offsets hq (o := r.offset - 1) (by omega) (by omega))
        (hmax.before _ (by omega))
    · exact heq
  have hlength : q.length = r.length := by
    rcases Nat.lt_trichotomy q.length r.length with hlt | heq | hlt
    · exact absurd (hmax.subset _ (ByteRange.mem_offsets.2 ⟨by omega, by omega⟩))
        (h.maximalIn hq).after
    · exact heq
    · exact absurd (h.mem_offsets hq (by omega) (by omega)) hmax.after
  obtain ⟨offset, length⟩ := r
  obtain rfl : q.offset = offset := hstart
  obtain rfl : q.length = length := hlength
  exact hq

end Joined

/-- To be maximal in a set is about its members alone. -/
theorem ByteRange.MaximalIn.congr {offsets' : List Nat} (h : r.MaximalIn offsets)
    (hsame : ∀ o, o ∈ offsets ↔ o ∈ offsets') : r.MaximalIn offsets' where
  length_pos := h.length_pos
  subset o ho := (hsame o).1 (h.subset o ho)
  before o ho hmem := h.before o ho ((hsame o).2 hmem)
  after hmem := h.after ((hsame _).2 hmem)

theorem MaximalIntervals.congr {offsets' : List Nat} (h : MaximalIntervals ranges offsets)
    (hsame : ∀ o, o ∈ offsets ↔ o ∈ offsets') : MaximalIntervals ranges offsets' :=
  ⟨h.apart, fun r => (h.mem_iff r).trans
    ⟨fun hr => hr.congr hsame, fun hr => hr.congr fun o => (hsame o).symm⟩⟩

/-- A range of offsets of the set holds the first offset of at most one maximal interval. -/
theorem MaximalIntervals.eq_of_mem (h : MaximalIntervals ranges offsets) {other : ByteRange}
    (hother : ∀ o ∈ other.offsets, o ∈ offsets) (hq : q ∈ ranges) (hr : r ∈ ranges)
    (hqo : q.offset ∈ other.offsets) (hro : r.offset ∈ other.offsets) : q = r := by
  rw [ByteRange.mem_offsets] at hqo hro
  -- between two intervals there is an offset outside of the set, which the range would hold
  have hgap : ∀ s ∈ ranges, ¬(other.offset ≤ s.offset + s.length ∧
      s.offset + s.length < other.offset + other.length) := fun s hs hin =>
    ((h.mem_iff s).1 hs).after (hother _ (ByteRange.mem_offsets.2 hin))
  have hqgap := hgap q hq
  have hrgap := hgap r hr
  exact h.apart.eq_of_touch hq hr (by omega) (by omega)

/-- Each range holds at most one interval of the set, so there are at least as many ranges that hold
the set as it has maximal intervals. -/
theorem MaximalIntervals.length_le (h : MaximalIntervals ranges offsets) {others : List ByteRange}
    (hothers : ∀ o, o ∈ chainOffsets others ↔ o ∈ offsets) : ranges.length ≤ others.length := by
  have hnodup : ranges.Nodup := h.apart.imp fun {q r} hqr heq => by
    subst heq
    omega
  have hheld : ∀ r ∈ ranges.toFinset, ∃ other, other ∈ others.toFinset ∧
      r.offset ∈ other.offsets := by
    intro r hr
    have hmax := (h.mem_iff r).1 (List.mem_toFinset.1 hr)
    have hpos := hmax.length_pos
    have hfirst := hmax.subset r.offset (ByteRange.mem_offsets.2 ⟨Nat.le_refl _, by omega⟩)
    obtain ⟨other, hother, hmem⟩ := List.mem_flatMap.1 ((hothers _).2 hfirst)
    exact ⟨other, List.mem_toFinset.2 hother, hmem⟩
  have hcard : ranges.toFinset.card ≤ others.toFinset.card := by
    refine Finset.card_le_card_of_forall_subsingleton (fun r other => r.offset ∈ other.offsets)
      hheld ?_
    rintro other hother q ⟨hq, hqo⟩ r ⟨hr, hro⟩
    refine h.eq_of_mem (fun o ho => (hothers o).1 ?_) (List.mem_toFinset.1 hq)
      (List.mem_toFinset.1 hr) hqo hro
    exact List.mem_flatMap.2 ⟨other, List.mem_toFinset.1 hother, ho⟩
  calc ranges.length = ranges.toFinset.card := (List.toFinset_card_of_nodup hnodup).symm
    _ ≤ others.toFinset.card := hcard
    _ ≤ others.length := others.toFinset_card_le

end Hyperslab
