import Hyperslab.Proofs.Descriptor
import Hyperslab.Proofs.Grid
import Hyperslab.Transfer

/-!
# Where elements are stored

`Descriptor.place?` says where the element at an index is stored, one element at a time. Transfers
move whole runs of elements, and `TransferPlan.Exact` says of a plan that it moves each element of a
section once, from its place. The runs of a block of transfers number the elements of the block, so
that what a block moves is said by the number of an element.

## Main definitions

- `Descriptor.place?`: the place of one element
- `TransferPlan.Exact`: a plan moves every element of a section once, from its place

## Main statements

- `TransferBlock.exists_covers`, `TransferBlock.of_covers`: the elements that a block moves
- `TransferBlock.pairwise_disjoint`: it moves none of them twice
-/

namespace Hyperslab

/-- Where the element at an index is stored: at an offset of the byte source, of the logical stream
or of a chunk. An element that is stored nowhere reads as the fill value. -/
def Descriptor.place? (d : Descriptor) (index : Index) : Option TransferSource :=
  match d.layout with
  | .noData => some .fill
  | .regular baseOffset =>
    (ravel? index d.shape).map fun k => .direct (baseOffset + k * d.elementSize)
  | .segmented _ | .compressed _ _ _ | .compressedSegmented _ _ _ =>
    (ravel? index d.shape).map fun k => .stream (k * d.elementSize)
  | .tiled chunkShape chunks =>
    let origin := chunkShape.originOf index
    match chunks.get? origin with
    | none => some .fill
    | some range =>
      (ravel? (index.relativeTo origin) chunkShape.toShape).map fun k =>
        .direct (range.offset + k * d.elementSize)
  | .compressedTiled chunkShape chunks =>
    let origin := chunkShape.originOf index
    match chunks.get? origin with
    | none => some .fill
    | some _ =>
      (ravel? (index.relativeTo origin) chunkShape.toShape).map fun k =>
        .chunk origin (k * d.elementSize)

/-- The place `n` bytes further on. -/
def TransferSource.advance (n : Nat) : TransferSource → TransferSource
  | direct offset => direct (offset + n)
  | stream offset => stream (offset + n)
  | chunk origin offset => chunk origin (offset + n)
  | fill => fill

/-- The transfer writes element `k` of the destination. -/
def Transfer.Covers (t : Transfer) (k : Nat) : Prop :=
  t.destination ≤ k ∧ k < t.destination + t.runLength

/-- Where a transfer takes element `k` of the destination from, with elements of the given size. -/
def Transfer.sourceOf (t : Transfer) (elementSize k : Nat) : TransferSource :=
  t.source.advance ((k - t.destination) * elementSize)

/-- The plan writes each element of a section once, from the place where it is stored, and nothing
else. -/
structure TransferPlan.Exact (p : TransferPlan) (d : Descriptor) (s : Section) : Prop where
  numElements_eq : p.numElements = s.totalCount
  runLength_pos : ∀ t ∈ p.transfers, 1 ≤ t.runLength
  covered : ∀ k, k < s.totalCount → ∃ t ∈ p.transfers, t.Covers k
  inside : ∀ t ∈ p.transfers, ∀ k, t.Covers k → k < s.totalCount
  disjoint : p.transfers.Pairwise fun t u => ∀ k, ¬(t.Covers k ∧ u.Covers k)
  place_eq : ∀ t ∈ p.transfers, ∀ k, t.Covers k →
    d.place? (s.indexAt k) = some (t.sourceOf d.elementSize k)

/-- A transfer writes at least its first element. -/
theorem TransferPlan.Exact.covers_destination {p : TransferPlan} {d : Descriptor} {s : Section}
    (h : p.Exact d s) {t : Transfer} (ht : t ∈ p.transfers) : t.Covers t.destination := by
  have hlength := h.runLength_pos t ht
  exact ⟨Nat.le_refl _, by omega⟩

theorem TransferSource.advance_zero (source : TransferSource) : source.advance 0 = source := by
  cases source <;> rfl

/-- A transfer starts at the place of its first element. -/
theorem TransferPlan.Exact.place_destination {p : TransferPlan} {d : Descriptor} {s : Section}
    (h : p.Exact d s) {t : Transfer} (ht : t ∈ p.transfers) :
    d.place? (s.indexAt t.destination) = some t.source := by
  rw [h.place_eq t ht _ (h.covers_destination ht), Transfer.sourceOf, Nat.sub_self, Nat.zero_mul,
    TransferSource.advance_zero]

/-- The last element of a transfer is stored as far after its start as bytes of it come before. -/
theorem TransferPlan.Exact.place_last {p : TransferPlan} {d : Descriptor} {s : Section}
    (h : p.Exact d s) {t : Transfer} (ht : t ∈ p.transfers) :
    ∃ n, d.place? (s.indexAt (t.destination + (t.runLength - 1))) = some (t.source.advance n) ∧
      n + d.elementSize = t.runLength * d.elementSize := by
  have hlength := h.runLength_pos t ht
  refine ⟨(t.runLength - 1) * d.elementSize, ?_, ?_⟩
  · rw [h.place_eq t ht _ ⟨by omega, by omega⟩, Transfer.sourceOf, Nat.add_sub_cancel_left]
  · rw [← Nat.succ_mul, Nat.succ_eq_add_one, Nat.sub_add_cancel hlength]

theorem TransferPlan.Exact.transfers_eq_nil {p : TransferPlan} {d : Descriptor} {s : Section}
    (h : p.Exact d s) (hzero : s.totalCount = 0) : p.transfers = [] := by
  refine List.eq_nil_iff_forall_not_mem.2 fun t ht => ?_
  have hlt := h.inside t ht t.destination (h.covers_destination ht)
  omega

/-- The transfer writes byte `j` of the destination. -/
def Transfer.CoversByte (t : Transfer) (elementSize j : Nat) : Prop :=
  t.destination * elementSize ≤ j ∧ j < t.destination * elementSize + t.runLength * elementSize

theorem Transfer.covers_div {t : Transfer} {elementSize j : Nat} (hpos : 0 < elementSize) :
    t.Covers (j / elementSize) ↔ t.CoversByte elementSize j := by
  rw [Covers, CoversByte, Nat.le_div_iff_mul_le hpos, Nat.div_lt_iff_lt_mul hpos, Nat.add_mul]

/-- One of the transfers writes byte `j` of the destination. -/
def CoveredByte (transfers : List Transfer) (elementSize j : Nat) : Prop :=
  ∃ t ∈ transfers, t.CoversByte elementSize j

theorem coveredByte_concat {front : List Transfer} {t : Transfer} {elementSize j : Nat} :
    CoveredByte (front ++ [t]) elementSize j ↔
      CoveredByte front elementSize j ∨ t.CoversByte elementSize j := by
  simp only [CoveredByte, List.mem_append, List.mem_singleton, or_and_right, exists_or,
    exists_eq_left]

theorem not_coveredByte_nil (elementSize j : Nat) : ¬CoveredByte [] elementSize j := by
  rintro ⟨t, ht, -⟩
  cases ht

namespace TransferPlan.Exact

variable {p : TransferPlan} {d : Descriptor} {s : Section} {t : Transfer}

theorem fits (h : p.Exact d s) (ht : t ∈ p.transfers) (size : Nat) :
    t.destination * size + t.runLength * size ≤ s.totalCount * size := by
  have hlength := h.runLength_pos t ht
  have hlast := h.inside t ht (t.destination + (t.runLength - 1)) ⟨by omega, by omega⟩
  rw [← Nat.add_mul]
  exact Nat.mul_le_mul_right _ (by omega)

/-- Where byte `i` of a transfer comes from: its element is stored as far after the first one as it
is written after it. -/
theorem place_byte (h : p.Exact d s) (ht : t ∈ p.transfers) {i : Nat}
    (hi : i < t.runLength * d.elementSize) :
    d.place? (s.indexAt ((t.destination * d.elementSize + i) / d.elementSize)) =
        some (t.source.advance (i / d.elementSize * d.elementSize)) ∧
      (t.destination * d.elementSize + i) % d.elementSize = i % d.elementSize := by
  have hpos := d.elementSize_pos
  have hdiv : (t.destination * d.elementSize + i) / d.elementSize =
      t.destination + i / d.elementSize := by
    rw [Nat.mul_comm, Nat.mul_add_div hpos]
  have hcovers : t.Covers ((t.destination * d.elementSize + i) / d.elementSize) :=
    (Transfer.covers_div hpos).2 ⟨Nat.le_add_right _ _, Nat.add_lt_add_left hi _⟩
  refine ⟨?_, by rw [Nat.mul_comm, Nat.mul_add_mod]⟩
  rw [h.place_eq t ht _ hcovers, Transfer.sourceOf, hdiv, Nat.add_sub_cancel_left]

/-- Where a byte that a transfer of fill values writes comes from. -/
theorem place_fill (h : p.Exact d s) (ht : t ∈ p.transfers) (hsource : t.source = .fill) {j : Nat}
    (hj : t.CoversByte d.elementSize j) : d.place? (s.indexAt (j / d.elementSize)) = some .fill := by
  rw [h.place_eq t ht _ ((Transfer.covers_div d.elementSize_pos).2 hj), Transfer.sourceOf, hsource]
  rfl

/-- Each byte is written, whatever the number of bytes that are written of each element. -/
theorem coveredByte (h : p.Exact d s) {size : Nat} (hpos : 0 < size) {j : Nat}
    (hj : j < s.totalCount * size) : CoveredByte p.transfers size j := by
  obtain ⟨t, ht, hcovers⟩ := h.covered _ (Nat.div_lt_of_lt_mul (by rwa [Nat.mul_comm]))
  exact ⟨t, ht, (Transfer.covers_div hpos).1 hcovers⟩

end TransferPlan.Exact

theorem TransferPlan.transfers_singleton {n : Nat} {block : TransferBlock} :
    TransferPlan.transfers ⟨n, [block]⟩ = block.transfers :=
  List.flatMap_singleton _ _

theorem BlockSource.advance_at (source : BlockSource) (offset n : Nat) :
    (source.at offset).advance n = source.at (offset + n) := by
  cases source with
  | direct base => exact congrArg TransferSource.direct (Nat.add_assoc base offset n)
  | stream => rfl
  | chunk origin => rfl
  | fill => rfl

namespace TransferBlock

open LocalRange

/-- The block of a selection that fits its source and its destination. -/
def ofSelection (origin : BlockSource) (elementSize : Nat) (source : Shape)
    (ranges : List LocalRange) (output : Shape) : TransferBlock :=
  { source := origin, elementSize := elementSize, runs := .ofSelection source ranges output }

theorem getElem?_transfers (b : TransferBlock) {n : Nat} {t : Transfer}
    (h : b.transfers[n]? = some t) : n < b.runs.numRuns ∧ t = b.transfer (b.runs.run n) := by
  rw [transfers, Runs.toList, List.map_map, List.getElem?_map] at h
  obtain ⟨m, hm, rfl⟩ := Option.map_eq_some_iff.1 h
  obtain ⟨hlt, heq⟩ := List.getElem?_eq_some_iff.1 hm
  rw [List.getElem_range] at heq
  subst heq
  exact ⟨by simpa using hlt, rfl⟩

variable {origin : BlockSource} {elementSize : Nat} {source output : Shape}
  {ranges : List LocalRange}

theorem runLength_eq {t : Transfer}
    (h : t ∈ (ofSelection origin elementSize source ranges output).transfers) :
    t.runLength = (Runs.ofSelection source ranges output).runLength := by
  obtain ⟨n, hn⟩ := List.getElem?_of_mem h
  rw [(getElem?_transfers _ hn).2]
  rfl

/-- Where an element number of a block is written. -/
def outputOf (ranges : List LocalRange) (output : Shape) (q : Nat) : Nat :=
  rowMajor (outputsAt ranges (unravel (counts ranges) q)) output

/-- Element number `q` of a block is moved by transfer number `q / runLength`. -/
theorem exists_covers (origin : BlockSource) (elementSize : Nat)
    (hsource : source.length = ranges.length)
    (houtput : output.length = ranges.length) {q : Nat} (hq : q < elementCount (counts ranges)) :
    ∃ t ∈ (ofSelection origin elementSize source ranges output).transfers,
      t.Covers (outputOf ranges output q) := by
  have hcount := Runs.numRuns_mul_runLength hsource houtput
  have hplace := Runs.run_output_add hsource houtput q
  generalize hruns : Runs.ofSelection source ranges output = runs at hcount hplace
  have hpos : 0 < runs.runLength := by
    rcases Nat.eq_zero_or_pos runs.runLength with hzero | hpos
    · rw [hzero, Nat.mul_zero] at hcount
      omega
    · exact hpos
  have hlt : q / runs.runLength < runs.numRuns := by
    rw [Nat.div_lt_iff_lt_mul hpos, hcount]
    exact hq
  refine ⟨_, List.mem_map.2 ⟨runs.run (q / runs.runLength), ?_, rfl⟩, ?_⟩
  · rw [show (ofSelection origin elementSize source ranges output).runs = runs from hruns]
    exact List.mem_map.2 ⟨_, List.mem_range.2 hlt, rfl⟩
  · have hmod := Nat.mod_lt q hpos
    change (runs.run (q / runs.runLength)).output ≤ _ ∧
      _ < (runs.run (q / runs.runLength)).output + runs.runLength
    rw [outputOf, ← hplace]
    omega

/-- What a transfer of a block writes are elements of the block, each from its place. The number of
the transfer follows from that of the element. -/
theorem of_covers (hsource : source.length = ranges.length)
    (houtput : output.length = ranges.length) {n k : Nat} {t : Transfer}
    (ht : (ofSelection origin elementSize source ranges output).transfers[n]? = some t)
    (hk : t.Covers k) :
    ∃ q, q < elementCount (counts ranges) ∧ outputOf ranges output q = k ∧
      q / (Runs.ofSelection source ranges output).runLength = n ∧
      t.sourceOf elementSize k =
        origin.at (rowMajor (elementsAt ranges (unravel (counts ranges) q)) source *
          elementSize) := by
  obtain ⟨hn, rfl⟩ := getElem?_transfers _ ht
  have hcount := Runs.numRuns_mul_runLength hsource houtput
  have hfrom := Runs.run_source_add hsource houtput
  have hto := Runs.run_output_add hsource houtput
  change n < (Runs.ofSelection source ranges output).numRuns at hn
  obtain ⟨hle, hlt⟩ : ((Runs.ofSelection source ranges output).run n).output ≤ k ∧
    k < ((Runs.ofSelection source ranges output).run n).output +
      (Runs.ofSelection source ranges output).runLength := hk
  change ∃ q, q < _ ∧ outputOf ranges output q = k ∧ _ ∧
    (origin.at (((Runs.ofSelection source ranges output).run n).source * elementSize)).advance
      ((k - ((Runs.ofSelection source ranges output).run n).output) * elementSize) = _
  generalize Runs.ofSelection source ranges output = runs at *
  -- element `p` of run `n` is element `n * runLength + p` of the block
  obtain ⟨p, rfl⟩ := Nat.exists_eq_add_of_le hle
  have hp : p < runs.runLength := by omega
  have hdiv : (n * runs.runLength + p) / runs.runLength = n :=
    mul_add_div_of_lt hp
  have hmod : (n * runs.runLength + p) % runs.runLength = p :=
    Nat.mul_add_mod_of_lt hp
  have hq : n * runs.runLength + p < runs.numRuns * runs.runLength := mul_add_lt_mul hn hp
  refine ⟨n * runs.runLength + p, hcount ▸ hq, ?_, hdiv, ?_⟩
  · rw [outputOf, ← hto]
    simp only [hdiv, hmod]
  · rw [← hfrom]
    simp only [hdiv, hmod]
    rw [BlockSource.advance_at, Nat.add_sub_cancel_left, Nat.add_mul]

theorem eq_of_outputOf_eq {q q' : Nat}
    (h : ∀ position, Below position (counts ranges) → Below (outputsAt ranges position) output)
    (hq : q < elementCount (counts ranges)) (hq' : q' < elementCount (counts ranges))
    (heq : outputOf ranges output q = outputOf ranges output q') : q = q' := by
  have hne : elementCount (counts ranges) ≠ 0 := by omega
  have hbelow := below_unravel hne q
  have hbelow' := below_unravel hne q'
  have hout := (h _ hbelow).eq_of_rowMajor_eq (h _ hbelow') heq
  have hunravel := outputsAt_injective hbelow hbelow' hout
  have hravel := congrArg (rowMajor · (counts ranges)) hunravel
  simp only [rowMajor_unravel] at hravel
  rwa [Nat.mod_eq_of_lt hq, Nat.mod_eq_of_lt hq'] at hravel

theorem pairwise_disjoint (hsource : source.length = ranges.length)
    (houtput : output.length = ranges.length)
    (h : ∀ position, Below position (counts ranges) → Below (outputsAt ranges position) output) :
    (ofSelection origin elementSize source ranges output).transfers.Pairwise
      fun t u => ∀ k, ¬(t.Covers k ∧ u.Covers k) := by
  rw [List.pairwise_iff_getElem]
  rintro m n hm hn hmn k ⟨ht, hu⟩
  obtain ⟨q, hq, hqk, rfl, -⟩ :=
    of_covers hsource houtput (List.getElem?_eq_some_iff.2 ⟨hm, rfl⟩) ht
  obtain ⟨q', hq', hqk', rfl, -⟩ :=
    of_covers hsource houtput (List.getElem?_eq_some_iff.2 ⟨hn, rfl⟩) hu
  have heq := eq_of_outputOf_eq h hq hq' (hqk.trans hqk'.symm)
  rw [heq] at hmn
  exact Nat.lt_irrefl _ hmn

end TransferBlock

end Hyperslab
