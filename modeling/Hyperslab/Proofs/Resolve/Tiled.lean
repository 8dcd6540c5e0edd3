import Hyperslab.Proofs.Resolve.Linear

/-!
# Transfers of a variable in chunks

A section of a variable in chunks is resolved to one block for each chunk that holds some of it. An
element belongs to the block of the chunk that its index falls in and to no other one, and chunks
are addressed in their declared shape, also where they stick out of the variable.

## Main statements

- `exact_of_resolve_tiled`: each element is moved once, from its place
- `ordered_of_resolve_tiled`: chunk after chunk, in the order of the origins
- `resolve_tiled_chunks`: the same, with the transfers of each chunk together and the chunks in order
-/

namespace Hyperslab

open LocalRange

variable {d : Descriptor} {s : Section} {chunkShape : ChunkShape}

namespace ChunkGrid

theorem intersecting_eq {g : ChunkGrid} (h : Section.Within s.ranges g.arrayShape) :
    g.intersecting s =
      (choices (candidatesAlong s.ranges g.arrayShape g.chunkShape)).map partOf := by
  have hrank : s.rank = g.rank := h.length_eq
  have hempty : s.isEmpty = false :=
    Bool.eq_false_iff.2 fun hempty => h.elementCount_ne_zero (Section.isEmpty_iff.1 hempty)
  rw [intersecting, candidatesOf, hempty, hrank]
  simp

/-- A part of a section has a piece along each dimension. -/
theorem pieces_of_mem_intersecting {g : ChunkGrid} (h : Section.Within s.ranges g.arrayShape)
    {part : ChunkIntersection} (hpart : part ∈ g.intersecting s) :
    Pieces s.ranges g.chunkShape part.origin part.localRanges := by
  rw [intersecting_eq h, List.mem_map] at hpart
  obtain ⟨choice, hchoice, rfl⟩ := hpart
  exact pieces_of_mem_choices h.length_eq g.rank_eq hchoice

end ChunkGrid

theorem Pieces.length_eq {ranges : List SectionRange} {origin : Index} {parts : List LocalRange}
    (h : Pieces ranges chunkShape origin parts) :
    chunkShape.toShape.length = parts.length ∧ ranges.length = parts.length := by
  induction ranges generalizing chunkShape origin parts with
  | nil =>
    obtain ⟨rfl, rfl, rfl⟩ := h.of_nil
    exact ⟨rfl, rfl⟩
  | cons range ranges ih =>
    obtain ⟨c, chunkShape, o, origin, part, parts, rfl, rfl, rfl, -, hrest⟩ := h.of_cons
    obtain ⟨hchunk, hranges⟩ := ih hrest
    exact ⟨congrArg Nat.succ hchunk, congrArg Nat.succ hranges⟩

/-- A part of a section has the strides of the section. -/
theorem Pieces.map_stride {ranges : List SectionRange} {origin : Index} {parts : List LocalRange}
    (h : Pieces ranges chunkShape origin parts) :
    parts.map (·.stride) = ranges.map (·.stride) := by
  induction ranges generalizing chunkShape origin parts with
  | nil =>
    obtain ⟨-, -, rfl⟩ := h.of_nil
    rfl
  | cons range ranges ih =>
    obtain ⟨c, chunkShape, o, origin, part, parts, -, -, rfl, hpiece, hrest⟩ := h.of_cons
    rw [List.map_cons, List.map_cons, hpiece.stride_eq, ih hrest]

theorem Pieces.elementCount_ne_zero {ranges : List SectionRange} {origin : Index}
    {parts : List LocalRange} (h : Pieces ranges chunkShape origin parts) :
    elementCount (counts parts) ≠ 0 := by
  induction ranges generalizing chunkShape origin parts with
  | nil =>
    obtain ⟨-, -, rfl⟩ := h.of_nil
    exact Nat.one_ne_zero
  | cons range ranges ih =>
    obtain ⟨c, chunkShape, o, origin, part, parts, -, -, rfl, hpiece, hrest⟩ := h.of_cons
    exact Nat.mul_ne_zero (Nat.ne_of_gt hpiece.count_pos) (ih hrest)

/-- Pieces fit their chunk, in its declared shape, and the destination of the section. -/
theorem Pieces.inBounds_ofShapes {ranges : List SectionRange} {shape : Shape} {origin : Index}
    {parts : List LocalRange} (h : Pieces ranges chunkShape origin parts)
    (hwithin : Section.Within ranges shape) (hle : ∀ n ∈ shape, n ≤ maxOffset) :
    ∀ dim ∈ RunDimension.ofShapes parts chunkShape.toShape (ranges.map (·.count)),
      dim.sourceInBounds = true ∧ dim.outputInBounds = true := by
  induction ranges generalizing shape chunkShape origin parts with
  | nil =>
    obtain ⟨rfl, rfl, rfl⟩ := h.of_nil
    simp [RunDimension.ofShapes]
  | cons range ranges ih =>
    obtain ⟨n, shape, rfl, hrange, hranges⟩ := hwithin.of_cons
    obtain ⟨c, chunkShape, o, origin, part, parts, rfl, rfl, rfl, hpiece, hpieces⟩ := h.of_cons
    simp only [ChunkShape.toShape, List.map_cons, RunDimension.ofShapes, List.forall_mem_cons]
    obtain ⟨hn, hrest⟩ := List.forall_mem_cons.1 hle
    refine ⟨⟨?_, ?_⟩, ih hpieces hranges hrest⟩
    · have hpos := hpiece.count_pos
      have hstop := hpiece.stop_le
      have helement := hpiece.element_eq (part.count - 1)
      have hlast : range.element (part.output + (part.count - 1)) ≤
          range.element (range.count - 1) := SectionRange.element_le (by omega)
      have hmax := hrange.last_le
      have hle : part.element (part.count - 1) ≤ maxOffset := by omega
      have hlt := hpiece.element_lt (part.count - 1) (by omega)
      exact RunDimension.sourceInBounds_of_lt hlt hle
    · exact RunDimension.outputInBounds_of_le hpiece.stop_le (Nat.le_trans hrange.count_le hn)

/-- The runs of a part of a section. -/
theorem plan_part {g : ChunkGrid} (hwithin : Section.Within s.ranges g.arrayShape)
    (hle : ∀ n ∈ g.arrayShape, n ≤ maxOffset) {part : ChunkIntersection}
    (hpart : part ∈ g.intersecting s) :
    Runs.plan g.chunkShape.toShape part.localRanges s.shape =
      .ok (.ofSelection g.chunkShape.toShape part.localRanges s.shape) := by
  have hpieces := ChunkGrid.pieces_of_mem_intersecting hwithin hpart
  obtain ⟨hchunk, hranges⟩ := hpieces.length_eq
  exact Runs.plan_eq_ok_iff.2 ⟨hchunk, s.length_shape.trans hranges,
    hpieces.inBounds_ofShapes hwithin hle, rfl⟩

/-- The block of a part of a section. -/
def partBlock (d : Descriptor) (s : Section) (chunkShape : ChunkShape)
    (source : Index → BlockSource) (part : ChunkIntersection) : TransferBlock :=
  .ofSelection (source part.origin) d.elementSize chunkShape.toShape part.localRanges s.shape

/-- What the blocks of a variable in chunks are taken from, chunk by chunk. -/
theorem exists_chunkSource (hlayout : d.layout.chunkShape? = some chunkShape) :
    ∃ source : Index → BlockSource,
      (∀ parts, resolveBlocks d s parts = chunkBlocks d chunkShape source s parts) ∧
      ∀ index, Below (index.relativeTo (chunkShape.originOf index)) chunkShape.toShape →
        d.place? index = some ((source (chunkShape.originOf index)).at
          (rowMajor (index.relativeTo (chunkShape.originOf index)) chunkShape.toShape *
            d.elementSize)) := by
  cases h : d.layout <;> rw [h] at hlayout <;> cases hlayout
  case tiled chunks =>
    refine ⟨plainSource chunks, fun _ => by rw [resolveBlocks, h], fun index hbelow => ?_⟩
    rw [Descriptor.place?, h]
    simp only [plainSource, hbelow.ravel?]
    cases chunks.get? (chunkShape.originOf index) <;> rfl
  case compressedTiled chunks =>
    refine ⟨compressedSource chunks, fun _ => by rw [resolveBlocks, h], fun index hbelow => ?_⟩
    rw [Descriptor.place?, h]
    simp only [compressedSource, hbelow.ravel?]
    cases chunks.get? (chunkShape.originOf index) <;> rfl

/-- The plan of a section of a variable in chunks has a block for each part. -/
theorem resolve_tiled {source : Index → BlockSource}
    (hlayout : d.layout.chunkShape? = some chunkShape)
    (hsource : ∀ parts, resolveBlocks d s parts = chunkBlocks d chunkShape source s parts)
    (hs : s.validate d.shape = .ok ()) (hne : s.totalCount ≠ 0) :
    ∃ g : ChunkGrid, g.arrayShape = d.shape ∧ g.chunkShape = chunkShape ∧
      resolve d s = .ok ⟨s.totalCount,
        (g.intersecting s).map (partBlock d s chunkShape source)⟩ := by
  have hwithin := Section.within_of_validate hs hne
  obtain ⟨hrank, -⟩ := Descriptor.rank_of_chunks hlayout
  refine ⟨⟨d.shape, chunkShape, hrank⟩, rfl, rfl, resolve_of_blocks hs hne ?_⟩
  rw [hsource, chunkBlocks, ChunkGrid.create, dif_pos hrank]
  refine mapM_eq_ok fun part hpart => ?_
  rw [chunkBlock, plan_part (g := ⟨d.shape, chunkShape, hrank⟩) hwithin hwithin.le_maxOffset hpart]
  rfl

section Part

variable {source : Index → BlockSource} {g : ChunkGrid} {part : ChunkIntersection}
  (hwithin : Section.Within s.ranges g.arrayShape) (hpart : part ∈ g.intersecting s)

include hwithin hpart

/-- A transfer of a part writes elements of the section that fall in the chunk of the part, each
from its place in the chunk. -/
theorem partBlock_of_covers {n k : Nat} {t : Transfer}
    (ht : (partBlock d s g.chunkShape source part).transfers[n]? = some t) (hk : t.Covers k) :
    k < s.totalCount ∧ g.chunkShape.originOf (s.indexAt k) = part.origin ∧
      Below ((s.indexAt k).relativeTo part.origin) g.chunkShape.toShape ∧
      t.sourceOf d.elementSize k = (source part.origin).at
        (rowMajor ((s.indexAt k).relativeTo part.origin) g.chunkShape.toShape *
          d.elementSize) := by
  have hpieces := ChunkGrid.pieces_of_mem_intersecting hwithin hpart
  obtain ⟨hchunk, hranges⟩ := hpieces.length_eq
  obtain ⟨q, hq, rfl, -, hsource⟩ :=
    TransferBlock.of_covers hchunk (s.length_shape.trans hranges) ht hk
  obtain ⟨houtput, horigin, hrelative, hbelow⟩ :=
    hpieces.at_position (below_unravel hpieces.elementCount_ne_zero q)
  have hindex : s.indexAt (TransferBlock.outputOf part.localRanges s.shape q) =
      Section.elementsAt s.ranges
        (outputsAt part.localRanges (unravel (counts part.localRanges) q)) := by
    rw [Section.indexAt, TransferBlock.outputOf]
    exact congrArg _ houtput.unravel_rowMajor
  rw [hindex, horigin, hrelative]
  exact ⟨houtput.rowMajor_lt, rfl, hbelow, hsource⟩

theorem originOf_of_covers {t : Transfer} {k : Nat}
    (ht : t ∈ (partBlock d s g.chunkShape source part).transfers) (hk : t.Covers k) :
    g.chunkShape.originOf (s.indexAt k) = part.origin := by
  obtain ⟨n, hn⟩ := List.getElem?_of_mem ht
  exact (partBlock_of_covers hwithin hpart hn hk).2.1

theorem partBlock_nonempty :
    (partBlock d s g.chunkShape source part).transfers ≠ [] ∧
      ∀ t ∈ (partBlock d s g.chunkShape source part).transfers, 1 ≤ t.runLength := by
  have hpieces := ChunkGrid.pieces_of_mem_intersecting hwithin hpart
  obtain ⟨hchunk, hranges⟩ := hpieces.length_eq
  obtain ⟨u, hu, hcovers⟩ := TransferBlock.exists_covers (source part.origin) d.elementSize hchunk
    (s.length_shape.trans hranges) (Nat.pos_of_ne_zero hpieces.elementCount_ne_zero)
  refine ⟨List.ne_nil_of_mem hu, fun t ht => ?_⟩
  rw [TransferBlock.runLength_eq ht, ← TransferBlock.runLength_eq hu]
  have := hcovers.1
  have := hcovers.2
  omega

theorem partBlock_disjoint :
    (partBlock d s g.chunkShape source part).transfers.Pairwise
      fun t u => ∀ k, ¬(t.Covers k ∧ u.Covers k) := by
  have hpieces := ChunkGrid.pieces_of_mem_intersecting hwithin hpart
  obtain ⟨hchunk, hranges⟩ := hpieces.length_eq
  exact TransferBlock.pairwise_disjoint hchunk (s.length_shape.trans hranges)
    fun position hposition => (hpieces.at_position hposition).1

end Part

/-- Each element of a section is written by a transfer of the part in its chunk. -/
theorem exists_part_covers (d : Descriptor) (source : Index → BlockSource) {g : ChunkGrid}
    (hwithin : Section.Within s.ranges g.arrayShape) (hle : ∀ n ∈ g.arrayShape, n ≤ maxOffset)
    {k : Nat} (hk : k < s.totalCount) :
    ∃ part ∈ g.intersecting s, ∃ t ∈ (partBlock d s g.chunkShape source part).transfers,
      t.Covers k := by
  have hposition : Below (unravel s.shape k) s.shape :=
    below_unravel (by rw [← Section.totalCount]; omega) k
  obtain ⟨choice, hchoice, -, inner, hinner, houtput⟩ :=
    ChunkGrid.exists_choice hwithin hle g.rank_eq hposition
  have hmem : ChunkGrid.partOf choice ∈ g.intersecting s := by
    rw [ChunkGrid.intersecting_eq hwithin]
    exact List.mem_map_of_mem hchoice
  obtain ⟨hchunk, hranges⟩ :=
    (ChunkGrid.pieces_of_mem_intersecting hwithin hmem).length_eq
  obtain ⟨t, ht, hcovers⟩ :=
    TransferBlock.exists_covers (source (ChunkGrid.partOf choice).origin) d.elementSize hchunk
      (s.length_shape.trans hranges) hinner.rowMajor_lt
  refine ⟨_, hmem, t, ht, ?_⟩
  -- the position in the part is that of element `k` in the section
  have hq : TransferBlock.outputOf (choice.map (·.2)) s.shape
      (rowMajor inner (counts (choice.map (·.2)))) = k := by
    rw [TransferBlock.outputOf, hinner.unravel_rowMajor, houtput, rowMajor_unravel]
    exact Nat.mod_eq_of_lt hk
  rwa [← hq]

/-- The blocks of the parts move each element of a section once, from its place. -/
theorem exact_partBlocks {source : Index → BlockSource} {g : ChunkGrid}
    (hshape : g.arrayShape = d.shape) (hwithin : Section.Within s.ranges d.shape)
    (hplace : ∀ index, Below (index.relativeTo (g.chunkShape.originOf index))
        g.chunkShape.toShape →
      d.place? index = some ((source (g.chunkShape.originOf index)).at
        (rowMajor (index.relativeTo (g.chunkShape.originOf index)) g.chunkShape.toShape *
          d.elementSize))) :
    TransferPlan.Exact
      ⟨s.totalCount, (g.intersecting s).map (partBlock d s g.chunkShape source)⟩ d s := by
  have hin : Section.Within s.ranges g.arrayShape := hshape ▸ hwithin
  have hmem : ∀ t, t ∈ TransferPlan.transfers ⟨s.totalCount,
      (g.intersecting s).map (partBlock d s g.chunkShape source)⟩ ↔
      ∃ part ∈ g.intersecting s,
        t ∈ (partBlock d s g.chunkShape source part).transfers := by
    intro t
    rw [TransferPlan.transfers, List.flatMap_map]
    exact List.mem_flatMap
  refine ⟨rfl, fun t ht => ?_, fun k hk => ?_, fun t ht k hk => ?_, ?_, fun t ht k hk => ?_⟩
  · obtain ⟨part, hpart, ht⟩ := (hmem t).1 ht
    exact (partBlock_nonempty hin hpart).2 t ht
  · obtain ⟨part, hpart, t, ht, hcovers⟩ :=
      exists_part_covers d source hin (hshape ▸ hwithin.le_maxOffset) hk
    exact ⟨t, (hmem t).2 ⟨part, hpart, ht⟩, hcovers⟩
  · obtain ⟨part, hpart, ht⟩ := (hmem t).1 ht
    obtain ⟨n, hn⟩ := List.getElem?_of_mem ht
    exact (partBlock_of_covers hin hpart hn hk).1
  · rw [TransferPlan.transfers, List.flatMap_map, List.pairwise_flatMap]
    refine ⟨fun part hpart => partBlock_disjoint hin hpart,
      (ChunkGrid.pairwise_origins g s).imp_of_mem fun {a b} ha hb hlt t ht u hu k hk => ?_⟩
    -- an element in both would be of two chunks
    rw [← originOf_of_covers hin ha ht hk.1, ← originOf_of_covers hin hb hu hk.2] at hlt
    exact List.lt_irrefl _ hlt
  · obtain ⟨part, hpart, ht⟩ := (hmem t).1 ht
    obtain ⟨n, hn⟩ := List.getElem?_of_mem ht
    obtain ⟨-, horigin, hbelow, hsource⟩ := partBlock_of_covers hin hpart hn hk
    rw [← horigin] at hbelow hsource
    rw [hplace _ hbelow, hsource]

theorem exists_plan_tiled (hlayout : d.layout.chunkShape? = some chunkShape)
    (hs : s.validate d.shape = .ok ()) : ∃ plan, resolve d s = .ok plan := by
  by_cases hzero : s.totalCount = 0
  · exact ⟨_, resolve_of_empty hs hzero⟩
  · obtain ⟨source, hblocks, -⟩ := exists_chunkSource (s := s) hlayout
    obtain ⟨g, -, -, hresolve⟩ := resolve_tiled hlayout hblocks hs hzero
    exact ⟨_, hresolve⟩

theorem exact_of_resolve_tiled (hlayout : d.layout.chunkShape? = some chunkShape)
    (hs : s.validate d.shape = .ok ()) {plan : TransferPlan} (h : resolve d s = .ok plan) :
    plan.Exact d s := by
  by_cases hzero : s.totalCount = 0
  · rw [resolve_of_empty hs hzero] at h
    cases h
    exact exact_of_empty hzero
  · obtain ⟨source, hblocks, hplace⟩ := exists_chunkSource (s := s) hlayout
    obtain ⟨g, hshape, rfl, hresolve⟩ := resolve_tiled hlayout hblocks hs hzero
    rw [hresolve] at h
    cases h
    exact exact_partBlocks hshape (Section.within_of_validate hs hzero) hplace

/-- Transfers whose elements fall in different chunks come in the order of the origins. -/
def TransferPlan.Ordered (plan : TransferPlan) (chunkShape : ChunkShape) (s : Section) : Prop :=
  plan.transfers.Pairwise fun t u => ∀ k l, t.Covers k → u.Covers l →
    chunkShape.originOf (s.indexAt l) ≠ chunkShape.originOf (s.indexAt k) →
      chunkShape.originOf (s.indexAt k) < chunkShape.originOf (s.indexAt l)

theorem ordered_of_resolve_tiled (hlayout : d.layout.chunkShape? = some chunkShape)
    (hs : s.validate d.shape = .ok ()) {plan : TransferPlan} (h : resolve d s = .ok plan) :
    plan.Ordered chunkShape s := by
  by_cases hzero : s.totalCount = 0
  · rw [resolve_of_empty hs hzero] at h
    cases h
    exact List.Pairwise.nil
  · obtain ⟨source, hblocks, -⟩ := exists_chunkSource (s := s) hlayout
    obtain ⟨g, hshape, rfl, hresolve⟩ := resolve_tiled hlayout hblocks hs hzero
    rw [hresolve] at h
    cases h
    have hin : Section.Within s.ranges g.arrayShape :=
      hshape ▸ Section.within_of_validate hs hzero
    rw [TransferPlan.Ordered, TransferPlan.transfers, List.flatMap_map, List.pairwise_flatMap]
    refine ⟨fun part hpart => ?_, (ChunkGrid.pairwise_origins g s).imp_of_mem ?_⟩
    · refine List.Pairwise.imp_of_mem (R := fun _ _ => True) (fun ht hu _ k l hk hl hne => ?_)
        (List.pairwise_of_forall fun _ _ => trivial)
      rw [originOf_of_covers hin hpart ht hk, originOf_of_covers hin hpart hu hl] at hne
      exact absurd rfl hne
    · intro a b ha hb hlt t ht u hu k l hk hl _
      rwa [originOf_of_covers hin ha ht hk, originOf_of_covers hin hb hu hl]

/-- The elements of one transfer fall in one chunk. -/
theorem originOf_eq_of_covers (hlayout : d.layout.chunkShape? = some chunkShape)
    (hs : s.validate d.shape = .ok ()) {plan : TransferPlan} (h : resolve d s = .ok plan)
    {t : Transfer} (ht : t ∈ plan.transfers) {k l : Nat} (hk : t.Covers k) (hl : t.Covers l) :
    chunkShape.originOf (s.indexAt k) = chunkShape.originOf (s.indexAt l) := by
  have hinside := (exact_of_resolve_tiled hlayout hs h).inside t ht k hk
  have hne : s.totalCount ≠ 0 := Nat.ne_of_gt (Nat.zero_lt_of_lt hinside)
  obtain ⟨source, hblocks, -⟩ := exists_chunkSource (s := s) hlayout
  obtain ⟨g, hshape, rfl, hresolve⟩ := resolve_tiled hlayout hblocks hs hne
  rw [hresolve] at h
  cases h
  have hin : Section.Within s.ranges g.arrayShape := hshape ▸ Section.within_of_validate hs hne
  rw [TransferPlan.transfers, List.flatMap_map, List.mem_flatMap] at ht
  obtain ⟨part, hpart, ht⟩ := ht
  rw [originOf_of_covers hin hpart ht hk, originOf_of_covers hin hpart ht hl]

/-- The transfers of a section of a variable in chunks follow one another chunk by chunk, and the
chunks come in lexicographic order of their origins. -/
theorem resolve_tiled_chunks (hlayout : d.layout.chunkShape? = some chunkShape)
    (hs : s.validate d.shape = .ok ()) :
    ∃ plan, resolve d s = .ok plan ∧ plan.Exact d s ∧
      ∃ chunks : List (Index × List Transfer),
        plan.transfers = chunks.flatMap (·.2) ∧
        chunks.Pairwise (fun a b => a.1 < b.1) ∧
        ∀ chunk ∈ chunks, chunk.2 ≠ [] ∧ ∀ t ∈ chunk.2, ∀ k, t.Covers k →
          chunkShape.originOf (s.indexAt k) = chunk.1 := by
  by_cases hzero : s.totalCount = 0
  · exact ⟨_, resolve_of_empty hs hzero, exact_of_empty hzero, [], rfl, List.Pairwise.nil,
      by simp⟩
  · obtain ⟨source, hblocks, hplace⟩ := exists_chunkSource (s := s) hlayout
    obtain ⟨g, hshape, rfl, hresolve⟩ := resolve_tiled hlayout hblocks hs hzero
    have hwithin := Section.within_of_validate hs hzero
    have hin : Section.Within s.ranges g.arrayShape := hshape ▸ hwithin
    refine ⟨_, hresolve, exact_partBlocks hshape hwithin hplace, (g.intersecting s).map fun part =>
      (part.origin, (partBlock d s g.chunkShape source part).transfers), ?_, ?_, ?_⟩
    · rw [TransferPlan.transfers, List.flatMap_map, List.flatMap_map]
    · exact List.pairwise_map.2 (ChunkGrid.pairwise_origins g s)
    · rw [List.forall_mem_map]
      refine fun part hpart => ⟨(partBlock_nonempty hin hpart).1, fun t ht k hk => ?_⟩
      obtain ⟨n, hn⟩ := List.getElem?_of_mem ht
      exact (partBlock_of_covers hin hpart hn hk).2.1

end Hyperslab
