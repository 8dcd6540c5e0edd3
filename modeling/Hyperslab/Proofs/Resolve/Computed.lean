import Hyperslab.Proofs.Outcome
import Hyperslab.Proofs.Resolve.Bounds
import Hyperslab.Proofs.Run.Plan
import Hyperslab.Transfer.Fold

/-!
# Transfers as they are computed are exact

The products and sums that come up in the transfers of a section that fits its variable are offsets,
but for the steps of long strides. A build without checks comes to the exact transfers. A build with
checks comes to them where the steps are offsets, and elsewhere stops before the first transfer.

## Main definitions

- `Section.StepsFit`: the steps of a section in an array of some shape are offsets
- `Descriptor.Stops`: a build stops at a section

## Main statements

- `startTransfers_of_fit`, `resolveIn_of_fit`: the transfers are those of `resolve`
- `startTransfers_of_stops`, `resolveIn_of_stops`: the build stops
-/

namespace Hyperslab

open LocalRange

/-- The steps from each index that a section selects to the next one are offsets, in an array of
some shape. -/
def Section.StepsFit (s : Section) (shape : Shape) : Prop :=
  ∀ p ∈ (s.ranges.map (·.stride)).zip (strides shape), p.1 * p.2 ≤ maxOffset

instance (s : Section) (shape : Shape) : Decidable (s.StepsFit shape) :=
  inferInstanceAs (Decidable (∀ p ∈ _, _))

/-- The shape that the runs of a section are planned in, if any are. -/
def StorageLayout.runShape? (shape : Shape) : StorageLayout → Option Shape
  | noData => none
  | tiled chunkShape _ | compressedTiled chunkShape _ => some chunkShape.toShape
  | _ => some shape

/-- The build stops at a section, for a step that is no offset. -/
def Descriptor.Stops (b : Build) (d : Descriptor) (s : Section) : Prop :=
  b = .checked ∧ s.totalCount ≠ 0 ∧
    ∃ shape, d.layout.runShape? d.shape = some shape ∧ ¬s.StepsFit shape

instance (b : Build) (d : Descriptor) (s : Section) : Decidable (d.Stops b s) :=
  match h : d.layout.runShape? d.shape with
  | none => .isFalse fun ⟨_, _, shape, hshape, _⟩ => by rw [h] at hshape; cases hshape
  | some shape =>
    decidable_of_iff (b = .checked ∧ s.totalCount ≠ 0 ∧ ¬s.StepsFit shape)
      (by simp only [Descriptor.Stops, h, Option.some.injEq, exists_eq_left'])

/-- A build without checks does not stop. -/
theorem Descriptor.not_stops (d : Descriptor) (s : Section) : ¬d.Stops .wrapping s :=
  fun h => nomatch h.1

variable {b : Build}

theorem BlockSource.atIn_of_le {source : BlockSource} {offset : Nat}
    (h : ∀ base, source = .direct base → base + offset ≤ maxOffset) :
    source.atIn b offset = .ok (source.at offset) := by
  cases source with
  | direct base =>
    rw [atIn, Build.add_of_le (h base rfl)]
    rfl
  | stream => rfl
  | chunk origin => rfl
  | fill => rfl

namespace TransferBlock

/-- A block as a build without checks holds it. -/
def computed (block : TransferBlock) : CountedBlock :=
  { source := block.source, elementSize := block.elementSize, runs := block.runs.computed }

/-- The runs of a block come out right in every build, and what they start at are offsets. -/
structure Computes (block : TransferBlock) : Prop where
  run_eq : ∀ b, ∀ k < block.runs.numRuns,
    block.runs.computed.runIn b k = .ok (block.runs.run k)
  offset_le : ∀ k < block.runs.numRuns,
    (block.runs.run k).source * block.elementSize ≤ maxOffset
  base_le : ∀ base, block.source = .direct base → ∀ k < block.runs.numRuns,
    base + (block.runs.run k).source * block.elementSize ≤ maxOffset

namespace Computes

variable {block : TransferBlock} (h : block.Computes)
include h

theorem transferIn_eq {k : Nat} (hk : k < block.runs.numRuns) :
    block.computed.transferIn b k = .ok (block.transfer (block.runs.run k)) := by
  show block.runs.computed.runIn b k >>= _ = _
  rw [h.run_eq b k hk]
  show b.mul (block.runs.run k).source block.elementSize >>= _ = _
  rw [Build.mul_of_le (h.offset_le k hk)]
  show block.source.atIn b _ >>= _ = _
  rw [BlockSource.atIn_of_le fun base hbase => h.base_le base hbase k hk]
  rfl

theorem transfersIn_eq : block.computed.transfersIn b = .ok block.transfers := by
  rw [transfers, Runs.toList, List.map_map]
  exact mapM_eq_ok fun k hk => h.transferIn_eq (List.mem_range.1 hk)

theorem foldFrom_eq {σ : Type} (step : σ → Transfer → SourceM ReadError σ) {first count : Nat}
    (hcount : first + count ≤ block.runs.numRuns) (state : σ) :
    block.computed.foldFrom b step first count state =
      ((List.range' first count).map (block.transfer ∘ block.runs.run)).foldlM step state := by
  induction count generalizing first state with
  | zero => rfl
  | succ count ih =>
    rw [CountedBlock.foldFrom, h.transferIn_eq (by omega), List.range'_succ, List.map_cons,
      List.foldlM_cons]
    show (pure _ >>= _) = _
    rw [pure_bind]
    exact bind_congr fun state => ih (by omega) state

/-- The transfers of a block one by one are its transfers. -/
theorem foldTransfers_eq {σ : Type} (step : σ → Transfer → SourceM ReadError σ) (state : σ) :
    block.computed.foldTransfers b step state = block.transfers.foldlM step state := by
  rw [transfers, Runs.toList, List.map_map, List.range_eq_range']
  exact h.foldFrom_eq step (Nat.le_of_eq (Nat.zero_add _)) state

end Computes

/-- Blocks of a selection come out right where the array that they are from is at offsets. -/
theorem computes_of_selects {source output : Shape} {ranges : List LocalRange}
    {block : TransferBlock} (h : Runs.Selects source ranges output block.runs)
    (hoffset : ∀ place < elementCount source, place * block.elementSize ≤ maxOffset)
    (hbase : ∀ base, block.source = .direct base → ∀ place < elementCount source,
      base + place * block.elementSize ≤ maxOffset) : block.Computes where
  run_eq _ _ hk := Runs.runIn_computed h.plan_eq h.source_le h.output_le hk
  offset_le _ hk := hoffset _ (Runs.run_lt h.plan_eq hk).1
  base_le base hsource _ hk := hbase base hsource _ (Runs.run_lt h.plan_eq hk).1

end TransferBlock

namespace Descriptor

variable {d : Descriptor} {s : Section}

/-- A variable has no more elements than there are offsets. -/
theorem elementCount_le (d : Descriptor) : elementCount d.shape ≤ maxOffset := by
  by_cases hrank : d.shape = []
  · rw [hrank]
    decide
  · exact Nat.le_trans (Nat.le_mul_of_pos_left _ d.elementSize_pos)
      (d.variableSize_le (.inl hrank))

/-- Each element of a variable is at an offset in the variable. -/
theorem place_mul_le (d : Descriptor) {place : Nat} (h : place < elementCount d.shape) :
    place * d.elementSize ≤ maxOffset := by
  by_cases hrank : d.shape = []
  · rw [hrank, elementCount_nil, Nat.lt_one_iff] at h
    rw [h, Nat.zero_mul]
    exact Nat.zero_le _
  · have hle := d.variableSize_le (.inl hrank)
    rw [variableSize, Nat.mul_comm] at hle
    exact Nat.le_trans (Nat.mul_le_mul_right _ (Nat.le_of_lt h)) hle

/-- What a section selects of a variable in one piece. -/
theorem selects_variable (hs : s.validate d.shape = .ok ()) (hne : s.totalCount ≠ 0) :
    Runs.Selects d.shape s.localRanges s.shape (.ofSelection d.shape s.localRanges s.shape) where
  plan_eq := by
    have hwithin := Section.within_of_validate hs hne
    exact Runs.plan_eq_ok_iff.2 ⟨Section.length_localRanges hwithin, s.length_shape_localRanges,
      Section.inBounds_ofShapes hwithin hwithin.le_maxOffset, rfl⟩
  count_pos := by
    intro range hrange
    have hcounts := s.elementCount_localRanges
    refine Nat.pos_of_ne_zero fun hzero => ?_
    refine elementCount_ne_zero_iff.1 (hcounts ▸ hne) ?_
    exact hzero ▸ List.mem_map_of_mem (f := fun r : LocalRange => r.count) hrange
  source_le := d.elementCount_le
  output_le := Nat.le_trans (Section.within_of_validate hs hne).elementCount_le d.elementCount_le

end Descriptor

section OnePiece

variable {d : Descriptor} {s : Section}

theorem stepsFit_variable (hs : s.validate d.shape = .ok ()) (hne : s.totalCount ≠ 0) :
    (Runs.ofSelection d.shape s.localRanges s.shape).StepsFit ↔ s.StepsFit d.shape := by
  rw [(Descriptor.selects_variable hs hne).stepsFit_iff, Section.localRanges, List.map_map]
  rfl

theorem variableRunsIn_of_fit (hs : s.validate d.shape = .ok ()) (hne : s.totalCount ≠ 0)
    (hfit : b = .wrapping ∨ s.StepsFit d.shape) :
    variableRunsIn b d s = .ok (Runs.ofSelection d.shape s.localRanges s.shape).computed := by
  rw [variableRunsIn, (Descriptor.selects_variable hs hne).planIn_of_fit
    (hfit.imp_right (stepsFit_variable hs hne).2)]
  rfl

theorem variableRunsIn_checked (hs : s.validate d.shape = .ok ()) (hne : s.totalCount ≠ 0)
    (hfit : ¬s.StepsFit d.shape) : variableRunsIn .checked d s = .error (.halted .overflow) := by
  rw [variableRunsIn, (Descriptor.selects_variable hs hne).planIn_checked
    fun hsteps => hfit ((stepsFit_variable hs hne).1 hsteps)]
  rfl

/-- The one block of a variable in one piece. -/
theorem startTransfers_linear (hlinear : d.layout.isLinear = true)
    (hs : s.validate d.shape = .ok ()) (hne : s.totalCount ≠ 0) :
    ∃ origin, resolve d s = .ok ⟨s.totalCount,
        [.ofSelection origin d.elementSize d.shape s.localRanges s.shape]⟩ ∧
      (∀ base, origin = .direct base → base + d.variableSize ≤ maxOffset) ∧
      ∀ b, startTransfers b d s = (do
        let runs ← variableRunsIn b d s
        .ok (.linear { source := origin, elementSize := d.elementSize, runs := runs })) := by
  have hruns := variableRuns_eq (Section.within_of_validate hs hne)
  cases hlayout : d.layout <;> rw [hlayout] at hlinear <;> cases hlinear
  case regular baseOffset =>
    refine ⟨.direct baseOffset, resolve_of_blocks hs hne ?_, ?_, fun b => ?_⟩
    · rw [resolveBlocks, hlayout, hruns]
      rfl
    · rintro base ⟨⟩
      exact Descriptor.regular_le hlayout
    · rw [startTransfers, hs]
      dsimp only
      rw [if_neg hne, hlayout]
  all_goals
    refine ⟨.stream, resolve_of_blocks hs hne ?_, ?_, fun b => ?_⟩
    · rw [resolveBlocks, hlayout, hruns]
      rfl
    · rintro base ⟨⟩
    · rw [startTransfers, hs]
      dsimp only
      rw [if_neg hne, hlayout]

theorem computes_variable (hs : s.validate d.shape = .ok ()) (hne : s.totalCount ≠ 0)
    {origin : BlockSource}
    (hbase : ∀ base, origin = .direct base → base + d.variableSize ≤ maxOffset) :
    (TransferBlock.ofSelection origin d.elementSize d.shape s.localRanges s.shape).Computes := by
  refine TransferBlock.computes_of_selects (Descriptor.selects_variable hs hne)
    (fun place hplace => d.place_mul_le hplace) fun base horigin place hplace => ?_
  refine Nat.le_trans (Nat.add_le_add_left ?_ _) (hbase base horigin)
  rw [Descriptor.variableSize, Nat.mul_comm d.elementSize]
  exact Nat.mul_le_mul_right _ (Nat.le_of_lt hplace)

end OnePiece

section Chunks

variable {d : Descriptor} {s : Section} {chunkShape : ChunkShape} {grid : ChunkGrid}
  {source : Index → BlockSource} {part : ChunkIntersection}

/-- The parts of a section of a variable in chunks. -/
theorem startTransfers_chunks (hlayout : d.layout.chunkShape? = some chunkShape)
    (hs : s.validate d.shape = .ok ()) (hne : s.totalCount ≠ 0) :
    ∃ (source : Index → BlockSource) (grid : ChunkGrid),
      grid.arrayShape = d.shape ∧ grid.chunkShape = chunkShape ∧
      resolve d s = .ok ⟨s.totalCount,
        (grid.intersecting s).map (partBlock d s chunkShape source)⟩ ∧
      (∀ origin base, source origin = .direct base →
        base + elementCount chunkShape.toShape * d.elementSize ≤ maxOffset) ∧
      ∀ b, startTransfers b d s = .ok (.tiled grid source) := by
  have hrank := (Descriptor.rank_of_chunks hlayout).1
  have hcreate : ChunkGrid.create d.shape chunkShape = .ok ⟨d.shape, chunkShape, hrank⟩ :=
    dif_pos hrank
  cases hkind : d.layout <;> rw [hkind] at hlayout <;> cases hlayout
  case tiled chunks =>
    have hblocks : ∀ parts, resolveBlocks d s parts =
        chunkBlocks d chunkShape (plainSource chunks) s parts := fun parts => by
      rw [resolveBlocks, hkind]
    obtain ⟨⟨_, _, _⟩, rfl, rfl, hresolve⟩ := resolve_tiled (by rw [hkind]; rfl) hblocks hs hne
    refine ⟨plainSource chunks, _, rfl, rfl, hresolve, fun origin base hbase => ?_, fun b => ?_⟩
    · rw [plainSource] at hbase
      split at hbase
      · rename_i range hget
        cases hbase
        have hrange := Descriptor.range_of_tiled hkind hget
        rw [← hrange.2]
        exact hrange.1
      · cases hbase
    · rw [startTransfers, hs]
      dsimp only
      rw [if_neg hne, hkind]
      simp only [Transfers.ofChunks, hcreate]
  case compressedTiled chunks =>
    have hblocks : ∀ parts, resolveBlocks d s parts =
        chunkBlocks d chunkShape (compressedSource chunks) s parts := fun parts => by
      rw [resolveBlocks, hkind]
    obtain ⟨⟨_, _, _⟩, rfl, rfl, hresolve⟩ := resolve_tiled (by rw [hkind]; rfl) hblocks hs hne
    refine ⟨compressedSource chunks, _, rfl, rfl, hresolve, fun origin base hbase => ?_,
      fun b => ?_⟩
    · rw [compressedSource] at hbase
      split at hbase <;> cases hbase
    · rw [startTransfers, hs]
      dsimp only
      rw [if_neg hne, hkind]
      simp only [Transfers.ofChunks, hcreate]

/-- What a part of a section selects of its chunk. -/
theorem selects_part (hlayout : d.layout.chunkShape? = some grid.chunkShape)
    (hshape : grid.arrayShape = d.shape) (hs : s.validate d.shape = .ok ())
    (hne : s.totalCount ≠ 0) (hpart : part ∈ grid.intersecting s) :
    Runs.Selects grid.chunkShape.toShape part.localRanges s.shape
      (.ofSelection grid.chunkShape.toShape part.localRanges s.shape) := by
  have hwithin := Section.within_of_validate hs hne
  have hin : Section.Within s.ranges grid.arrayShape := hshape ▸ hwithin
  have hpieces := ChunkGrid.pieces_of_mem_intersecting hin hpart
  refine ⟨plan_part hin (hshape ▸ hwithin.le_maxOffset) hpart, fun range hrange => ?_, ?_, ?_⟩
  · refine Nat.pos_of_ne_zero fun hzero => ?_
    refine elementCount_ne_zero_iff.1 hpieces.elementCount_ne_zero ?_
    exact hzero ▸ List.mem_map_of_mem (f := fun r : LocalRange => r.count) hrange
  · exact Nat.le_trans (Nat.le_mul_of_pos_right _ d.elementSize_pos)
      (Descriptor.rank_of_chunks hlayout).2
  · exact Nat.le_trans hwithin.elementCount_le d.elementCount_le

theorem stepsFit_part (hlayout : d.layout.chunkShape? = some grid.chunkShape)
    (hshape : grid.arrayShape = d.shape) (hs : s.validate d.shape = .ok ())
    (hne : s.totalCount ≠ 0) (hpart : part ∈ grid.intersecting s) :
    (Runs.ofSelection grid.chunkShape.toShape part.localRanges s.shape).StepsFit ↔
      s.StepsFit grid.chunkShape.toShape := by
  have hin : Section.Within s.ranges grid.arrayShape := hshape ▸ Section.within_of_validate hs hne
  rw [(selects_part hlayout hshape hs hne hpart).stepsFit_iff,
    (ChunkGrid.pieces_of_mem_intersecting hin hpart).map_stride]
  rfl

theorem chunkBlockIn_of_fit (hlayout : d.layout.chunkShape? = some grid.chunkShape)
    (hshape : grid.arrayShape = d.shape) (hs : s.validate d.shape = .ok ())
    (hne : s.totalCount ≠ 0) (hfit : b = .wrapping ∨ s.StepsFit grid.chunkShape.toShape)
    (hpart : part ∈ grid.intersecting s) :
    chunkBlockIn b d.elementSize grid.chunkShape source s.shape part =
      .ok (partBlock d s grid.chunkShape source part).computed := by
  rw [chunkBlockIn, (selects_part hlayout hshape hs hne hpart).planIn_of_fit
    (hfit.imp_right (stepsFit_part hlayout hshape hs hne hpart).2)]
  rfl

theorem chunkBlockIn_checked (hlayout : d.layout.chunkShape? = some grid.chunkShape)
    (hshape : grid.arrayShape = d.shape) (hs : s.validate d.shape = .ok ())
    (hne : s.totalCount ≠ 0) (hfit : ¬s.StepsFit grid.chunkShape.toShape)
    (hpart : part ∈ grid.intersecting s) :
    chunkBlockIn .checked d.elementSize grid.chunkShape source s.shape part =
      .error (.halted .overflow) := by
  rw [chunkBlockIn, (selects_part hlayout hshape hs hne hpart).planIn_checked
    fun hsteps => hfit ((stepsFit_part hlayout hshape hs hne hpart).1 hsteps)]
  rfl

theorem computes_part (hlayout : d.layout.chunkShape? = some grid.chunkShape)
    (hshape : grid.arrayShape = d.shape) (hs : s.validate d.shape = .ok ())
    (hne : s.totalCount ≠ 0) (hpart : part ∈ grid.intersecting s)
    (hbase : ∀ origin base, source origin = .direct base →
      base + elementCount grid.chunkShape.toShape * d.elementSize ≤ maxOffset) :
    (partBlock d s grid.chunkShape source part).Computes := by
  have hchunk := (Descriptor.rank_of_chunks hlayout).2
  have hplace : ∀ place < elementCount grid.chunkShape.toShape,
      place * d.elementSize ≤ elementCount grid.chunkShape.toShape * d.elementSize :=
    fun place hplace => Nat.mul_le_mul_right _ (Nat.le_of_lt hplace)
  exact TransferBlock.computes_of_selects (selects_part hlayout hshape hs hne hpart)
    (fun place h => Nat.le_trans (hplace place h) hchunk)
    fun base hsource place h =>
      Nat.le_trans (Nat.add_le_add_left (hplace place h) _) (hbase _ base hsource)

end Chunks

/-- The transfers that are started are those of a list, as a list and one by one. -/
structure Transfers.Yields (b : Build) (elementSize : Nat) (s : Section) (all : List Transfer)
    (t : Transfers) : Prop where
  list_eq : t.list b elementSize s = .ok all
  fold_eq : ∀ {σ : Type} (step : σ → Transfer → SourceM ReadError σ) (state : σ),
    t.fold b elementSize s step state = all.foldlM step state

/-- The transfers that are started stop before the first of them. -/
structure Transfers.Stuck (b : Build) (elementSize : Nat) (s : Section) (t : Transfers) : Prop where
  list_eq : t.list b elementSize s = .error (.halted .overflow)
  fold_eq : ∀ {σ : Type} (step : σ → Transfer → SourceM ReadError σ) (state : σ),
    t.fold b elementSize s step state = throw (.halted .overflow)

theorem TransferBlock.Computes.yields {block : TransferBlock} (h : block.Computes) (s : Section)
    (n : Nat) : (Transfers.linear block.computed).Yields b block.elementSize s
      (TransferPlan.transfers ⟨n, [block]⟩) := by
  rw [TransferPlan.transfers_singleton]
  refine ⟨?_, fun step state => h.foldTransfers_eq step state⟩
  rw [Transfers.list, h.transfersIn_eq]
  rfl

/-- The one run of a variable without data comes out right. -/
theorem computes_wholeRun (elementSize n : Nat) :
    TransferBlock.Computes ⟨.fill, elementSize, wholeRun n⟩ where
  run_eq _ _ _ := rfl
  offset_le _ _ := by
    show (0 + 0) * elementSize ≤ maxOffset
    rw [Nat.add_zero, Nat.zero_mul]
    exact Nat.zero_le _
  base_le _ h := nomatch h

section Parts

variable {d : Descriptor} {s : Section} {grid : ChunkGrid} {source : Index → BlockSource}

theorem yields_parts {elementSize n : Nat} {block : ChunkIntersection → TransferBlock}
    (hblock : ∀ part ∈ grid.intersecting s,
      chunkBlockIn b elementSize grid.chunkShape source s.shape part = .ok (block part).computed)
    (hcomputes : ∀ part ∈ grid.intersecting s, (block part).Computes) :
    (Transfers.tiled grid source).Yields b elementSize s
      (TransferPlan.transfers ⟨n, (grid.intersecting s).map block⟩) := by
  constructor
  · have hlists : (grid.intersecting s).mapM (fun part => do
        let counted ← chunkBlockIn b elementSize grid.chunkShape source s.shape part
        (counted.transfersIn b).mapError ReadError.halted) =
        .ok ((grid.intersecting s).map fun part => (block part).transfers) := by
      refine mapM_eq_ok fun part hpart => ?_
      rw [hblock part hpart]
      show ((block part).computed.transfersIn b).mapError _ = _
      rw [(hcomputes part hpart).transfersIn_eq]
      rfl
    rw [Transfers.list, hlists, TransferPlan.transfers, List.flatMap_map]
    rfl
  · intro σ step state
    rw [Transfers.fold, ChunkGrid.foldIntersecting_eq, TransferPlan.transfers, List.flatMap_map,
      foldlM_flatMap]
    refine foldlM_congr_left (fun part hpart state => ?_) state
    rw [hblock part hpart]
    exact (hcomputes part hpart).foldTransfers_eq step state

theorem stuck_parts {elementSize : Nat} (hne : grid.intersecting s ≠ [])
    (hblock : ∀ part ∈ grid.intersecting s,
      chunkBlockIn b elementSize grid.chunkShape source s.shape part =
        .error (.halted .overflow)) :
    (Transfers.tiled grid source).Stuck b elementSize s := by
  obtain ⟨part, parts, hparts⟩ := List.exists_cons_of_ne_nil hne
  have hfirst := hblock part (hparts ▸ List.mem_cons_self)
  constructor
  · rw [Transfers.list, hparts, List.mapM_cons, hfirst]
    rfl
  · intro σ step state
    rw [Transfers.fold, ChunkGrid.foldIntersecting_eq, hparts, List.foldlM_cons, hfirst]
    rfl

end Parts

section Resolved

variable {d : Descriptor} {s : Section}

/-- A build that does not stop starts the transfers of the exact plan. -/
theorem startTransfers_of_fit (hs : s.validate d.shape = .ok ()) (hfit : ¬d.Stops b s) :
    ∃ plan t, resolve d s = .ok plan ∧ startTransfers b d s = .ok t ∧
      t.Yields b d.elementSize s plan.transfers := by
  by_cases hzero : s.totalCount = 0
  · refine ⟨_, .none, resolve_of_empty hs hzero, ?_, rfl, fun step state => rfl⟩
    rw [startTransfers, hs]
    exact if_pos hzero
  have hsteps : ∀ shape, d.layout.runShape? d.shape = some shape →
      b = .wrapping ∨ s.StepsFit shape := by
    intro shape hshape
    cases b with
    | wrapping => exact .inl rfl
    | checked =>
      refine .inr (Classical.not_not.1 fun hstep => hfit ⟨rfl, hzero, shape, hshape, hstep⟩)
  by_cases hlinear : d.layout.isLinear = true
  · obtain ⟨origin, hresolve, hbase, hstart⟩ := startTransfers_linear hlinear hs hzero
    have hshape : d.layout.runShape? d.shape = some d.shape := by
      cases hlayout : d.layout <;> rw [hlayout] at hlinear <;> first | rfl | cases hlinear
    refine ⟨_, _, hresolve, ?_, (computes_variable hs hzero hbase).yields s s.totalCount⟩
    rw [hstart, variableRunsIn_of_fit hs hzero (hsteps _ hshape)]
    rfl
  · cases hchunks : d.layout.chunkShape? with
    | some chunkShape =>
      obtain ⟨source, grid, hshape, rfl, hresolve, hbase, hstart⟩ :=
        startTransfers_chunks hchunks hs hzero
      have hrun : d.layout.runShape? d.shape = some grid.chunkShape.toShape := by
        cases hlayout : d.layout <;> rw [hlayout] at hchunks <;> cases hchunks <;> rfl
      refine ⟨_, _, hresolve, hstart b, yields_parts (fun part hpart => ?_) fun part hpart => ?_⟩
      · exact chunkBlockIn_of_fit hchunks hshape hs hzero (hsteps _ hrun) hpart
      · exact computes_part hchunks hshape hs hzero hpart hbase
    | none =>
      have hlayout : d.layout = .noData := by
        cases hkind : d.layout <;>
          simp_all [StorageLayout.isLinear, StorageLayout.chunkShape?]
      have hblocks : resolveBlocks d s (·.intersecting s) =
          .ok [{ source := .fill, elementSize := d.elementSize, runs := wholeRun s.totalCount }] := by
        rw [resolveBlocks, hlayout]
      refine ⟨_, _, resolve_of_blocks hs hzero hblocks, ?_,
        (computes_wholeRun d.elementSize s.totalCount).yields s s.totalCount⟩
      have hnumber : (wholeRun s.totalCount).numRuns = 1 := if_neg hzero
      rw [startTransfers, hs]
      dsimp only
      rw [if_neg hzero, hlayout, TransferBlock.computed, Runs.computed, hnumber]
      rfl

/-- A build that stops does so before the first transfer. -/
theorem startTransfers_of_stops (hs : s.validate d.shape = .ok ()) (h : d.Stops b s) :
    startTransfers b d s = .error (.halted .overflow) ∨
      ∃ t, startTransfers b d s = .ok t ∧ t.Stuck b d.elementSize s := by
  obtain ⟨rfl, hne, shape, hshape, hfit⟩ := h
  by_cases hlinear : d.layout.isLinear = true
  · obtain ⟨origin, -, -, hstart⟩ := startTransfers_linear hlinear hs hne
    have hrun : shape = d.shape := by
      cases hlayout : d.layout <;> rw [hlayout] at hlinear hshape <;> cases hlinear <;>
        cases hshape <;> rfl
    subst hrun
    refine .inl ?_
    rw [hstart, variableRunsIn_checked hs hne hfit]
    rfl
  · cases hchunks : d.layout.chunkShape? with
    | some chunkShape =>
      obtain ⟨source, grid, harray, rfl, -, -, hstart⟩ := startTransfers_chunks hchunks hs hne
      have hrun : shape = grid.chunkShape.toShape := by
        cases hlayout : d.layout <;> rw [hlayout] at hchunks hshape <;> cases hchunks <;>
          cases hshape <;> rfl
      subst hrun
      have hwithin : Section.Within s.ranges grid.arrayShape :=
        harray ▸ Section.within_of_validate hs hne
      obtain ⟨part, hpart, -⟩ := exists_part_covers d source hwithin
        (harray ▸ (Section.within_of_validate hs hne).le_maxOffset) (Nat.pos_of_ne_zero hne)
      exact .inr ⟨_, hstart .checked, stuck_parts (List.ne_nil_of_mem hpart) fun part hpart =>
        chunkBlockIn_checked hchunks harray hs hne hfit hpart⟩
    | none =>
      cases hlayout : d.layout <;>
        simp_all [StorageLayout.isLinear, StorageLayout.chunkShape?, StorageLayout.runShape?]

theorem resolveIn_of_invalid {cause : SectionError} (hs : s.validate d.shape = .error cause) :
    resolveIn b d s = .error (.invalidSection cause) := by
  rw [resolveIn, startTransfers, hs]
  rfl

/-- The transfers that a build comes to if it does not stop. -/
theorem resolveIn_of_fit (hs : s.validate d.shape = .ok ()) (hfit : ¬d.Stops b s) :
    ∃ plan, resolve d s = .ok plan ∧ resolveIn b d s = .ok plan.transfers := by
  obtain ⟨plan, t, hplan, hstart, hyields⟩ := startTransfers_of_fit hs hfit
  refine ⟨plan, hplan, ?_⟩
  rw [resolveIn, hstart]
  exact hyields.list_eq

theorem resolveIn_of_stops (hs : s.validate d.shape = .ok ()) (h : d.Stops b s) :
    resolveIn b d s = .error (.halted .overflow) := by
  rw [resolveIn]
  obtain hstart | ⟨t, hstart, hstuck⟩ := startTransfers_of_stops hs h
  · rw [hstart]
    rfl
  · rw [hstart]
    exact hstuck.list_eq

end Resolved

end Hyperslab
