import Hyperslab.Proofs.Placement

/-!
# Transfers of a variable in one piece

Where the elements of a variable follow one another, in the byte source or in a logical stream, a
section is resolved to one block. Its transfers write the destination from front to back, and as
later positions select later elements they go forward through what they read.

## Main statements

- `exact_of_resolve_linear`: each element is moved once, from its place
- `resolve_linear_destination`: a transfer writes where the one before it stopped
- `resolve_linear_forward`: a transfer reads after all that was read before
-/

namespace Hyperslab

open LocalRange

/-- Whether the elements of a variable follow one another in one piece, be it part of the byte
source or a logical stream. -/
def StorageLayout.isLinear : StorageLayout → Bool
  | regular _ | segmented _ | compressed _ _ _ | compressedSegmented _ _ _ => true
  | noData | tiled _ _ | compressedTiled _ _ => false

/-- The offset of a place in what it belongs to. -/
def TransferSource.offset : TransferSource → Nat
  | direct offset | stream offset | chunk _ offset => offset
  | fill => 0

variable {d : Descriptor} {s : Section}

theorem StorageLayout.isLinear_of_chain {layout : StorageLayout} {chain : List ByteRange}
    (h : layout.chain? = some chain) : layout.isLinear = true := by
  cases layout <;> first | rfl | cases h

/-- Elements in a logical stream are stored one after another. -/
theorem Descriptor.place?_of_chain {chain : List ByteRange} (h : d.layout.chain? = some chain)
    (index : Index) :
    d.place? index = (ravel? index d.shape).map fun k => .stream (k * d.elementSize) := by
  rw [place?]
  cases hlayout : d.layout <;> rw [hlayout] at h <;> first | rfl | cases h

/-- A transfer from a logical stream starts at the place of its first element. -/
theorem TransferPlan.Exact.source_of_chain {plan : TransferPlan} (h : plan.Exact d s)
    {chain : List ByteRange} (hchain : d.layout.chain? = some chain) {t : Transfer}
    (ht : t ∈ plan.transfers) :
    ∃ k, ravel? (s.indexAt t.destination) d.shape = some k ∧
      t.source = .stream (k * d.elementSize) := by
  have hplace := h.place_destination ht
  rw [Descriptor.place?_of_chain hchain] at hplace
  obtain ⟨k, hk, heq⟩ := Option.map_eq_some_iff.1 hplace
  exact ⟨k, hk, heq.symm⟩

theorem resolve_of_empty (hs : s.validate d.shape = .ok ()) (hzero : s.totalCount = 0) :
    resolve d s = .ok { numElements := 0, blocks := [] } := by
  rw [resolve, resolveParts, hs]
  exact if_pos hzero

theorem resolve_of_blocks (hs : s.validate d.shape = .ok ()) (hne : s.totalCount ≠ 0)
    {blocks : List TransferBlock} (h : resolveBlocks d s (·.intersecting s) = .ok blocks) :
    resolve d s = .ok { numElements := s.totalCount, blocks := blocks } := by
  rw [resolve, resolveParts, hs]
  dsimp only
  rw [if_neg hne, h]
  rfl

theorem exact_of_empty (hzero : s.totalCount = 0) :
    TransferPlan.Exact { numElements := 0, blocks := [] } d s := by
  constructor <;> simp [TransferPlan.transfers, hzero]

theorem Section.Within.le_maxOffset (h : Section.Within s.ranges d.shape) :
    ∀ n ∈ d.shape, n ≤ maxOffset :=
  fun _ hn => d.length_le h.shape_ne_zero hn

namespace Section

@[simp] theorem counts_localRanges (s : Section) : counts s.localRanges = s.shape := by
  simp [counts, localRanges, shape, SectionRange.toLocal]

theorem elementsAt_localRanges (s : Section) (position : Index) :
    LocalRange.elementsAt s.localRanges position = elementsAt s.ranges position := by
  rw [LocalRange.elementsAt, localRanges, List.zipWith_map_left]
  rfl

theorem outputsAt_toLocal {ranges : List SectionRange} {position : Index}
    (h : Below position (ranges.map (·.count))) :
    outputsAt (ranges.map (·.toLocal)) position = position := by
  induction ranges generalizing position with
  | nil =>
    have hnil := List.length_eq_zero_iff.1 h.length_eq
    subst hnil
    rfl
  | cons range ranges ih =>
    cases position with
    | nil => exact h.elim
    | cons j position =>
      show (0 + j) :: outputsAt (ranges.map (·.toLocal)) position = _
      rw [ih h.2, Nat.zero_add]

/-- Element number `q` of a section is written to element `q` of the destination. -/
theorem outputOf_localRanges {q : Nat} (hq : q < s.totalCount) :
    TransferBlock.outputOf s.localRanges s.shape q = q := by
  have hbelow : Below (unravel s.shape q) s.shape :=
    below_unravel (by rw [← totalCount]; omega) q
  rw [TransferBlock.outputOf, counts_localRanges, localRanges, outputsAt_toLocal hbelow,
    rowMajor_unravel]
  exact Nat.mod_eq_of_lt hq

/-- A whole section fits the variable and its own destination. -/
theorem inBounds_ofShapes {ranges : List SectionRange} {shape : Shape} (h : Within ranges shape)
    (hle : ∀ n ∈ shape, n ≤ maxOffset) :
    ∀ dim ∈ RunDimension.ofShapes (ranges.map (·.toLocal)) shape (ranges.map (·.count)),
      dim.sourceInBounds = true ∧ dim.outputInBounds = true := by
  induction ranges generalizing shape with
  | nil => simp [RunDimension.ofShapes]
  | cons range ranges ih =>
    obtain ⟨n, shape, rfl, hrange, hranges⟩ := h.of_cons
    simp only [List.map_cons, RunDimension.ofShapes, List.forall_mem_cons]
    obtain ⟨hn, hrest⟩ := List.forall_mem_cons.1 hle
    refine ⟨⟨?_, ?_⟩, ih hranges hrest⟩
    · exact RunDimension.sourceInBounds_of_lt hrange.last_lt hrange.last_le
    · have hcount := hrange.count_le
      apply RunDimension.outputInBounds_of_le <;> simp only [SectionRange.toLocal] <;> omega

theorem length_localRanges (h : Within s.ranges d.shape) :
    d.shape.length = s.localRanges.length := by
  simp [localRanges, h.length_eq]

theorem length_shape_localRanges (s : Section) : s.shape.length = s.localRanges.length := by
  simp [localRanges, shape]

theorem elementCount_localRanges (s : Section) :
    elementCount (counts s.localRanges) = s.totalCount := by
  rw [counts_localRanges, totalCount]

end Section

theorem variableRuns_eq (h : Section.Within s.ranges d.shape) :
    variableRuns d s = .ok (.ofSelection d.shape s.localRanges s.shape) := by
  have hsource := Section.length_localRanges h
  have houtput := s.length_shape_localRanges
  have hplan : Runs.plan d.shape s.localRanges s.shape =
      .ok (.ofSelection d.shape s.localRanges s.shape) :=
    Runs.plan_eq_ok_iff.2 ⟨hsource, houtput, Section.inBounds_ofShapes h h.le_maxOffset, rfl⟩
  rw [variableRuns, hplan]
  rfl

/-- The block of a variable in one piece, with what its runs are taken from. -/
theorem resolveBlocks_linear (hlinear : d.layout.isLinear = true)
    (h : Section.Within s.ranges d.shape) (parts : ChunkGrid → List ChunkIntersection) :
    ∃ origin, resolveBlocks d s parts =
        .ok [.ofSelection origin d.elementSize d.shape s.localRanges s.shape] ∧
      origin ≠ .fill ∧ ∀ index, d.place? index =
        (ravel? index d.shape).map fun k => origin.at (k * d.elementSize) := by
  rw [resolveBlocks]
  simp only [Descriptor.place?, variableRuns_eq h]
  cases hlayout : d.layout <;> rw [hlayout] at hlinear <;> cases hlinear
  case regular baseOffset => exact ⟨.direct baseOffset, rfl, by simp, fun _ => rfl⟩
  all_goals exact ⟨.stream, rfl, by simp, fun _ => rfl⟩

/-- The plan of a section of a variable in one piece. -/
theorem resolve_linear (hlinear : d.layout.isLinear = true) (hs : s.validate d.shape = .ok ())
    (hne : s.totalCount ≠ 0) :
    ∃ origin, resolve d s = .ok ⟨s.totalCount,
        [.ofSelection origin d.elementSize d.shape s.localRanges s.shape]⟩ ∧
      origin ≠ .fill ∧ ∀ index, d.place? index =
        (ravel? index d.shape).map fun k => origin.at (k * d.elementSize) := by
  have hwithin := Section.within_of_validate hs hne
  obtain ⟨origin, hblocks, hplace⟩ :=
    resolveBlocks_linear hlinear hwithin (·.intersecting s)
  exact ⟨origin, resolve_of_blocks hs hne hblocks, hplace⟩

/-- The number of elements that transfers move. -/
def elementsMoved : List Transfer → Nat
  | [] => 0
  | t :: transfers => t.runLength + elementsMoved transfers

theorem elementsMoved_eq_mul {transfers : List Transfer} (length : Nat)
    (h : ∀ t ∈ transfers, t.runLength = length) :
    elementsMoved transfers = transfers.length * length := by
  induction transfers with
  | nil => simp [elementsMoved]
  | cons t transfers ih =>
    obtain ⟨ht, hrest⟩ := List.forall_mem_cons.1 h
    rw [elementsMoved, ih hrest, ht, List.length_cons, Nat.succ_mul, Nat.add_comm]

theorem elementsMoved_take_le {transfers : List Transfer} {m n : Nat} (hm : m < transfers.length)
    (h : m < n) :
    elementsMoved (transfers.take m) + transfers[m].runLength ≤
      elementsMoved (transfers.take n) := by
  induction transfers generalizing m n with
  | nil => exact absurd hm (Nat.not_lt_zero m)
  | cons t transfers ih =>
    obtain ⟨n, rfl⟩ := Nat.exists_eq_succ_of_ne_zero (Nat.ne_of_gt (Nat.zero_lt_of_lt h))
    cases m with
    | zero =>
      simp only [List.take_zero, elementsMoved, List.take_succ_cons, List.getElem_cons_zero]
      omega
    | succ m =>
      have hrest := ih (Nat.lt_of_succ_lt_succ hm) (Nat.lt_of_succ_lt_succ h)
      simp only [elementsMoved, List.take_succ_cons, List.getElem_cons_succ]
      omega

/-- The block of a whole section moves each element once, from its place. -/
theorem exact_ofSelection {origin : BlockSource} (h : Section.Within s.ranges d.shape)
    (hplace : ∀ index, d.place? index =
      (ravel? index d.shape).map fun k => origin.at (k * d.elementSize)) :
    TransferPlan.Exact ⟨s.totalCount,
      [.ofSelection origin d.elementSize d.shape s.localRanges s.shape]⟩ d s := by
  have hsource := Section.length_localRanges h
  have houtput := s.length_shape_localRanges
  have htotal := s.elementCount_localRanges
  have hbelow : ∀ position, Below position (counts s.localRanges) →
      Below (outputsAt s.localRanges position) s.shape := by
    intro position hposition
    rw [Section.counts_localRanges] at hposition
    rwa [Section.localRanges, Section.outputsAt_toLocal hposition]
  constructor
  · rfl
  all_goals rw [TransferPlan.transfers_singleton]
  · intro t ht
    have hcovers := TransferBlock.exists_covers origin d.elementSize hsource houtput (q := 0)
      (by rw [htotal]; exact Nat.pos_of_ne_zero h.elementCount_ne_zero)
    obtain ⟨u, hu, hcovers⟩ := hcovers
    rw [TransferBlock.runLength_eq ht, ← TransferBlock.runLength_eq hu]
    have := hcovers.1
    have := hcovers.2
    omega
  · intro k hk
    obtain ⟨t, ht, hcovers⟩ := TransferBlock.exists_covers origin d.elementSize hsource
      houtput (htotal ▸ hk)
    rw [Section.outputOf_localRanges hk] at hcovers
    exact ⟨t, ht, hcovers⟩
  · intro t ht k hk
    obtain ⟨n, hn⟩ := List.getElem?_of_mem ht
    obtain ⟨q, hq, rfl, -, -⟩ := TransferBlock.of_covers hsource houtput hn hk
    rw [htotal] at hq
    rwa [Section.outputOf_localRanges hq]
  · exact TransferBlock.pairwise_disjoint hsource houtput hbelow
  · intro t ht k hk
    obtain ⟨n, hn⟩ := List.getElem?_of_mem ht
    obtain ⟨q, hq, rfl, -, hsourceOf⟩ := TransferBlock.of_covers hsource houtput hn hk
    rw [htotal] at hq
    rw [Section.outputOf_localRanges hq] at hsourceOf ⊢
    rw [hsourceOf, hplace, (Section.below_indexAt h q).ravel?, Section.indexAt,
      Section.counts_localRanges, Section.elementsAt_localRanges]
    rfl

/-- Transfer number `n` of a whole section begins after `n` runs. -/
theorem destination_ofSelection {origin : BlockSource} (h : Section.Within s.ranges d.shape)
    {n : Nat} {t : Transfer}
    (ht : (TransferBlock.ofSelection origin d.elementSize d.shape s.localRanges
      s.shape).transfers[n]? = some t) (hpos : 0 < t.runLength) :
    t.destination = n * t.runLength := by
  have hsource := Section.length_localRanges h
  have houtput := s.length_shape_localRanges
  obtain ⟨q, hq, hqk, hn, -⟩ :=
    TransferBlock.of_covers hsource houtput ht ⟨Nat.le_refl _, by omega⟩
  have hlength := TransferBlock.runLength_eq (List.mem_of_getElem? ht)
  rw [Section.counts_localRanges] at hq
  rw [Section.outputOf_localRanges hq] at hqk
  subst hqk
  have hto := Runs.run_output_add hsource houtput t.destination
  have hrun : t.destination = ((Runs.ofSelection d.shape s.localRanges s.shape).run n).output := by
    rw [(TransferBlock.getElem?_transfers _ ht).2]
    rfl
  have hplace := Section.outputOf_localRanges hq
  rw [TransferBlock.outputOf, ← hto] at hplace
  simp only [hn, ← hrun] at hplace
  have hdivmod := Nat.div_add_mod t.destination
    (Runs.ofSelection d.shape s.localRanges s.shape).runLength
  rw [hn] at hdivmod
  rw [hlength, Nat.mul_comm]
  omega

theorem exists_plan_linear (hlinear : d.layout.isLinear = true)
    (hs : s.validate d.shape = .ok ()) : ∃ plan, resolve d s = .ok plan := by
  by_cases hzero : s.totalCount = 0
  · exact ⟨_, resolve_of_empty hs hzero⟩
  · obtain ⟨_, hresolve, -⟩ := resolve_linear hlinear hs hzero
    exact ⟨_, hresolve⟩

theorem exact_of_resolve_linear (hlinear : d.layout.isLinear = true)
    (hs : s.validate d.shape = .ok ()) {plan : TransferPlan} (h : resolve d s = .ok plan) :
    plan.Exact d s := by
  by_cases hzero : s.totalCount = 0
  · rw [resolve_of_empty hs hzero] at h
    cases h
    exact exact_of_empty hzero
  · obtain ⟨origin, hresolve, -, hplace⟩ := resolve_linear hlinear hs hzero
    rw [hresolve] at h
    cases h
    exact exact_ofSelection (Section.within_of_validate hs hzero) hplace

/-- A transfer of a variable in one piece writes where the ones before it have stopped. -/
theorem resolve_linear_destination (hlinear : d.layout.isLinear = true)
    (hs : s.validate d.shape = .ok ()) {plan : TransferPlan} (h : resolve d s = .ok plan) :
    (∀ n t, plan.transfers[n]? = some t →
        t.destination = elementsMoved (plan.transfers.take n)) ∧
      elementsMoved plan.transfers = s.totalCount := by
  have hexact := exact_of_resolve_linear hlinear hs h
  by_cases hzero : s.totalCount = 0
  · rw [resolve_of_empty hs hzero] at h
    cases h
    simp [TransferPlan.transfers, elementsMoved, hzero]
  · have hwithin := Section.within_of_validate hs hzero
    obtain ⟨origin, hresolve, -, -⟩ := resolve_linear hlinear hs hzero
    rw [hresolve] at h
    cases h
    have hpos := hexact.runLength_pos
    rw [TransferPlan.transfers_singleton] at hpos ⊢
    constructor
    · intro n t ht
      have hmem := List.mem_of_getElem? ht
      have hlt := (List.getElem?_eq_some_iff.1 ht).1
      rw [destination_ofSelection hwithin ht (hpos t hmem),
        elementsMoved_eq_mul t.runLength, List.length_take,
        Nat.min_eq_left (Nat.le_of_lt hlt)]
      intro u hu
      rw [TransferBlock.runLength_eq hmem, TransferBlock.runLength_eq (List.mem_of_mem_take hu)]
    · rw [elementsMoved_eq_mul _ fun u hu => TransferBlock.runLength_eq hu,
        TransferBlock.length_transfers]
      exact (Runs.numRuns_mul_runLength (Section.length_localRanges hwithin)
        s.length_shape_localRanges).trans s.elementCount_localRanges

theorem BlockSource.offset_at {origin : BlockSource} (h : origin ≠ .fill) (n : Nat) :
    (origin.at n).offset = (origin.at 0).offset + n := by
  cases origin with
  | direct base => rfl
  | stream => exact (Nat.zero_add n).symm
  | chunk origin => exact (Nat.zero_add n).symm
  | fill => exact absurd rfl h

theorem TransferSource.offset_advance {source : TransferSource} {origin : BlockSource} {m n : Nat}
    (h : origin ≠ .fill) (heq : source.advance n = origin.at m) :
    source.offset + n = (origin.at m).offset := by
  rw [← heq]
  cases source with
  | fill =>
    cases origin with
    | fill => exact absurd rfl h
    | _ => cases heq
  | _ => rfl

/-- Where an element of a transfer is read, counted from the start of the variable. -/
theorem TransferPlan.Exact.offset_eq {plan : TransferPlan} (hexact : plan.Exact d s)
    (h : Section.Within s.ranges d.shape) {origin : BlockSource} (hfill : origin ≠ .fill)
    (hplace : ∀ index, d.place? index =
      (ravel? index d.shape).map fun k => origin.at (k * d.elementSize))
    {t : Transfer} (ht : t ∈ plan.transfers) {k : Nat} (hk : t.Covers k) :
    t.source.offset + (k - t.destination) * d.elementSize =
      (origin.at 0).offset + rowMajor (s.indexAt k) d.shape * d.elementSize := by
  have heq := hexact.place_eq t ht k hk
  rw [hplace, (Section.below_indexAt h k).ravel?, Option.map_some, Option.some_inj,
    Transfer.sourceOf] at heq
  rw [← BlockSource.offset_at hfill, TransferSource.offset_advance hfill heq.symm]

/-- A transfer of a variable in one piece reads after all that the ones before it read. -/
theorem resolve_linear_forward (hlinear : d.layout.isLinear = true)
    (hs : s.validate d.shape = .ok ()) {plan : TransferPlan} (h : resolve d s = .ok plan) :
    plan.transfers.Pairwise fun t u =>
      t.source.offset + t.runLength * d.elementSize ≤ u.source.offset := by
  have hexact := exact_of_resolve_linear hlinear hs h
  obtain ⟨hdestination, -⟩ := resolve_linear_destination hlinear hs h
  by_cases hzero : s.totalCount = 0
  · rw [resolve_of_empty hs hzero] at h
    cases h
    exact List.Pairwise.nil
  · have hwithin := Section.within_of_validate hs hzero
    obtain ⟨origin, hresolve, hfill, hplace⟩ := resolve_linear hlinear hs hzero
    have hoffset : ∀ t ∈ plan.transfers, ∀ k, t.Covers k →
        t.source.offset + (k - t.destination) * d.elementSize =
          (origin.at 0).offset + rowMajor (s.indexAt k) d.shape * d.elementSize :=
      fun t ht k hk => hexact.offset_eq hwithin hfill hplace ht hk
    rw [List.pairwise_iff_getElem]
    intro m n hm hn hmn
    have ht := List.getElem_mem hm
    have hu := List.getElem_mem hn
    have hpos := hexact.runLength_pos _ ht
    have hposu := hexact.runLength_pos _ hu
    have hlast : plan.transfers[m].Covers
        (plan.transfers[m].destination + (plan.transfers[m].runLength - 1)) :=
      ⟨by omega, by omega⟩
    have hfirst := hexact.covers_destination hu
    -- the last element of the one is before the first element of the other, so it is stored before
    have hbefore : plan.transfers[m].destination + plan.transfers[m].runLength ≤
        plan.transfers[n].destination := by
      rw [hdestination m _ (List.getElem?_eq_getElem hm),
        hdestination n _ (List.getElem?_eq_getElem hn)]
      exact elementsMoved_take_le hm hmn
    have hlt := Section.rowMajor_indexAt_lt hwithin
      (k := plan.transfers[m].destination + (plan.transfers[m].runLength - 1))
      (l := plan.transfers[n].destination) (by omega) (hexact.inside _ hu _ hfirst)
    have hstep := mul_add_le_mul d.elementSize hlt
    have hofft := hoffset _ ht _ hlast
    have hoffu := hoffset _ hu _ hfirst
    rw [Nat.add_sub_cancel_left] at hofft
    rw [Nat.sub_self, Nat.zero_mul, Nat.add_zero] at hoffu
    have hlength : plan.transfers[m].runLength * d.elementSize =
        (plan.transfers[m].runLength - 1) * d.elementSize + d.elementSize := by
      rw [← Nat.succ_mul, Nat.succ_eq_add_one, Nat.sub_add_cancel hpos]
    omega

end Hyperslab
