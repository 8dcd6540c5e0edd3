import Hyperslab.Proofs.Index
import Hyperslab.Run.Basic

/-!
# What runs copy

The runs of a selection are its elements in row-major order of their positions, cut into pieces of
one length. Element number `q` of the selection is element `q % runLength` of run number
`q / runLength`: the digits that run numbers are written in and the place in the run together are
the position tuple of `q`. Both sides of the copy follow from this one fact, for every rank and
stride, and also where dimensions are merged into the run.

## Main statements

- `Runs.plan_eq_ok_iff`: when there are runs, and which
- `Runs.run_source_add`, `Runs.run_output_add`: where element number `q` comes from and goes to
- `Runs.numRuns_mul_runLength`: the runs have as many elements as the selection
-/

namespace Hyperslab

namespace LocalRange

/-- The selected index at position `j`, counted from the origin of the extent. -/
def element (r : LocalRange) (j : Nat) : Nat :=
  r.start + j * r.stride

/-- The destination index of position `j`. -/
def outputAt (r : LocalRange) (j : Nat) : Nat :=
  r.output + j

/-- The selected index tuple at a position tuple. -/
def elementsAt (ranges : List LocalRange) (position : Index) : Index :=
  List.zipWith element ranges position

/-- The destination index tuple of a position tuple. -/
def outputsAt (ranges : List LocalRange) (position : Index) : Index :=
  List.zipWith outputAt ranges position

/-- The number of positions along each dimension. -/
def counts (ranges : List LocalRange) : Shape :=
  ranges.map (·.count)

/-- Position tuples are told apart by their destination index tuples. -/
theorem outputsAt_injective {ranges : List LocalRange} {position position' : Index}
    (hposition : Below position (counts ranges)) (hposition' : Below position' (counts ranges))
    (h : outputsAt ranges position = outputsAt ranges position') : position = position' := by
  induction ranges generalizing position position' with
  | nil =>
    rw [List.length_eq_zero_iff.1 hposition.length_eq, List.length_eq_zero_iff.1 hposition'.length_eq]
  | cons range ranges ih =>
    cases position with
    | nil => exact hposition.elim
    | cons j position =>
      cases position' with
      | nil => exact hposition'.elim
      | cons j' position' =>
        obtain ⟨hhead, htail⟩ := List.cons.inj h
        rw [Nat.add_left_cancel hhead, ih hposition.2 hposition'.2 htail]

end LocalRange

open LocalRange

namespace RunDimension

theorem toAxis_count (d : RunDimension) : d.toAxis.count = d.range.count := rfl

theorem toAxis_sourceStep (d : RunDimension) :
    d.toAxis.sourceStep = d.range.stride * d.sourceStride := rfl

theorem toAxis_outputStep (d : RunDimension) : d.toAxis.outputStep = d.outputStride := rfl

end RunDimension

theorem Runs.displace_cons (axis : Axis) (axes : List Axis) (k : Nat) :
    displace (axis :: axes) k =
      ((displace axes k).1 / axis.count,
        (displace axes k).2.1 + (displace axes k).1 % axis.count * axis.sourceStep,
        (displace axes k).2.2 + (displace axes k).1 % axis.count * axis.outputStep) :=
  rfl

/-- What the split of the dimensions of a selection says about element number `q`: the number of
elements, and the places in the source and in the destination. -/
structure RunSplit.Describes (split : RunSplit) (dims : List RunDimension)
    (ranges : List LocalRange) (source output : Shape) : Prop where
  elements : elementCount ((split.outer.map (·.toAxis)).map (·.count)) * split.length =
    elementCount (counts ranges)
  rest : ∀ q, (Runs.displace (split.outer.map (·.toAxis)) (q / split.length)).1 =
    q / elementCount (counts ranges)
  sourceAt : ∀ q, RunDimension.sourceStart dims +
      (Runs.displace (split.outer.map (·.toAxis)) (q / split.length)).2.1 + q % split.length =
    rowMajor (elementsAt ranges (unravel (counts ranges) q)) source
  outputAt : ∀ q, RunDimension.outputStart dims +
      (Runs.displace (split.outer.map (·.toAxis)) (q / split.length)).2.2 + q % split.length =
    rowMajor (outputsAt ranges (unravel (counts ranges) q)) output
  covers : split.isOpen = true → split.outer = [] ∧ elementCount source = split.length ∧
    elementCount output = split.length

/-- A run that one more dimension may be merged into has all elements so far. -/
theorem RunSplit.Describes.length_eq {split : RunSplit} {dims : List RunDimension}
    {ranges : List LocalRange} {source output : Shape}
    (h : split.Describes dims ranges source output) (hopen : split.isOpen = true) :
    split.length = elementCount (counts ranges) := by
  have helements := h.elements
  rw [(h.covers hopen).1] at helements
  simpa using helements

/-- A dimension that is merged into the run. The run takes one turn of the inner dimensions after
the other, and these are the whole of the source and the destination. -/
theorem RunSplit.Describes.merge {split : RunSplit} {dims : List RunDimension}
    {ranges : List LocalRange} {source output : Shape} {d : RunDimension}
    (h : split.Describes dims ranges source output) (hopen : split.isOpen = true)
    (hstride : d.range.stride = 1) (hsource : d.sourceStride = elementCount source)
    (houtput : d.outputStride = elementCount output) :
    (⟨[], d.range.count * split.length, d.isComplete⟩ : RunSplit).Describes (d :: dims)
      (d.range :: ranges) (d.sourceLength :: source) (d.outputLength :: output) := by
  obtain ⟨houter, hsourceLength, houtputLength⟩ := h.covers hopen
  have hcount := (h.length_eq hopen).symm
  -- the run is made of whole turns of the inner dimensions, so its digit splits in two
  have hmod : ∀ q, q % (d.range.count * split.length) =
      q / split.length % d.range.count * split.length + q % split.length := by
    intro q
    rw [Nat.mul_comm d.range.count, Nat.mod_mul, Nat.add_comm, Nat.mul_comm split.length]
  have hsourceAt := h.sourceAt
  have houtputAt := h.outputAt
  simp only [houter, List.map_nil, Runs.displace, Nat.add_zero] at hsourceAt houtputAt
  refine ⟨?_, fun q => ?_, fun q => ?_, fun q => ?_, fun hcomplete => ⟨rfl, ?_, ?_⟩⟩
  · simp [counts, ← hcount]
  · simp [Runs.displace, counts, ← hcount]
  · change d.range.start * d.sourceStride + RunDimension.sourceStart dims + 0 + _ =
      (d.range.start + q / elementCount (counts ranges) % d.range.count * d.range.stride) *
        elementCount source + rowMajor (elementsAt ranges (unravel (counts ranges) q)) source
    rw [hmod, ← hsourceAt, hsource, hsourceLength, hcount, hstride, Nat.add_mul, Nat.mul_one]
    omega
  · change d.range.output * d.outputStride + RunDimension.outputStart dims + 0 + _ =
      (d.range.output + q / elementCount (counts ranges) % d.range.count) *
        elementCount output + rowMajor (outputsAt ranges (unravel (counts ranges) q)) output
    rw [hmod, ← houtputAt, houtput, houtputLength, hcount, Nat.add_mul]
    omega
  all_goals
    simp only [RunDimension.isComplete, Bool.and_eq_true, decide_eq_true_eq] at hcomplete
    rw [elementCount_cons]
  · rw [hsourceLength, hcomplete.1.1.2]
  · rw [houtputLength, hcomplete.2]

/-- A dimension that the runs step along. Its digit is what is left of the run number above the
inner axes. -/
theorem RunSplit.Describes.step {split : RunSplit} {dims : List RunDimension}
    {ranges : List LocalRange} {source output : Shape} {d : RunDimension}
    (h : split.Describes dims ranges source output)
    (hsource : d.sourceStride = elementCount source)
    (houtput : d.outputStride = elementCount output) :
    (⟨d :: split.outer, split.length, false⟩ : RunSplit).Describes (d :: dims)
      (d.range :: ranges) (d.sourceLength :: source) (d.outputLength :: output) := by
  refine ⟨?_, fun q => ?_, fun q => ?_, fun q => ?_, fun hfalse => by cases hfalse⟩
  · change d.range.count * _ * _ = d.range.count * elementCount (counts ranges)
    rw [← h.elements, Nat.mul_assoc]
  · simp only [List.map_cons, Runs.displace_cons, h.rest, RunDimension.toAxis_count,
      RunDimension.toAxis_sourceStep, RunDimension.toAxis_outputStep]
    rw [Nat.div_div_eq_div_mul, Nat.mul_comm]
    rfl
  · simp only [List.map_cons, Runs.displace_cons, h.rest, RunDimension.toAxis_count,
      RunDimension.toAxis_sourceStep, RunDimension.toAxis_outputStep]
    change d.range.start * d.sourceStride + RunDimension.sourceStart dims + _ + _ =
      (d.range.start + q / elementCount (counts ranges) % d.range.count * d.range.stride) *
        elementCount source + rowMajor (elementsAt ranges (unravel (counts ranges) q)) source
    rw [← h.sourceAt, hsource, Nat.add_mul, Nat.mul_assoc]
    omega
  · simp only [List.map_cons, Runs.displace_cons, h.rest, RunDimension.toAxis_count,
      RunDimension.toAxis_sourceStep, RunDimension.toAxis_outputStep]
    change d.range.output * d.outputStride + RunDimension.outputStart dims + _ + _ =
      (d.range.output + q / elementCount (counts ranges) % d.range.count) *
        elementCount output + rowMajor (outputsAt ranges (unravel (counts ranges) q)) output
    rw [← h.outputAt, houtput, Nat.add_mul]
    omega

/-- The split of a selection describes all of its elements. -/
theorem RunSplit.describes_ofDimensions {ranges : List LocalRange} {source output : Shape}
    (hsource : source.length = ranges.length) (houtput : output.length = ranges.length) :
    (ofDimensions (RunDimension.ofShapes ranges source output)).Describes
      (RunDimension.ofShapes ranges source output) ranges source output := by
  induction ranges generalizing source output with
  | nil =>
    have hs := List.length_eq_zero_iff.1 hsource
    have ho := List.length_eq_zero_iff.1 houtput
    subst hs ho
    constructor <;> simp [RunDimension.ofShapes, ofDimensions, Runs.displace, counts, elementsAt,
      outputsAt, rowMajor, RunDimension.sourceStart, RunDimension.outputStart, Nat.mod_one]
  | cons range ranges ih =>
    cases source with
    | nil => cases hsource
    | cons n source =>
      cases output with
      | nil => cases houtput
      | cons m output =>
        -- dimensions are taken up from the innermost one on
        have hinner := ih (Nat.succ.inj hsource) (Nat.succ.inj houtput)
        rw [RunDimension.ofShapes, ofDimensions]
        dsimp only
        split
        · rename_i hmerge
          rw [Bool.and_eq_true, decide_eq_true_eq] at hmerge
          exact hinner.merge (d := ⟨range, n, m, elementCount source, elementCount output⟩)
            hmerge.1 hmerge.2 rfl rfl
        · exact hinner.step (d := ⟨range, n, m, elementCount source, elementCount output⟩) rfl rfl

namespace RunDimension

theorem checkAll_eq_ok_iff (dimension : Nat) {dims : List RunDimension} :
    checkAll dimension dims = .ok () ↔
      ∀ d ∈ dims, d.sourceInBounds = true ∧ d.outputInBounds = true := by
  induction dims generalizing dimension with
  | nil => simp [checkAll]
  | cons d dims ih =>
    rw [checkAll, List.forall_mem_cons, ← Bool.and_eq_true, ← ih (dimension + 1)]
    split <;> simp [*]

theorem sourceInBounds_of_lt {d : RunDimension}
    (h : d.range.element (d.range.count - 1) < d.sourceLength)
    (hle : d.range.element (d.range.count - 1) ≤ maxOffset) : d.sourceInBounds = true := by
  rw [element, Nat.mul_comm] at h hle
  rw [sourceInBounds, Offset.checked_eq_some_iff.2 ⟨hle, rfl⟩]
  simp [h]

/-- What the check of the source has found out about a dimension that selects something. -/
theorem last_of_sourceInBounds {d : RunDimension} (h : d.sourceInBounds = true)
    (hcount : d.range.count ≠ 0) :
    d.range.element (d.range.count - 1) < d.sourceLength ∧
      d.range.element (d.range.count - 1) ≤ maxOffset := by
  rw [sourceInBounds, decide_eq_false hcount, Bool.false_or] at h
  cases hchecked : Offset.checked (d.range.start + d.range.stride * (d.range.count - 1)) with
  | none => simp [hchecked] at h
  | some last =>
    obtain ⟨hle, rfl⟩ := Offset.checked_eq_some_iff.1 hchecked
    simp only [hchecked, decide_eq_true_eq] at h
    rw [element, Nat.mul_comm]
    exact ⟨h, hle⟩

/-- What the check of the destination has found out about a dimension. -/
theorem stop_of_outputInBounds {d : RunDimension} (h : d.outputInBounds = true) :
    d.range.output + d.range.count ≤ d.outputLength ∧
      d.range.output + d.range.count ≤ maxOffset := by
  rw [outputInBounds] at h
  cases hchecked : Offset.checked (d.range.output + d.range.count) with
  | none => simp [hchecked] at h
  | some stop =>
    obtain ⟨hle, rfl⟩ := Offset.checked_eq_some_iff.1 hchecked
    simp only [hchecked, decide_eq_true_eq] at h
    exact ⟨h, hle⟩

theorem outputInBounds_of_le {d : RunDimension} (h : d.range.output + d.range.count ≤ d.outputLength)
    (hle : d.outputLength ≤ maxOffset) : d.outputInBounds = true := by
  rw [outputInBounds, Offset.checked_eq_some_iff.2 ⟨Nat.le_trans h hle, rfl⟩]
  simp [h]

end RunDimension

/-- What an accepted selection reads is in the source, and what it writes is in the destination. -/
theorem LocalRange.below_of_inBounds {source output : Shape} {ranges : List LocalRange}
    {position : Index} (hsource : source.length = ranges.length)
    (houtput : output.length = ranges.length)
    (hin : ∀ d ∈ RunDimension.ofShapes ranges source output,
      d.sourceInBounds = true ∧ d.outputInBounds = true)
    (hposition : Below position (counts ranges)) :
    Below (elementsAt ranges position) source ∧ Below (outputsAt ranges position) output := by
  induction ranges generalizing source output position with
  | nil =>
    rw [List.length_eq_zero_iff.1 hsource, List.length_eq_zero_iff.1 houtput]
    exact ⟨trivial, trivial⟩
  | cons range ranges ih =>
    obtain ⟨n, source, rfl⟩ := List.exists_cons_of_length_eq_add_one hsource
    obtain ⟨m, output, rfl⟩ := List.exists_cons_of_length_eq_add_one houtput
    cases position with
    | nil => exact hposition.elim
    | cons j position =>
      rw [RunDimension.ofShapes, List.forall_mem_cons] at hin
      obtain ⟨⟨hread, hwrite⟩, hrest⟩ := hin
      have hj : j < range.count := hposition.1
      have hlast : range.element (range.count - 1) < n :=
        (RunDimension.last_of_sourceInBounds hread (Nat.ne_of_gt (Nat.zero_lt_of_lt hj))).1
      have helement : range.element j ≤ range.element (range.count - 1) :=
        Nat.add_le_add_left (Nat.mul_le_mul_right _ (by omega)) _
      have hstop : range.output + range.count ≤ m := (RunDimension.stop_of_outputInBounds hwrite).1
      obtain ⟨hsourceRest, houtputRest⟩ :=
        ih (Nat.succ.inj hsource) (Nat.succ.inj houtput) hrest hposition.2
      exact ⟨⟨Nat.lt_of_le_of_lt helement hlast, hsourceRest⟩,
        ⟨Nat.lt_of_lt_of_le (Nat.add_lt_add_left hj _) hstop, houtputRest⟩⟩

namespace Runs

/-- The runs of a selection that fits its source and its destination. -/
def ofSelection (source : Shape) (ranges : List LocalRange) (output : Shape) : Runs :=
  let dims := RunDimension.ofShapes ranges source output
  let split := RunSplit.ofDimensions dims
  { axes := split.outer.map (·.toAxis)
    sourceBase := RunDimension.sourceStart dims
    outputBase := RunDimension.outputStart dims
    runLength := split.length }

/-- There are runs if the ranks agree and no dimension leaves the source or the destination. -/
theorem plan_eq_ok_iff {source output : Shape} {ranges : List LocalRange} {runs : Runs} :
    plan source ranges output = .ok runs ↔
      source.length = ranges.length ∧ output.length = ranges.length ∧
        (∀ d ∈ RunDimension.ofShapes ranges source output,
          d.sourceInBounds = true ∧ d.outputInBounds = true) ∧
        runs = ofSelection source ranges output := by
  rw [plan]
  by_cases hsource : source.length = ranges.length
  · by_cases houtput : output.length = ranges.length
    · rw [if_neg (not_not_intro hsource), if_neg (not_not_intro houtput),
        ← RunDimension.checkAll_eq_ok_iff 0]
      dsimp only
      cases RunDimension.checkAll 0 (RunDimension.ofShapes ranges source output) with
      | error e => simp
      | ok => simp [hsource, houtput, eq_comm, ofSelection]
    · simp [hsource, houtput]
  · simp [hsource]

variable {source output : Shape} {ranges : List LocalRange}

/-- The runs have as many elements as the selection has positions. -/
theorem numRuns_mul_runLength (hsource : source.length = ranges.length)
    (houtput : output.length = ranges.length) :
    (ofSelection source ranges output).numRuns * (ofSelection source ranges output).runLength =
      elementCount (counts ranges) := by
  have helements := (RunSplit.describes_ofDimensions hsource houtput).elements
  rw [← helements, numRuns]
  split
  · rename_i hzero
    have hlength : (RunSplit.ofDimensions (RunDimension.ofShapes ranges source output)).length = 0 :=
      hzero
    rw [hzero, hlength, Nat.mul_zero, Nat.mul_zero]
  · rfl

/-- Element number `q` of a selection is read from the place of its position tuple. -/
theorem run_source_add (hsource : source.length = ranges.length)
    (houtput : output.length = ranges.length) (q : Nat) :
    let runs := ofSelection source ranges output
    (runs.run (q / runs.runLength)).source + q % runs.runLength =
      rowMajor (elementsAt ranges (unravel (counts ranges) q)) source :=
  (RunSplit.describes_ofDimensions hsource houtput).sourceAt q

/-- Element number `q` of a selection is written to the place of its position tuple. -/
theorem run_output_add (hsource : source.length = ranges.length)
    (houtput : output.length = ranges.length) (q : Nat) :
    let runs := ofSelection source ranges output
    (runs.run (q / runs.runLength)).output + q % runs.runLength =
      rowMajor (outputsAt ranges (unravel (counts ranges) q)) output :=
  (RunSplit.describes_ofDimensions hsource houtput).outputAt q

/-- Where there are runs, they have elements. -/
theorem runLength_pos {runs : Runs} {k : Nat} (hk : k < runs.numRuns) : 0 < runs.runLength := by
  apply Nat.pos_of_ne_zero
  intro hzero
  rw [numRuns, if_pos hzero] at hk
  exact Nat.not_lt_zero k hk

@[simp] theorem run_length (runs : Runs) (k : Nat) : (runs.run k).length = runs.runLength := rfl

end Runs

end Hyperslab
