import Hyperslab.Proofs.Build
import Hyperslab.Proofs.Run
import Hyperslab.Run.Plan

/-!
# Runs as they are computed are exact

Where the source and the destination have no more elements than there are offsets, all places of a
selection are offsets, and so is each product and each sum on the way to them, with one exception.
The step of an axis is the stride of a range times the stride of the source, and where the range
selects one index only, nothing keeps that below the largest offset. No run is ever moved by such a
step: a build without checks comes to the exact runs, and one with checks stops.

## Main definitions

- `Runs.StepsFit`: no step of an axis is larger than the largest offset
- `Runs.computed`: the runs as a build without checks holds them

## Main statements

- `Runs.planIn_of_fit`, `Runs.planIn_checked`: the runs planned
- `Runs.runIn_computed`: each of them
- `Runs.listIn_of_fit`: all of them
- `Runs.listIn_of_empty`: there are none where nothing is selected
-/

namespace Hyperslab

open LocalRange

variable {b : Build} {source output : Shape} {ranges : List LocalRange}

theorem Offset.mul_around {digit n : Nat} (h : digit * n ≤ maxOffset) :
    digit * around n = digit * n := by
  rcases Nat.eq_zero_or_pos digit with rfl | hpos
  · rw [Nat.zero_mul, Nat.zero_mul]
  · rw [around_of_le (Nat.le_trans (Nat.le_mul_of_pos_left n hpos) h)]

theorem stridesIn_of_le {shape : Shape} (hpos : ∀ n ∈ shape, 0 < n)
    (hle : elementCount shape ≤ maxOffset) : stridesIn b shape = .ok (strides shape) := by
  induction shape with
  | nil => rfl
  | cons n shape ih =>
    cases shape with
    | nil => rfl
    | cons m shape =>
      rw [List.forall_mem_cons] at hpos
      have hinner : elementCount (m :: shape) ≤ maxOffset :=
        Nat.le_trans (Nat.le_mul_of_pos_left _ hpos.1) hle
      rw [elementCount_cons, Nat.mul_comm] at hinner
      rw [stridesIn, ih hpos.2 (by rwa [elementCount_cons, Nat.mul_comm])]
      show b.mul (elementCount shape) m >>= _ = _
      rw [Build.mul_of_le hinner, Nat.mul_comm]
      rfl

namespace RunDimension

theorem ofStrides_strides (ranges : List LocalRange) (source output : Shape) :
    ofStrides ranges source output (strides source) (strides output) =
      ofShapes ranges source output := by
  induction ranges generalizing source output with
  | nil => cases source <;> cases output <;> rfl
  | cons range ranges ih =>
    cases source with
    | nil => rfl
    | cons n source =>
      cases output with
      | nil => rfl
      | cons m output => exact congrArg _ (ih source output)

theorem sourceStart_eq (dims : List RunDimension) :
    sourceStart dims = Build.exactSum (dims.map fun d => (d.range.start, d.sourceStride)) := by
  induction dims with
  | nil => rfl
  | cons d dims ih => rw [sourceStart, ih, List.map_cons, Build.exactSum]

theorem outputStart_eq (dims : List RunDimension) :
    outputStart dims = Build.exactSum (dims.map fun d => (d.range.output, d.outputStride)) := by
  induction dims with
  | nil => rfl
  | cons d dims ih => rw [outputStart, ih, List.map_cons, Build.exactSum]

theorem map_count_ofShapes (hsource : source.length = ranges.length)
    (houtput : output.length = ranges.length) :
    (ofShapes ranges source output).map (·.range.count) = counts ranges := by
  induction ranges generalizing source output with
  | nil => rfl
  | cons range ranges ih =>
    obtain ⟨n, source, rfl⟩ := List.exists_cons_of_length_eq_add_one hsource
    obtain ⟨m, output, rfl⟩ := List.exists_cons_of_length_eq_add_one houtput
    exact congrArg _ (ih (Nat.succ.inj hsource) (Nat.succ.inj houtput))

theorem map_stride_ofShapes (hsource : source.length = ranges.length)
    (houtput : output.length = ranges.length) :
    (ofShapes ranges source output).map (fun d => (d.range.stride, d.sourceStride)) =
      (ranges.map (·.stride)).zip (strides source) := by
  induction ranges generalizing source output with
  | nil => rfl
  | cons range ranges ih =>
    obtain ⟨n, source, rfl⟩ := List.exists_cons_of_length_eq_add_one hsource
    obtain ⟨m, output, rfl⟩ := List.exists_cons_of_length_eq_add_one houtput
    exact congrArg _ (ih (Nat.succ.inj hsource) (Nat.succ.inj houtput))

theorem range_mem_of_ofShapes {d : RunDimension} (hd : d ∈ ofShapes ranges source output) :
    d.range ∈ ranges := by
  induction ranges generalizing source output with
  | nil => cases source <;> cases output <;> cases hd
  | cons range ranges ih =>
    cases source with
    | nil => cases hd
    | cons n source =>
      cases output with
      | nil => cases hd
      | cons m output =>
        rcases List.mem_cons.1 hd with rfl | hd
        · exact List.mem_cons_self
        · exact List.mem_cons_of_mem _ (ih hd)

theorem sourceStride_le (hpos : ∀ n ∈ source, 0 < n) {d : RunDimension}
    (hd : d ∈ ofShapes ranges source output) : d.sourceStride ≤ elementCount source := by
  induction ranges generalizing source output with
  | nil => cases source <;> cases output <;> cases hd
  | cons range ranges ih =>
    cases source with
    | nil => cases hd
    | cons n source =>
      cases output with
      | nil => cases hd
      | cons m output =>
        rw [List.forall_mem_cons] at hpos
        have hinner : elementCount source ≤ elementCount (n :: source) :=
          Nat.le_mul_of_pos_left _ hpos.1
        rcases List.mem_cons.1 hd with rfl | hd
        · exact hinner
        · exact Nat.le_trans (ih hpos.2 hd) hinner

end RunDimension

namespace RunSplit

theorem mem_of_mem_outer {dims : List RunDimension} {d : RunDimension}
    (h : d ∈ (ofDimensions dims).outer) : d ∈ dims := by
  induction dims with
  | nil => cases h
  | cons first dims ih =>
    rw [ofDimensions] at h
    split at h
    · cases h
    · rcases List.mem_cons.1 h with rfl | h
      · exact List.mem_cons_self
      · exact List.mem_cons_of_mem _ (ih h)

/-- One more dimension may be merged only where all those before are. -/
theorem outer_of_isOpen {dims : List RunDimension} (h : (ofDimensions dims).isOpen = true) :
    (ofDimensions dims).outer = [] := by
  cases dims with
  | nil => rfl
  | cons d dims =>
    rw [ofDimensions] at h ⊢
    split at h
    · rw [if_pos ‹_›]
    · cases h

/-- A dimension that is merged into the run has stride one. -/
theorem mem_outer_or {dims : List RunDimension} {d : RunDimension} (h : d ∈ dims) :
    d ∈ (ofDimensions dims).outer ∨ d.range.stride = 1 := by
  induction dims with
  | nil => cases h
  | cons first dims ih =>
    rw [ofDimensions]
    split
    · rename_i hmerge
      rw [Bool.and_eq_true, decide_eq_true_eq] at hmerge
      rcases List.mem_cons.1 h with rfl | h
      · exact .inr hmerge.2
      · have hinner := ih h
        rw [outer_of_isOpen hmerge.1] at hinner
        exact hinner.imp_left fun hnil => absurd hnil List.not_mem_nil
    · rcases List.mem_cons.1 h with rfl | h
      · exact .inl List.mem_cons_self
      · exact (ih h).imp_left (List.mem_cons_of_mem _)

/-- A run has no more elements than the selection. -/
theorem length_le {dims : List RunDimension} (hpos : ∀ d ∈ dims, 0 < d.range.count) :
    (ofDimensions dims).length ≤ elementCount (dims.map (·.range.count)) := by
  induction dims with
  | nil => exact Nat.le_refl _
  | cons d dims ih =>
    rw [List.forall_mem_cons] at hpos
    rw [ofDimensions, List.map_cons, elementCount_cons]
    split
    · exact Nat.mul_le_mul_left _ (ih hpos.2)
    · exact Nat.le_trans (ih hpos.2) (Nat.le_mul_of_pos_left _ hpos.1)

theorem ofDimensionsIn_of_le {dims : List RunDimension} (hpos : ∀ d ∈ dims, 0 < d.range.count)
    (hle : elementCount (dims.map (·.range.count)) ≤ maxOffset) :
    ofDimensionsIn b dims = .ok (ofDimensions dims) := by
  induction dims with
  | nil => rfl
  | cons d dims ih =>
    rw [List.forall_mem_cons] at hpos
    rw [List.map_cons, elementCount_cons] at hle
    have hinner : elementCount (dims.map (·.range.count)) ≤ maxOffset :=
      Nat.le_trans (Nat.le_mul_of_pos_left _ hpos.1) hle
    have hmerge : (ofDimensions dims).length * d.range.count ≤ maxOffset := by
      rw [Nat.mul_comm]
      exact Nat.le_trans (Nat.mul_le_mul_left _ (length_le hpos.2)) hle
    rw [ofDimensionsIn, ih hpos.2 hinner, ofDimensions]
    show (if _ then _ else _) = _
    split
    · rw [Build.mul_of_le hmerge, Nat.mul_comm]
      rfl
    · rfl

end RunSplit

/-- An axis with what is left of its step. -/
def Axis.around (axis : Axis) : Axis :=
  { axis with sourceStep := Offset.around axis.sourceStep }

namespace RunDimension

theorem toAxisIn_eq {d : RunDimension} (h : b = .wrapping ∨ d.toAxis.sourceStep ≤ maxOffset) :
    d.toAxisIn b = .ok d.toAxis.around := by
  have hmul : b.mul d.range.stride d.sourceStride = .ok (Offset.around d.toAxis.sourceStep) := by
    rcases h with rfl | hle
    · exact Build.fit_wrapping _
    · rw [Offset.around_of_le hle]
      exact Build.mul_of_le hle
  rw [toAxisIn, hmul]
  rfl

theorem toAxisIn_checked {d : RunDimension} (h : ¬d.toAxis.sourceStep ≤ maxOffset) :
    d.toAxisIn .checked = .error .overflow := by
  have hmul : Build.checked.mul d.range.stride d.sourceStride = .error .overflow := if_neg h
  rw [toAxisIn, hmul]
  rfl

theorem onlyOverflows_toAxisIn (d : RunDimension) : b.OnlyOverflows (d.toAxisIn b) :=
  (Build.onlyOverflows_fit _).bind fun _ => Build.onlyOverflows_ok _

end RunDimension

namespace Runs

variable {runs : Runs}

/-- No step of an axis is larger than the largest offset. -/
def StepsFit (r : Runs) : Prop :=
  ∀ axis ∈ r.axes, axis.sourceStep ≤ maxOffset

instance (r : Runs) : Decidable r.StepsFit :=
  inferInstanceAs (Decidable (∀ axis ∈ r.axes, axis.sourceStep ≤ maxOffset))

/-- Runs as a build without checks holds them. -/
def computed (r : Runs) : CountedRuns :=
  { r with axes := r.axes.map Axis.around, number := r.numRuns }

/-- What an accepted selection of some elements is planned from. -/
theorem numRuns_le (h : plan source ranges output = .ok runs) :
    runs.numRuns ≤ elementCount (counts ranges) := by
  obtain ⟨hsource, houtput, -, rfl⟩ := plan_eq_ok_iff.1 h
  rw [← numRuns_mul_runLength hsource houtput]
  by_cases hzero : (ofSelection source ranges output).runLength = 0
  · rw [numRuns, if_pos hzero]
    exact Nat.zero_le _
  · exact Nat.le_mul_of_pos_right _ (Nat.pos_of_ne_zero hzero)

/-- The first element of a run is in the source, and it goes into the destination. -/
theorem run_lt (h : plan source ranges output = .ok runs) {k : Nat} (hk : k < runs.numRuns) :
    (runs.run k).source < elementCount source ∧ (runs.run k).output < elementCount output := by
  obtain ⟨hsource, houtput, hin, rfl⟩ := plan_eq_ok_iff.1 h
  have helements := numRuns_mul_runLength hsource houtput
  have hread := run_source_add hsource houtput
  have hwrite := run_output_add hsource houtput
  generalize ofSelection source ranges output = runs at helements hread hwrite hk
  have hlength := runLength_pos hk
  have hsome : elementCount (counts ranges) ≠ 0 := by
    rw [← helements]
    exact Nat.ne_of_gt (Nat.mul_pos (Nat.zero_lt_of_lt hk) hlength)
  have hplaces := below_of_inBounds hsource houtput hin
    (below_unravel hsome (k * runs.runLength))
  have hfirst := hread (k * runs.runLength)
  have hfirstOutput := hwrite (k * runs.runLength)
  dsimp only at hfirst hfirstOutput
  rw [Nat.mul_div_cancel k hlength, Nat.mul_mod_left, Nat.add_zero] at hfirst hfirstOutput
  rw [hfirst, hfirstOutput]
  exact ⟨hplaces.1.rowMajor_lt, hplaces.2.rowMajor_lt⟩

/-- A selection has no more elements than its destination. -/
theorem elementCount_counts_le (hsource : source.length = ranges.length)
    (houtput : output.length = ranges.length)
    (hin : ∀ d ∈ RunDimension.ofShapes ranges source output,
      d.sourceInBounds = true ∧ d.outputInBounds = true) :
    elementCount (counts ranges) ≤ elementCount output := by
  induction ranges generalizing source output with
  | nil =>
    rw [List.length_eq_zero_iff.1 houtput]
    exact Nat.le_refl _
  | cons range ranges ih =>
    obtain ⟨n, source, rfl⟩ := List.exists_cons_of_length_eq_add_one hsource
    obtain ⟨m, output, rfl⟩ := List.exists_cons_of_length_eq_add_one houtput
    rw [RunDimension.ofShapes, List.forall_mem_cons] at hin
    have hstop : range.output + range.count ≤ m :=
      (RunDimension.stop_of_outputInBounds hin.1.2).1
    exact Nat.mul_le_mul (Nat.le_trans (Nat.le_add_left _ _) hstop)
      (ih (Nat.succ.inj hsource) (Nat.succ.inj houtput) hin.2)

/-- What is known of a selection of some elements that fits its source and its destination, where
these have no more elements than there are offsets. -/
structure Selects (source : Shape) (ranges : List LocalRange) (output : Shape) (runs : Runs) :
    Prop where
  plan_eq : plan source ranges output = .ok runs
  count_pos : ∀ range ∈ ranges, 0 < range.count
  source_le : elementCount source ≤ maxOffset
  output_le : elementCount output ≤ maxOffset

namespace Selects

variable (h : Selects source ranges output runs)
include h

theorem elementCount_pos : 0 < elementCount (counts ranges) := by
  refine Hyperslab.elementCount_pos fun n hn => ?_
  obtain ⟨range, hrange, rfl⟩ := List.mem_map.1 hn
  exact h.count_pos range hrange

theorem numRuns_pos : 0 < runs.numRuns := by
  obtain ⟨hsource, houtput, -, rfl⟩ := plan_eq_ok_iff.1 h.plan_eq
  have hpos := h.elementCount_pos
  rw [← numRuns_mul_runLength hsource houtput] at hpos
  exact Nat.pos_of_mul_pos_right hpos

/-- No length is zero where something is selected. -/
theorem lengths_pos : (∀ n ∈ source, 0 < n) ∧ ∀ m ∈ output, 0 < m := by
  have hfirst := run_lt h.plan_eq h.numRuns_pos
  have hsource := elementCount_ne_zero_iff.1 (Nat.ne_of_gt (Nat.zero_lt_of_lt hfirst.1))
  have houtput := elementCount_ne_zero_iff.1 (Nat.ne_of_gt (Nat.zero_lt_of_lt hfirst.2))
  exact ⟨fun n hn => Nat.pos_of_ne_zero fun hzero => hsource (hzero ▸ hn),
    fun m hm => Nat.pos_of_ne_zero fun hzero => houtput (hzero ▸ hm)⟩

theorem counts_le : elementCount (counts ranges) ≤ maxOffset := by
  obtain ⟨hsource, houtput, hin, -⟩ := plan_eq_ok_iff.1 h.plan_eq
  exact Nat.le_trans (elementCount_counts_le hsource houtput hin) h.output_le

/-- The bases are offsets, as run number zero starts there or after. -/
theorem bases_le : runs.sourceBase ≤ maxOffset ∧ runs.outputBase ≤ maxOffset := by
  have hfirst := run_lt h.plan_eq h.numRuns_pos
  have hsource := h.source_le
  have houtput := h.output_le
  rw [run] at hfirst
  dsimp only at hfirst
  omega

/-- The products and sums that a build makes of the dimensions of a selection are exact but for the
steps of the axes. -/
theorem ofDimensionsIn_eq :
    ofDimensionsIn b (RunDimension.ofShapes ranges source output) = (do
      let axes ← (RunSplit.ofDimensions
        (RunDimension.ofShapes ranges source output)).outer.mapM (·.toAxisIn b)
      let number ← numberIn b axes runs.runLength
      .ok
        { axes := axes
          sourceBase := runs.sourceBase
          outputBase := runs.outputBase
          runLength := runs.runLength
          number := number }) := by
  obtain ⟨hsourceBase, houtputBase⟩ := h.bases_le
  have hcounts := h.counts_le
  obtain ⟨hsource, houtput, -, rfl⟩ := plan_eq_ok_iff.1 h.plan_eq
  have hpos : ∀ d ∈ RunDimension.ofShapes ranges source output, 0 < d.range.count := by
    intro d hd
    have hmem := List.mem_map_of_mem (f := fun d : RunDimension => d.range.count) hd
    rw [RunDimension.map_count_ofShapes hsource houtput] at hmem
    obtain ⟨range, hrange, hcount⟩ := List.mem_map.1 hmem
    exact hcount ▸ h.count_pos range hrange
  rw [ofSelection, RunDimension.sourceStart_eq, ← Nat.zero_add (Build.exactSum _)] at hsourceBase
  rw [ofSelection, RunDimension.outputStart_eq, ← Nat.zero_add (Build.exactSum _)] at houtputBase
  rw [← RunDimension.map_count_ofShapes hsource houtput] at hcounts
  rw [ofDimensionsIn, RunSplit.ofDimensionsIn_of_le hpos hcounts,
    Build.sumProducts_of_le hsourceBase, Build.sumProducts_of_le houtputBase, Nat.zero_add,
    Nat.zero_add, ← RunDimension.sourceStart_eq, ← RunDimension.outputStart_eq]
  rfl

theorem planIn_eq :
    planIn b source ranges output = (do
      let counted ← ofDimensionsIn b (RunDimension.ofShapes ranges source output)
      .ok (.ok counted)) := by
  obtain ⟨hsource, houtput, hin, -⟩ := plan_eq_ok_iff.1 h.plan_eq
  obtain ⟨hsourcePos, houtputPos⟩ := h.lengths_pos
  rw [planIn, if_neg (not_not_intro hsource), if_neg (not_not_intro houtput),
    (RunDimension.checkAll_eq_ok_iff 0).2 hin, stridesIn_of_le hsourcePos h.source_le,
    stridesIn_of_le houtputPos h.output_le, ← RunDimension.ofStrides_strides]
  rfl

/-- The numbers along the axes are other than zero, and so is their product. -/
theorem numberIn_eq {axes : List Axis}
    (haxes : axes.map (·.count) = runs.axes.map (·.count)) :
    numberIn b axes runs.runLength = .ok runs.numRuns := by
  have hlength := runLength_pos h.numRuns_pos
  have hpos := h.numRuns_pos
  have hle := Nat.le_trans (numRuns_le h.plan_eq) h.counts_le
  rw [numRuns, if_neg (Nat.ne_of_gt hlength)] at hpos hle ⊢
  rw [numberIn, if_neg (Nat.ne_of_gt hlength), haxes]
  have hne := elementCount_ne_zero_iff.1 (Nat.ne_of_gt hpos)
  rw [Build.product_of_le (fun n hn => Nat.pos_of_ne_zero fun hzero => hne (hzero ▸ hn))
    (by rwa [Nat.one_mul]), Nat.one_mul]

theorem axes_eq : runs.axes = (RunSplit.ofDimensions
    (RunDimension.ofShapes ranges source output)).outer.map (·.toAxis) := by
  obtain ⟨-, -, -, rfl⟩ := plan_eq_ok_iff.1 h.plan_eq
  rfl

/-- A build without checks plans the exact runs but for what is left of their steps, and one with
checks does so where the steps are offsets. -/
theorem planIn_of_fit (hfit : b = .wrapping ∨ runs.StepsFit) :
    planIn b source ranges output = .ok (.ok runs.computed) := by
  have haxes := h.axes_eq
  have hsteps : ∀ d ∈ (RunSplit.ofDimensions (RunDimension.ofShapes ranges source output)).outer,
      d.toAxisIn b = .ok d.toAxis.around := by
    intro d hd
    refine RunDimension.toAxisIn_eq (hfit.imp_right fun hfit => hfit _ ?_)
    rw [haxes]
    exact List.mem_map_of_mem hd
  have hcounts : ((RunSplit.ofDimensions (RunDimension.ofShapes ranges source output)).outer.map
      (·.toAxis.around)).map (·.count) = runs.axes.map (·.count) := by
    rw [haxes, List.map_map, List.map_map]
    rfl
  rw [h.planIn_eq, h.ofDimensionsIn_eq, mapM_eq_ok hsteps]
  show (numberIn b _ _ >>= _) >>= _ = _
  rw [h.numberIn_eq hcounts, computed, haxes, List.map_map]
  rfl

/-- A build with checks stops at a step that is no offset. -/
theorem planIn_checked (hfit : ¬runs.StepsFit) :
    planIn .checked source ranges output = .error .overflow := by
  rw [StepsFit, h.axes_eq] at hfit
  simp only [List.forall_mem_map, Classical.not_forall] at hfit
  obtain ⟨d, hd, hstep⟩ := hfit
  rw [h.planIn_eq, h.ofDimensionsIn_eq, mapM_eq_error
    (fun d _ cause hcause => (RunDimension.onlyOverflows_toAxisIn d cause hcause).2)
    ⟨d, hd, RunDimension.toAxisIn_checked hstep⟩]
  rfl

/-- The strides along the dimensions are no more than the elements of the source. -/
theorem sourceStride_le {d : RunDimension} (hd : d ∈ RunDimension.ofShapes ranges source output) :
    d.sourceStride ≤ maxOffset :=
  Nat.le_trans (RunDimension.sourceStride_le h.lengths_pos.1 hd) h.source_le

/-- The axes are among the dimensions, and a dimension that is none has stride one. -/
theorem stepsFit_iff : runs.StepsFit ↔
    ∀ p ∈ (ranges.map (·.stride)).zip (strides source), p.1 * p.2 ≤ maxOffset := by
  have hsource := (plan_eq_ok_iff.1 h.plan_eq).1
  have houtput := (plan_eq_ok_iff.1 h.plan_eq).2.1
  rw [StepsFit, h.axes_eq, ← RunDimension.map_stride_ofShapes hsource houtput]
  simp only [List.forall_mem_map]
  constructor
  · intro hfit d hd
    rcases RunSplit.mem_outer_or hd with houter | hstride
    · exact hfit d houter
    · rw [hstride, Nat.one_mul]
      exact h.sourceStride_le hd
  · intro hfit d hd
    exact hfit d (RunSplit.mem_of_mem_outer hd)

end Selects

/-- A digit other than zero moves a run to a place in the source, so that its step is an offset. -/
theorem displaceIn_append {axes : List Axis} (rest : List Axis) {k s t : Nat}
    (hsource : s + (displace axes k).2.1 ≤ maxOffset)
    (houtput : t + (displace axes k).2.2 ≤ maxOffset) :
    displaceIn b ((axes.map Axis.around).reverse ++ rest) k s t =
      displaceIn b rest (displace axes k).1 (s + (displace axes k).2.1)
        (t + (displace axes k).2.2) := by
  induction axes generalizing rest with
  | nil => rfl
  | cons axis axes ih =>
    rw [displace_cons] at hsource houtput ⊢
    dsimp only at hsource houtput ⊢
    rw [← Nat.add_assoc] at hsource houtput
    rw [← Nat.add_assoc, ← Nat.add_assoc]
    have hread : (displace axes k).1 % axis.count * axis.sourceStep ≤ maxOffset :=
      Nat.le_trans (Nat.le_add_left _ _) hsource
    have hwrite : (displace axes k).1 % axis.count * axis.outputStep ≤ maxOffset :=
      Nat.le_trans (Nat.le_add_left _ _) houtput
    have hmul := Offset.mul_around hread
    rw [List.map_cons, List.reverse_cons, List.append_assoc,
      ih _ (Nat.le_trans (Nat.le_add_right _ _) hsource)
        (Nat.le_trans (Nat.le_add_right _ _) houtput)]
    rw [List.singleton_append, displaceIn, Axis.around]
    dsimp only
    rw [Build.mul_of_le (by rwa [hmul]), hmul, Build.mul_of_le hwrite]
    show (do
      let source ← b.add _ _
      let output ← b.add _ _
      displaceIn b rest _ source output) = _
    rw [Build.add_of_le hsource, Build.add_of_le houtput]
    rfl

/-- Each run is found where it is, also with what is left of the steps. -/
theorem runIn_computed (h : plan source ranges output = .ok runs)
    (hsource : elementCount source ≤ maxOffset) (houtput : elementCount output ≤ maxOffset)
    {k : Nat} (hk : k < runs.numRuns) : runIn b runs.computed.toRuns k = .ok (runs.run k) := by
  obtain ⟨hread, hwrite⟩ := run_lt h hk
  have hdisplace := displaceIn_append (b := b) []
    (Nat.le_trans (Nat.le_of_lt hread) hsource) (Nat.le_trans (Nat.le_of_lt hwrite) houtput)
  rw [List.append_nil] at hdisplace
  show displaceIn b (runs.axes.map Axis.around).reverse k runs.sourceBase runs.outputBase >>= _ = _
  rw [hdisplace]
  rfl

/-- All runs of a selection, if no step stops a build with checks. -/
theorem listIn_of_fit (h : Selects source ranges output runs)
    (hfit : b = .wrapping ∨ runs.StepsFit) :
    listIn b source ranges output = .ok (.ok runs.toList) := by
  have hruns : ∀ k ∈ List.range runs.numRuns,
      runIn b runs.computed.toRuns k = .ok (runs.run k) := fun k hk =>
    runIn_computed h.plan_eq h.source_le h.output_le (List.mem_range.1 hk)
  rw [listIn, h.planIn_of_fit hfit]
  show (List.range runs.numRuns).mapM (runIn b runs.computed.toRuns) >>= _ = _
  rw [mapM_eq_ok hruns]
  rfl

end Runs

section Nothing

/-! Where a range selects nothing there are no runs, but the strides of the shapes may be larger
than any offset. -/

theorem onlyOverflows_stridesIn (shape : Shape) : b.OnlyOverflows (stridesIn b shape) := by
  induction shape with
  | nil => exact Build.onlyOverflows_ok _
  | cons n shape ih =>
    cases shape with
    | nil => exact Build.onlyOverflows_ok _
    | cons m shape =>
      refine ih.bind fun strides => ?_
      cases strides with
      | nil => exact Build.onlyOverflows_ok _
      | cons stride strides =>
        exact (Build.onlyOverflows_fit _).bind fun _ => Build.onlyOverflows_ok _

theorem length_of_stridesIn {shape : Shape} {all : List Nat} (h : stridesIn b shape = .ok all) :
    all.length = shape.length := by
  induction shape generalizing all with
  | nil =>
    cases h
    rfl
  | cons n shape ih =>
    cases shape with
    | nil =>
      cases h
      rfl
    | cons m shape =>
      obtain ⟨strides, hstrides, hall⟩ := bind_eq_ok_iff.1 h
      have hlength := ih hstrides
      cases strides with
      | nil => cases hlength
      | cons stride strides =>
        obtain ⟨outer, -, hall⟩ := bind_eq_ok_iff.1 hall
        cases hall
        exact congrArg Nat.succ hlength

theorem RunDimension.map_count_ofStrides {sourceStrides outputStrides : List Nat}
    (hsource : source.length = ranges.length) (houtput : output.length = ranges.length)
    (hread : sourceStrides.length = source.length) (hwrite : outputStrides.length = output.length) :
    (ofStrides ranges source output sourceStrides outputStrides).map (·.range.count) =
      counts ranges := by
  induction ranges generalizing source output sourceStrides outputStrides with
  | nil => rfl
  | cons range ranges ih =>
    obtain ⟨n, source, rfl⟩ := List.exists_cons_of_length_eq_add_one hsource
    obtain ⟨m, output, rfl⟩ := List.exists_cons_of_length_eq_add_one houtput
    obtain ⟨s, sourceStrides, rfl⟩ := List.exists_cons_of_length_eq_add_one hread
    obtain ⟨t, outputStrides, rfl⟩ := List.exists_cons_of_length_eq_add_one hwrite
    exact congrArg _ (ih (Nat.succ.inj hsource) (Nat.succ.inj houtput) (Nat.succ.inj hread)
      (Nat.succ.inj hwrite))

namespace RunSplit

theorem onlyOverflows_ofDimensionsIn (dims : List RunDimension) :
    b.OnlyOverflows (ofDimensionsIn b dims) := by
  induction dims with
  | nil => exact Build.onlyOverflows_ok _
  | cons d dims ih =>
    refine ih.bind fun inner => ?_
    split
    · exact (Build.onlyOverflows_fit _).bind fun _ => Build.onlyOverflows_ok _
    · exact Build.onlyOverflows_ok _

/-- A build keeps a dimension outside of the run only if it merges none after it. -/
theorem outer_of_ofDimensionsIn {dims : List RunDimension} {split : RunSplit}
    (h : ofDimensionsIn b dims = .ok split) (hopen : split.isOpen = true) : split.outer = [] := by
  cases dims with
  | nil =>
    cases h
    rfl
  | cons d dims =>
    obtain ⟨inner, -, hsplit⟩ := bind_eq_ok_iff.1 h
    split at hsplit
    · obtain ⟨length, -, hsplit⟩ := bind_eq_ok_iff.1 hsplit
      cases hsplit
      rfl
    · cases hsplit
      cases hopen

/-- A dimension without indices leaves the run empty, or is outside of it. -/
theorem zero_of_ofDimensionsIn {dims : List RunDimension} {split : RunSplit}
    (h : ofDimensionsIn b dims = .ok split) (hzero : 0 ∈ dims.map (·.range.count)) :
    split.length = 0 ∨ 0 ∈ split.outer.map (·.range.count) := by
  induction dims generalizing split with
  | nil => cases hzero
  | cons d dims ih =>
    obtain ⟨inner, hinner, hsplit⟩ := bind_eq_ok_iff.1 h
    rw [List.map_cons, List.mem_cons] at hzero
    split at hsplit
    · rename_i hmerge
      rw [Bool.and_eq_true] at hmerge
      obtain ⟨length, hlength, hsplit⟩ := bind_eq_ok_iff.1 hsplit
      cases hsplit
      have hfactor : inner.length * d.range.count = 0 := by
        rcases hzero with hcount | hrest
        · rw [← hcount, Nat.mul_zero]
        · have houter := outer_of_ofDimensionsIn hinner hmerge.1
          obtain hlength | hmem := ih hinner hrest
          · rw [hlength, Nat.zero_mul]
          · rw [houter] at hmem
            cases hmem
      rw [Build.mul, hfactor, Build.fit_of_le (Nat.zero_le _)] at hlength
      cases hlength
      exact .inl rfl
    · cases hsplit
      rcases hzero with hcount | hrest
      · exact .inr (hcount ▸ List.mem_cons_self)
      · exact (ih hinner hrest).imp_right (List.mem_cons_of_mem _)

end RunSplit

namespace Runs

variable {runs : Runs}

theorem onlyOverflows_numberIn (axes : List Axis) (runLength : Nat) :
    b.OnlyOverflows (numberIn b axes runLength) := by
  unfold numberIn
  split
  · exact Build.onlyOverflows_ok _
  · exact Build.onlyOverflows_product _ _

theorem onlyOverflows_ofDimensionsIn (dims : List RunDimension) :
    b.OnlyOverflows (ofDimensionsIn b dims) :=
  (RunSplit.onlyOverflows_ofDimensionsIn dims).bind fun _ =>
    (Build.onlyOverflows_sumProducts _ _).bind fun _ =>
    (Build.onlyOverflows_sumProducts _ _).bind fun _ =>
    (Build.OnlyOverflows.mapM fun d _ => RunDimension.onlyOverflows_toAxisIn d).bind fun _ =>
    (onlyOverflows_numberIn _ _).bind fun _ => Build.onlyOverflows_ok _

theorem number_of_ofDimensionsIn {dims : List RunDimension} {counted : CountedRuns}
    (h : ofDimensionsIn b dims = .ok counted) (hzero : 0 ∈ dims.map (·.range.count)) :
    counted.number = 0 := by
  obtain ⟨split, hsplit, h⟩ := bind_eq_ok_iff.1 h
  obtain ⟨sourceBase, -, h⟩ := bind_eq_ok_iff.1 h
  obtain ⟨outputBase, -, h⟩ := bind_eq_ok_iff.1 h
  obtain ⟨axes, haxes, h⟩ := bind_eq_ok_iff.1 h
  obtain ⟨number, hnumber, h⟩ := bind_eq_ok_iff.1 h
  cases h
  show number = 0
  rw [numberIn] at hnumber
  split at hnumber
  · cases hnumber
    rfl
  · refine Build.product_eq_zero ?_ hnumber
    obtain hlength | hmem := RunSplit.zero_of_ofDimensionsIn hsplit hzero
    · contradiction
    · rwa [← map_eq_of_mapM (g := Axis.count) haxes fun d axis hd => ?_] at hmem
      obtain ⟨step, -, hd⟩ := bind_eq_ok_iff.1 hd
      cases hd
      rfl

/-- Of a selection of nothing a build finds no runs, unless it stops at a stride that is no
offset. -/
theorem listIn_of_empty (h : plan source ranges output = .ok runs)
    (hzero : elementCount (counts ranges) = 0) (b : Build) :
    listIn b source ranges output = .ok (.ok []) ∨
      b = .checked ∧ listIn b source ranges output = .error .overflow := by
  obtain ⟨hsource, houtput, hin, -⟩ := plan_eq_ok_iff.1 h
  have hmem : 0 ∈ counts ranges := Classical.not_not.1 fun hmem =>
    elementCount_ne_zero_iff.2 hmem hzero
  have hplan : planIn b source ranges output = (do
      let sourceStrides ← stridesIn b source
      let outputStrides ← stridesIn b output
      let counted ← ofDimensionsIn b
        (RunDimension.ofStrides ranges source output sourceStrides outputStrides)
      .ok (.ok counted)) := by
    rw [planIn, if_neg (not_not_intro hsource), if_neg (not_not_intro houtput),
      (RunDimension.checkAll_eq_ok_iff 0).2 hin]
  cases hcounted : planIn b source ranges output with
  | error cause =>
    have honly : b.OnlyOverflows (planIn b source ranges output) := by
      rw [hplan]
      exact (onlyOverflows_stridesIn source).bind fun _ =>
        (onlyOverflows_stridesIn output).bind fun _ =>
        (onlyOverflows_ofDimensionsIn _).bind fun _ => Build.onlyOverflows_ok _
    obtain ⟨hchecked, rfl⟩ := honly cause hcounted
    refine .inr ⟨hchecked, ?_⟩
    rw [listIn, hcounted]
    rfl
  | ok planned =>
    rw [hplan] at hcounted
    obtain ⟨sourceStrides, hread, hcounted⟩ := bind_eq_ok_iff.1 hcounted
    obtain ⟨outputStrides, hwrite, hcounted⟩ := bind_eq_ok_iff.1 hcounted
    obtain ⟨counted, hdims, hcounted⟩ := bind_eq_ok_iff.1 hcounted
    cases hcounted
    have hnumber := number_of_ofDimensionsIn hdims (by
      rwa [RunDimension.map_count_ofStrides hsource houtput (length_of_stridesIn hread)
        (length_of_stridesIn hwrite)])
    refine .inl ?_
    rw [listIn, hplan, hread, hwrite]
    show ofDimensionsIn b _ >>= _ >>= _ = _
    rw [hdims]
    show (List.range counted.number).mapM (runIn b counted.toRuns) >>= _ = _
    rw [hnumber]
    rfl

end Runs

end Nothing

end Hyperslab
