import Mathlib.Data.Fintype.Card
import Hyperslab.Proofs.Run.Plan
import Hyperslab.Proofs.Run.Selection
import Hyperslab.Proofs.Section

/-!
# Runs are as long as they can be

Where all strides are one, a selection is a box of the source that is copied to a box of the
destination. From one run to the next the position tuple carries out of the dimensions that are
merged into the run. Both arrays would go on there without a gap only if the box took all of the
dimensions inside of the one that is carried to, in the source and in the destination, and then the
merge would not have stopped before that dimension. So no two neighbouring runs are one span, and no
other way to cut the selection into spans of neighbours has fewer of them.

## Main definitions

- `LocalRange.box`: the box that a selection takes or fills in an array
- `LocalRange.placeIn`: where in the array an element of the box is
- `Copies`: spans that move the elements of a selection to their places, and nothing else

## Main statements

- `LocalRange.box_eq_full_of_ends`: a box from the first element of an array to the last one
- `RunSplit.gap`: a run ends where the source or the destination does not go on
- `Runs.numRuns_le_of_copies`: no other spans that copy a selection are fewer
- `Runs.plan_maximal`: neighbouring runs are not one span, and there are no fewer spans than runs
-/

namespace Hyperslab

/-- The last digit goes up by one where the number does not turn it over. -/
theorem add_one_mod_of_not_dvd {n k : Nat} (h : ¬n ∣ k + 1) : (k + 1) % n = k % n + 1 := by
  have hdiv := Nat.succ_div_of_not_dvd h
  have hk := Nat.div_add_mod k n
  have hsucc := Nat.div_add_mod (k + 1) n
  rw [hdiv] at hsucc
  omega

/-- The last digit is at its largest where the next number turns it over. -/
theorem mod_add_one_of_dvd {n k : Nat} (hn : 0 < n) (h : n ∣ k + 1) : k % n + 1 = n := by
  have hdvd : n ∣ k % n + 1 := by
    rw [Nat.dvd_iff_mod_eq_zero, Nat.mod_add_mod]
    exact Nat.mod_eq_zero_of_dvd h
  exact Nat.le_antisymm (Nat.mod_lt k hn) (Nat.le_of_dvd (Nat.succ_pos _) hdvd)

namespace LocalRange

/-- The box of an array with its first corner at the given numbers of the ranges. -/
def box (corner : LocalRange → Nat) (ranges : List LocalRange) : Section :=
  ⟨ranges.map fun range => .contiguous (corner range) range.count⟩

/-- The row-major number in an array of the given shape of element number `q` of a box. -/
def placeIn (corner : LocalRange → Nat) (ranges : List LocalRange) (shape : Shape) (q : Nat) :
    Nat :=
  rowMajor ((box corner ranges).indexAt q) shape

section Box

variable {corner : LocalRange → Nat} {range : LocalRange} {ranges : List LocalRange}
  {shape : Shape} {n q : Nat}

@[simp] theorem shape_box (corner : LocalRange → Nat) (ranges : List LocalRange) :
    (box corner ranges).shape = counts ranges := by
  simp [box, Section.shape, counts, SectionRange.contiguous]

theorem placeIn_cons (corner : LocalRange → Nat) (range : LocalRange) (ranges : List LocalRange)
    (n : Nat) (shape : Shape) (q : Nat) :
    placeIn corner (range :: ranges) (n :: shape) q =
      (corner range + q / elementCount (counts ranges) % range.count) * elementCount shape +
        placeIn corner ranges shape q := by
  simp only [placeIn, Section.indexAt, shape_box]
  show (corner range + q / elementCount (counts ranges) % range.count * 1) *
    elementCount shape + _ = _
  rw [Nat.mul_one]
  rfl

theorem placeIn_lt (h : Section.Within (box corner ranges).ranges shape) (q : Nat) :
    placeIn corner ranges shape q < elementCount shape :=
  (Section.below_indexAt h q).rowMajor_lt

/-- Later elements of a box are later in the array. -/
theorem placeIn_lt_placeIn (h : Section.Within (box corner ranges).ranges shape) {p : Nat}
    (hpq : p < q) (hq : q < elementCount (counts ranges)) :
    placeIn corner ranges shape p < placeIn corner ranges shape q := by
  apply Section.rowMajor_indexAt_lt h hpq
  rwa [Section.totalCount, shape_box]

/-- Without a carry into a dimension, the place moves as far as the inner dimensions move it. -/
theorem adjacent_of_cons (hcarry : ¬elementCount (counts ranges) ∣ q + 1)
    (h : placeIn corner (range :: ranges) (n :: shape) (q + 1) =
      placeIn corner (range :: ranges) (n :: shape) q + 1) :
    placeIn corner ranges shape (q + 1) = placeIn corner ranges shape q + 1 := by
  rw [placeIn_cons, placeIn_cons, Nat.succ_div_of_not_dvd hcarry] at h
  omega

/-- With a carry into a dimension, the place moves by one only from the last element of the inner
dimensions to the first one. -/
theorem ends_of_carry (hwithin : Section.Within (box corner ranges).ranges shape)
    (hcarry : elementCount (counts ranges) ∣ q + 1)
    (hlast : ¬elementCount (counts (range :: ranges)) ∣ q + 1)
    (h : placeIn corner (range :: ranges) (n :: shape) (q + 1) =
      placeIn corner (range :: ranges) (n :: shape) q + 1) :
    placeIn corner ranges shape (q + 1) = 0 ∧
      placeIn corner ranges shape q + 1 = elementCount shape := by
  have hdigit : (q + 1) / elementCount (counts ranges) % range.count =
      q / elementCount (counts ranges) % range.count + 1 := by
    rw [Nat.succ_div_of_dvd hcarry]
    refine add_one_mod_of_not_dvd fun hturn => hlast ?_
    rw [← Nat.succ_div_of_dvd hcarry] at hturn
    have hwhole := Nat.mul_dvd_mul_right hturn (elementCount (counts ranges))
    rwa [Nat.div_mul_cancel hcarry] at hwhole
  have hlt := placeIn_lt hwithin q
  rw [placeIn_cons, placeIn_cons, hdigit, ← Nat.add_assoc, Nat.succ_mul] at h
  omega

/-- A box that goes from the first element of an array to the last one takes all of it. -/
theorem box_eq_full_of_ends (hwithin : Section.Within (box corner ranges).ranges shape)
    (hturn : elementCount (counts ranges) ∣ q + 1)
    (hfirst : placeIn corner ranges shape (q + 1) = 0)
    (hlast : placeIn corner ranges shape q + 1 = elementCount shape) :
    box corner ranges = Section.full shape := by
  induction ranges generalizing shape with
  | nil =>
    cases shape with
    | nil => rfl
    | cons n shape => exact hwithin.elim
  | cons range ranges ih =>
    obtain ⟨n, shape, rfl, hrange, hinner⟩ := hwithin.of_cons
    -- the inner dimensions turn over, and the digit of this one does so with them
    have hturnInner : elementCount (counts ranges) ∣ q + 1 :=
      Nat.dvd_trans (Nat.dvd_mul_left _ range.count) hturn
    have hturnDigit : range.count ∣ q / elementCount (counts ranges) + 1 := by
      rw [← Nat.succ_div_of_dvd hturnInner]
      apply Nat.dvd_div_of_mul_dvd
      rwa [Nat.mul_comm]
    have hcount : 0 < range.count := hrange.count_pos
    have hdigit := mod_add_one_of_dvd hcount hturnDigit
    have hlt := placeIn_lt hinner q
    rw [placeIn_cons, Nat.add_eq_zero_iff, Nat.mul_eq_zero] at hfirst
    have hcorner : corner range = 0 := by omega
    rw [placeIn_cons, hcorner, Nat.zero_add, elementCount_cons] at hlast
    generalize q / elementCount (counts ranges) % range.count = digit at hdigit hlast
    -- the box ends with the array, so it is as long as the array in this dimension
    have hle : n ≤ range.count := by
      apply Nat.le_of_mul_le_mul_right ?_ (Nat.zero_lt_of_lt hlt)
      rw [← hlast, ← hdigit, Nat.succ_mul, Nat.add_assoc]
      exact Nat.add_le_add_left hlt _
    have hn : range.count = n := Nat.le_antisymm hrange.count_le hle
    have hlastInner : placeIn corner ranges shape q + 1 = elementCount shape := by
      rw [← hn, ← hdigit, Nat.succ_mul, Nat.add_assoc] at hlast
      exact Nat.add_left_cancel hlast
    have hrest := ih hinner hturnInner hfirst.2 hlastInner
    simp only [box, Section.full, Section.mk.injEq, List.map_cons, hcorner, hn] at hrest ⊢
    rw [hrest]

end Box

end LocalRange

open LocalRange

section Gap

variable {range : LocalRange} {ranges : List LocalRange} {source output : Shape} {q : Nat}

/-- Dimensions that the selection takes and fills all of may be followed by one more in a run. -/
theorem RunSplit.isOpen_of_full (hsource : box (·.start) ranges = Section.full source)
    (houtput : box (·.output) ranges = Section.full output)
    (hunit : ∀ range ∈ ranges, range.stride = 1) :
    (ofDimensions (RunDimension.ofShapes ranges source output)).isOpen = true := by
  simp only [box, Section.full, Section.mk.injEq] at hsource houtput
  induction ranges generalizing source output with
  | nil => rfl
  | cons range ranges ih =>
    cases source with
    | nil => cases hsource
    | cons n source =>
      cases output with
      | nil => cases houtput
      | cons m output =>
        simp only [List.map_cons, List.cons.injEq, SectionRange.contiguous,
          SectionRange.mk.injEq] at hsource houtput
        obtain ⟨⟨hstart, -, rfl⟩, hsource⟩ := hsource
        obtain ⟨⟨hfirst, -, rfl⟩, houtput⟩ := houtput
        obtain ⟨hstride, hunit⟩ := List.forall_mem_cons.1 hunit
        have hinner := ih hunit hsource houtput
        simp [RunDimension.ofShapes, ofDimensions, hinner, hstride, RunDimension.isComplete, hstart,
          hfirst]

/-- A run ends where the source or the destination does not go on. -/
theorem RunSplit.gap (hsource : Section.Within (box (·.start) ranges).ranges source)
    (houtput : Section.Within (box (·.output) ranges).ranges output)
    (hunit : ∀ range ∈ ranges, range.stride = 1)
    (hend : (ofDimensions (RunDimension.ofShapes ranges source output)).length ∣ q + 1)
    (hlast : ¬elementCount (counts ranges) ∣ q + 1) :
    ¬(placeIn (·.start) ranges source (q + 1) = placeIn (·.start) ranges source q + 1 ∧
      placeIn (·.output) ranges output (q + 1) = placeIn (·.output) ranges output q + 1) := by
  induction ranges generalizing source output with
  | nil => exact absurd (Nat.one_dvd _) hlast
  | cons range ranges ih =>
    obtain ⟨n, source, rfl, -, hsource⟩ := hsource.of_cons
    obtain ⟨m, output, rfl, -, houtput⟩ := houtput.of_cons
    obtain ⟨hstride, hunit⟩ := List.forall_mem_cons.1 hunit
    rintro ⟨hadjacent, hadjacent'⟩
    rw [RunDimension.ofShapes, ofDimensions] at hend
    by_cases hcarry : elementCount (counts ranges) ∣ q + 1
    · -- both arrays go on after a carry, so the inner dimensions are complete
      obtain ⟨hfirst, hstop⟩ := ends_of_carry hsource hcarry hlast hadjacent
      obtain ⟨hfirst', hstop'⟩ := ends_of_carry houtput hcarry hlast hadjacent'
      have hopen := isOpen_of_full (box_eq_full_of_ends hsource hcarry hfirst hstop)
        (box_eq_full_of_ends houtput hcarry hfirst' hstop') hunit
      -- then this dimension is merged, and the run goes on until it turns over
      simp only [hopen, hstride, decide_true, Bool.and_self, if_true] at hend
      have hlength : source.length = ranges.length := by simpa [box] using hsource.length_eq.symm
      have hlength' : output.length = ranges.length := by simpa [box] using houtput.length_eq.symm
      rw [(describes_ofDimensions hlength hlength').length_eq hopen] at hend
      exact hlast hend
    · have hend : (ofDimensions (RunDimension.ofShapes ranges source output)).length ∣ q + 1 := by
        dsimp only at hend
        split at hend
        · exact Nat.dvd_trans (Nat.dvd_mul_left _ _) hend
        · exact hend
      exact ih hsource houtput hunit hend hcarry
        ⟨adjacent_of_cons hcarry hadjacent, adjacent_of_cons hcarry hadjacent'⟩

end Gap

section Accepted

variable {range : LocalRange} {ranges : List LocalRange} {source output : Shape} {runs : Runs}
  {position : Index} {k l p q : Nat}

theorem elementsAt_of_unit (hunit : ∀ range ∈ ranges, range.stride = 1) :
    elementsAt ranges position = Section.elementsAt (box (·.start) ranges).ranges position := by
  induction ranges generalizing position with
  | nil => rfl
  | cons range ranges ih =>
    cases position with
    | nil => rfl
    | cons j position =>
      obtain ⟨hstride, hunit⟩ := List.forall_mem_cons.1 hunit
      show (range.start + j * range.stride) :: _ = (range.start + j * 1) :: _
      rw [hstride]
      exact congrArg _ (ih hunit)

theorem outputsAt_eq (ranges : List LocalRange) (position : Index) :
    outputsAt ranges position = Section.elementsAt (box (·.output) ranges).ranges position := by
  induction ranges generalizing position with
  | nil => rfl
  | cons range ranges ih =>
    cases position with
    | nil => rfl
    | cons j position =>
      show (range.output + j) :: _ = (range.output + j * 1) :: _
      rw [Nat.mul_one]
      exact congrArg _ (ih position)

/-- The boxes of an accepted selection are boxes of the source and of the destination. -/
theorem within_of_inBounds (hsource : source.length = ranges.length)
    (houtput : output.length = ranges.length) (hunit : ∀ range ∈ ranges, range.stride = 1)
    (hin : ∀ d ∈ RunDimension.ofShapes ranges source output,
      d.sourceInBounds = true ∧ d.outputInBounds = true)
    (hcount : elementCount (counts ranges) ≠ 0) :
    Section.Within (box (·.start) ranges).ranges source ∧
      Section.Within (box (·.output) ranges).ranges output := by
  induction ranges generalizing source output with
  | nil =>
    rw [List.length_eq_zero_iff.1 hsource, List.length_eq_zero_iff.1 houtput]
    exact ⟨trivial, trivial⟩
  | cons range ranges ih =>
    obtain ⟨n, source, rfl⟩ := List.exists_cons_of_length_eq_add_one hsource
    obtain ⟨m, output, rfl⟩ := List.exists_cons_of_length_eq_add_one houtput
    obtain ⟨hstride, hunit⟩ := List.forall_mem_cons.1 hunit
    rw [RunDimension.ofShapes, List.forall_mem_cons] at hin
    obtain ⟨⟨hlast, hstop⟩, hin⟩ := hin
    obtain ⟨hne, hcount⟩ := Nat.mul_ne_zero_iff.1 hcount
    have hrest := ih (Nat.succ.inj hsource) (Nat.succ.inj houtput) hunit hin hcount
    have hlast := RunDimension.last_of_sourceInBounds hlast hne
    have hstop := RunDimension.stop_of_outputInBounds hstop
    have hpos : 0 < range.count := Nat.pos_of_ne_zero hne
    refine ⟨⟨⟨hpos, ?_, ?_⟩, hrest.1⟩, ⟨⟨hpos, ?_, ?_⟩, hrest.2⟩⟩ <;>
      simp only [LocalRange.element, SectionRange.element, SectionRange.contiguous, hstride]
        at hlast hstop ⊢ <;>
      omega

end Accepted

/-- Spans that move the elements of a selection to their places, each at least once, and move
nothing else. -/
def Copies (spans : List Run) (source : Shape) (ranges : List LocalRange) (output : Shape) : Prop :=
  ∀ place, place ∈ spans.flatMap Run.elements ↔
    place ∈ (positions (counts ranges)).map fun position =>
      (weighted (strides source) (elementsAt ranges position),
        weighted (strides output) (outputsAt ranges position))

/-- Where element number `q` of a selection without gaps comes from and goes to. -/
def placesOf (ranges : List LocalRange) (source output : Shape) (q : Nat) : Nat × Nat :=
  (placeIn (·.start) ranges source q, placeIn (·.output) ranges output q)

theorem Copies.mem_iff {spans : List Run} {source output : Shape} {ranges : List LocalRange}
    (h : Copies spans source ranges output) (hunit : ∀ range ∈ ranges, range.stride = 1)
    {place : Nat × Nat} :
    (∃ span ∈ spans, place ∈ span.elements) ↔
      ∃ q < elementCount (counts ranges), placesOf ranges source output q = place := by
  rw [← List.mem_flatMap, h place, positions_eq]
  simp only [List.map_map, List.mem_map, List.mem_range, Function.comp_apply, weighted_strides,
    elementsAt_of_unit hunit, outputsAt_eq, placesOf, placeIn, Section.indexAt, shape_box]

/-- The second run goes on where the first one ends, in the source and in the destination. -/
def Run.Continues (run next : Run) : Prop :=
  next.source = run.source + run.length ∧ next.output = run.output + run.length

theorem Run.mem_elements {run : Run} {place : Nat × Nat} :
    place ∈ run.elements ↔ ∃ t < run.length, (run.source + t, run.output + t) = place := by
  simp [elements]

namespace Runs

variable {source output : Shape} {ranges : List LocalRange} {runs : Runs} {k l p q : Nat}

/-- Element number `q` of a selection without gaps is found in its box of the source. -/
theorem source_eq_placeIn (h : plan source ranges output = .ok runs)
    (hunit : ∀ range ∈ ranges, range.stride = 1) (q : Nat) :
    (runs.run (q / runs.runLength)).source + q % runs.runLength =
      placeIn (·.start) ranges source q := by
  obtain ⟨hsource, houtput, -, rfl⟩ := plan_eq_ok_iff.1 h
  have hplace := run_source_add hsource houtput q
  rw [elementsAt_of_unit hunit, ← shape_box (·.start)] at hplace
  exact hplace

/-- Element number `q` of a selection is put into the box that it fills. -/
theorem output_eq_placeIn (h : plan source ranges output = .ok runs) (q : Nat) :
    (runs.run (q / runs.runLength)).output + q % runs.runLength =
      placeIn (·.output) ranges output q := by
  obtain ⟨hsource, houtput, -, rfl⟩ := plan_eq_ok_iff.1 h
  have hplace := run_output_add hsource houtput q
  rw [outputsAt_eq, ← shape_box (·.output)] at hplace
  exact hplace

/-- A run ends where one of the arrays does not go on to the next element of the selection. -/
theorem gap_of_plan (h : plan source ranges output = .ok runs)
    (hunit : ∀ range ∈ ranges, range.stride = 1) (hend : runs.runLength ∣ q + 1)
    (hlt : q + 1 < elementCount (counts ranges)) :
    ¬(placeIn (·.start) ranges source (q + 1) = placeIn (·.start) ranges source q + 1 ∧
      placeIn (·.output) ranges output (q + 1) = placeIn (·.output) ranges output q + 1) := by
  obtain ⟨hsource, houtput, hin, rfl⟩ := plan_eq_ok_iff.1 h
  obtain ⟨hwithin, hwithin'⟩ := within_of_inBounds hsource houtput hunit hin (by omega)
  exact RunSplit.gap hwithin hwithin' hunit hend (Nat.not_dvd_of_pos_of_lt q.succ_pos hlt)

theorem first_lt (h : plan source ranges output = .ok runs) (hk : k < runs.numRuns) :
    k * runs.runLength < elementCount (counts ranges) := by
  rw [← numElements_of_plan h]
  exact Nat.mul_lt_mul_of_pos_right hk (runLength_pos hk)

/-- No run goes on where the one before it ends. -/
theorem not_continues (h : plan source ranges output = .ok runs)
    (hunit : ∀ range ∈ ranges, range.stride = 1) (hk : k + 1 < runs.numRuns) :
    ¬(runs.run k).Continues (runs.run (k + 1)) := by
  rintro ⟨hsource, houtput⟩
  have hpos := runLength_pos hk
  -- the last element of the run and the first one of the next
  have hlast : k * runs.runLength + (runs.runLength - 1) + 1 = (k + 1) * runs.runLength := by
    rw [Nat.succ_mul]
    omega
  have hdigits : runs.runLength - 1 < runs.runLength := by omega
  refine gap_of_plan h hunit (q := k * runs.runLength + (runs.runLength - 1)) ?_ ?_ ⟨?_, ?_⟩
  · rw [hlast]
    exact Nat.dvd_mul_left _ _
  · rw [hlast]
    exact first_lt h hk
  · rw [hlast, ← source_eq_placeIn h hunit, ← source_eq_placeIn h hunit, mul_add_div_of_lt hdigits,
      Nat.mul_add_mod_of_lt hdigits, Nat.mul_div_cancel _ hpos, Nat.mul_mod_left, hsource,
      run_length]
    omega
  · rw [hlast, ← output_eq_placeIn h, ← output_eq_placeIn h, mul_add_div_of_lt hdigits,
      Nat.mul_add_mod_of_lt hdigits, Nat.mul_div_cancel _ hpos, Nat.mul_mod_left, houtput,
      run_length]
    omega

theorem copies_toList (h : plan source ranges output = .ok runs) :
    Copies runs.toList source ranges output := by
  intro place
  rw [elements_toList h]

/-- No span has the first elements of two runs: it would have the element before the later one
too, and there is a gap between the two. -/
theorem not_lt_of_span (h : plan source ranges output = .ok runs)
    (hunit : ∀ range ∈ ranges, range.stride = 1) {spans : List Run}
    (hspans : Copies spans source ranges output) {span : Run} (hspan : span ∈ spans)
    (hfirst : placesOf ranges source output (k * runs.runLength) ∈ span.elements)
    (hfirst' : placesOf ranges source output (l * runs.runLength) ∈ span.elements)
    (hl : l < runs.numRuns) : ¬k < l := by
  intro hkl
  have hlt := first_lt h hl
  obtain ⟨hlength, hlength', hin, -⟩ := plan_eq_ok_iff.1 h
  obtain ⟨-, hwithin⟩ := within_of_inBounds hlength hlength' hunit hin (by omega)
  obtain ⟨s, -, hs⟩ := Run.mem_elements.1 hfirst
  obtain ⟨t, ht, heq⟩ := Run.mem_elements.1 hfirst'
  simp only [placesOf, Prod.mk.injEq] at hs heq
  have hstep := placeIn_lt_placeIn hwithin
    (Nat.mul_lt_mul_of_pos_right hkl (runLength_pos hl)) hlt
  have htpos : 0 < t := by omega
  -- the element of the span before the first one of the later run is an element of the selection
  have hbefore : (span.source + (t - 1), span.output + (t - 1)) ∈ span.elements :=
    Run.mem_elements.2 ⟨t - 1, by omega, rfl⟩
  obtain ⟨p, hp, hplace⟩ := (hspans.mem_iff hunit).1 ⟨span, hspan, hbefore⟩
  simp only [placesOf, Prod.mk.injEq] at hplace
  -- in the destination nothing is between the two, so they are neighbours in the selection
  have hbelow : p < l * runs.runLength := by
    by_contra hge
    rcases Nat.lt_or_eq_of_le (Nat.le_of_not_lt hge) with hlater | hsame
    · have hlater := placeIn_lt_placeIn hwithin hlater hp
      omega
    · rw [hsame] at heq
      omega
  have hnext : p + 1 = l * runs.runLength := by
    by_contra hne
    have hbetween : p + 1 < l * runs.runLength := by omega
    have hfar := placeIn_lt_placeIn hwithin (Nat.lt_add_one p) (Nat.lt_trans hbetween hlt)
    have hfar' := placeIn_lt_placeIn hwithin hbetween hlt
    omega
  refine gap_of_plan h hunit (q := p) ?_ ?_ ⟨?_, ?_⟩
  · rw [hnext]
    exact Nat.dvd_mul_left _ _
  · rwa [hnext]
  · rw [hnext]
    omega
  · rw [hnext]
    omega

/-- Spans that copy a selection without gaps are at least as many as its runs. -/
theorem numRuns_le_of_copies (h : plan source ranges output = .ok runs)
    (hunit : ∀ range ∈ ranges, range.stride = 1) {spans : List Run}
    (hspans : Copies spans source ranges output) : runs.numRuns ≤ spans.length := by
  have hcovered : ∀ k : Fin runs.numRuns, ∃ i : Fin spans.length,
      placesOf ranges source output (k * runs.runLength) ∈ spans[i].elements := by
    intro k
    obtain ⟨span, hspan, hfirst⟩ := (hspans.mem_iff hunit).2 ⟨_, first_lt h k.isLt, rfl⟩
    obtain ⟨i, hi, rfl⟩ := List.getElem_of_mem hspan
    exact ⟨⟨i, hi⟩, hfirst⟩
  choose span hspan using hcovered
  have hinjective : Function.Injective span := by
    intro k l heq
    have hk := hspan k
    have hl := hspan l
    rw [← heq] at hl
    have hmem : spans[span k] ∈ spans := List.getElem_mem _
    apply Fin.ext
    apply Nat.le_antisymm
    · exact Nat.le_of_not_lt (not_lt_of_span h hunit hspans hmem hl hk k.isLt)
    · exact Nat.le_of_not_lt (not_lt_of_span h hunit hspans hmem hk hl l.isLt)
  simpa using Fintype.card_le_of_injective span hinjective

/-- A selection without gaps is computed exactly where its source and its destination have no more
elements than there are offsets: no build stops at a step, as the steps are strides of the source. -/
theorem listIn_of_unit (h : plan source ranges output = .ok runs)
    (hunit : ∀ range ∈ ranges, range.stride = 1) (hsource : elementCount source ≤ maxOffset)
    (houtput : elementCount output ≤ maxOffset) (b : Build) :
    listIn b source ranges output = .ok (.ok runs.toList) ∨
      b = .checked ∧ runs.toList = [] ∧ listIn b source ranges output = .error .overflow := by
  by_cases hzero : elementCount (counts ranges) = 0
  · have hnumber : runs.numRuns = 0 := Nat.le_zero.1 (hzero ▸ numRuns_le h)
    have hnone : runs.toList = [] := by
      rw [toList, hnumber]
      rfl
    rw [hnone]
    exact (listIn_of_empty h hzero b).imp_right fun hstop => ⟨hstop.1, rfl, hstop.2⟩
  · have hselects : Selects source ranges output runs :=
      { plan_eq := h
        count_pos := fun range hrange => Nat.pos_of_ne_zero fun hcount =>
          elementCount_ne_zero_iff.1 hzero (hcount ▸ List.mem_map_of_mem hrange)
        source_le := hsource
        output_le := houtput }
    refine .inl (listIn_of_fit hselects (.inr (hselects.stepsFit_iff.2 fun p hp => ?_)))
    obtain ⟨hsourceLength, houtputLength, -⟩ := plan_eq_ok_iff.1 h
    rw [← RunDimension.map_stride_ofShapes hsourceLength houtputLength] at hp
    obtain ⟨d, hd, rfl⟩ := List.mem_map.1 hp
    rw [hunit _ (RunDimension.range_mem_of_ofShapes hd), Nat.one_mul]
    exact hselects.sourceStride_le hd

/-- The runs of a selection without gaps are as long as they can be. None of them goes on where the
one before it ends, in the source and in the destination, so the runs copy the selection in the
least number of spans that are contiguous in both. Every build comes to these runs where the source
and the destination have no more elements than there are offsets, but for one with checks that may
stop where there are none. -/
theorem plan_maximal (h : plan source ranges output = .ok runs)
    (hunit : ∀ range ∈ ranges, range.stride = 1) :
    runs.toList.IsChain (fun run next => ¬run.Continues next) ∧
      Copies runs.toList source ranges output ∧
      (∀ spans, Copies spans source ranges output → runs.numRuns ≤ spans.length) ∧
      (elementCount source ≤ maxOffset → elementCount output ≤ maxOffset → ∀ b,
        listIn b source ranges output = .ok (.ok runs.toList) ∨
          b = .checked ∧ runs.toList = [] ∧ listIn b source ranges output = .error .overflow) := by
  refine ⟨?_, copies_toList h, fun spans hspans => numRuns_le_of_copies h hunit hspans,
    listIn_of_unit h hunit⟩
  apply List.isChain_iff_getElem.2
  intro k hk
  rw [length_toList] at hk
  simp only [toList, List.getElem_map, List.getElem_range]
  exact not_continues h hunit hk

/-- Two planes of a source are filled in with half of their rows each: the planes of the destination
are neighbours, those of the source are not, and no single span copies them. -/
theorem plan_maximal_halfPlanes :
    ∃ runs, plan [2, 3, 4] [⟨0, 1, 2, 0⟩, ⟨1, 1, 2, 0⟩, ⟨0, 1, 4, 0⟩] [2, 2, 4] = .ok runs ∧
      runs.toList = [⟨4, 0, 8⟩, ⟨16, 8, 8⟩] ∧
      (∀ b, listIn b [2, 3, 4] [⟨0, 1, 2, 0⟩, ⟨1, 1, 2, 0⟩, ⟨0, 1, 4, 0⟩] [2, 2, 4] =
        .ok (.ok [⟨4, 0, 8⟩, ⟨16, 8, 8⟩])) ∧
      ∀ spans, Copies spans [2, 3, 4] [⟨0, 1, 2, 0⟩, ⟨1, 1, 2, 0⟩, ⟨0, 1, 4, 0⟩] [2, 2, 4] →
        2 ≤ spans.length := by
  have hplan : plan [2, 3, 4] [⟨0, 1, 2, 0⟩, ⟨1, 1, 2, 0⟩, ⟨0, 1, 4, 0⟩] [2, 2, 4] =
      .ok ⟨[⟨2, 12, 8⟩], 4, 0, 8⟩ := by decide
  obtain ⟨-, -, hleast, hlist⟩ := plan_maximal hplan (by decide)
  refine ⟨_, hplan, by decide, fun b => ?_, hleast⟩
  obtain hruns | ⟨-, hnone, -⟩ := hlist (by decide) (by decide) b
  · exact hruns
  · exact absurd hnone (by decide)

/-- In an array of `2 ^ 65 + 8` elements the planes are `2 ^ 64 + 4` elements apart, of which a build
without checks is left with four. The second of its runs goes on where the first one ends. -/
theorem listIn_coiledPlanes :
    (∃ runs, plan [2, 3689348814741910324, 5] [⟨0, 1, 2, 0⟩, ⟨0, 1, 1, 0⟩, ⟨0, 1, 4, 0⟩] [2, 1, 4] =
      .ok runs) ∧
    listIn .wrapping [2, 3689348814741910324, 5] [⟨0, 1, 2, 0⟩, ⟨0, 1, 1, 0⟩, ⟨0, 1, 4, 0⟩]
      [2, 1, 4] = .ok (.ok [⟨0, 0, 4⟩, ⟨4, 4, 4⟩]) ∧
    Run.Continues ⟨0, 0, 4⟩ ⟨4, 4, 4⟩ :=
  ⟨⟨_, rfl⟩, rfl, rfl, rfl⟩

end Runs

end Hyperslab
