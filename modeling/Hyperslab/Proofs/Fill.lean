import Hyperslab.Proofs.Bytes
import Hyperslab.Proofs.Index

/-!
# Ways to fill

A buffer is filled with zeros where there is no fill value, with one byte where the value has one,
and with copies of the value otherwise, the last of them cut off. Runs of elements are filled in
parts of a buffer, in any order, and elements of a variable without data are made in a buffer of
their own. All of these come to the same bytes: a filled element holds the value and nothing else
changes, so runs that have all elements leave what is made without them.

## Main definitions

- `Filled`: an element is one of a run

## Main statements

- `fillRuns_eq_none_iff`: some run goes past the end of the buffer
- `bytes_of_fillRuns`: the bytes after all runs were filled
- `fillRunsIn_checked`, `fillRunsIn_of_le`: runs as a build fills them
- `fillRuns_agree`: runs, whole buffers and new elements are filled alike
-/

namespace Hyperslab

variable {fill : Option FillValue} {elementSize : Nat} {buffer out : Bytes}
  {runs : List (Nat × Nat)}

/-- Element number `k` is one of a run. A run is given by its first element and its length. -/
def Filled (runs : List (Nat × Nat)) (k : Nat) : Prop :=
  ∃ run ∈ runs, run.1 ≤ k ∧ k < run.1 + run.2

theorem filled_cons {run : Nat × Nat} {k : Nat} :
    Filled (run :: runs) k ↔ (run.1 ≤ k ∧ k < run.1 + run.2) ∨ Filled runs k := by
  simp [Filled]

theorem fillRuns_cons (buffer : Bytes) (elementSize : Nat) (fill : Option FillValue)
    (run : Nat × Nat) (runs : List (Nat × Nat)) :
    fillRuns buffer elementSize fill (run :: runs) =
      (fillRun buffer elementSize fill run.1 run.2).bind fun buffer =>
        fillRuns buffer elementSize fill runs :=
  rfl

/-- Runs are filled unless one of them goes past the end of the buffer, be it empty or not. -/
theorem fillRuns_eq_none_iff :
    fillRuns buffer elementSize fill runs = none ↔
      ∃ run ∈ runs, buffer.size < (run.1 + run.2) * elementSize := by
  induction runs generalizing buffer with
  | nil => simp [fillRuns]
  | cons run runs ih =>
    simp only [fillRuns_cons, List.mem_cons, exists_eq_or_imp]
    cases hrun : fillRun buffer elementSize fill run.1 run.2 with
    | none => simp [fillRun_eq_none_iff.1 hrun]
    | some out =>
      have hfit : ¬buffer.size < (run.1 + run.2) * elementSize := by
        rw [← fillRun_eq_none_iff, hrun]
        exact Option.some_ne_none out
      rw [Option.bind_some, ih, (fits_of_fillRun hrun).2, or_iff_right hfit]

/-- After all runs the elements of some run hold the fill value, and all other bytes are as they
were. -/
theorem bytes_of_fillRuns (hfill : ∀ v, fill = some v → v.size = elementSize)
    (hpos : 0 < elementSize) (h : fillRuns buffer elementSize fill runs = some out) :
    out.size = buffer.size ∧ ∀ j, j < buffer.size →
      (Filled runs (j / elementSize) → out[j]? = some (byteOfFill fill (j % elementSize))) ∧
      (¬Filled runs (j / elementSize) → out[j]? = buffer[j]?) := by
  induction runs generalizing buffer with
  | nil =>
    cases h
    simp [Filled]
  | cons run runs ih =>
    rw [fillRuns_cons, Option.bind_eq_some_iff] at h
    obtain ⟨next, hrun, hrest⟩ := h
    have hsize := (fits_of_fillRun hrun).2
    obtain ⟨hsize', hrest⟩ := ih hrest
    refine ⟨hsize'.trans hsize, fun j hj => ?_⟩
    have hfirst := getElem?_fillRun hfill hpos hrun j hj
    have hcovers : (run.1 * elementSize ≤ j ∧ j < run.1 * elementSize + run.2 * elementSize) ↔
        (run.1 ≤ j / elementSize ∧ j / elementSize < run.1 + run.2) := by
      rw [Nat.le_div_iff_mul_le hpos, Nat.div_lt_iff_lt_mul hpos, Nat.add_mul]
    rw [← hsize] at hj
    obtain ⟨hin, hout⟩ := hrest j hj
    rw [filled_cons]
    by_cases hlater : Filled runs (j / elementSize)
    · -- what a later run puts there is what counts
      exact ⟨fun _ => hin hlater, fun hno => absurd (.inr hlater) hno⟩
    · rw [hout hlater, hfirst]
      constructor
      · intro hfilled
        rw [if_pos (hcovers.2 (hfilled.resolve_right hlater))]
      · intro hno
        rw [if_neg fun hcovered => hno (.inl (hcovers.1 hcovered))]

section Builds

variable {b : Build} {destination run : Nat}

/-- A run that ends at an offset is the same in every build. -/
theorem fillRunIn_of_le (h : (destination + run) * elementSize ≤ maxOffset) :
    fillRunIn b buffer elementSize fill destination run =
      fillRun buffer elementSize fill destination run := by
  rw [Nat.add_mul] at h
  have hstart := Build.mul_of_le (b := b) (Nat.le_trans (Nat.le_add_right _ _) h)
  have hlength := Build.mul_of_le (b := b) (Nat.le_trans (Nat.le_add_left _ _) h)
  rw [fillRunIn, hstart, hlength]
  show (b.add _ _).toOption.bind _ = _
  rw [Build.add_of_le h]
  show (if _ then _ else _) = _
  rw [if_pos (Nat.le_add_right _ _), Nat.add_sub_cancel_left]
  rfl

/-- A build with checks stops at a run that does not end at an offset. -/
theorem fillRunIn_checked_of_lt (h : maxOffset < (destination + run) * elementSize) :
    fillRunIn .checked buffer elementSize fill destination run = none := by
  rw [Nat.add_mul] at h
  rw [fillRunIn]
  cases hstart : Build.checked.mul destination elementSize with
  | error _ => rfl
  | ok start =>
    cases hlength : Build.checked.mul run elementSize with
    | error _ => rfl
    | ok length =>
      obtain ⟨-, rfl⟩ := Build.fit_checked_eq_ok_iff.1 hstart
      obtain ⟨-, rfl⟩ := Build.fit_checked_eq_ok_iff.1 hlength
      have hstop : Build.checked.add (destination * elementSize) (run * elementSize) =
          .error .overflow := if_neg (Nat.not_le_of_gt h)
      show (Build.checked.add _ _).toOption.bind _ = _
      rw [hstop]
      rfl

/-- A build with checks fills just the runs that there are, as a buffer ends at an offset. -/
theorem fillRunIn_checked (hbuffer : buffer.size ≤ maxOffset) :
    fillRunIn .checked buffer elementSize fill destination run =
      fillRun buffer elementSize fill destination run := by
  rcases Nat.lt_or_ge maxOffset ((destination + run) * elementSize) with hlarge | hle
  · rw [fillRunIn_checked_of_lt hlarge,
      fillRun_eq_none_iff.2 (Nat.lt_of_le_of_lt hbuffer hlarge)]
  · exact fillRunIn_of_le hle

theorem fillRunsIn_of_le
    (h : ∀ run ∈ runs, (run.1 + run.2) * elementSize ≤ maxOffset) :
    fillRunsIn b buffer elementSize fill runs = fillRuns buffer elementSize fill runs := by
  induction runs generalizing buffer with
  | nil => rfl
  | cons run runs ih =>
    obtain ⟨hrun, hruns⟩ := List.forall_mem_cons.1 h
    rw [fillRunsIn, fillRuns, fillRunIn_of_le hrun]
    exact congrArg _ (funext fun buffer => ih hruns)

theorem fillRunsIn_checked (hbuffer : buffer.size ≤ maxOffset) (runs : List (Nat × Nat)) :
    fillRunsIn .checked buffer elementSize fill runs = fillRuns buffer elementSize fill runs := by
  induction runs generalizing buffer with
  | nil => rfl
  | cons run runs ih =>
    rw [fillRunsIn, fillRuns, fillRunIn_checked hbuffer]
    cases hrun : fillRun buffer elementSize fill run.1 run.2 with
    | none => rfl
    | some next => exact ih ((fits_of_fillRun hrun).2 ▸ hbuffer)

theorem materializeIn_of_le {size n : Nat} (h : size * n ≤ Bytes.maxCapacity) :
    materializeIn b size fill n = .ok (materialize size fill n) := by
  have hmul := Build.mul_of_le (b := b) (Nat.le_trans h Bytes.maxCapacity_le)
  rw [materializeIn, hmul]
  show Bytes.reserve (size * n) >>= _ = _
  rw [Bytes.reserve_of_le h]
  rfl

/-- The program stops where there is no buffer for new elements. -/
theorem materializeIn_of_lt {size n : Nat} (hlarge : Bytes.maxCapacity < size * n)
    (h : size * n ≤ maxOffset) :
    materializeIn b size fill n = .error (.capacity (size * n)) := by
  rw [materializeIn, Build.mul_of_le h]
  show Bytes.reserve (size * n) >>= _ = _
  rw [Bytes.reserve_of_lt hlarge]
  rfl

end Builds

/-- Runs of elements, whole buffers and new elements are filled alike. A build with checks has no
answer exactly if a run goes past the end of the buffer, and other builds do as it does where each
run ends at an offset. Otherwise each element of a run holds the fill value, or zeros where there is
none, all other bytes are as they were, and runs that have all elements leave the elements of a
variable without data. A value is written over a buffer byte by byte in turn, also where its last
copy is cut off, and one without bytes changes nothing. New elements are a filled buffer of zeros,
if one can have it. -/
theorem fillRuns_agree (hpos : 1 ≤ elementSize)
    (hfill : ∀ v, fill = some v → v.size = elementSize) {count : Nat}
    (hsize : buffer.size = count * elementSize) (hbuffer : buffer.size ≤ Bytes.maxCapacity)
    (runs : List (Nat × Nat)) :
    (fillRunsIn .checked buffer elementSize fill runs = none ↔
      ∃ run ∈ runs, buffer.size < (run.1 + run.2) * elementSize) ∧
    ((∀ run ∈ runs, (run.1 + run.2) * elementSize ≤ maxOffset) →
      fillRunsIn .wrapping buffer elementSize fill runs =
        fillRunsIn .checked buffer elementSize fill runs) ∧
    (∀ out, fillRunsIn .checked buffer elementSize fill runs = some out →
      out.size = buffer.size ∧
      (∀ k, k < count → Filled runs k → ∀ i, i < elementSize →
        out[k * elementSize + i]? = some (byteOfFill fill i)) ∧
      (∀ j, j < buffer.size → ¬Filled runs (j / elementSize) → out[j]? = buffer[j]?) ∧
      ((∀ k, k < count → Filled runs k) → ∀ b, materializeIn b elementSize fill count = .ok out)) ∧
    (∀ (v : FillValue) (bytes : Bytes), (v.fill bytes).size = bytes.size ∧
      (1 ≤ v.size → ∀ i, i < bytes.size → (v.fill bytes)[i]? = v.bytes[i % v.size]?) ∧
      (v.size = 0 → v.fill bytes = bytes)) ∧
    ∀ (b : Build) (size : Nat) (value : Option FillValue) (n : Nat),
      (size * n ≤ Bytes.maxCapacity →
        materializeIn b size value n = .ok (fillBytes value (Bytes.zeros (size * n)))) ∧
      (Bytes.maxCapacity < size * n → size * n ≤ maxOffset →
        materializeIn b size value n = .error (.capacity (size * n))) := by
  rw [fillRunsIn_checked (Nat.le_trans hbuffer Bytes.maxCapacity_le)]
  refine ⟨fillRuns_eq_none_iff, fillRunsIn_of_le, fun out hout => ?_, fun v bytes =>
    ⟨v.size_fill bytes, fun hv i hi => FillValue.getElem?_fill hv hi,
      fun hv => FillValue.fill_of_size_eq_zero hv bytes⟩, fun b size value n => ⟨fun h => ?_, ?_⟩⟩
  · obtain ⟨houtSize, hbytes⟩ := bytes_of_fillRuns hfill hpos hout
    refine ⟨houtSize, fun k hk hfilled i hi => ?_, fun j hj => (hbytes j hj).2, fun hall b => ?_⟩
    · have hlt : k * elementSize + i < buffer.size := by
        rw [hsize]
        exact mul_add_lt_mul hk hi
      have hplace := (hbytes _ hlt).1
      rw [mul_add_div_of_lt hi, Nat.mul_add_mod_of_lt hi] at hplace
      exact hplace hfilled
    · have htotal : (materialize elementSize fill count).size = count * elementSize := by
        rw [size_materialize, Nat.mul_comm]
      have hcapacity : elementSize * count ≤ Bytes.maxCapacity := by
        rwa [Nat.mul_comm, ← hsize]
      rw [materializeIn_of_le hcapacity]
      refine congrArg _ (Bytes.eq_of_getElem? htotal (houtSize.trans hsize) fun j hj => ?_)
      have hk : j / elementSize < count := (Nat.div_lt_iff_lt_mul hpos).2 hj
      rw [(hbytes j (by rwa [hsize])).1 (hall _ hk), getElem?_materialize hfill hpos]
      rwa [Nat.mul_comm]
  · rw [materializeIn_of_le h, materialize_eq]
  · exact materializeIn_of_lt

/-- Two runs of elements of two bytes, which overlap and leave the first element as it was. -/
theorem fillRuns_agree_pairs :
    fillRunsIn .checked #[9, 9, 9, 9, 9, 9] 2 (some ⟨#[1, 2]⟩) [(2, 1), (1, 2)] =
        some #[9, 9, 1, 2, 1, 2] ∧
      ∀ out, fillRunsIn .checked #[9, 9, 9, 9, 9, 9] 2 (some ⟨#[1, 2]⟩) [(2, 1), (1, 2)] =
          some out →
        ∀ j, j < 6 → ¬Filled [(2, 1), (1, 2)] (j / 2) →
          out[j]? = (#[9, 9, 9, 9, 9, 9] : Bytes)[j]? := by
  refine ⟨by decide, fun out hout => ?_⟩
  have hsize : (#[9, 9, 9, 9, 9, 9] : Bytes).size = 3 * 2 := rfl
  have hfill : ∀ v, (some ⟨#[1, 2]⟩ : Option FillValue) = some v → v.size = 2 := by
    rintro v ⟨⟩
    rfl
  obtain ⟨-, -, hruns, -⟩ := fillRuns_agree (by decide) hfill hsize (by decide) [(2, 1), (1, 2)]
  exact (hruns out hout).2.2.1

/-- The run of the one element number `2 ^ 63` is far past the end of the buffer. In a build without
checks its first byte is number zero, and an element that is in no run is written over. One byte
more than a buffer can have cannot be had at all. -/
theorem fillRunsIn_coiled :
    (#[9, 9, 9, 9] : Bytes).size < (9223372036854775808 + 1) * 2 ∧
      ¬Filled [(9223372036854775808, 1)] 0 ∧
      fillRunsIn .wrapping #[9, 9, 9, 9] 2 (some ⟨#[1, 2]⟩) [(9223372036854775808, 1)] =
        some #[1, 2, 9, 9] ∧
      ∀ b, materializeIn b 1 none 9223372036854775808 = .error (.capacity 9223372036854775808) := by
  refine ⟨by decide, ?_, by decide, fun b => rfl⟩
  rintro ⟨run, hrun, hle, -⟩
  rw [List.mem_singleton.1 hrun] at hle
  exact absurd hle (by decide)

end Hyperslab
