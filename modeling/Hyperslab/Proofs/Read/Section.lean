import Hyperslab.Proofs.Bytes
import Hyperslab.Proofs.Resolve.Computed
import Hyperslab.Read.Section

/-!
# Reads as runs of transfers

A read of a section that fits its variable carries out the transfers that the section is resolved
to, and then finishes. The program may stop instead, before anything is requested: where the step
of a section is no offset, in a build with checks, and where one has no buffer for the section.

## Main statements

- `readSectionInto_eq`, `readSectionInto_of_stops`: a read into a destination of the right size
- `readSection_eq`, `readSection_of_large`: a read into a new destination
-/

namespace Hyperslab

/-- The program stops, and before it does nothing is requested and no stream is opened. -/
structure SourceM.Halts {α : Type} (x : SourceM ReadError α) (a : Activity) (cause : Halt) :
    Prop where
  result_eq : (x.outcome a).1 = .error (.halted cause)
  requests_eq : (x.outcome a).2.requests = a.requests
  openings_eq : (x.outcome a).2.openings = a.openings

theorem SourceM.Halts.ends {α : Type} {x : SourceM ReadError α} {a : Activity} {cause : Halt}
    (h : x.Halts a cause) {ok : α → Activity → Prop} {err : ReadError → Activity → Prop}
    (herr : ∀ a', err (.halted cause) a') : SourceM.Ends x a ok err := by
  have hresult := h.result_eq
  rcases houtcome : x.outcome a with ⟨result, a'⟩
  rw [houtcome] at hresult
  cases hresult
  rw [SourceM.Ends, houtcome]
  exact herr a'

/-- A build reads a section into a new destination: it does not stop at the section, and one has a
buffer for it. -/
def Descriptor.Readable (b : Build) (d : Descriptor) (s : Section) : Prop :=
  ¬d.Stops b s ∧ s.totalCount * d.elementSize ≤ Bytes.maxCapacity

instance (b : Build) (d : Descriptor) (s : Section) : Decidable (d.Readable b s) :=
  inferInstanceAs (Decidable (_ ∧ _))

/-- One always has a buffer for an empty section. -/
theorem Section.capacity_of_empty {s : Section} (h : s.totalCount = 0) (elementSize : Nat) :
    s.totalCount * elementSize ≤ Bytes.maxCapacity := by
  rw [h, Nat.zero_mul]
  exact Nat.zero_le _

/-- An empty section is readable in every build. -/
theorem Descriptor.readable_of_empty (b : Build) (d : Descriptor) {s : Section}
    (h : s.totalCount = 0) : d.Readable b s :=
  ⟨fun hstops => hstops.2.1 h, Section.capacity_of_empty h _⟩

variable [Decoder]

/-- Moves a stream on to a place, if it is before it. -/
def LogicalStream.skipTo (source : ByteSource) (s : LogicalStream) (offset : Nat) :
    SourceM ReadError LogicalStream :=
  if s.position < offset then s.skip source (offset - s.position) else pure s

/-- A read from the stream moves the stream to its place first. -/
theorem ReadProgress.fromStream_eq (r : ReadRequest) (p : ReadProgress)
    (offset destination length : Nat) :
    p.fromStream r offset destination length = (do
      let stream ← p.streamBefore r offset
      let stream ← stream.skipTo r.source offset
      ofExcept (p.checkPart destination length)
      let (bytes, stream) ← stream.readExact r.source length
      ofExcept ({ p with stream := some stream }.write destination bytes)) := by
  refine bind_congr fun stream => ?_
  rw [LogicalStream.skipTo]
  split <;> rfl

/-- What is put into the destination changes nothing else. -/
theorem ReadProgress.eq_of_write {p p' : ReadProgress} {start : Nat} {bytes : Bytes}
    (h : p.write start bytes = .ok p') : ∃ output, p' = { p with output := output } := by
  simp only [write] at h
  split at h <;> cases h
  exact ⟨_, rfl⟩

theorem ReadProgress.eq_of_fillElements {r : ReadRequest} {p p' : ReadProgress}
    {destination run : Nat} (h : p.fillElements r destination run = .ok p') :
    ∃ output, p' = { p with output := output } := by
  simp only [fillElements] at h
  split at h <;> cases h
  exact ⟨_, rfl⟩

/-- Bytes that are what they have to be are put where they belong. -/
theorem ReadProgress.exists_write {p : ReadProgress} {start : Nat} {piece : Bytes}
    (want : Nat → Option UInt8) (hfit : start + piece.size ≤ p.output.size)
    (hpiece : ∀ i, i < piece.size → piece[i]? = want (start + i)) :
    ∃ output, p.write start piece = .ok { p with output := output } ∧
      Bytes.Completes want (fun j => start ≤ j ∧ j < start + piece.size) p.output output := by
  obtain ⟨output, hout, hput⟩ := Bytes.exists_overwrite want hfit hpiece
  exact ⟨output, by simp only [write, hout], hput⟩

/-- Fill values are put where they belong. -/
theorem ReadProgress.exists_fill {r : ReadRequest} {p : ReadProgress} {t : Transfer}
    (want : Nat → Option UInt8)
    (hfit : t.destination * r.descriptor.elementSize + t.runLength * r.descriptor.elementSize ≤
      p.output.size)
    (hwant : ∀ j, t.CoversByte r.descriptor.elementSize j →
      want j = some (byteOfFill r.descriptor.fill (j % r.descriptor.elementSize))) :
    ∃ output, p.fillElements r t.destination t.runLength = .ok { p with output := output } ∧
      Bytes.Completes want (t.CoversByte r.descriptor.elementSize) p.output output := by
  obtain ⟨output, hfill, hput⟩ :=
    exists_fillRuns (fun v hv => r.descriptor.fill_size hv) r.descriptor.elementSize_pos want hfit
      fun j hfrom hto => hwant j ⟨hfrom, hto⟩
  exact ⟨output, by simp only [fillElements, hfill], hput⟩

variable {r : ReadRequest} {s : Section} {plan : TransferPlan} {destination : Bytes} {b : Build}

theorem readSectionInto_of_size_of_start {t : Transfers}
    (hstart : startTransfers b r.descriptor s = .ok t)
    (hsize : destination.size ≠ s.totalCount * r.descriptor.elementSize) :
    readSectionInto r s destination b =
      throw (.destinationSize destination.size (s.totalCount * r.descriptor.elementSize)) := by
  rw [readSectionInto, hstart]
  exact if_pos hsize

theorem readSectionInto_of_start {t : Transfers}
    (hstart : startTransfers b r.descriptor s = .ok t)
    (hsize : destination.size = s.totalCount * r.descriptor.elementSize) :
    readSectionInto r s destination b = (do
      SourceM.report (.readingSection s r.descriptor.layout.name s.totalCount)
      let p ← t.fold b r.descriptor.elementSize s (ReadProgress.execute r) { output := destination }
      p.finish r) := by
  rw [readSectionInto, hstart]
  exact if_neg (not_not_intro hsize)

/-- A read into a destination of the size of the section. -/
theorem readSectionInto_eq_of_fit (hs : s.validate r.descriptor.shape = .ok ())
    (hfit : ¬r.descriptor.Stops b s) (hplan : resolve r.descriptor s = .ok plan)
    (hsize : destination.size = s.totalCount * r.descriptor.elementSize) :
    readSectionInto r s destination b = (do
      SourceM.report (.readingSection s r.descriptor.layout.name s.totalCount)
      let p ← plan.transfers.foldlM (ReadProgress.execute r) { output := destination }
      p.finish r) := by
  obtain ⟨plan', t, hplan', hstart, hyields⟩ := startTransfers_of_fit hs hfit
  rw [hplan] at hplan'
  cases hplan'
  rw [readSectionInto_of_start hstart hsize]
  simp only [hyields.fold_eq]

theorem readSectionInto_eq (hs : s.validate r.descriptor.shape = .ok ())
    (hplan : resolve r.descriptor s = .ok plan)
    (hsize : destination.size = s.totalCount * r.descriptor.elementSize) :
    readSectionInto r s destination = (do
      SourceM.report (.readingSection s r.descriptor.layout.name s.totalCount)
      let p ← plan.transfers.foldlM (ReadProgress.execute r) { output := destination }
      p.finish r) :=
  readSectionInto_eq_of_fit hs (r.descriptor.not_stops s) hplan hsize

/-- A build that stops at a section does so before anything is requested. -/
theorem readSectionInto_of_stops (hs : s.validate r.descriptor.shape = .ok ())
    (hstops : r.descriptor.Stops b s)
    (hsize : destination.size = s.totalCount * r.descriptor.elementSize) (a : Activity) :
    (readSectionInto r s destination b).Halts a .overflow := by
  obtain hstart | ⟨t, hstart, hstuck⟩ := startTransfers_of_stops hs hstops
  · rw [readSectionInto, hstart]
    exact ⟨rfl, rfl, rfl⟩
  · rw [readSectionInto_of_start hstart hsize]
    simp only [hstuck.fold_eq]
    exact ⟨rfl, rfl, a.openings_push _⟩

/-- No stream is opened in a build that stops, whatever the size of the destination. -/
theorem openings_of_stops (hs : s.validate r.descriptor.shape = .ok ())
    (hstops : r.descriptor.Stops b s) (destination : Bytes) (a : Activity) :
    ((readSectionInto r s destination b).outcome a).2.openings = a.openings := by
  by_cases hsize : destination.size = s.totalCount * r.descriptor.elementSize
  · exact (readSectionInto_of_stops hs hstops hsize a).openings_eq
  · obtain hstart | ⟨t, hstart, -⟩ := startTransfers_of_stops hs hstops
    · rw [readSectionInto, hstart]
      rfl
    · rw [readSectionInto_of_size_of_start hstart hsize]
      rfl

/-- A section that does not fit its variable is refused before anything else. -/
theorem readSectionInto_of_invalid {cause : SectionError}
    (hs : s.validate r.descriptor.shape = .error cause) (destination : Bytes) :
    readSectionInto r s destination b = throw (.invalidSection cause) := by
  rw [readSectionInto, startTransfers, hs]
  rfl

/-- A destination that is not of the size of the section is refused next. -/
theorem readSectionInto_of_size_of_fit (hs : s.validate r.descriptor.shape = .ok ())
    (hfit : ¬r.descriptor.Stops b s)
    (hsize : destination.size ≠ s.totalCount * r.descriptor.elementSize) :
    readSectionInto r s destination b =
      throw (.destinationSize destination.size (s.totalCount * r.descriptor.elementSize)) := by
  obtain ⟨plan, t, -, hstart, -⟩ := startTransfers_of_fit hs hfit
  exact readSectionInto_of_size_of_start hstart hsize

theorem readSectionInto_of_size (hs : s.validate r.descriptor.shape = .ok ())
    (hsize : destination.size ≠ s.totalCount * r.descriptor.elementSize) :
    readSectionInto r s destination =
      throw (.destinationSize destination.size (s.totalCount * r.descriptor.elementSize)) :=
  readSectionInto_of_size_of_fit hs (r.descriptor.not_stops s) hsize

/-- A build that does not stop reads as one without checks does. -/
theorem readSectionInto_build (hs : s.validate r.descriptor.shape = .ok ())
    (hfit : ¬r.descriptor.Stops b s) (destination : Bytes) :
    readSectionInto r s destination b = readSectionInto r s destination := by
  obtain ⟨plan, hplan, -⟩ := exists_exact hs
  by_cases hsize : destination.size = s.totalCount * r.descriptor.elementSize
  · rw [readSectionInto_eq_of_fit hs hfit hplan hsize, readSectionInto_eq hs hplan hsize]
  · rw [readSectionInto_of_size_of_fit hs hfit hsize, readSectionInto_of_size hs hsize]

/-- A read into a new destination is a read into one, if it can be had. -/
theorem readSection_stored (hs : s.validate r.descriptor.shape = .ok ())
    (hstored : r.descriptor.layout.isAbsent = false) :
    readSection r s b = (do
      reserve (s.totalCount * r.descriptor.elementSize)
      readSectionInto r s (Bytes.zeros (s.totalCount * r.descriptor.elementSize)) b) := by
  rw [readSection, hs]
  simp only [hstored]
  rfl

/-- Of a variable without data nothing is requested. -/
theorem readSection_absent (hs : s.validate r.descriptor.shape = .ok ())
    (habsent : r.descriptor.layout.isAbsent = true) :
    readSection r s b = (do
      SourceM.report (.readingAbsent s s.totalCount)
      reserve (s.totalCount * r.descriptor.elementSize)
      pure (materialize r.descriptor.elementSize r.descriptor.fill s.totalCount)) := by
  rw [readSection, hs]
  simp only [habsent]
  rfl

theorem readSection_eq (hs : s.validate r.descriptor.shape = .ok ())
    (hstored : r.descriptor.layout.isAbsent = false)
    (hcapacity : s.totalCount * r.descriptor.elementSize ≤ Bytes.maxCapacity) :
    readSection r s b =
      readSectionInto r s (Bytes.zeros (s.totalCount * r.descriptor.elementSize)) b := by
  rw [readSection_stored hs hstored, reserve_of_le hcapacity, pure_bind]

theorem readSection_of_absent (hs : s.validate r.descriptor.shape = .ok ())
    (habsent : r.descriptor.layout.isAbsent = true)
    (hcapacity : s.totalCount * r.descriptor.elementSize ≤ Bytes.maxCapacity) :
    readSection r s b = (do
      SourceM.report (.readingAbsent s s.totalCount)
      pure (materialize r.descriptor.elementSize r.descriptor.fill s.totalCount)) := by
  rw [readSection_absent hs habsent, reserve_of_le hcapacity]
  rfl

/-- Where one has no buffer for the section the program stops. -/
theorem readSection_of_large (hs : s.validate r.descriptor.shape = .ok ())
    (hcapacity : Bytes.maxCapacity < s.totalCount * r.descriptor.elementSize) (a : Activity) :
    (readSection r s b).Halts a (.capacity (s.totalCount * r.descriptor.elementSize)) := by
  cases habsent : r.descriptor.layout.isAbsent with
  | true =>
    rw [readSection_absent hs habsent, reserve_of_lt hcapacity]
    exact ⟨rfl, rfl, a.openings_push _⟩
  | false =>
    rw [readSection_stored hs habsent, reserve_of_lt hcapacity]
    exact ⟨rfl, rfl, rfl⟩

theorem readSection_of_invalid {cause : SectionError}
    (hs : s.validate r.descriptor.shape = .error cause) :
    readSection r s b = throw (.invalidSection cause) := by
  rw [readSection, hs]
  rfl

/-- Whatever the build, a section that is readable is read as in a build without checks. -/
theorem readSection_build (hs : s.validate r.descriptor.shape = .ok ())
    (hread : r.descriptor.Readable b s) : readSection r s b = readSection r s := by
  cases habsent : r.descriptor.layout.isAbsent with
  | true => rw [readSection_of_absent hs habsent hread.2, readSection_of_absent hs habsent hread.2]
  | false =>
    rw [readSection_eq hs habsent hread.2, readSection_eq hs habsent hread.2,
      readSectionInto_build hs hread.1]

/-- A section that is not readable stops the program. -/
theorem readSection_halts (hs : s.validate r.descriptor.shape = .ok ())
    (hread : ¬r.descriptor.Readable b s) (a : Activity) :
    ∃ cause, (readSection r s b).Halts a cause := by
  by_cases hcapacity : s.totalCount * r.descriptor.elementSize ≤ Bytes.maxCapacity
  · have hstops : r.descriptor.Stops b s :=
      Classical.not_not.1 fun hfit => hread ⟨hfit, hcapacity⟩
    have hstored : r.descriptor.layout.isAbsent = false := by
      obtain ⟨-, -, shape, hshape, -⟩ := hstops
      cases hlayout : r.descriptor.layout <;> rw [hlayout] at hshape <;>
        first | rfl | cases hshape
    rw [readSection_eq hs hstored hcapacity]
    exact ⟨_, readSectionInto_of_stops hs hstops (Bytes.size_zeros _) a⟩
  · exact ⟨_, readSection_of_large hs (Nat.lt_of_not_le hcapacity) a⟩

/-- Only a section that fits its variable is read. -/
theorem validate_of_readSection {a : Activity} {bytes : Bytes}
    (h : ((readSection r s b).outcome a).1 = .ok bytes) :
    s.validate r.descriptor.shape = .ok () := by
  cases hs : s.validate r.descriptor.shape with
  | ok _ => rfl
  | error cause =>
    rw [readSection_of_invalid hs] at h
    cases h

/-- Only a section that one has a buffer for is read. -/
theorem capacity_of_readSection {a : Activity} {bytes : Bytes}
    (h : ((readSection r s b).outcome a).1 = .ok bytes) :
    s.totalCount * r.descriptor.elementSize ≤ Bytes.maxCapacity := by
  refine Nat.le_of_not_lt fun hlarge => ?_
  rw [(readSection_of_large (validate_of_readSection h) hlarge a).result_eq] at h
  cases h

end Hyperslab
