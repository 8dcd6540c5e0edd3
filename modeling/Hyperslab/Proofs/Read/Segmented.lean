import Hyperslab.Proofs.Read.Compressed
import Hyperslab.Proofs.Stream.Plain

/-!
# Reads of variables in segments

The elements of a variable in segments follow one another in the string of the bytes of its chain,
wherever one segment ends and the next one begins. A read passes where that string reaches to the
end of the last element selected, and fails where it does not, with the chain that ended.

## Main definitions

- `Section.Last`: the number of the last element that a section selects
- `ReadProgress.Draws`: covered bytes are there, the stream is that of the chain

## Main statements

- `ReadProgress.ends_execute_segmented`: a transfer puts the bytes that it covers there
- `readSection_segmented`: a read of a variable in segments, whatever its options
-/

namespace Hyperslab

variable {d : Descriptor} {s : Section} {segments : List ByteRange} {content : Bytes}
  {source : ByteSource} {options : ReadOptions} {plan : TransferPlan} {t : Transfer}

theorem Descriptor.place?_segmented (h : d.layout = .segmented segments) (index : Index) :
    d.place? index = (ravel? index d.shape).map fun k => .stream (k * d.elementSize) :=
  place?_of_chain (by rw [h]; rfl) index

theorem TransferPlan.Exact.source_of_segmented (h : plan.Exact d s)
    (hlayout : d.layout = .segmented segments) (ht : t ∈ plan.transfers) :
    ∃ offset, t.source = .stream offset := by
  have hchain : d.layout.chain? = some segments := by
    rw [hlayout]
    rfl
  obtain ⟨k, -, hsource⟩ := h.source_of_chain hchain ht
  exact ⟨_, hsource⟩

/-- The source over a content serves the segments of a variable. -/
structure SegmentsServed (d : Descriptor) (segments : List ByteRange) (source : ByteSource)
    (content : Bytes) : Prop where
  layout_eq : d.layout = .segmented segments
  serves : source.Serves content
  within : ChainWithin content segments

/-- A chain that ended before some byte that the section selects. -/
def Exhausted (d : Descriptor) (whole : Bytes) (s : Section) (e : ReadError) : Prop :=
  (∃ position requested, e = .storage (.chainEnded position requested)) ∧
    ∃ j, j < s.totalCount * d.elementSize ∧ d.streamByte? whole s j = none

namespace ReadProgress

/-- The bytes of `done` are there, and the stream, where one is open, is that of the segments. -/
structure Draws (p : ReadProgress) (d : Descriptor) (segments : List ByteRange) (content : Bytes)
    (options : ReadOptions) (s : Section) (done : Nat → Prop) : Prop where
  size_eq : p.output.size = s.totalCount * d.elementSize
  pending_eq : p.pending = none
  onChain : p.OnChain segments options
  settled : ∀ j, done j → p.output[j]? = d.streamByte? (chainBytes content segments) s j

variable {p : ReadProgress} {done : Nat → Prop}

theorem Draws.mono {done' : Nat → Prop} (h : p.Draws d segments content options s done)
    (hdone : ∀ j, done' j → done j) : p.Draws d segments content options s done' :=
  ⟨h.size_eq, h.pending_eq, h.onChain, fun j hj => h.settled j (hdone j hj)⟩

/-- A transfer puts the bytes that it covers there, unless the chain ends before them. -/
theorem ends_execute_segmented (hserved : SegmentsServed d segments source content)
    (hexact : plan.Exact d s) (ht : t ∈ plan.transfers)
    (h : p.Draws d segments content options s done) (a : Activity) :
    SourceM.Ends (p.execute ⟨source, d, options⟩ t) a
      (fun p' _ => p'.Draws d segments content options s
        fun j => done j ∨ t.CoversByte d.elementSize j)
      (fun e _ => Exhausted d (chainBytes content segments) s e) := by
  obtain ⟨offset, hsource⟩ := hexact.source_of_segmented hserved.layout_eq ht
  have hbyte : ∀ i, i < t.runLength * d.elementSize →
      d.streamByte? (chainBytes content segments) s (t.destination * d.elementSize + i) =
        (chainBytes content segments)[offset + i]? :=
    fun _ hi => hexact.streamByte?_eq ht hsource _ hi
  have hfit := hexact.fits ht d.elementSize
  have hlength : 0 < t.runLength * d.elementSize :=
    Nat.mul_pos (hexact.runLength_pos t ht) d.elementSize_pos
  rw [execute, hsource]
  dsimp only
  refine (ends_fromStream_plain (r := ⟨source, d, options⟩) hserved.layout_eq h.onChain offset _ _
    a).mono ?_ ?_
  · rintro p' a' ⟨stream, issued, bytes, hissued, hgot, hsize, -, hat, hwrite⟩
    have hbytes := eq_of_gather hserved.serves.truthful hissued.length_pos
      (hissued.within hserved.within) hgot
    rw [chainBytes_of_offsets hserved.within hissued.offsets] at hbytes
    have hspace : t.destination * d.elementSize + bytes.size ≤
        ({ p with stream := some stream } : ReadProgress).output.size := by
      rw [hsize, h.size_eq]
      exact hfit
    obtain ⟨output, hwrite', hput⟩ := exists_write
        (d.streamByte? (chainBytes content segments) s) hspace fun i hi => by
      rw [hbyte i (hsize ▸ hi)]
      rw [hbytes, Array.size_extract] at hi
      rw [hbytes, Array.getElem?_extract, if_pos hi]
    rw [hsize] at hput
    obtain rfl := Except.ok.inj (hwrite.symm.trans hwrite')
    refine ⟨hput.size_eq.trans h.size_eq, h.pending_eq, ?_, hput.settled h.settled⟩
    intro stream' hstream
    cases hstream
    exact ⟨_, hat⟩
  · intro e a' he
    rcases he (by rw [h.size_eq]; exact hfit) with
      ⟨hlt, hended⟩ | ⟨k, n, issued, range, before, cause, hissued,
        hrange, hcause, -⟩
    · refine ⟨hended, t.destination * d.elementSize + (t.runLength * d.elementSize - 1),
        by omega, ?_⟩
      -- the last byte of the transfer is missing
      rw [hbyte _ (by omega), Array.getElem?_eq_none]
      rw [size_chainBytes hserved.within]
      omega
    · exact absurd hcause (hissued.ne_error hserved.serves hserved.within hrange before cause)

theorem ends_transfers_segmented (hserved : SegmentsServed d segments source content)
    (hexact : plan.Exact d s) {destination : Bytes}
    (hsize : destination.size = s.totalCount * d.elementSize) (a : Activity) :
    SourceM.Ends (plan.transfers.foldlM (execute ⟨source, d, options⟩) { output := destination }) a
      (fun p _ => p.Draws d segments content options s fun j => j < s.totalCount * d.elementSize)
      (fun e _ => Exhausted d (chainBytes content segments) s e) := by
  refine (SourceM.Ends.foldlM (fun front _ p _ => p.Draws d segments content options s
    (CoveredByte front d.elementSize)) ?_ ?_).mono ?_ fun _ _ he => he
  · intro front t back htransfers p a hp
    have ht : t ∈ plan.transfers := by simp [htransfers]
    refine (ends_execute_segmented hserved hexact ht hp a).mono ?_ fun _ _ he => he
    intro p' a' hp'
    exact hp'.mono fun j hj => coveredByte_concat.1 hj
  · refine ⟨hsize, rfl, nofun, ?_⟩
    intro j hj
    exact absurd hj (not_coveredByte_nil _ j)
  · intro p a hp
    exact hp.mono fun j hj => hexact.coveredByte d.elementSize_pos hj

/-- A plain stream has nothing to be compared with. -/
theorem ends_finish_segmented {r : ReadRequest} (h : p.Draws d segments content options s done)
    (a : Activity) :
    SourceM.Ends (p.finish r) a (fun bytes _ => bytes = p.output) (fun _ _ => False) := by
  rw [finish, flush, h.pending_eq, SourceM.ends_bind, SourceM.ends_pure]
  cases hstream : p.stream with
  | none => exact rfl
  | some stream =>
    obtain ⟨k, segmentStream, rfl, -⟩ := h.onChain stream hstream
    exact rfl

end ReadProgress

/-- The computation gives the bytes that have to be there, or the chain ends before one of them. -/
abbrev EndsSegmented (d : Descriptor) (whole : Bytes) (s : Section) (x : SourceM ReadError Bytes)
    (a : Activity) : Prop :=
  SourceM.Ends x a
    (fun bytes _ => bytes.size = s.totalCount * d.elementSize ∧
      ∀ j, j < s.totalCount * d.elementSize → bytes[j]? = d.streamByte? whole s j)
    (fun e _ => Exhausted d whole s e)

theorem ends_readSectionInto_segmented (hserved : SegmentsServed d segments source content)
    (hs : s.validate d.shape = .ok ()) {destination : Bytes}
    (hsize : destination.size = s.totalCount * d.elementSize) (options : ReadOptions)
    (a : Activity) :
    EndsSegmented d (chainBytes content segments) s
      (readSectionInto ⟨source, d, options⟩ s destination) a := by
  obtain ⟨plan, hplan, hexact⟩ := exists_exact hs
  rw [EndsSegmented, readSectionInto_eq (r := ⟨source, d, options⟩) hs hplan hsize,
    SourceM.ends_bind, SourceM.ends_report, SourceM.ends_bind]
  refine (ReadProgress.ends_transfers_segmented hserved hexact hsize _).mono ?_ fun _ _ he => he
  intro p a' hp
  refine (ReadProgress.ends_finish_segmented hp a').mono ?_ fun _ _ he => he.elim
  rintro _ _ rfl
  exact ⟨hp.size_eq, hp.settled⟩

theorem ends_readSection_segmented (hserved : SegmentsServed d segments source content)
    (hs : s.validate d.shape = .ok ())
    (hcapacity : s.totalCount * d.elementSize ≤ Bytes.maxCapacity) (options : ReadOptions)
    (a : Activity) :
    EndsSegmented d (chainBytes content segments) s (readSection ⟨source, d, options⟩ s) a := by
  have hstored : d.layout.isAbsent = false := by
    rw [hserved.layout_eq]
    rfl
  rw [readSection_eq (r := ⟨source, d, options⟩) hs hstored hcapacity]
  exact ends_readSectionInto_segmented hserved hs (Bytes.size_zeros _) options a

/-- Element number `m` of the variable is the last one that the section selects. -/
def Section.Last (s : Section) (shape : Shape) (m : Nat) : Prop :=
  (∃ k, k < s.totalCount ∧ ravel? (s.indexAt k) shape = some m) ∧
    ∀ k i, k < s.totalCount → ravel? (s.indexAt k) shape = some i → i ≤ m

theorem Section.exists_last {shape : Shape} (hs : s.validate shape = .ok ())
    (hne : s.totalCount ≠ 0) : ∃ m, s.Last shape m := by
  have hwithin := within_of_validate hs hne
  refine ⟨rowMajor (s.indexAt (s.totalCount - 1)) shape,
    ⟨s.totalCount - 1, by omega, (below_indexAt hwithin _).ravel?⟩, fun k i hk hi => ?_⟩
  obtain ⟨-, rfl⟩ := ravel?_eq_some_iff.1 hi
  by_cases hlast : k = s.totalCount - 1
  · exact Nat.le_of_eq (by rw [hlast])
  · exact Nat.le_of_lt (rowMajor_indexAt_lt hwithin (by omega) (by omega))

theorem Descriptor.streamByte?_element (hlayout : d.layout = .segmented segments) {whole : Bytes}
    {k i b : Nat} (hi : ravel? (s.indexAt k) d.shape = some i) (hb : b < d.elementSize) :
    d.streamByte? whole s (k * d.elementSize + b) = whole[i * d.elementSize + b]? := by
  rw [streamByte?, mul_add_div_of_lt hb, Nat.mul_add_mod_of_lt hb, place?_segmented hlayout, hi]
  rfl

/-- An element of a section is one of the variable. -/
theorem Section.exists_ravel? {shape : Shape} (hs : s.validate shape = .ok ()) {k : Nat}
    (hk : k < s.totalCount) : ∃ i, ravel? (s.indexAt k) shape = some i :=
  ⟨_, (below_indexAt (within_of_validate hs (by omega)) k).ravel?⟩

/-- A string that reaches to the end of the last element selected has all bytes selected. -/
theorem Descriptor.streamByte?_ne_none (hlayout : d.layout = .segmented segments)
    (hs : s.validate d.shape = .ok ()) {m : Nat} (hlast : s.Last d.shape m) {whole : Bytes}
    (hle : d.elementSize * (m + 1) ≤ whole.size) {j : Nat}
    (hj : j < s.totalCount * d.elementSize) : d.streamByte? whole s j ≠ none := by
  have hk : j / d.elementSize < s.totalCount := Nat.div_lt_of_lt_mul (by rwa [Nat.mul_comm])
  obtain ⟨i, hi⟩ := Section.exists_ravel? hs hk
  have hb := Nat.mod_lt j d.elementSize_pos
  have hbyte : d.streamByte? whole s (j / d.elementSize * d.elementSize + j % d.elementSize) = _ :=
    streamByte?_element hlayout hi hb
  rw [Nat.div_add_mod'] at hbyte
  have hend : i * d.elementSize + j % d.elementSize < (m + 1) * d.elementSize :=
    mul_add_lt_mul (Nat.lt_succ_of_le (hlast.2 _ i hk hi)) hb
  rw [Nat.mul_comm] at hle
  rw [hbyte, Array.getElem?_eq_getElem (by omega)]
  exact Option.some_ne_none _

/-- A string that does not reach to there lacks a byte selected. -/
theorem Descriptor.exists_streamByte?_eq_none (hlayout : d.layout = .segmented segments) {m : Nat}
    (hlast : s.Last d.shape m) {whole : Bytes} (hlt : whole.size < d.elementSize * (m + 1)) :
    ∃ j, j < s.totalCount * d.elementSize ∧ d.streamByte? whole s j = none := by
  obtain ⟨⟨k, hk, hm⟩, -⟩ := hlast
  have hb : d.elementSize - 1 < d.elementSize := Nat.sub_one_lt (Nat.ne_of_gt d.elementSize_pos)
  refine ⟨k * d.elementSize + (d.elementSize - 1), mul_add_lt_mul hk hb, ?_⟩
  rw [streamByte?_element hlayout hm hb, Array.getElem?_eq_none]
  rw [Nat.mul_comm, Nat.add_mul, Nat.one_mul] at hlt
  omega

section Result

variable {whole : Bytes} {x : SourceM ReadError Bytes} {a : Activity}

theorem EndsSegmented.exists_ok (h : EndsSegmented d whole s x a)
    (hall : ∀ j, j < s.totalCount * d.elementSize → d.streamByte? whole s j ≠ none) :
    ∃ bytes : Bytes, (x.outcome a).1 = .ok bytes ∧ bytes.size = s.totalCount * d.elementSize ∧
      ∀ j, j < s.totalCount * d.elementSize → bytes[j]? = d.streamByte? whole s j := by
  rcases h.cases with ⟨bytes, a', houtcome, hbytes⟩ | ⟨e, a', -, -, j, hj, hnone⟩
  · exact ⟨bytes, by rw [houtcome], hbytes⟩
  · exact absurd hnone (hall j hj)

theorem EndsSegmented.exists_error (h : EndsSegmented d whole s x a) {j : Nat}
    (hj : j < s.totalCount * d.elementSize) (hnone : d.streamByte? whole s j = none) :
    ∃ position requested,
      (x.outcome a).1 = .error (.storage (.chainEnded position requested)) := by
  rcases h.cases with ⟨bytes, a', -, hsize, hbytes⟩ | ⟨e, a', houtcome, ⟨position, requested, rfl⟩, -⟩
  · have hbyte := hbytes j hj
    rw [hnone, Array.getElem?_eq_getElem (hsize ▸ hj)] at hbyte
    cases hbyte
  · exact ⟨position, requested, by rw [houtcome]⟩

theorem EndsSegmented.eq_ok (h : EndsSegmented d whole s x a)
    (hall : ∀ j, j < s.totalCount * d.elementSize → d.streamByte? whole s j ≠ none)
    {bytes : Bytes} (hsize : bytes.size = s.totalCount * d.elementSize)
    (hbytes : ∀ j, j < s.totalCount * d.elementSize → bytes[j]? = d.streamByte? whole s j) :
    (x.outcome a).1 = .ok bytes := by
  obtain ⟨bytes', houtcome, hsize', hbytes'⟩ := h.exists_ok hall
  rw [houtcome, Bytes.eq_of_getElem? hsize' hsize fun j hj =>
    (hbytes' j hj).trans (hbytes j hj).symm]

/-- An empty section selects no byte that could be missing. -/
theorem EndsSegmented.of_empty (h : EndsSegmented d whole s x a) (hzero : s.totalCount = 0) :
    (x.outcome a).1 = .ok #[] := by
  have hnone : ∀ j, ¬j < s.totalCount * d.elementSize := by
    intro j
    rw [hzero, Nat.zero_mul]
    exact Nat.not_lt_zero j
  refine h.eq_ok (fun j hj => absurd hj (hnone j)) ?_ fun j hj => absurd hj (hnone j)
  rw [hzero, Nat.zero_mul]
  rfl

end Result

/-- A read of a variable in segments, if the program does not stop, succeeds just where the bytes of
the segments reach to the end of the last element selected. It then gives the bytes of each element
from where the element is among them, whatever its options are, whatever the destination held before
and whatever comes after that element. Else the chain ends too early, and an empty section asks for
nothing of it. The program stops, before any stream is opened, in a build with checks where the step
of the section is no offset, and in every build where a new destination is larger than a buffer can
be. -/
theorem readSection_segmented (d : Descriptor) {segments : List ByteRange}
    (hlayout : d.layout = .segmented segments) {source : ByteSource} {content : Bytes}
    (hserves : source.Serves content)
    (hinside : ∀ segment ∈ segments,
      segment.length = 0 ∨ segment.offset + segment.length ≤ content.size)
    (s : Section) (hs : s.validate d.shape = .ok ()) (b : Build) :
    (¬d.Readable b s → ∀ options a, ∃ cause,
      (readSection ⟨source, d, options⟩ s b).Halts a cause) ∧
    (d.Stops b s → ∀ options a (destination : Bytes),
      destination.size = s.totalCount * d.elementSize →
      (readSectionInto ⟨source, d, options⟩ s destination b).Halts a .overflow) ∧
    (s.totalCount = 0 → ∀ options a,
      ((readSection ⟨source, d, options⟩ s b).outcome a).1 = .ok #[] ∧
      ((readSectionInto ⟨source, d, options⟩ s #[] b).outcome a).1 = .ok #[]) ∧
    (s.totalCount ≠ 0 → ∃ m, s.Last d.shape m ∧
      (d.elementSize * (m + 1) ≤ (chainBytes content segments).size → ∃ bytes : Bytes,
        bytes.size = s.totalCount * d.elementSize ∧
        (∀ k, k < s.totalCount → ∃ i, ravel? (s.indexAt k) d.shape = some i ∧
          ∀ j, j < d.elementSize →
            bytes[k * d.elementSize + j]? =
              (chainBytes content segments)[d.elementSize * i + j]?) ∧
        ∀ options a,
          (d.Readable b s →
            ((readSection ⟨source, d, options⟩ s b).outcome a).1 = .ok bytes) ∧
          (¬d.Stops b s → ∀ destination : Bytes,
            destination.size = s.totalCount * d.elementSize →
            ((readSectionInto ⟨source, d, options⟩ s destination b).outcome a).1 = .ok bytes)) ∧
      ((chainBytes content segments).size < d.elementSize * (m + 1) → ∀ options a,
        (d.Readable b s → ∃ position requested,
          ((readSection ⟨source, d, options⟩ s b).outcome a).1 =
            .error (.storage (.chainEnded position requested))) ∧
        (¬d.Stops b s → ∀ destination : Bytes,
          destination.size = s.totalCount * d.elementSize → ∃ position requested,
            ((readSectionInto ⟨source, d, options⟩ s destination b).outcome a).1 =
              .error (.storage (.chainEnded position requested))))) := by
  have hwithin : ChainWithin content segments := fun segment hsegment hsome =>
    ⟨(hinside segment hsegment).resolve_left hsome, Descriptor.of_segmented hlayout _ hsegment⟩
  have hserved : SegmentsServed d segments source content := ⟨hlayout, hserves, hwithin⟩
  refine ⟨fun hread options a => readSection_halts (r := ⟨source, d, options⟩) hs hread a,
    fun hstops options a destination hsize =>
      readSectionInto_of_stops (r := ⟨source, d, options⟩) hs hstops hsize a, ?_, ?_⟩
  · intro hzero options a
    have hread := d.readable_of_empty b hzero
    rw [readSection_build (r := ⟨source, d, options⟩) hs hread,
      readSectionInto_build (r := ⟨source, d, options⟩) hs hread.1]
    refine ⟨(ends_readSection_segmented hserved hs hread.2 options a).of_empty hzero, ?_⟩
    have hempty : (#[] : Bytes).size = s.totalCount * d.elementSize := by
      rw [hzero, Nat.zero_mul]
      rfl
    exact (ends_readSectionInto_segmented hserved hs hempty options a).of_empty hzero
  · intro hne
    obtain ⟨m, hlast⟩ := Section.exists_last hs hne
    refine ⟨m, hlast, fun hle => ?_, fun hlt options a => ?_⟩
    · have hall : ∀ j, j < s.totalCount * d.elementSize →
          d.streamByte? (chainBytes content segments) s j ≠ none :=
        fun j hj => Descriptor.streamByte?_ne_none hlayout hs hlast hle hj
      have hzeros : (Bytes.zeros (s.totalCount * d.elementSize)).size =
          s.totalCount * d.elementSize :=
        Bytes.size_zeros _
      obtain ⟨bytes, -, hsize, hbytes⟩ :=
        (ends_readSectionInto_segmented hserved hs hzeros {} {}).exists_ok hall
      refine ⟨bytes, hsize, fun k hk => ?_, fun options a =>
        ⟨fun hread => ?_, fun hfit destination hdest => ?_⟩⟩
      · obtain ⟨i, hi⟩ := Section.exists_ravel? hs hk
        refine ⟨i, hi, fun j hj => ?_⟩
        rw [hbytes _ (mul_add_lt_mul hk hj), Descriptor.streamByte?_element hlayout hi hj,
          Nat.mul_comm i]
      · rw [readSection_build (r := ⟨source, d, options⟩) hs hread]
        exact (ends_readSection_segmented hserved hs hread.2 options a).eq_ok hall hsize hbytes
      · rw [readSectionInto_build (r := ⟨source, d, options⟩) hs hfit]
        exact (ends_readSectionInto_segmented hserved hs hdest options a).eq_ok hall hsize hbytes
    · obtain ⟨j, hj, hnone⟩ := Descriptor.exists_streamByte?_eq_none hlayout hlast hlt
      refine ⟨fun hread => ?_, fun hfit destination hdest => ?_⟩
      · rw [readSection_build (r := ⟨source, d, options⟩) hs hread]
        exact (ends_readSection_segmented hserved hs hread.2 options a).exists_error hj hnone
      · rw [readSectionInto_build (r := ⟨source, d, options⟩) hs hfit]
        exact (ends_readSectionInto_segmented hserved hs hdest options a).exists_error hj hnone

/-- Three elements of two bytes, of which two are stored, the second one in two segments. -/
def shortRow : Descriptor :=
  { shape := [3]
    elementSize := 2
    fill := none
    layout := .segmented [⟨1, 3⟩, ⟨9, 0⟩, ⟨5, 1⟩]
    accepted := rfl }

/-- The two elements that the segments reach to are read, and the third one is not. -/
theorem readSection_shortRow :
    chainBytes #[9, 1, 2, 3, 9, 4] [⟨1, 3⟩, ⟨9, 0⟩, ⟨5, 1⟩] = #[1, 2, 3, 4] ∧ ∀ options a,
      ((readSection ⟨.memory #[9, 1, 2, 3, 9, 4], shortRow, options⟩
        ⟨[.contiguous 0 2]⟩).outcome a).1 = .ok #[1, 2, 3, 4] ∧
      ∃ position requested,
        ((readSection ⟨.memory #[9, 1, 2, 3, 9, 4], shortRow, options⟩
          ⟨[.contiguous 0 3]⟩).outcome a).1 =
            .error (.storage (.chainEnded position requested)) := by
  have hindex : ∀ k, k < 2 → ravel? (Section.indexAt ⟨[.contiguous 0 2]⟩ k) [3] = some k := by
    decide
  refine ⟨rfl, fun options a => ⟨?_, ?_⟩⟩
  · obtain ⟨m, ⟨⟨k, hk, hm⟩, -⟩, hok, -⟩ :=
      (readSection_segmented shortRow rfl (ByteSource.serves_memory #[9, 1, 2, 3, 9, 4])
        (by decide) ⟨[.contiguous 0 2]⟩ rfl .wrapping).2.2.2 (by decide)
    have hk : k < 2 := hk
    obtain rfl : m = k := Option.some.inj (hm.symm.trans (hindex k hk))
    obtain ⟨bytes, hsize, hbytes, hread⟩ := hok (by
      show 2 * (m + 1) ≤ 4
      omega)
    have hbyte : ∀ k, k < 2 → ∀ b, b < 2 →
        bytes[k * 2 + b]? = (#[1, 2, 3, 4] : Bytes)[2 * k + b]? := by
      intro k hk b hb
      obtain ⟨i, hi, hbytes⟩ := hbytes k hk
      obtain rfl : i = k := Option.some.inj (hi.symm.trans (hindex k hk))
      exact hbytes b hb
    have heq : bytes = #[1, 2, 3, 4] := by
      refine Bytes.eq_of_getElem? hsize rfl fun j hj => ?_
      have hj : j < 4 := hj
      have hplace : j = j / 2 * 2 + j % 2 := (Nat.div_add_mod' j 2).symm
      have h := hbyte (j / 2) (by omega) (j % 2) (by omega)
      rwa [Nat.mul_comm 2, ← hplace] at h
    rw [← heq]
    exact (hread options a).1 ⟨shortRow.not_stops _, by decide⟩
  · obtain ⟨m, hlast, -, hshort⟩ :=
      (readSection_segmented shortRow rfl (ByteSource.serves_memory #[9, 1, 2, 3, 9, 4])
        (by decide) ⟨[.contiguous 0 3]⟩ rfl .wrapping).2.2.2 (by decide)
    refine (hshort ?_ options a).1 ⟨shortRow.not_stops _, by decide⟩
    show 4 < 2 * (m + 1)
    have := hlast.2 2 2 (by decide) rfl
    omega

/-- One byte more than a buffer can have, of which none is stored. -/
def hugeChain : Descriptor :=
  { shape := [9223372036854775808]
    elementSize := 1
    fill := none
    layout := .segmented []
    accepted := rfl }

/-- The program is stopped by the size of the destination, in every build, and does not come to say
that the chain has ended. -/
theorem readSection_hugeChain :
    (chainBytes #[] []).size = 0 ∧
      Section.validate ⟨[.contiguous 0 9223372036854775808]⟩ hugeChain.shape = .ok () ∧
      ∀ b, (readSection ⟨.memory #[], hugeChain, {}⟩
        ⟨[.contiguous 0 9223372036854775808]⟩ b).Halts {} (.capacity 9223372036854775808) :=
  ⟨rfl, rfl, fun _ => readSection_of_large (r := ⟨.memory #[], hugeChain, {}⟩) rfl (by decide) {}⟩

end Hyperslab
