import Hyperslab.Proofs.Read.Compressed
import Hyperslab.Proofs.Stream.Hollow
import Hyperslab.Record.Reader

/-!
# Warnings of reads

The one warning of a read is that the chain of segments that it reads from holds no data. A variable
with such a chain cannot be read. Whether the read that fails says so depends on what it asks of its
stream first. A decoder asks for bytes in any case. Without a decoder bytes are asked for where the
first element of the section is the first one of the variable; any other element has bytes before it
that are passed over, which fails without a report. A chain without segments and a chain with a byte
are never reported.

## Main definitions

- `Activity.warnings`: the warnings reported
- `StorageLayout.noticesHollow`: a read of a section asks for bytes before it passes any over
- `ReadProgress.IsCalm`: the stream of a read gives no warning

## Main statements

- `ends_readSection_hollow`: a read from a chain without a byte
- `ReadProgress.logs_execute`, `logs_readSection`: reads from any other chain
- `readSection_emptyChain`: the warnings of reads from a chain
-/

namespace Hyperslab

open SourceM

def LogEvent.isWarning (event : LogEvent) : Bool :=
  event.level = .warn

/-- The event is no warning. -/
def LogEvent.IsCalm (event : LogEvent) : Prop :=
  event.isWarning = false

/-- The warnings reported, in order. -/
def Activity.warnings (a : Activity) : List LogEvent :=
  a.log.toList.filter LogEvent.isWarning

theorem SourceM.logs_report {ε : Type} {event : LogEvent} (h : event.isWarning = false) :
    (report event : SourceM ε Unit).Logs LogEvent.IsCalm fun _ => True :=
  .report h

theorem SourceM.Logs.warnings_eq {ε α : Type} {P : α → Prop} {x : SourceM ε α}
    (hx : x.Logs LogEvent.IsCalm P) (a : Activity) : (x.outcome a).2.warnings = a.warnings :=
  hx.filter_eq (fun _ h => h) a

variable {d : Descriptor} {s : Section} {chain : List ByteRange} {source : ByteSource}
  {options : ReadOptions} {r : ReadRequest}

section hollow

/-- Whether a read of a section asks the chain of the layout for bytes before it passes any over:
through a decoder, or as the section starts at the front. -/
def StorageLayout.noticesHollow (layout : StorageLayout) (s : Section) : Bool :=
  layout.encoded?.isSome || s.ranges.all (·.start = 0)

/-- The stream of a layout can be opened: a compressed one has a codec that is known and a declared
length within the limit of the options. -/
def StorageLayout.OpensWith (layout : StorageLayout) (options : ReadOptions) : Prop :=
  ∀ e, layout.encoded? = some e →
    e.length ≤ options.maxDecodedChunkSize ∧ ∃ codec : Codec, codec.id = e.codec

/-- A transfer in which a read opens its stream, and which the stream has nothing for. -/
theorem ReadProgress.fails_fromStream {stream : LogicalStream} {offset length : Nat}
    {output : Bytes} {a b c : Activity}
    (hopen : (LogicalStream.ofLayout r.options r.descriptor.layout).outcome a = (.ok stream, b))
    (hposition : stream.position = 0) (hfit : length ≤ output.size)
    (hskip : 0 < offset → (stream.skip r.source offset).Fails b c)
    (hread : offset = 0 → (stream.readExact r.source length).Fails b c) :
    (ReadProgress.fromStream r { output := output } offset 0 length).Fails a c := by
  have hopened : Ends (LogicalStream.ofLayout r.options r.descriptor.layout) a
      (fun stream' b' => stream' = stream ∧ b' = b) fun _ _ => False := by
    rw [Ends, hopen]
    exact ⟨rfl, rfl⟩
  rw [SourceM.Fails, fromStream_eq, ends_bind]
  refine hopened.mono ?_ fun _ _ hfalse => hfalse.elim
  rintro _ _ ⟨rfl, rfl⟩
  rw [ends_bind, LogicalStream.skipTo, hposition]
  rcases Nat.eq_zero_or_pos offset with rfl | hpos
  · rw [if_neg (Nat.lt_irrefl 0), ends_pure, ends_bind, checkPart, if_pos (by simpa using hfit),
      ends_ofExcept_ok, ends_bind]
    exact (hread rfl).ends fun _ => rfl
  · rw [if_pos hpos, Nat.sub_zero]
    exact (hskip hpos).ends fun _ => rfl

theorem StorageLayout.eq_segmented {layout : StorageLayout} (hchain : layout.chain? = some chain)
    (hplain : layout.encoded? = none) : layout = .segmented chain := by
  cases layout <;> cases hplain <;> cases hchain
  rfl

/-- The first transfer of a read from a chain with segments and no byte. The opening of the stream
is reported before it fails. -/
theorem ReadProgress.fails_fromStream_hollow (hchain : d.layout.chain? = some chain)
    (hne : chain ≠ []) (hzero : ∀ segment ∈ chain, segment.length = 0)
    (hopen : d.layout.OpensWith options) (source : ByteSource) (offset : Nat) {length : Nat}
    {output : Bytes} (hlength : 0 < length) (hfit : length ≤ output.size) (a : Activity) :
    ∃ opening : LogEvent, opening.isWarning = false ∧
      (ReadProgress.fromStream ⟨source, d, options⟩ { output := output } offset 0 length).Fails a
        (if d.layout.encoded?.isSome || offset = 0 then
          Activity.reportEmpty { a with log := a.log.push opening } chain.length
        else { a with log := a.log.push opening }) := by
  have hollow := SegmentStream.hollow_ofChain hne hzero options
  cases hencoded : d.layout.encoded? with
  | none =>
    have hopened : (LogicalStream.ofLayout options d.layout).outcome a =
        (.ok (.plain (.ofChain chain options)),
          { a with log := a.log.push (.openingStream chain.length) }) := by
      rw [StorageLayout.eq_segmented hchain hencoded]
      rfl
    refine ⟨.openingStream chain.length, rfl, ?_⟩
    refine fails_fromStream (r := ⟨source, d, options⟩) hopened rfl hfit ?_ ?_
    · intro hpos
      rw [Option.isSome_none, Bool.false_or, if_neg (by simpa using Nat.ne_of_gt hpos)]
      exact LogicalStream.fails_skip_plain hollow source hpos _
    · rintro rfl
      exact LogicalStream.fails_readExact_plain hollow hlength _
  | some e =>
    obtain ⟨hlimit, codec, hcodec⟩ := hopen e hencoded
    have hsegments := StorageLayout.chain?_of_encoded hencoded
    obtain rfl := Option.some.inj (hchain.symm.trans hsegments)
    have hsize : checkDecodedSize e.length options = .ok () := if_neg (Nat.not_lt.2 hlimit)
    have hopened : (LogicalStream.ofLayout options d.layout).outcome a =
        (.ok (.decoded (.ofPayload codec (.chain (.ofChain e.segments options))) 0 e.length),
          { a with log := a.log.push (.openingDecoded e.segments.length codec.id e.length) }) := by
      rw [LogicalStream.ofLayout_encoded hencoded, LogicalStream.ofSegments, hsize,
        findCodec_of_id hcodec]
      rfl
    refine ⟨.openingDecoded e.segments.length codec.id e.length, rfl, ?_⟩
    refine fails_fromStream (r := ⟨source, d, options⟩) hopened rfl hfit ?_ ?_
    · intro hpos
      exact LogicalStream.fails_skip_decoded hollow codec 0 e.length hpos _
    · rintro rfl
      exact LogicalStream.fails_readExact_decoded hollow codec 0 e.length hlength _

/-- A read from a chain with segments and no byte fails without a request. The chain is reported
once, or not at all where bytes are passed over first. -/
theorem ends_readSection_hollow (hchain : d.layout.chain? = some chain) (hne : chain ≠ [])
    (hzero : ∀ segment ∈ chain, segment.length = 0) (hopen : d.layout.OpensWith options)
    (hs : s.validate d.shape = .ok ()) (hcount : s.totalCount ≠ 0)
    (hcapacity : s.totalCount * d.elementSize ≤ Bytes.maxCapacity) (source : ByteSource)
    (a : Activity) :
    Ends (readSection ⟨source, d, options⟩ s) a (fun _ _ => False)
      (fun _ a' => a'.requests = a.requests ∧
        a'.warnings = a.warnings ++
          if d.layout.noticesHollow s then [.emptyChain chain.length] else []) := by
  have hfront := Section.rowMajor_indexAt_zero_iff (Section.within_of_validate hs hcount)
  refine ends_readSection_of_first (r := ⟨source, d, options⟩) hchain hs hcount hcapacity a ?_
  intro length hlength hfit
  rw [← Bytes.size_zeros (s.totalCount * _)] at hfit
  obtain ⟨opening, hopening, hfails⟩ := ReadProgress.fails_fromStream_hollow hchain hne hzero
    hopen source (rowMajor (s.indexAt 0) d.shape * d.elementSize) hlength hfit
    { a with log := a.log.push (.readingSection s d.layout.name s.totalCount) }
  have hoffset : rowMajor (s.indexAt 0) d.shape * d.elementSize = 0 ↔
      ∀ range ∈ s.ranges, range.start = 0 := by
    rw [Nat.mul_eq_zero, hfront, or_iff_left (Nat.ne_of_gt d.elementSize_pos)]
  have hnotices : (d.layout.encoded?.isSome ||
      rowMajor (s.indexAt 0) d.shape * d.elementSize = 0) = d.layout.noticesHollow s := by
    rw [Bool.eq_iff_iff, StorageLayout.noticesHollow]
    simp only [Bool.or_eq_true, decide_eq_true_eq, hoffset, List.all_eq_true]
  rw [hnotices] at hfails
  refine hfails.ends fun _ => ?_
  -- neither the section read nor the stream opened is a warning
  have hreading : LogEvent.isWarning (.readingSection s d.layout.name s.totalCount) = false := rfl
  have hempty : LogEvent.isWarning (.emptyChain chain.length) = true := rfl
  split
  all_goals
    refine ⟨rfl, ?_⟩
    simp [Activity.warnings, Activity.reportEmpty, hreading, hopening, hempty]

end hollow

section calm

variable {p : ReadProgress} {t : Transfer}

/-- A stream is opened without a warning, and gives none later where its chain has a byte or no
segments. -/
theorem LogicalStream.logs_ofLayout {layout : StorageLayout} (hchain : layout.chain? = some chain)
    (h : chain = [] ∨ chainLength chain ≠ 0) (options : ReadOptions) :
    (ofLayout options layout).Logs LogEvent.IsCalm (Reports LogEvent.IsCalm) := by
  have hreports := SegmentStream.reports_ofChain (p := LogEvent.IsCalm) h options
  cases hencoded : layout.encoded? with
  | none =>
    rw [StorageLayout.eq_segmented hchain hencoded]
    exact (logs_report rfl).bind fun _ _ => .pure hreports
  | some e =>
    have hsegments := StorageLayout.chain?_of_encoded hencoded
    obtain rfl := Option.some.inj (hchain.symm.trans hsegments)
    rw [ofLayout_encoded hencoded]
    refine (Logs.check _).bind fun _ _ => (Logs.check _).bind fun codec _ => ?_
    refine (logs_report rfl).bind fun _ _ => .pure ?_
    exact DecodedStream.reports_ofPayload codec hreports

theorem LogicalStream.logs_skipTo {stream : LogicalStream} (h : stream.Reports LogEvent.IsCalm)
    (offset : Nat) :
    (stream.skipTo source offset).Logs LogEvent.IsCalm (Reports LogEvent.IsCalm) := by
  rw [skipTo]
  split
  · exact logs_skip h _
  · exact .pure h

namespace ReadProgress

/-- The stream of the read, where one is open, gives no warning. -/
def IsCalm (p : ReadProgress) : Prop :=
  ∀ stream, p.stream = some stream → stream.Reports LogEvent.IsCalm

theorem IsCalm.of_stream_eq {p' : ReadProgress} (h : p.IsCalm) (heq : p'.stream = p.stream) :
    p'.IsCalm := by
  rw [IsCalm, heq]
  exact h

theorem logs_streamBefore (hchain : r.descriptor.layout.chain? = some chain)
    (hfull : chain = [] ∨ chainLength chain ≠ 0) (h : p.IsCalm) (offset : Nat) :
    (p.streamBefore r offset).Logs LogEvent.IsCalm (LogicalStream.Reports LogEvent.IsCalm) := by
  have hfresh := LogicalStream.logs_ofLayout hchain hfull r.options
  rw [streamBefore]
  split
  · split
    · exact hfresh
    · exact .pure (h _ ‹_›)
  · exact hfresh

/-- A transfer from a chain with a byte or without segments keeps a read calm. -/
theorem logs_execute (hchain : r.descriptor.layout.chain? = some chain)
    (hfull : chain = [] ∨ chainLength chain ≠ 0) (h : p.IsCalm) {offset : Nat}
    (hsource : t.source = .stream offset) : (p.execute r t).Logs LogEvent.IsCalm IsCalm := by
  rw [execute, hsource]
  dsimp only
  rw [fromStream_eq]
  refine (logs_streamBefore hchain hfull h offset).bind fun stream hstream => ?_
  refine (LogicalStream.logs_skipTo hstream offset).bind fun stream' hstream' => ?_
  refine (Logs.check _).bind fun _ _ => ?_
  refine (LogicalStream.logs_readExact hstream' _).bind ?_
  rintro ⟨bytes, stream''⟩ hstream''
  refine .ofExcept fun p' hwrite => ?_
  intro last hlast
  rw [stream_of_write hwrite] at hlast
  cases hlast
  exact hstream''

theorem logs_finish (h : p.IsCalm) : (p.finish r).Logs LogEvent.IsCalm fun _ => True := by
  refine (logs_flush r p).bind fun p' hstream => ?_
  have hcalm := h.of_stream_eq hstream
  split
  · exact (LogicalStream.logs_finish (hcalm _ ‹_›)).bind fun _ _ => .pure trivial
  · exact .pure trivial

end ReadProgress

/-- A read into a destination gives no warning where its chain has a byte or no segments, whatever
it comes to. -/
theorem logs_readSectionInto (hchain : r.descriptor.layout.chain? = some chain)
    (hfull : chain = [] ∨ chainLength chain ≠ 0) (s : Section) (destination : Bytes) :
    (readSectionInto r s destination).Logs LogEvent.IsCalm fun _ => True := by
  cases hs : s.validate r.descriptor.shape with
  | error cause =>
    rw [readSectionInto_of_invalid hs]
    exact .throw _
  | ok _ =>
    by_cases hsize : destination.size = s.totalCount * r.descriptor.elementSize
    · have hlinear := StorageLayout.isLinear_of_chain hchain
      obtain ⟨plan, hplan⟩ := exists_plan_linear hlinear hs
      have hexact := exact_of_resolve_linear hlinear hs hplan
      have hrun : (plan.transfers.foldlM (ReadProgress.execute r)
          { output := destination }).Logs LogEvent.IsCalm ReadProgress.IsCalm := by
        refine .foldlM ?_ nofun
        intro t ht p hp
        obtain ⟨k, -, hsource⟩ := hexact.source_of_chain hchain ht
        exact ReadProgress.logs_execute hchain hfull hp hsource
      rw [readSectionInto_eq hs hplan hsize]
      refine (logs_report rfl).bind fun _ _ => ?_
      exact hrun.bind fun p hp => ReadProgress.logs_finish hp
    · rw [readSectionInto_of_size hs hsize]
      exact .throw _

theorem logs_readSection (hchain : r.descriptor.layout.chain? = some chain)
    (hfull : chain = [] ∨ chainLength chain ≠ 0) (s : Section) :
    (readSection r s).Logs LogEvent.IsCalm fun _ => True := by
  cases hs : s.validate r.descriptor.shape with
  | error cause =>
    rw [readSection_of_invalid hs]
    exact .throw _
  | ok _ =>
    have hlinear := StorageLayout.isLinear_of_chain hchain
    rw [readSection_stored hs (StorageLayout.isAbsent_of_isLinear hlinear)]
    exact (Logs.check _).bind fun _ _ => logs_readSectionInto hchain hfull s _

/-- A field is read from whole records. -/
theorem RecordReader.logs_readField (reader : RecordReader)
    (hchain : reader.descriptor.layout.chain? = some chain)
    (hfull : chain = [] ∨ chainLength chain ≠ 0) (s : Section) (name : String) :
    (reader.readField s name).Logs LogEvent.IsCalm fun _ => True := by
  have haddressed : reader.descriptor.layout.isDirectlyAddressable = false := by
    cases hlayout : reader.descriptor.layout <;> rw [hlayout] at hchain <;>
      first | rfl | cases hchain
  rw [readField]
  split
  · exact .throw _
  · split
    · exact .pure trivial
    · rw [haddressed, if_neg Bool.false_ne_true]
      exact (logs_readSection hchain hfull s).bind fun _ _ => .check _

end calm

/-- The warnings of reads from a chain. A chain with segments and no byte fails every read that
selects something, without a request, and is reported once; but not at all by a read that passes
bytes over before it asks for any, nor where there is no destination to read into. No other chain is
ever reported, by a read of any kind. -/
theorem readSection_emptyChain (d : Descriptor) {chain : List ByteRange}
    (hchain : d.layout.chain? = some chain) (source : ByteSource) (options : ReadOptions) :
    (chain ≠ [] → (∀ segment ∈ chain, segment.length = 0) → d.layout.OpensWith options →
      ∀ s, s.validate d.shape = .ok () → s.totalCount ≠ 0 → ∀ a,
        ∃ e a', (readSection ⟨source, d, options⟩ s).outcome a = (.error e, a') ∧
          a'.requests = a.requests ∧
          a'.warnings = a.warnings ++
            if s.totalCount * d.elementSize ≤ Bytes.maxCapacity ∧ d.layout.noticesHollow s then
              [.emptyChain chain.length]
            else []) ∧
    ((chain = [] ∨ ∃ segment ∈ chain, segment.length ≠ 0) → ∀ a,
      (∀ s, ((readSection ⟨source, d, options⟩ s).outcome a).2.warnings = a.warnings) ∧
      (∀ s destination,
        ((readSectionInto ⟨source, d, options⟩ s destination).outcome a).2.warnings =
          a.warnings) ∧
      (∀ sections,
        ((readSections ⟨source, d, options⟩ sections).outcome a).2.warnings = a.warnings) ∧
      ∀ (reader : RecordReader) (s : Section) (name : String),
        reader.toReadRequest = ⟨source, d, options⟩ →
          ((reader.readField s name).outcome a).2.warnings = a.warnings) := by
  constructor
  -- a read from the chain fails in its first transfer
  · intro hne hzero hopen s hs hcount a
    by_cases hcapacity : s.totalCount * d.elementSize ≤ Bytes.maxCapacity
    · have hends := ends_readSection_hollow hchain hne hzero hopen hs hcount hcapacity source a
      rcases hends.cases with ⟨_, _, -, himpossible⟩ | ⟨e, a', houtcome, hobserved⟩
      · exact himpossible.elim
      · simp only [hcapacity, true_and]
        exact ⟨e, a', houtcome, hobserved⟩
    · have hstored := StorageLayout.isAbsent_of_isLinear (StorageLayout.isLinear_of_chain hchain)
      rw [readSection_stored (r := ⟨source, d, options⟩) hs hstored,
        reserve_of_lt (Nat.lt_of_not_le hcapacity)]
      refine ⟨_, _, rfl, rfl, ?_⟩
      rw [if_neg fun h => hcapacity h.1, List.append_nil]
  -- streams of other chains have nothing to report, so no read has
  · intro h a
    have hfull : chain = [] ∨ chainLength chain ≠ 0 := by
      refine h.imp_right ?_
      rintro ⟨segment, hsegment, hlength⟩ hzero
      exact hlength (chainLength_eq_zero_iff.1 hzero segment hsegment)
    have hsection := logs_readSection (r := ⟨source, d, options⟩) hchain hfull
    refine ⟨?_, ?_, ?_, ?_⟩
    · exact fun s => (hsection s).warnings_eq a
    · intro s destination
      have hlogs := logs_readSectionInto (r := ⟨source, d, options⟩) hchain hfull s destination
      exact hlogs.warnings_eq a
    · intro sections
      have hlogs : (readSections ⟨source, d, options⟩ sections).Logs LogEvent.IsCalm fun _ => True :=
        .mapM fun s _ => hsection s
      exact hlogs.warnings_eq a
    · intro reader s name hreader
      have hread : reader.descriptor.layout.chain? = some chain := by
        rw [hreader]
        exact hchain
      exact (reader.logs_readField hread hfull s name).warnings_eq a

/-- A variable of four elements, in two segments without a byte. -/
def hollowRow : Descriptor :=
  { shape := [4]
    elementSize := 1
    fill := none
    layout := .segmented [⟨8, 0⟩, ⟨16, 0⟩]
    accepted := rfl }

/-- A read from the front reports that there is nothing. -/
theorem readSection_hollowRow_front :
    ∃ e a', (readSection ⟨.memory #[], hollowRow, {}⟩ ⟨[.contiguous 0 4]⟩).outcome {} =
        (.error e, a') ∧ a'.requests = #[] ∧
      a'.warnings.map LogEvent.line =
        ["WARN Segment chain of 2 segments holds no data. Reporting end of stream."] := by
  obtain ⟨e, a', houtcome, hrequests, hwarnings⟩ :=
    (readSection_emptyChain hollowRow rfl (.memory #[]) {}).1 (by decide) (by decide) nofun
      ⟨[.contiguous 0 4]⟩ rfl (by decide) {}
  refine ⟨e, a', houtcome, hrequests, ?_⟩
  rw [hwarnings]
  rfl

/-- A read of the second element selects something of the variable, and fails without a word. -/
theorem readSection_hollowRow_second :
    Section.validate ⟨[.contiguous 1 1]⟩ hollowRow.shape = .ok () ∧
      Section.totalCount ⟨[.contiguous 1 1]⟩ = 1 ∧
      ∃ a', (readSection ⟨.memory #[], hollowRow, {}⟩ ⟨[.contiguous 1 1]⟩).outcome {} =
          (.error (.storage (.chainEnded 0 1)), a') ∧ a'.warnings = [] :=
  ⟨rfl, rfl, _, rfl, rfl⟩

end Hyperslab
