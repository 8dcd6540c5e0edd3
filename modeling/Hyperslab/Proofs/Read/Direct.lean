import Hyperslab.Codec.Deflate.Stream
import Hyperslab.Proofs.Bytes
import Hyperslab.Proofs.Read.Section
import Hyperslab.Proofs.Resolve.Exact
import Hyperslab.Proofs.Source

/-!
# Reads of directly addressed variables

A read that joins its requests puts them off: fill values are written and further transfers are
carried out before the bytes of a request come, and the last request is issued when the read
finishes. What a byte of the destination has to be is a function of its position alone, so the order
does not matter. After some transfers each byte that they cover is either what it has to be, or
still to come with the request that was put off.

## Main definitions

- `Descriptor.elementByte?`: what a byte of an element has to be
- `Descriptor.StoredIn`: all that a section selects lies inside of the content
- `ReadProgress.Settles`: covered bytes are there or still to come

## Main statements

- `ReadProgress.ends_execute_direct`: a transfer settles the bytes that it covers
- `readSection_direct`: a read of a directly addressed variable, whatever its options
-/

namespace Hyperslab

/-- The byte at offset `b` of the element at an index: that of the content where the element is
stored, if the content has it, and that of the fill value where it is not. -/
def Descriptor.elementByte? (d : Descriptor) (content : Bytes) (index : Index) (b : Nat) :
    Option UInt8 :=
  match d.place? index with
  | some (.direct offset) => content[offset + b]?
  | some .fill => some (byteOfFill d.fill b)
  | _ => none

/-- Each selected element that is stored lies inside of the content. -/
def Descriptor.StoredIn (d : Descriptor) (content : Bytes) (s : Section) : Prop :=
  ∀ k offset, k < s.totalCount → d.place? (s.indexAt k) = some (.direct offset) →
    offset + d.elementSize ≤ content.size

/-- The offset in the byte source of the byte at position `j` of the destination. -/
def Descriptor.byteOffset? (d : Descriptor) (s : Section) (j : Nat) : Option Nat :=
  match d.place? (s.indexAt (j / d.elementSize)) with
  | some (.direct offset) => some (offset + j % d.elementSize)
  | _ => none

/-- What the byte at position `j` of the destination has to be. -/
def Descriptor.byteAt? (d : Descriptor) (content : Bytes) (s : Section) (j : Nat) : Option UInt8 :=
  d.elementByte? content (s.indexAt (j / d.elementSize)) (j % d.elementSize)

/-- The request writes byte `j` of the destination. -/
def PendingRead.Covers (q : PendingRead) (j : Nat) : Prop :=
  q.destination ≤ j ∧ j < q.destination + q.length

/-- The request is for bytes that belong where it writes them. -/
structure PendingRead.Leads (q : PendingRead) (d : Descriptor) (s : Section) : Prop where
  length_pos : 0 < q.length
  inside : q.destination + q.length ≤ s.totalCount * d.elementSize
  offset_eq : ∀ i, i < q.length → d.byteOffset? s (q.destination + i) = some (q.offset + i)

variable {d : Descriptor} {s : Section} {content : Bytes}

namespace Descriptor

theorem byteAt?_of_byteOffset? {j offset : Nat} (h : d.byteOffset? s j = some offset) :
    d.byteAt? content s j = content[offset]? := by
  unfold byteOffset? at h
  unfold byteAt? elementByte?
  split at h
  · cases h
    simp [*]
  · cases h

theorem byteOffset?_lt {j offset : Nat} (h : d.byteOffset? s j = some offset) :
    offset < maxOffset := by
  unfold byteOffset? at h
  split at h
  · rename_i hplace
    cases h
    have hle := place_le hplace
    have hlt := Nat.mod_lt j d.elementSize_pos
    omega
  · cases h

theorem StoredIn.byteOffset?_lt {j offset : Nat} (hstored : d.StoredIn content s)
    (hj : j < s.totalCount * d.elementSize) (h : d.byteOffset? s j = some offset) :
    offset < content.size := by
  unfold byteOffset? at h
  split at h
  · rename_i hplace
    cases h
    have hle := hstored _ _ (Nat.div_lt_of_lt_mul (by rwa [Nat.mul_comm])) hplace
    have hlt := Nat.mod_lt j d.elementSize_pos
    omega
  · cases h

theorem byteAt?_element {k b : Nat} (hb : b < d.elementSize) :
    d.byteAt? content s (k * d.elementSize + b) = d.elementByte? content (s.indexAt k) b := by
  rw [byteAt?, mul_add_div_of_lt hb, Nat.mul_add_mod_of_lt hb]

/-- A section each byte of which is known is stored. -/
theorem storedIn_of_bytes {bytes : Bytes} (hsize : bytes.size = s.totalCount * d.elementSize)
    (hbytes : ∀ j, j < s.totalCount * d.elementSize → bytes[j]? = d.byteAt? content s j) :
    d.StoredIn content s := by
  intro k offset hk hplace
  -- the last byte of the element
  have hb : d.elementSize - 1 < d.elementSize := Nat.sub_one_lt (Nat.ne_of_gt d.elementSize_pos)
  have hlast := mul_add_lt_mul hk hb
  have hne : d.byteAt? content s (k * d.elementSize + (d.elementSize - 1)) ≠ none := by
    rw [← hbytes _ hlast, Array.getElem?_eq_getElem (hsize ▸ hlast)]
    exact Option.some_ne_none _
  rw [byteAt?_element hb, elementByte?, hplace] at hne
  have hlt : ¬content.size ≤ offset + (d.elementSize - 1) := by
    intro hle
    exact hne (Array.getElem?_eq_none hle)
  omega

end Descriptor

theorem PendingRead.Leads.extend {q q' : PendingRead} (h : q.Leads d s)
    (h' : q'.Leads d s) (hoffset : q.offset + q.length = q'.offset)
    (hdestination : q.destination + q.length = q'.destination) :
    PendingRead.Leads { q with length := q.length + q'.length } d s := by
  refine ⟨Nat.lt_of_lt_of_le h.length_pos (Nat.le_add_right _ _), ?_, ?_⟩
  · have := h'.inside
    show q.destination + (q.length + q'.length) ≤ _
    omega
  · intro i hi
    dsimp only at hi ⊢
    by_cases hlt : i < q.length
    · exact h.offset_eq i hlt
    · have := h'.offset_eq (i - q.length) (by omega)
      rwa [← hoffset, ← hdestination, Nat.add_assoc, Nat.add_sub_cancel' (by omega), Nat.add_assoc,
        Nat.add_sub_cancel' (by omega)] at this

/-- The refusal of a request by a source in memory, which comes up only where the content does not
have all of a section. -/
def Refused (d : Descriptor) (content : Bytes) (s : Section) (e : ReadError) : Prop :=
  (∃ range, e = .storage (.invalidRange range content.size)) ∧ ¬d.StoredIn content s

namespace ReadProgress

variable [Decoder]

/-- The bytes of `done` are what they have to be, unless the request that was put off brings them. -/
structure Settles (p : ReadProgress) (d : Descriptor) (content : Bytes) (s : Section)
    (done : Nat → Prop) : Prop where
  size_eq : p.output.size = s.totalCount * d.elementSize
  stream_eq : p.stream = none
  leads : ∀ q, p.pending = some q → q.Leads d s
  settled : ∀ j, done j → (∃ q, p.pending = some q ∧ q.Covers j) ∨
    p.output[j]? = d.byteAt? content s j

variable {options : ReadOptions} {p : ReadProgress} {done : Nat → Prop}

/-- A request is answered with the bytes that belong where it writes them, or refused. -/
theorem ends_fetchInto_memory {q : PendingRead} (hq : q.Leads d s)
    (hsize : p.output.size = s.totalCount * d.elementSize) (a : Activity) :
    SourceM.Ends (p.fetchInto ⟨.memory content, d, options⟩ q.offset q.destination q.length) a
      (fun p' _ => p'.stream = p.stream ∧ p'.pending = p.pending ∧
        Bytes.Completes (d.byteAt? content s) q.Covers p.output p'.output)
      (fun e _ => Refused d content s e) := by
  have hpos := hq.length_pos
  have hinside := hq.inside
  have hlast := hq.offset_eq (q.length - 1) (by omega)
  -- the last byte asked for is one of an element, which ends at an offset
  have hmax : q.offset + q.length ≤ maxOffset := by
    have hlt := Descriptor.byteOffset?_lt hlast
    omega
  rw [fetchInto, checkPart, if_pos (by rw [hsize]; exact hinside)]
  rw [SourceM.ends_bind, SourceM.ends_ofExcept_ok, SourceM.ends_bind, SourceM.ends_mapError]
  have hanswer : (ByteSource.memory content).readInto a.requests.toList ⟨q.offset, q.length⟩ = _ :=
    ByteSource.memory_readInto hmax
  dsimp only at hanswer
  by_cases hle : q.offset + q.length ≤ content.size
  · rw [if_pos hle] at hanswer
    rw [SourceM.ends_fetchExactly_of_ok hanswer]
    have hpiece : (content.extract q.offset (q.offset + q.length)).size = q.length := by
      rw [Array.size_extract]
      omega
    obtain ⟨output, hwrite, hput⟩ :=
      p.exists_write (d.byteAt? content s) (by rw [hpiece, hsize]; exact hinside) fun i hi => by
        rw [hpiece] at hi
        rw [Descriptor.byteAt?_of_byteOffset? (hq.offset_eq i hi),
          Array.getElem?_extract_of_lt (by omega)]
        exact (Array.getElem?_eq_getElem _).symm
    rw [hpiece] at hput
    rw [hwrite, SourceM.ends_ofExcept_ok]
    exact ⟨rfl, rfl, hput⟩
  · rw [if_neg hle] at hanswer
    rw [SourceM.ends_fetchExactly_of_error hanswer]
    refine ⟨⟨_, rfl⟩, fun hstored => ?_⟩
    have hlt := hstored.byteOffset?_lt (by omega) hlast
    omega

theorem Settles.mono {done' : Nat → Prop} (h : p.Settles d content s done)
    (hdone : ∀ j, done' j → done j) : p.Settles d content s done' :=
  ⟨h.size_eq, h.stream_eq, h.leads, fun j hj => h.settled j (hdone j hj)⟩

/-- Once nothing is put off any more, all covered bytes are there. -/
theorem ends_flush_memory (h : p.Settles d content s done) (a : Activity) :
    SourceM.Ends (p.flush ⟨.memory content, d, options⟩) a
      (fun p' _ => p'.Settles d content s done ∧ p'.pending = none)
      (fun e _ => Refused d content s e) := by
  rw [flush]
  cases hpending : p.pending with
  | none => exact ⟨h, hpending⟩
  | some q =>
    refine (ends_fetchInto_memory (p := { p with pending := none }) (h.leads q hpending) h.size_eq
      a).mono ?_ fun _ _ he => he
    rintro p' a' ⟨hstream, hnone, hput⟩
    refine ⟨⟨hput.size_eq.trans h.size_eq, hstream.trans h.stream_eq, ?_, ?_⟩, hnone⟩
    · intro q' hq'
      rw [hnone] at hq'
      cases hq'
    · intro j hj
      rcases h.settled j hj with ⟨q', hq', hin⟩ | hthere
      · rw [hpending] at hq'
        cases hq'
        exact .inr (hput.inside j hin)
      · exact .inr (hput.kept j hthere)

/-- Where nothing was put off, a request may be. -/
theorem Settles.putOff (h : p.Settles d content s done) (hnone : p.pending = none)
    {q : PendingRead} (hq : q.Leads d s) :
    Settles { p with pending := some q } d content s fun j => done j ∨ q.Covers j := by
  refine ⟨h.size_eq, h.stream_eq, ?_, ?_⟩
  · intro q' hq'
    cases hq'
    exact hq
  · rintro j (hj | hin)
    · rcases h.settled j hj with ⟨q', hq', -⟩ | hthere
      · rw [hnone] at hq'
        cases hq'
      · exact .inr hthere
    · exact .inl ⟨q, rfl, hin⟩

/-- A request that was put off may be joined with one that follows it. -/
theorem Settles.join (h : p.Settles d content s done) {q₀ q : PendingRead}
    (hpending : p.pending = some q₀) (hq : q.Leads d s) (hoffset : q₀.offset + q₀.length = q.offset)
    (hdestination : q₀.destination + q₀.length = q.destination) :
    Settles { p with pending := some { q₀ with length := q₀.length + q.length } } d content s
      fun j => done j ∨ q.Covers j := by
  refine ⟨h.size_eq, h.stream_eq, ?_, ?_⟩
  · intro q' hq'
    cases hq'
    exact (h.leads q₀ hpending).extend hq hoffset hdestination
  · rintro j (hj | ⟨hfrom, hto⟩)
    · rcases h.settled j hj with ⟨q', hq', hin⟩ | hthere
      · rw [hpending] at hq'
        cases hq'
        exact .inl ⟨_, rfl, hin.1, Nat.lt_of_lt_of_le hin.2 (by dsimp only; omega)⟩
      · exact .inr hthere
    · refine .inl ⟨_, rfl, ?_, ?_⟩ <;> dsimp only <;> omega

/-- A direct read is carried out, or put off. -/
theorem ends_direct_memory (h : p.Settles d content s done) {q : PendingRead} (hq : q.Leads d s)
    (a : Activity) :
    SourceM.Ends (p.direct ⟨.memory content, d, options⟩ q.offset q.destination q.length) a
      (fun p' _ => p'.Settles d content s fun j => done j ∨ q.Covers j)
      (fun e _ => Refused d content s e) := by
  rw [direct]
  by_cases hcoalesce : options.coalesceDirectReads = true
  · rw [if_pos hcoalesce]
    split
    · rename_i read hread
      obtain ⟨q₀, hpending, hextend⟩ := Option.bind_eq_some_iff.1 hread
      rw [PendingRead.extend?] at hextend
      split at hextend
      · rename_i hadjacent
        cases hextend
        exact h.join hpending hq hadjacent.1 hadjacent.2
      · cases hextend
    · rw [SourceM.ends_bind]
      refine (ends_flush_memory h a).mono ?_ fun _ _ he => he
      intro p' a' hp'
      exact hp'.1.putOff hp'.2 hq
  · rw [if_neg hcoalesce]
    refine (ends_fetchInto_memory hq h.size_eq a).mono ?_ fun _ _ he => he
    rintro p' a' ⟨hstream, hpending, hput⟩
    refine ⟨hput.size_eq.trans h.size_eq, hstream.trans h.stream_eq, ?_, ?_⟩
    · rw [hpending]
      exact h.leads
    · rintro j (hj | hin)
      · rcases h.settled j hj with ⟨q', hq', hin⟩ | hthere
        · exact .inl ⟨q', hpending.trans hq', hin⟩
        · exact .inr (hput.kept j hthere)
      · exact .inr (hput.inside j hin)

end ReadProgress

namespace TransferPlan.Exact

variable {plan : TransferPlan} {t : Transfer}

/-- Where the bytes of a transfer from the byte source belong. -/
theorem leads (h : plan.Exact d s) (ht : t ∈ plan.transfers) {offset : Nat}
    (hsource : t.source = .direct offset) :
    PendingRead.Leads ⟨offset, t.destination * d.elementSize, t.runLength * d.elementSize⟩ d s := by
  refine ⟨Nat.mul_pos (h.runLength_pos t ht) d.elementSize_pos, h.fits ht d.elementSize, fun i hi => ?_⟩
  obtain ⟨hplace, hmod⟩ := h.place_byte ht hi
  rw [hsource] at hplace
  rw [Descriptor.byteOffset?, hplace]
  simp only [TransferSource.advance, hmod]
  rw [Nat.add_assoc, Nat.div_add_mod']

theorem byteAt?_fill (h : plan.Exact d s) (ht : t ∈ plan.transfers) (hsource : t.source = .fill)
    {j : Nat} (hj : t.CoversByte d.elementSize j) :
    d.byteAt? content s j = some (byteOfFill d.fill (j % d.elementSize)) := by
  rw [Descriptor.byteAt?, Descriptor.elementByte?, h.place_fill ht hsource hj]

theorem source_of_direct (h : plan.Exact d s) (hdirect : d.layout.isDirectlyAddressable = true)
    (ht : t ∈ plan.transfers) : t.source = .fill ∨ ∃ offset, t.source = .direct offset := by
  have hplace := h.place_destination ht
  rw [Descriptor.place?] at hplace
  cases hsource : t.source with
  | direct offset => exact .inr ⟨offset, rfl⟩
  | fill => exact .inl rfl
  | _ =>
    rw [hsource] at hplace
    cases hlayout : d.layout <;> rw [hlayout] at hdirect hplace <;>
      simp [StorageLayout.isDirectlyAddressable] at hdirect hplace
    split at hplace <;> simp at hplace

end TransferPlan.Exact

namespace ReadProgress

variable [Decoder]

variable {options : ReadOptions} {p : ReadProgress} {done : Nat → Prop} {plan : TransferPlan}
  {t : Transfer}

theorem exists_fillElements (h : p.Settles d content s done) (hexact : plan.Exact d s)
    (ht : t ∈ plan.transfers) (hsource : t.source = .fill) (r : ReadRequest)
    (hr : r.descriptor = d) :
    ∃ p', p.fillElements r t.destination t.runLength = .ok p' ∧
      p'.Settles d content s fun j => done j ∨ t.CoversByte d.elementSize j := by
  subst hr
  obtain ⟨output, hfill, hput⟩ :=
    exists_fill (r := r) (p := p) (r.descriptor.byteAt? content s)
      (by rw [h.size_eq]; exact hexact.fits ht _) fun j hj => hexact.byteAt?_fill ht hsource hj
  refine ⟨{ p with output := output }, hfill, hput.size_eq.trans h.size_eq, h.stream_eq, h.leads, ?_⟩
  -- a byte that was to come with the request is filled, too, if the transfer covers it
  rintro j (hj | hj)
  · exact (h.settled j hj).imp id (hput.kept j)
  · exact .inr (hput.inside j hj)

/-- A transfer settles the bytes that it covers. -/
theorem ends_execute_direct (h : p.Settles d content s done) (hexact : plan.Exact d s)
    (hdirect : d.layout.isDirectlyAddressable = true) (ht : t ∈ plan.transfers) (a : Activity) :
    SourceM.Ends (p.execute ⟨.memory content, d, options⟩ t) a
      (fun p' _ => p'.Settles d content s fun j => done j ∨ t.CoversByte d.elementSize j)
      (fun e _ => Refused d content s e) := by
  rw [execute]
  rcases hexact.source_of_direct hdirect ht with hsource | ⟨offset, hsource⟩
  · obtain ⟨p', hfill, hp'⟩ :=
      exists_fillElements h hexact ht hsource ⟨.memory content, d, options⟩ rfl
    simp only [hsource, hfill, SourceM.ends_ofExcept_ok]
    exact hp'
  · simp only [hsource]
    exact ends_direct_memory h (hexact.leads ht hsource) a

theorem ends_transfers_direct (hexact : plan.Exact d s)
    (hdirect : d.layout.isDirectlyAddressable = true) {destination : Bytes}
    (hsize : destination.size = s.totalCount * d.elementSize) (a : Activity) :
    SourceM.Ends (plan.transfers.foldlM (execute ⟨.memory content, d, options⟩)
        { output := destination }) a
      (fun p _ => p.Settles d content s fun j => j < s.totalCount * d.elementSize)
      (fun e _ => Refused d content s e) := by
  refine (SourceM.Ends.foldlM (fun front _ p _ => p.Settles d content s
    (CoveredByte front d.elementSize)) ?_ ?_).mono ?_ fun _ _ he => he
  · intro front t back htransfers p a hp
    have ht : t ∈ plan.transfers := by simp [htransfers]
    refine (ends_execute_direct hp hexact hdirect ht a).mono ?_ fun _ _ he => he
    intro p' a' hp'
    exact hp'.mono fun j hj => coveredByte_concat.1 hj
  · refine ⟨hsize, rfl, ?_, ?_⟩
    · intro q hq
      cases hq
    · intro j hj
      exact absurd hj (not_coveredByte_nil _ j)
  · intro p a hp
    exact hp.mono fun j hj => hexact.coveredByte d.elementSize_pos hj

theorem ends_finish_direct (h : p.Settles d content s done) (a : Activity) :
    SourceM.Ends (p.finish ⟨.memory content, d, options⟩) a
      (fun bytes _ => bytes.size = s.totalCount * d.elementSize ∧
        ∀ j, done j → bytes[j]? = d.byteAt? content s j)
      (fun e _ => Refused d content s e) := by
  rw [finish, SourceM.ends_bind]
  refine (ends_flush_memory h a).mono ?_ fun _ _ he => he
  rintro p' a' ⟨hp', hnone⟩
  simp only [hp'.stream_eq]
  refine ⟨hp'.size_eq, fun j hj => ?_⟩
  rcases hp'.settled j hj with ⟨q, hq, -⟩ | hthere
  · rw [hnone] at hq
    cases hq
  · exact hthere

end ReadProgress

/-- The computation gives the bytes that have to be there, or is refused where some of them are
not. -/
abbrev EndsDirect (d : Descriptor) (content : Bytes) (s : Section) (x : SourceM ReadError Bytes)
    (a : Activity) : Prop :=
  SourceM.Ends x a
    (fun bytes _ => bytes.size = s.totalCount * d.elementSize ∧
      ∀ j, j < s.totalCount * d.elementSize → bytes[j]? = d.byteAt? content s j)
    (fun e _ => Refused d content s e)

theorem ends_readSectionInto_direct [Decoder] (hdirect : d.layout.isDirectlyAddressable = true)
    (hs : s.validate d.shape = .ok ()) {destination : Bytes}
    (hsize : destination.size = s.totalCount * d.elementSize) (options : ReadOptions)
    (a : Activity) :
    EndsDirect d content s (readSectionInto ⟨.memory content, d, options⟩ s destination) a := by
  obtain ⟨plan, hplan, hexact⟩ := exists_exact hs
  rw [EndsDirect, readSectionInto_eq (r := ⟨.memory content, d, options⟩) hs hplan hsize,
    SourceM.ends_bind, SourceM.ends_report, SourceM.ends_bind]
  refine (ReadProgress.ends_transfers_direct hexact hdirect hsize _).mono ?_ fun _ _ he => he
  intro p a' hp
  exact ReadProgress.ends_finish_direct hp a'

/-- A read into a new destination comes to the same, also where nothing is stored and no transfer is
carried out. -/
theorem ends_readSection_direct [Decoder] (hdirect : d.layout.isDirectlyAddressable = true)
    (hs : s.validate d.shape = .ok ())
    (hcapacity : s.totalCount * d.elementSize ≤ Bytes.maxCapacity) (options : ReadOptions)
    (a : Activity) :
    EndsDirect d content s (readSection ⟨.memory content, d, options⟩ s) a := by
  by_cases habsent : d.layout.isAbsent = true
  · have hlayout : d.layout = .noData := by
      cases hlayout : d.layout <;> simp_all [StorageLayout.isAbsent]
    rw [readSection_of_absent (r := ⟨.memory content, d, options⟩) hs habsent hcapacity]
    refine ⟨by rw [size_materialize, Nat.mul_comm], fun j hj => ?_⟩
    rw [getElem?_materialize (fun v hv => d.fill_size hv) d.elementSize_pos _
      (by rwa [Nat.mul_comm] at hj), Descriptor.byteAt?, Descriptor.elementByte?, Descriptor.place?,
      hlayout]
  · rw [readSection_eq (r := ⟨.memory content, d, options⟩) hs (by simpa using habsent) hcapacity]
    exact ends_readSectionInto_direct hdirect hs (Bytes.size_zeros _) options a

section Result

variable {x : SourceM ReadError Bytes} {a : Activity}

theorem EndsDirect.exists_ok (h : EndsDirect d content s x a) (hstored : d.StoredIn content s) :
    ∃ bytes : Bytes, (x.outcome a).1 = .ok bytes ∧ bytes.size = s.totalCount * d.elementSize ∧
      ∀ j, j < s.totalCount * d.elementSize → bytes[j]? = d.byteAt? content s j := by
  rcases h.cases with ⟨bytes, a', houtcome, hbytes⟩ | ⟨e, a', -, -, hnot⟩
  · exact ⟨bytes, by rw [houtcome], hbytes⟩
  · exact absurd hstored hnot

theorem EndsDirect.exists_error (h : EndsDirect d content s x a) (hnot : ¬d.StoredIn content s) :
    ∃ range, (x.outcome a).1 = .error (.storage (.invalidRange range content.size)) := by
  rcases h.cases with ⟨bytes, a', -, hsize, hbytes⟩ | ⟨e, a', houtcome, ⟨range, rfl⟩, -⟩
  · exact absurd (Descriptor.storedIn_of_bytes hsize hbytes) hnot
  · exact ⟨range, by rw [houtcome]⟩

/-- Bytes that are what they have to be are the outcome. -/
theorem EndsDirect.eq_ok (h : EndsDirect d content s x a) {bytes : Bytes}
    (hsize : bytes.size = s.totalCount * d.elementSize)
    (hbytes : ∀ j, j < s.totalCount * d.elementSize → bytes[j]? = d.byteAt? content s j) :
    (x.outcome a).1 = .ok bytes := by
  obtain ⟨bytes', houtcome, hsize', hbytes'⟩ :=
    h.exists_ok (Descriptor.storedIn_of_bytes hsize hbytes)
  rw [houtcome, Bytes.eq_of_getElem? hsize' hsize fun j hj =>
    (hbytes' j hj).trans (hbytes j hj).symm]

end Result

/-- A read of a directly addressed variable from memory, if the program does not stop, succeeds just
where all that it selects and that is stored lies inside of the content. It then gives the bytes of
the content at the places of the elements and fill values for elements that are stored nowhere,
whatever its options are and whatever the destination held before. The program stops, before
anything is requested, in a build with checks where the step of a section is no offset, and in every
build where a new destination is larger than a buffer can be. -/
theorem readSection_direct [Decoder] (d : Descriptor)
    (hdirect : d.layout.isDirectlyAddressable = true)
    (s : Section) (hs : s.validate d.shape = .ok ()) (content : Bytes) (b : Build) :
    (¬d.Readable b s → ∀ options a, ∃ cause,
      (readSection ⟨.memory content, d, options⟩ s b).Halts a cause) ∧
    (d.Stops b s → ∀ options a (destination : Bytes),
      destination.size = s.totalCount * d.elementSize →
      (readSectionInto ⟨.memory content, d, options⟩ s destination b).Halts a .overflow) ∧
    (d.StoredIn content s → ∃ bytes : Bytes,
      bytes.size = s.totalCount * d.elementSize ∧
      (∀ k i, k < s.totalCount → i < d.elementSize →
        bytes[k * d.elementSize + i]? = d.elementByte? content (s.indexAt k) i) ∧
      ∀ options a,
        (d.Readable b s →
          ((readSection ⟨.memory content, d, options⟩ s b).outcome a).1 = .ok bytes) ∧
        (¬d.Stops b s → ∀ destination : Bytes,
          destination.size = s.totalCount * d.elementSize →
          ((readSectionInto ⟨.memory content, d, options⟩ s destination b).outcome a).1 =
            .ok bytes)) ∧
    (¬d.StoredIn content s → ∀ options a,
      (d.Readable b s → ∃ range,
        ((readSection ⟨.memory content, d, options⟩ s b).outcome a).1 =
          .error (.storage (.invalidRange range content.size))) ∧
      (¬d.Stops b s → ∀ destination : Bytes,
        destination.size = s.totalCount * d.elementSize → ∃ range,
        ((readSectionInto ⟨.memory content, d, options⟩ s destination b).outcome a).1 =
          .error (.storage (.invalidRange range content.size)))) := by
  refine ⟨fun hread options a => readSection_halts (r := ⟨.memory content, d, options⟩) hs hread a,
    fun hstops options a destination hsize =>
      readSectionInto_of_stops (r := ⟨.memory content, d, options⟩) hs hstops hsize a, ?_, ?_⟩
  · intro hstored
    have hzeros : (Bytes.zeros (s.totalCount * d.elementSize)).size =
        s.totalCount * d.elementSize :=
      Bytes.size_zeros _
    have hread : EndsDirect d content s (readSectionInto ⟨.memory content, d, {}⟩ s _) {} :=
      ends_readSectionInto_direct hdirect hs hzeros {} {}
    obtain ⟨bytes, -, hsize, hbytes⟩ := hread.exists_ok hstored
    refine ⟨bytes, hsize, fun k i hk hi => ?_, fun options a =>
      ⟨fun hread => ?_, fun hfit destination hdest => ?_⟩⟩
    · rw [hbytes _ (mul_add_lt_mul hk hi), Descriptor.byteAt?_element hi]
    · rw [readSection_build (r := ⟨.memory content, d, options⟩) hs hread]
      exact (ends_readSection_direct hdirect hs hread.2 options a).eq_ok hsize hbytes
    · rw [readSectionInto_build (r := ⟨.memory content, d, options⟩) hs hfit]
      exact (ends_readSectionInto_direct hdirect hs hdest options a).eq_ok hsize hbytes
  · intro hnot options a
    refine ⟨fun hread => ?_, fun hfit destination hdest => ?_⟩
    · rw [readSection_build (r := ⟨.memory content, d, options⟩) hs hread]
      exact EndsDirect.exists_error (ends_readSection_direct hdirect hs hread.2 options a) hnot
    · rw [readSectionInto_build (r := ⟨.memory content, d, options⟩) hs hfit]
      exact EndsDirect.exists_error (ends_readSectionInto_direct hdirect hs hdest options a) hnot

/-- Three bytes, one for each element, two bytes into the source. -/
def plainRow : Descriptor :=
  { shape := [3]
    elementSize := 1
    fill := none
    layout := .regular 2
    accepted := rfl }

/-- The last two of the three bytes are stored, and read whatever the options. -/
theorem readSection_plainRow :
    plainRow.StoredIn #[9, 9, 1, 2, 3] ⟨[.contiguous 1 2]⟩ ∧ ∀ options a,
      ((readSection ⟨.memory #[9, 9, 1, 2, 3], plainRow, options⟩
        ⟨[.contiguous 1 2]⟩).outcome a).1 = .ok #[2, 3] := by
  have hplace : ∀ k, k < 2 → plainRow.place? (Section.indexAt ⟨[.contiguous 1 2]⟩ k) =
      some (.direct (k + 3)) := by decide
  have hstored : plainRow.StoredIn #[9, 9, 1, 2, 3] ⟨[.contiguous 1 2]⟩ := by
    intro k offset hk hoffset
    have hlt : k < 2 := hk
    rw [hplace k hlt] at hoffset
    cases hoffset
    show k + 3 + 1 ≤ 5
    omega
  refine ⟨hstored, fun options a => ?_⟩
  obtain ⟨bytes, hsize, hbytes, hread⟩ := (readSection_direct plainRow rfl ⟨[.contiguous 1 2]⟩ rfl
    #[9, 9, 1, 2, 3] .wrapping).2.2.1 hstored
  have hbyte : ∀ k, k < 2 → bytes[k]? = (#[9, 9, 1, 2, 3] : Bytes)[k + 3]? := by
    intro k hk
    have hbyte := hbytes k 0 hk (by decide)
    rw [Descriptor.elementByte?, hplace k hk] at hbyte
    have hbyte : bytes[k * 1 + 0]? = (#[9, 9, 1, 2, 3] : Bytes)[k + 3 + 0]? := hbyte
    simpa only [Nat.mul_one, Nat.add_zero] using hbyte
  have heq : bytes = #[2, 3] := by
    refine Array.ext_getElem? fun j => ?_
    match j with
    | 0 => exact hbyte 0 (by decide)
    | 1 => exact hbyte 1 (by decide)
    | j + 2 => rw [Array.getElem?_eq_none (hsize ▸ by show 2 ≤ j + 2; omega)]; rfl
  rw [← heq]
  exact (hread options a).1 ⟨plainRow.not_stops _, by decide⟩

/-- One byte more than a buffer can have, one byte for each element. -/
def hugeRow : Descriptor :=
  { shape := [Bytes.maxCapacity + 1]
    elementSize := 1
    fill := none
    layout := .regular 0
    accepted := rfl }

/-- Of eight bytes the program is stopped by the size of the destination, in every build, and does
not come to say that bytes are missing. -/
theorem readSection_hugeRow :
    hugeRow.layout.isDirectlyAddressable = true ∧
      Section.validate ⟨[.contiguous 0 (Bytes.maxCapacity + 1)]⟩ hugeRow.shape = .ok () ∧
      ¬hugeRow.StoredIn (Bytes.zeros 8) ⟨[.contiguous 0 (Bytes.maxCapacity + 1)]⟩ ∧
      ∀ b, (readSection ⟨.memory (Bytes.zeros 8), hugeRow, {}⟩
        ⟨[.contiguous 0 (Bytes.maxCapacity + 1)]⟩ b).Halts {}
          (.capacity (Bytes.maxCapacity + 1)) := by
  refine ⟨rfl, rfl, fun hstored => ?_, fun b => ?_⟩
  · have hbyte := hstored 8 8 (by decide) (by decide)
    exact absurd hbyte (by decide)
  · exact readSection_of_large (r := ⟨.memory (Bytes.zeros 8), hugeRow, {}⟩) rfl (by decide) {}

end Hyperslab
