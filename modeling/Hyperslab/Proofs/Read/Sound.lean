import Hyperslab.Proofs.Codec.Inflate
import Hyperslab.Proofs.Read.Failure
import Hyperslab.Proofs.Resolve.Bounds

/-!
# Reads of sections that fit

What a read holds between two transfers fits the section: the destination has its size, a read that
was put off is for a part of it, and a chunk that is kept has the bytes that it is declared to have.
A transfer of the section keeps it so and finds all that it needs, whatever the source answers. So
a read of a section that fits gives as many bytes as the section has, or fails for something that it
read, or the program stops.

## Main definitions

- `StorageLayout.UnpackedBy`: bytes that go as far as a chunk is declared to
- `ReadProgress.Fits`: what a read holds fits the section

## Main statements

- `ReadProgress.Fits.execute`: a transfer keeps it so, or fails for something that it read
- `meets_readSectionInto`, `meets_readSection`: so does a read
- `size_of_readSection`: a section that was read has its size
-/

namespace Hyperslab

open SourceM

/-- A chunk is decoded to as many bytes as it is declared to have. -/
theorem CompressedChunk.meets_decode (source : ByteSource) (options : ReadOptions)
    (chunk : CompressedChunk) :
    Meets (chunk.decode source options) (fun bytes => bytes.size = chunk.uncompressedLength)
      ReadError.IsExternal := by
  apply (chunk.surfaces_decode options).meets
  refine .bind .any fun _ _ => .bind .any fun codec _ => .bind .any fun payload _ => ?_
  refine .bind .any fun _ _ => .bind .any fun bytes _ => ?_
  split
  · exact .bind (.throw trivial) fun _ (h : False) => h.elim
  · exact .pure (Decidable.of_not_not ‹_›)

namespace LogicalStream

variable {source : ByteSource}

/-- An exact read of a stream gives just the number of bytes that it was to give. -/
theorem meets_readExact (s : LogicalStream) (count : Nat) :
    Meets (s.readExact source count) (fun r => r.1.size = count) ReadError.IsExternal := by
  apply (s.surfaces_readExact count).meets
  cases s with
  | plain stream =>
    refine .bind .any ?_
    rintro ⟨result, stream'⟩ -
    dsimp only
    split
    · exact .throw trivial
    · split
      · exact .bind (.throw trivial) fun _ (h : False) => h.elim
      · exact .pure (Decidable.of_not_not ‹_›)
  | decoded stream position length =>
    refine .bind ((stream.meets_readExact count).mapError fun _ _ => trivial) ?_
    exact fun _ hsize => .pure hsize

/-- The stream of a layout that has one is opened, unless it is refused for its declaration. -/
theorem meets_ofLayout (options : ReadOptions) {layout : StorageLayout} {size stop : Nat}
    (h : layout.StreamsBytes size stop) :
    Meets (ofLayout options layout) (fun _ => True) ReadError.IsExternal := by
  have hsegments (segments : List ByteRange) (codec : CodecId) (length : Nat) :
      Meets (ofSegments options segments codec length) (fun _ => True) ReadError.IsExternal :=
    (surfaces_ofSegments options segments codec length : SurfacesExternal (.memory #[]) _).meets .any
  cases layout with
  | segmented segments => exact .bind .report fun _ _ => .pure trivial
  | compressed data length codec => exact hsegments [data] codec length
  | compressedSegmented segments codec length => exact hsegments segments codec length
  | _ => exact h.elim

theorem meets_skipTo (s : LogicalStream) (offset : Nat) :
    Meets (s.skipTo source offset) (fun _ => True) ReadError.IsExternal := by
  rw [skipTo]
  split
  · exact (s.surfaces_skip _).meets .any
  · exact .pure trivial

end LogicalStream

/-- The bytes go as far as those that the chunk stored under the origin is declared to have. -/
def StorageLayout.UnpackedBy (layout : StorageLayout) (origin : Index) (bytes : Bytes) : Prop :=
  ∀ stop, layout.UnpacksBytes origin stop → stop ≤ bytes.size

/-- What a read holds fits a section of `size` bytes: its destination has this size, what was put off
is for a part of the destination, and the chunk that is kept has the bytes that it is declared to
have. -/
structure ReadProgress.Fits (p : ReadProgress) (d : Descriptor) (size : Nat) : Prop where
  output_size : p.output.size = size
  pending_le : ∀ read, p.pending = some read → read.destination + read.length ≤ size
  unpacked : ∀ origin bytes, p.chunk = some (origin, bytes) → d.layout.UnpackedBy origin bytes

namespace ReadProgress

variable {r : ReadRequest} {p : ReadProgress} {size : Nat}

/-- At first a read holds nothing but its destination. -/
theorem fits_start (d : Descriptor) (destination : Bytes) :
    Fits { output := destination } d destination.size :=
  ⟨rfl, by simp, by simp⟩

theorem meets_streamBefore (offset : Nat) {total stop : Nat}
    (hstream : r.descriptor.layout.StreamsBytes total stop) :
    Meets (p.streamBefore r offset) (fun _ => True) ReadError.IsExternal := by
  have hopen := LogicalStream.meets_ofLayout r.options hstream
  rw [streamBefore]
  split
  · split
    · exact hopen
    · exact .pure trivial
  · exact hopen

/-- A stored chunk comes with the bytes that it is declared to have. -/
theorem meets_fetchStored {origin : Index} {stop : Nat}
    (hchunk : r.descriptor.layout.UnpacksBytes origin stop) :
    Meets (fetchStored r origin) (r.descriptor.layout.UnpackedBy origin) ReadError.IsExternal := by
  rw [fetchStored]
  cases hlayout : r.descriptor.layout <;> rw [hlayout] at hchunk
  case compressedTiled chunkShape chunks =>
    obtain ⟨chunk, hget, -⟩ := hchunk
    dsimp only
    rw [hget]
    refine .bind .report fun _ _ => ?_
    refine (chunk.meets_decode r.source r.options).mono ?_ fun _ h => h
    rintro bytes hsize stop ⟨chunk', hget', hle⟩
    cases hget.symm.trans hget'
    exact hsize ▸ hle
  all_goals exact hchunk.elim

namespace Fits

theorem checkPart (h : p.Fits r.descriptor size) {start length : Nat} (hle : start + length ≤ size) :
    p.checkPart start length = .ok () := by
  rw [ReadProgress.checkPart, h.output_size, if_pos hle]

theorem putOff (h : p.Fits r.descriptor size) {read : PendingRead}
    (hle : read.destination + read.length ≤ size) :
    Fits { p with pending := some read } r.descriptor size := by
  refine ⟨h.output_size, ?_, h.unpacked⟩
  rintro _ ⟨⟩
  exact hle

/-- Bytes for a part of the destination are put there. -/
theorem write (h : p.Fits r.descriptor size) {start : Nat} {bytes : Bytes}
    (hle : start + bytes.size ≤ size) :
    Meets (ofExcept (p.write start bytes)) (·.Fits r.descriptor size) ReadError.IsExternal := by
  obtain ⟨output, hwrite, hput⟩ := exists_write (fun i => bytes[i - start]?)
    (h.output_size ▸ hle) (fun i _ => by rw [Nat.add_sub_cancel_left])
  rw [hwrite]
  exact .pure ⟨hput.size_eq.trans h.output_size, h.pending_le, h.unpacked⟩

theorem fetchInto (h : p.Fits r.descriptor size) (offset : Nat) {destination length : Nat}
    (hle : destination + length ≤ size) :
    Meets (p.fetchInto r offset destination length) (·.Fits r.descriptor size)
      ReadError.IsExternal := by
  refine .bind_ok (h.checkPart hle) ?_
  refine .bind ((meets_fetchExactly _ _).mapError fun _ _ => trivial) fun bytes hsize => ?_
  exact h.write (hsize ▸ hle)

/-- What was put off goes to the part of the destination that it is for. -/
theorem flush (h : p.Fits r.descriptor size) :
    Meets (p.flush r) (·.Fits r.descriptor size) ReadError.IsExternal := by
  rw [ReadProgress.flush]
  split
  · rename_i read hread
    have hbefore : Fits { p with pending := none } r.descriptor size :=
      ⟨h.output_size, by simp, h.unpacked⟩
    exact hbefore.fetchInto read.offset (h.pending_le read hread)
  · exact .pure h

theorem direct (h : p.Fits r.descriptor size) (offset : Nat) {destination length : Nat}
    (hle : destination + length ≤ size) :
    Meets (p.direct r offset destination length) (·.Fits r.descriptor size)
      ReadError.IsExternal := by
  rw [ReadProgress.direct]
  split
  · split
    · rename_i read hread
      obtain ⟨before, hbefore, hextend⟩ := Option.bind_eq_some_iff.1 hread
      unfold PendingRead.extend? at hextend
      split at hextend <;> cases hextend
      -- what is put off grows up to the end of this transfer
      refine .pure (h.putOff ?_)
      dsimp only
      omega
    · exact .bind h.flush fun p' hp' => .pure (hp'.putOff hle)
  · exact h.fetchInto offset hle

theorem fromStream (h : p.Fits r.descriptor size) {offset destination length : Nat}
    {total stop : Nat} (hstream : r.descriptor.layout.StreamsBytes total stop)
    (hle : destination + length ≤ size) :
    Meets (p.fromStream r offset destination length) (·.Fits r.descriptor size)
      ReadError.IsExternal := by
  rw [fromStream_eq]
  refine .bind (meets_streamBefore offset hstream) fun stream _ => ?_
  refine .bind (stream.meets_skipTo offset) fun stream' _ => ?_
  refine .bind_ok (h.checkPart hle) ?_
  refine .bind (stream'.meets_readExact length) ?_
  rintro ⟨bytes, stream''⟩ (hsize : bytes.size = length)
  have hmoved : Fits { p with stream := some stream'' } r.descriptor size :=
    ⟨h.output_size, h.pending_le, h.unpacked⟩
  exact hmoved.write (hsize ▸ hle)

/-- The chunk that is kept is as good as one that is fetched. -/
theorem chunkBytes (h : p.Fits r.descriptor size) {origin : Index} {stop : Nat}
    (hchunk : r.descriptor.layout.UnpacksBytes origin stop) :
    Meets (p.chunkBytes r origin) (r.descriptor.layout.UnpackedBy origin)
      ReadError.IsExternal := by
  rw [ReadProgress.chunkBytes]
  split
  · rename_i current bytes hkept
    split
    · rename_i hsame
      exact .pure (hsame ▸ h.unpacked current bytes hkept)
    · exact meets_fetchStored hchunk
  · exact meets_fetchStored hchunk

theorem fromChunk (h : p.Fits r.descriptor size) {origin : Index}
    {offset destination length : Nat}
    (hchunk : r.descriptor.layout.UnpacksBytes origin (offset + length))
    (hle : destination + length ≤ size) :
    Meets (p.fromChunk r origin offset destination length) (·.Fits r.descriptor size)
      ReadError.IsExternal := by
  refine .bind (h.chunkBytes hchunk) fun bytes hbytes => ?_
  have hkept : Fits { p with chunk := some (origin, bytes) } r.descriptor size := by
    refine ⟨h.output_size, h.pending_le, ?_⟩
    rintro _ _ ⟨⟩
    exact hbytes
  have hwindow : Bytes.window? bytes offset length = some (bytes.extract offset (offset + length)) :=
    if_pos (hbytes _ hchunk)
  rw [hwindow]
  refine hkept.write (Nat.le_trans ?_ hle)
  rw [Array.size_extract]
  omega

theorem fillElements (h : p.Fits r.descriptor size) {t : Transfer}
    (hle : t.destination * r.descriptor.elementSize + t.runLength * r.descriptor.elementSize ≤
      size) :
    Meets (ofExcept (p.fillElements r t.destination t.runLength)) (·.Fits r.descriptor size)
      ReadError.IsExternal := by
  obtain ⟨output, hfill, hput⟩ := exists_fill
    (fun j => some (byteOfFill r.descriptor.fill (j % r.descriptor.elementSize)))
    (h.output_size ▸ hle) fun _ _ => rfl
  rw [hfill]
  exact .pure ⟨hput.size_eq.trans h.output_size, h.pending_le, h.unpacked⟩

/-- A transfer of bytes that there are, to a part of the destination, finds all that it needs. -/
theorem execute (h : p.Fits r.descriptor size) {t : Transfer} (ht : t.Addressed r.descriptor)
    (hle : t.destination * r.descriptor.elementSize + t.runLength * r.descriptor.elementSize ≤
      size) :
    Meets (p.execute r t) (·.Fits r.descriptor size) ReadError.IsExternal := by
  rw [Transfer.Addressed] at ht
  rw [ReadProgress.execute]
  cases hsource : t.source <;> rw [hsource] at ht
  case direct offset => exact h.direct offset hle
  case stream offset => exact h.fromStream ht hle
  case chunk origin offset => exact h.fromChunk ht hle
  case fill => exact h.fillElements hle

theorem finish (h : p.Fits r.descriptor size) :
    Meets (p.finish r) (fun bytes => bytes.size = size) ReadError.IsExternal := by
  refine .bind h.flush fun p' hp' => ?_
  dsimp only
  split
  · rename_i stream _
    refine .bind (stream.surfaces_finish.meets .any) fun _ _ => .pure hp'.output_size
  · exact .pure hp'.output_size

end Fits

end ReadProgress

variable {r : ReadRequest} {s : Section} {b : Build}

/-- A read of a section that fits gives a destination of the same size, or fails for something that
it read, or the program stops. -/
theorem meets_readSectionInto (hs : s.validate r.descriptor.shape = .ok ()) {destination : Bytes}
    (hsize : destination.size = s.totalCount * r.descriptor.elementSize) :
    Meets (readSectionInto r s destination b) (fun bytes => bytes.size = destination.size)
      ReadError.IsExternal := by
  by_cases hstops : r.descriptor.Stops b s
  · exact fun a => (readSectionInto_of_stops hs hstops hsize a).ends fun _ => trivial
  obtain ⟨plan, hplan, hexact⟩ := exists_exact hs
  rw [readSectionInto_eq_of_fit hs hstops hplan hsize]
  refine .bind .report fun _ _ => ?_
  have hstep : ∀ t ∈ plan.transfers, ∀ p : ReadProgress, p.Fits r.descriptor destination.size →
      Meets (p.execute r t) (·.Fits r.descriptor destination.size) ReadError.IsExternal := by
    intro t ht p hp
    refine hp.execute (addressed_of_resolve hs hplan ht) ?_
    rw [hsize]
    exact hexact.fits ht _
  exact .bind (.foldlM hstep (ReadProgress.fits_start _ destination)) fun p hp => hp.finish

theorem meets_readSection (hs : s.validate r.descriptor.shape = .ok ()) :
    Meets (readSection r s b) (fun bytes => bytes.size = s.totalCount * r.descriptor.elementSize)
      ReadError.IsExternal := by
  by_cases habsent : r.descriptor.layout.isAbsent = true
  · rw [readSection_absent hs habsent]
    refine .bind .report fun _ _ => .bind (meets_reserve _) fun _ _ => .pure ?_
    exact (size_materialize _ _ _).trans (Nat.mul_comm _ _)
  · rw [readSection_stored hs (by simpa using habsent)]
    have hzeros := Bytes.size_zeros (s.totalCount * r.descriptor.elementSize)
    refine .bind (meets_reserve _) fun _ _ => ?_
    exact (meets_readSectionInto hs hzeros).mono (fun _ h => h.trans hzeros) fun _ h => h

/-- A section that was read has its size. -/
theorem size_of_readSection {a : Activity} {bytes : Bytes}
    (h : ((readSection r s b).outcome a).1 = .ok bytes) :
    bytes.size = s.totalCount * r.descriptor.elementSize :=
  (meets_readSection (validate_of_readSection h) a).of_ok (Prod.ext h rfl)

end Hyperslab
