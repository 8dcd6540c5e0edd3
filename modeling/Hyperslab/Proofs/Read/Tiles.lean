import Hyperslab.Proofs.Read.Chunk

/-!
# Reads of variables in compressed chunks

A section is read chunk by chunk, in the order of the origins, and the chunk decoded last is kept.
What is kept is always what the chunk under its origin is decoded to, so it makes no difference to a
transfer whether its chunk is decoded or kept. The transfers stop at the first chunk that is not
good. All chunks in front of it are good, so of the chunks that are not good it is the one with the
least origin. Chunks that hold nothing of the section have no transfers.

## Main definitions

- `Section.Selects`: a stored chunk holds an element of a section
- `FirstFailure`: the failure of the first chunk that is not good
- `ReadProgress.Tiles`: covered bytes are there, and the chunk kept is what it should be
- `Descriptor.Unpacks`: the same variable, with the decoded chunks stored as they are

## Main statements

- `ReadProgress.ends_execute_tiles`: a transfer puts the bytes that it covers there
- `readSection_tiles`: a read of a variable in compressed chunks, whatever the section and the
  options
-/

namespace Hyperslab

/-- The section selects an element of the chunk with the given origin. -/
def Section.Touches (s : Section) (chunkShape : ChunkShape) (origin : Index) : Prop :=
  ∃ k, k < s.totalCount ∧ chunkShape.originOf (s.indexAt k) = origin

/-- The chunk is stored under the origin, and the section selects an element of it. -/
def Section.Selects (s : Section) (chunkShape : ChunkShape) (chunks : ChunkMap CompressedChunk)
    (origin : Index) (chunk : CompressedChunk) : Prop :=
  s.Touches chunkShape origin ∧ chunks.get? origin = some chunk

/-- What the chunk under an origin is decoded to. -/
def ChunkMap.decoded? [Decoder] (chunks : ChunkMap CompressedChunk) (content : Bytes)
    (origin : Index) : Option Bytes :=
  (chunks.get? origin).bind (·.encoded.decoded? content)

/-- What the byte at offset `b` of the element at an index has to be, with the decoded bytes of each
chunk. -/
def Descriptor.tileByte? (d : Descriptor) (decoded : Index → Option Bytes) (index : Index)
    (b : Nat) : Option UInt8 :=
  match d.place? index with
  | some (.chunk origin offset) => (decoded origin).bind (·[offset + b]?)
  | some .fill => some (byteOfFill d.fill b)
  | _ => none

/-- What the byte at position `j` of the destination has to be. -/
def Descriptor.tileByteAt? (d : Descriptor) (decoded : Index → Option Bytes) (s : Section)
    (j : Nat) : Option UInt8 :=
  d.tileByte? decoded (s.indexAt (j / d.elementSize)) (j % d.elementSize)

/-- The source holds the chunks that a section of a variable selects from. -/
structure StoredTiles (d : Descriptor) (chunkShape : ChunkShape)
    (chunks : ChunkMap CompressedChunk) (s : Section) (source : ByteSource) (content : Bytes) :
    Prop where
  layout_eq : d.layout = .compressedTiled chunkShape chunks
  holds : source.Holds content
  inside : ∀ origin chunk, s.Selects chunkShape chunks origin chunk → chunk.data.Inside content

/-- The failure is that of the chunk with the least origin, among those that are not good and that
the section selects from. -/
def FirstFailure [Decoder] (chunkShape : ChunkShape) (chunks : ChunkMap CompressedChunk)
    (s : Section) (content : Bytes) (options : ReadOptions) (e : ReadError) : Prop :=
  ∃ origin chunk, s.Selects chunkShape chunks origin chunk ∧ chunk.Bad content options e ∧
    ∀ origin' chunk', s.Selects chunkShape chunks origin' chunk' →
      ¬chunk'.Good content options → origin' ≠ origin → origin < origin'

variable {d : Descriptor} {chunkShape : ChunkShape} {chunks : ChunkMap CompressedChunk}
  {s : Section} {source : ByteSource} {content : Bytes} {options : ReadOptions}
  {plan : TransferPlan} {t : Transfer} {origin : Index} {chunk : CompressedChunk}

theorem Descriptor.place?_tiles (hlayout : d.layout = .compressedTiled chunkShape chunks)
    (index : Index) :
    d.place? index =
      match chunks.get? (chunkShape.originOf index) with
      | none => some .fill
      | some _ =>
        (ravel? (index.relativeTo (chunkShape.originOf index)) chunkShape.toShape).map fun k =>
          .chunk (chunkShape.originOf index) (k * d.elementSize) := by
  cases hget : chunks.get? (chunkShape.originOf index) <;> simp only [place?, hlayout, hget]

/-- An element in a chunk is in the chunk that its index falls in, before its end. -/
theorem Descriptor.of_place?_chunk (hlayout : d.layout = .compressedTiled chunkShape chunks)
    {index : Index} {offset : Nat} (h : d.place? index = some (.chunk origin offset)) :
    chunkShape.originOf index = origin ∧
      offset + d.elementSize ≤ elementCount chunkShape.toShape * d.elementSize := by
  rw [place?_tiles hlayout] at h
  split at h
  · cases h
  · obtain ⟨k, hk, heq⟩ := Option.map_eq_some_iff.1 h
    cases heq
    exact ⟨rfl, mul_add_le_mul d.elementSize (ravel?_lt hk)⟩

namespace TransferPlan.Exact

theorem originOf_destination (h : plan.Exact d s)
    (hlayout : d.layout = .compressedTiled chunkShape chunks) (ht : t ∈ plan.transfers)
    {offset : Nat} (hsource : t.source = .chunk origin offset) :
    chunkShape.originOf (s.indexAt t.destination) = origin := by
  have hplace := h.place_destination ht
  rw [hsource] at hplace
  exact (Descriptor.of_place?_chunk hlayout hplace).1

/-- A transfer is of fill values, or from within a chunk that is stored and that the section selects
from. -/
theorem source_of_tiles (h : plan.Exact d s)
    (hlayout : d.layout = .compressedTiled chunkShape chunks) (ht : t ∈ plan.transfers) :
    t.source = .fill ∨ ∃ origin offset chunk, t.source = .chunk origin offset ∧
      chunkShape.originOf (s.indexAt t.destination) = origin ∧
      s.Selects chunkShape chunks origin chunk ∧
      offset + t.runLength * d.elementSize ≤ chunk.uncompressedLength := by
  have hplace := h.place_destination ht
  rw [Descriptor.place?_tiles hlayout] at hplace
  split at hplace
  · exact .inl (Option.some.inj hplace).symm
  · rename_i chunk hget
    obtain ⟨k, -, hsource⟩ := Option.map_eq_some_iff.1 hplace
    refine .inr ⟨_, _, chunk, hsource.symm, rfl,
      ⟨⟨_, h.inside t ht _ (h.covers_destination ht), rfl⟩, hget⟩, ?_⟩
    obtain ⟨n, hlast, hn⟩ := h.place_last ht
    rw [← hsource] at hlast
    have hfit := (Descriptor.of_place?_chunk hlayout hlast).2
    rw [(Descriptor.of_compressedTiled hlayout hget).1]
    omega

/-- There is a transfer from each stored chunk that the section selects from. -/
theorem exists_transfer_of_selects (h : plan.Exact d s)
    (hlayout : d.layout = .compressedTiled chunkShape chunks)
    (hselects : s.Selects chunkShape chunks origin chunk) :
    ∃ t ∈ plan.transfers, ∃ offset, t.source = .chunk origin offset := by
  obtain ⟨⟨k, hk, rfl⟩, hget⟩ := hselects
  obtain ⟨t, ht, hcovers⟩ := h.covered k hk
  have hplace := h.place_eq t ht k hcovers
  rw [Descriptor.place?_tiles hlayout, hget] at hplace
  obtain ⟨_, -, heq⟩ := Option.map_eq_some_iff.1 hplace
  rcases h.source_of_tiles hlayout ht with hfill | ⟨origin, offset, -, hsource, -⟩
  · rw [Transfer.sourceOf, hfill] at heq
    cases heq
  · rw [Transfer.sourceOf, hsource] at heq
    rw [(TransferSource.chunk.inj heq).1]
    exact ⟨t, ht, offset, hsource⟩

/-- The bytes of a transfer from a chunk follow one another there. -/
theorem tileByteAt?_chunk (h : plan.Exact d s) (ht : t ∈ plan.transfers) {offset : Nat}
    (hsource : t.source = .chunk origin offset) (decoded : Index → Option Bytes) {i : Nat}
    (hi : i < t.runLength * d.elementSize) :
    d.tileByteAt? decoded s (t.destination * d.elementSize + i) =
      (decoded origin).bind (·[offset + i]?) := by
  obtain ⟨hplace, hmod⟩ := h.place_byte ht hi
  rw [hsource] at hplace
  rw [Descriptor.tileByteAt?, Descriptor.tileByte?, hplace]
  simp only [TransferSource.advance, hmod]
  rw [Nat.add_assoc, Nat.div_add_mod']

theorem tileByteAt?_fill (h : plan.Exact d s) (ht : t ∈ plan.transfers) (hsource : t.source = .fill)
    (decoded : Index → Option Bytes) {j : Nat} (hj : t.CoversByte d.elementSize j) :
    d.tileByteAt? decoded s j = some (byteOfFill d.fill (j % d.elementSize)) := by
  rw [Descriptor.tileByteAt?, Descriptor.tileByte?, h.place_fill ht hsource hj]

end TransferPlan.Exact

section Transfers

variable [Decoder]

/-- The chunk of a transfer, where it is from one, is good. -/
def Transfer.FromGood (t : Transfer) (chunks : ChunkMap CompressedChunk)
    (content : Bytes) (options : ReadOptions) : Prop :=
  ∀ origin offset, t.source = .chunk origin offset →
    ∃ chunk, chunks.get? origin = some chunk ∧ chunk.Good content options

theorem Transfer.FromGood.good (h : t.FromGood chunks content options) {offset : Nat}
    (hsource : t.source = .chunk origin offset)
    (hselects : s.Selects chunkShape chunks origin chunk) : chunk.Good content options := by
  obtain ⟨chunk', hget, hgood⟩ := h origin offset hsource
  obtain rfl := Option.some.inj (hget.symm.trans hselects.2)
  exact hgood

/-- A failure behind transfers from good chunks only is the first one: another chunk that is not
good has a transfer, but none in front. -/
theorem FirstFailure.of_front (hexact : plan.Exact d s) (hordered : plan.Ordered chunkShape s)
    (hlayout : d.layout = .compressedTiled chunkShape chunks) {front back : List Transfer}
    (htransfers : plan.transfers = front ++ t :: back)
    (hfront : ∀ u ∈ front, u.FromGood chunks content options)
    (horigin : chunkShape.originOf (s.indexAt t.destination) = origin)
    (hselects : s.Selects chunkShape chunks origin chunk) {e : ReadError}
    (hbad : chunk.Bad content options e) : FirstFailure chunkShape chunks s content options e := by
  refine ⟨origin, chunk, hselects, hbad, fun origin' chunk' hselects' hnot hne => ?_⟩
  have ht : t ∈ plan.transfers := by simp [htransfers]
  obtain ⟨u, hu, offset, hsource⟩ := hexact.exists_transfer_of_selects hlayout hselects'
  have horigin' := hexact.originOf_destination hlayout hu hsource
  rw [← horigin, ← horigin'] at hne ⊢
  rw [TransferPlan.Ordered, htransfers] at hordered
  rcases List.mem_append.1 (htransfers ▸ hu) with hmem | hmem
  · exact absurd ((hfront u hmem).good hsource hselects') hnot
  · rcases List.mem_cons.1 hmem with rfl | hmem
    · exact absurd rfl hne
    · exact (List.pairwise_cons.1 (List.pairwise_append.1 hordered).2.1).1 u hmem _ _
        (hexact.covers_destination ht) (hexact.covers_destination hu) hne

namespace ReadProgress

/-- The bytes of `done` are there, and the chunk that is kept is what the chunk under its origin is
decoded to. -/
structure Tiles (p : ReadProgress) (d : Descriptor) (chunks : ChunkMap CompressedChunk)
    (content : Bytes) (options : ReadOptions) (s : Section) (done : Nat → Prop) : Prop where
  size_eq : p.output.size = s.totalCount * d.elementSize
  pending_eq : p.pending = none
  stream_eq : p.stream = none
  kept : ∀ origin bytes, p.chunk = some (origin, bytes) → ∃ chunk, chunks.get? origin = some chunk ∧
    chunk.Decodes content options bytes
  settled : ∀ j, done j → p.output[j]? = d.tileByteAt? (chunks.decoded? content) s j

variable {p : ReadProgress} {done : Nat → Prop}

theorem Tiles.mono {done' : Nat → Prop} (h : p.Tiles d chunks content options s done)
    (hdone : ∀ j, done' j → done j) : p.Tiles d chunks content options s done' :=
  ⟨h.size_eq, h.pending_eq, h.stream_eq, h.kept, fun j hj => h.settled j (hdone j hj)⟩

variable [LawfulDecoder]

/-- The chunk under an origin is what it is decoded to, be it kept or decoded now. -/
theorem ends_chunkBytes (hstored : StoredTiles d chunkShape chunks s source content)
    (hselects : s.Selects chunkShape chunks origin chunk)
    (h : p.Tiles d chunks content options s done) (a : Activity) :
    SourceM.Ends (p.chunkBytes ⟨source, d, options⟩ origin) a
      (fun bytes _ => chunk.Decodes content options bytes)
      (fun e _ => chunk.Bad content options e) := by
  have hfetch : SourceM.Ends (fetchStored ⟨source, d, options⟩ origin) a
      (fun bytes _ => chunk.Decodes content options bytes)
      (fun e _ => chunk.Bad content options e) := by
    rw [fetchStored]
    simp only [hstored.layout_eq, hselects.2]
    rw [SourceM.ends_bind, SourceM.ends_report]
    exact CompressedChunk.ends_decode hstored.holds (hstored.inside origin chunk hselects)
      (Descriptor.of_compressedTiled hstored.layout_eq hselects.2).2 _
  rw [chunkBytes]
  split
  · rename_i current bytes hkept
    split
    · rename_i heq
      subst heq
      obtain ⟨chunk', hget, hdecodes⟩ := h.kept current bytes hkept
      obtain rfl := Option.some.inj (hget.symm.trans hselects.2)
      exact hdecodes
    · exact hfetch
  · exact hfetch

/-- A transfer from a good chunk puts the bytes that it covers there. The chunk is kept. -/
theorem ends_fromChunk_tiles (hstored : StoredTiles d chunkShape chunks s source content)
    (hexact : plan.Exact d s) (ht : t ∈ plan.transfers) {offset : Nat}
    (hsource : t.source = .chunk origin offset)
    (hselects : s.Selects chunkShape chunks origin chunk)
    (hinside : offset + t.runLength * d.elementSize ≤ chunk.uncompressedLength)
    (h : p.Tiles d chunks content options s done) (a : Activity) :
    SourceM.Ends (p.fromChunk ⟨source, d, options⟩ origin offset (t.destination * d.elementSize)
        (t.runLength * d.elementSize)) a
      (fun p' _ => p'.Tiles d chunks content options s
        (fun j => done j ∨ t.CoversByte d.elementSize j) ∧ chunk.Good content options)
      (fun e _ => chunk.Bad content options e) := by
  rw [fromChunk, SourceM.ends_bind]
  refine (ends_chunkBytes hstored hselects h a).mono ?_ fun _ _ he => he
  intro bytes a' hdecodes
  have hdecoded : chunks.decoded? content origin = some bytes := by
    rw [ChunkMap.decoded?, hselects.2, Option.bind_some, hdecodes.2.decoded?_eq]
  have hlength : bytes.size = chunk.uncompressedLength := hdecodes.2.2.1
  rw [Bytes.window?_eq_some (by rw [hlength]; exact hinside)]
  dsimp only
  have hpiece : (bytes.extract offset (offset + t.runLength * d.elementSize)).size =
      t.runLength * d.elementSize := by
    rw [Array.size_extract]
    omega
  have hfit : t.destination * d.elementSize + t.runLength * d.elementSize ≤ p.output.size := by
    rw [h.size_eq]
    exact hexact.fits ht d.elementSize
  obtain ⟨output, hwrite, hput⟩ :=
    exists_write (p := { p with chunk := some (origin, bytes) })
      (d.tileByteAt? (chunks.decoded? content) s) (by rw [hpiece]; exact hfit) fun i hi => by
        rw [hexact.tileByteAt?_chunk ht hsource _ (hpiece ▸ hi), hdecoded, Option.bind_some]
        rw [Array.size_extract] at hi
        rw [Array.getElem?_extract, if_pos hi]
  rw [hpiece] at hput
  rw [hwrite, SourceM.ends_ofExcept_ok]
  refine ⟨⟨hput.size_eq.trans h.size_eq, h.pending_eq, h.stream_eq, ?_, hput.settled h.settled⟩,
    bytes, hdecodes⟩
  intro origin' bytes' hchunk
  cases hchunk
  exact ⟨chunk, hselects.2, hdecodes⟩

/-- A transfer puts the bytes that it covers there, unless it is from a chunk that is not good. -/
theorem ends_execute_tiles (hstored : StoredTiles d chunkShape chunks s source content)
    (hexact : plan.Exact d s) (ht : t ∈ plan.transfers)
    (h : p.Tiles d chunks content options s done) (a : Activity) :
    SourceM.Ends (p.execute ⟨source, d, options⟩ t) a
      (fun p' _ => p'.Tiles d chunks content options s
        (fun j => done j ∨ t.CoversByte d.elementSize j) ∧ t.FromGood chunks content options)
      (fun e _ => ∃ origin chunk, chunkShape.originOf (s.indexAt t.destination) = origin ∧
        s.Selects chunkShape chunks origin chunk ∧ chunk.Bad content options e) := by
  rw [execute]
  rcases hexact.source_of_tiles hstored.layout_eq ht with
    hsource | ⟨origin, offset, chunk, hsource, horigin, hselects, hinside⟩
  · obtain ⟨output, hfill, hput⟩ :=
      exists_fill (r := ⟨source, d, options⟩) (d.tileByteAt? (chunks.decoded? content) s)
        (by rw [h.size_eq]; exact hexact.fits ht d.elementSize)
        fun j hj => hexact.tileByteAt?_fill ht hsource _ hj
    simp only [hsource, hfill, SourceM.ends_ofExcept_ok]
    refine ⟨⟨hput.size_eq.trans h.size_eq, h.pending_eq, h.stream_eq, h.kept,
      hput.settled h.settled⟩, fun _ _ hchunk => ?_⟩
    rw [hsource] at hchunk
    cases hchunk
  · simp only [hsource]
    refine (ends_fromChunk_tiles hstored hexact ht hsource hselects hinside h a).mono ?_
      fun e _ he => ⟨origin, chunk, horigin, hselects, he⟩
    rintro p' a' ⟨hp', hgood⟩
    refine ⟨hp', fun origin' offset' hchunk => ?_⟩
    rw [hsource] at hchunk
    cases hchunk
    exact ⟨chunk, hselects.2, hgood⟩

/-- All transfers are carried out just where all chunks that they are from are good. -/
theorem ends_transfers_tiles (hstored : StoredTiles d chunkShape chunks s source content)
    (hexact : plan.Exact d s) (hordered : plan.Ordered chunkShape s) {destination : Bytes}
    (hsize : destination.size = s.totalCount * d.elementSize) (a : Activity) :
    SourceM.Ends (plan.transfers.foldlM (execute ⟨source, d, options⟩) { output := destination }) a
      (fun p _ => p.Tiles d chunks content options s (fun j => j < s.totalCount * d.elementSize) ∧
        ∀ origin chunk, s.Selects chunkShape chunks origin chunk → chunk.Good content options)
      (fun e _ => FirstFailure chunkShape chunks s content options e) := by
  refine (SourceM.Ends.foldlM (fun front _ p _ => p.Tiles d chunks content options s
    (CoveredByte front d.elementSize) ∧ ∀ u ∈ front, u.FromGood chunks content options)
    ?_ ?_).mono ?_ fun _ _ he => he
  · rintro front t back htransfers p a ⟨hp, hfront⟩
    have ht : t ∈ plan.transfers := by simp [htransfers]
    refine (ends_execute_tiles hstored hexact ht hp a).mono ?_ ?_
    · rintro p' a' ⟨hp', hfrom⟩
      refine ⟨hp'.mono fun j hj => coveredByte_concat.1 hj, ?_⟩
      simpa [or_imp, forall_and] using And.intro hfront hfrom
    · rintro e a' ⟨origin, chunk, horigin, hselects, hbad⟩
      exact .of_front hexact hordered hstored.layout_eq htransfers hfront horigin hselects hbad
  · refine ⟨⟨hsize, rfl, rfl, ?_, fun j hj => absurd hj (not_coveredByte_nil _ j)⟩, by simp⟩
    intro origin bytes hkept
    cases hkept
  · rintro p a ⟨hp, hall⟩
    refine ⟨hp.mono fun j hj => hexact.coveredByte d.elementSize_pos hj, fun origin chunk hselects => ?_⟩
    obtain ⟨u, hu, offset, hsource⟩ := hexact.exists_transfer_of_selects hstored.layout_eq hselects
    exact (hall u hu).good hsource hselects

end ReadProgress

/-- A read comes to the bytes that have to be there where all chunks that the section selects from
are good, and to the first failure where one of them is not. -/
theorem ends_readSection_tiles [LawfulDecoder]
    (hstored : StoredTiles d chunkShape chunks s source content) (hs : s.validate d.shape = .ok ())
    (hcapacity : s.totalCount * d.elementSize ≤ Bytes.maxCapacity) (a : Activity) :
    SourceM.Ends (readSection ⟨source, d, options⟩ s) a
      (fun bytes _ => bytes.size = s.totalCount * d.elementSize ∧
        (∀ j, j < s.totalCount * d.elementSize →
          bytes[j]? = d.tileByteAt? (chunks.decoded? content) s j) ∧
        ∀ origin chunk, s.Selects chunkShape chunks origin chunk → chunk.Good content options)
      (fun e _ => FirstFailure chunkShape chunks s content options e) := by
  have hchunks : d.layout.chunkShape? = some chunkShape := by rw [hstored.layout_eq]; rfl
  have hsize := Bytes.size_zeros (s.totalCount * d.elementSize)
  obtain ⟨plan, hplan⟩ := exists_plan_tiled hchunks hs
  rw [readSection_eq (r := ⟨source, d, options⟩) hs (by rw [hstored.layout_eq]; rfl) hcapacity,
    readSectionInto_eq (r := ⟨source, d, options⟩) hs hplan hsize, SourceM.ends_bind,
    SourceM.ends_report, SourceM.ends_bind]
  refine (ReadProgress.ends_transfers_tiles hstored (exact_of_resolve_tiled hchunks hs hplan)
    (ordered_of_resolve_tiled hchunks hs hplan) hsize _).mono ?_ fun _ _ he => he
  rintro p a' ⟨hp, hgood⟩
  -- nothing was put off, and no stream was opened
  rw [ReadProgress.finish, ReadProgress.flush, hp.pending_eq, SourceM.ends_bind, SourceM.ends_pure,
    hp.stream_eq]
  exact ⟨hp.size_eq, hp.settled, hgood⟩

/-- The same variable in plain chunks, as far as a section selects from it: a chunk is stored in
both or in neither, and `store` holds what it is decoded to. -/
structure Descriptor.Unpacks (raw : Descriptor) (plain : ChunkMap ByteRange) (store : Bytes)
    (d : Descriptor) (chunkShape : ChunkShape) (chunks : ChunkMap CompressedChunk)
    (content : Bytes) (s : Section) : Prop where
  shape_eq : raw.shape = d.shape
  elementSize_eq : raw.elementSize = d.elementSize
  fill_eq : raw.fill = d.fill
  layout_eq : raw.layout = .tiled chunkShape plain
  absent : ∀ origin, s.Touches chunkShape origin → chunks.get? origin = none →
    plain.get? origin = none
  unpacked : ∀ origin chunk, s.Selects chunkShape chunks origin chunk →
    ∃ range bytes, plain.get? origin = some range ∧
      Bytes.window? store range.offset range.length = some bytes ∧
      chunk.encoded.decoded? content = some bytes

/-- The decoded chunks have at each place what the compressed ones have. -/
theorem Descriptor.Unpacks.byteAt?_eq {raw : Descriptor} {plain : ChunkMap ByteRange}
    {store : Bytes} (h : raw.Unpacks plain store d chunkShape chunks content s)
    (hlayout : d.layout = .compressedTiled chunkShape chunks) {j : Nat}
    (hj : j < s.totalCount * d.elementSize) :
    raw.byteAt? store s j = d.tileByteAt? (chunks.decoded? content) s j := by
  have hk : j / d.elementSize < s.totalCount :=
    Nat.div_lt_of_lt_mul (by rwa [Nat.mul_comm] at hj)
  have hb := Nat.mod_lt j d.elementSize_pos
  have htouches : s.Touches chunkShape (chunkShape.originOf (s.indexAt (j / d.elementSize))) :=
    ⟨_, hk, rfl⟩
  rw [byteAt?, tileByteAt?, h.elementSize_eq, elementByte?, tileByte?, place?_tiles hlayout]
  generalize s.indexAt (j / d.elementSize) = index at htouches ⊢
  generalize j % d.elementSize = b at hb ⊢
  simp only [place?, h.layout_eq, h.elementSize_eq]
  cases hget : chunks.get? (chunkShape.originOf index) with
  | none => simp only [h.absent _ htouches hget, h.fill_eq]
  | some chunk =>
    obtain ⟨range, bytes, hrange, hwindow, hdecoded⟩ := h.unpacked _ chunk ⟨htouches, hget⟩
    simp only [hrange]
    cases hravel : ravel? (index.relativeTo (chunkShape.originOf index)) chunkShape.toShape with
    | none => rfl
    | some k =>
      have hbytes : chunks.decoded? content (chunkShape.originOf index) = some bytes := by
        rw [ChunkMap.decoded?, hget, Option.bind_some, hdecoded]
      have hlength := (range_of_tiled h.layout_eq hrange).2
      rw [h.elementSize_eq] at hlength
      have hfit := mul_add_le_mul d.elementSize (ravel?_lt hravel)
      rw [Bytes.window?] at hwindow
      split at hwindow
      · cases hwindow
        simp only [Option.map_some, hbytes, Option.bind_some]
        rw [Array.getElem?_extract, if_pos (by omega), Nat.add_assoc]
      · cases hwindow

end Transfers

/-- Two variables in compressed chunks that differ at most in chunks from which a section selects
nothing. -/
structure Descriptor.SameTiles (d' : Descriptor) (chunks' : ChunkMap CompressedChunk)
    (d : Descriptor) (chunkShape : ChunkShape) (chunks : ChunkMap CompressedChunk) (s : Section) :
    Prop where
  shape_eq : d'.shape = d.shape
  elementSize_eq : d'.elementSize = d.elementSize
  fill_eq : d'.fill = d.fill
  layout_eq : d'.layout = .compressedTiled chunkShape chunks'
  get?_eq : ∀ origin, s.Touches chunkShape origin → chunks'.get? origin = chunks.get? origin

namespace Descriptor.SameTiles

variable {d' : Descriptor} {chunks' : ChunkMap CompressedChunk}

theorem selects_iff (h : d'.SameTiles chunks' d chunkShape chunks s) :
    s.Selects chunkShape chunks' origin chunk ↔ s.Selects chunkShape chunks origin chunk :=
  and_congr_right fun htouches => by rw [h.get?_eq origin htouches]

/-- The transfers of a section say nothing of chunks from which it selects nothing. -/
theorem resolve_eq (h : d'.SameTiles chunks' d chunkShape chunks s)
    (hlayout : d.layout = .compressedTiled chunkShape chunks) (hs : s.validate d.shape = .ok ()) :
    resolve d' s = resolve d s := by
  have hs' : s.validate d'.shape = .ok () := h.shape_eq ▸ hs
  by_cases hzero : s.totalCount = 0
  · rw [resolve_of_empty hs hzero, resolve_of_empty hs' hzero]
  · have hchunks : d.layout.chunkShape? = some chunkShape := by rw [hlayout]; rfl
    have hchunks' : d'.layout.chunkShape? = some chunkShape := by rw [h.layout_eq]; rfl
    have hblocks : ∀ parts, resolveBlocks d s parts =
        chunkBlocks d chunkShape (compressedSource chunks) s parts :=
      fun _ => by rw [resolveBlocks, hlayout]
    have hblocks' : ∀ parts, resolveBlocks d' s parts =
        chunkBlocks d' chunkShape (compressedSource chunks') s parts :=
      fun _ => by rw [resolveBlocks, h.layout_eq]
    obtain ⟨g, hshape, hchunk, hresolve⟩ := resolve_tiled hchunks hblocks hs hzero
    obtain ⟨g', hshape', hchunk', hresolve'⟩ := resolve_tiled hchunks' hblocks' hs' hzero
    obtain rfl : g' = g := by
      cases g
      cases g'
      simp_all [h.shape_eq]
    subst hchunk
    have hin : Section.Within s.ranges g'.arrayShape :=
      hshape ▸ Section.within_of_validate hs hzero
    have hpart : ∀ part ∈ g'.intersecting s,
        partBlock d' s g'.chunkShape (compressedSource chunks') part =
          partBlock d s g'.chunkShape (compressedSource chunks) part := by
      intro part hpart
      -- a part has an element, which is in the chunk of the part
      obtain ⟨hsome, hpositive⟩ :
          (partBlock d s g'.chunkShape (compressedSource chunks) part).transfers ≠ [] ∧ _ :=
        partBlock_nonempty hin hpart
      obtain ⟨t, ht⟩ := List.exists_mem_of_ne_nil _ hsome
      obtain ⟨n, hn⟩ := List.getElem?_of_mem ht
      have hfirst : t.Covers t.destination :=
        ⟨Nat.le_refl _, Nat.lt_add_of_pos_right (hpositive t ht)⟩
      obtain ⟨hk, horigin, -⟩ := partBlock_of_covers hin hpart hn hfirst
      rw [partBlock, partBlock, compressedSource, compressedSource, h.get?_eq _ ⟨_, hk, horigin⟩,
        h.elementSize_eq]
    rw [hresolve, hresolve', List.map_congr_left hpart]

/-- A transfer of a section says nothing of chunks from which it selects nothing. -/
theorem execute_eq [Decoder] (h : d'.SameTiles chunks' d chunkShape chunks s)
    (hlayout : d.layout = .compressedTiled chunkShape chunks) (hexact : plan.Exact d s)
    (ht : t ∈ plan.transfers) (p : ReadProgress) :
    p.execute ⟨source, d', options⟩ t = p.execute ⟨source, d, options⟩ t := by
  rw [ReadProgress.execute, ReadProgress.execute]
  rcases hexact.source_of_tiles hlayout ht with
    hsource | ⟨origin, offset, chunk, hsource, -, hselects, -⟩
  · simp only [hsource, ReadProgress.fillElements, h.elementSize_eq, h.fill_eq]
  · simp only [hsource, ReadProgress.fromChunk, ReadProgress.chunkBytes, ReadProgress.fetchStored,
      h.elementSize_eq, h.layout_eq, hlayout, h.get?_eq _ hselects.1]

/-- Whether a section is readable is not said by the chunks. -/
theorem readable_iff (h : d'.SameTiles chunks' d chunkShape chunks s)
    (hlayout : d.layout = .compressedTiled chunkShape chunks) {b : Build} :
    d'.Readable b s ↔ d.Readable b s := by
  simp only [Descriptor.Readable, Descriptor.Stops, h.layout_eq, hlayout, h.elementSize_eq,
    StorageLayout.runShape?]

/-- A read says nothing of chunks from which it selects nothing. -/
theorem readSection_eq [Decoder] (h : d'.SameTiles chunks' d chunkShape chunks s)
    (hlayout : d.layout = .compressedTiled chunkShape chunks) (hs : s.validate d.shape = .ok ())
    (hcapacity : s.totalCount * d.elementSize ≤ Bytes.maxCapacity) :
    readSection ⟨source, d', options⟩ s = readSection ⟨source, d, options⟩ s := by
  have hs' : s.validate d'.shape = .ok () := h.shape_eq ▸ hs
  have hchunks : d.layout.chunkShape? = some chunkShape := by rw [hlayout]; rfl
  obtain ⟨plan, hplan⟩ := exists_plan_tiled hchunks hs
  have hexact := exact_of_resolve_tiled hchunks hs hplan
  rw [Hyperslab.readSection_eq (r := ⟨source, d', options⟩) hs' (by rw [h.layout_eq]; rfl)
      (h.elementSize_eq ▸ hcapacity),
    Hyperslab.readSection_eq (r := ⟨source, d, options⟩) hs (by rw [hlayout]; rfl) hcapacity,
    readSectionInto_eq (r := ⟨source, d', options⟩) hs' ((h.resolve_eq hlayout hs).trans hplan)
      (Bytes.size_zeros _),
    readSectionInto_eq (r := ⟨source, d, options⟩) hs hplan (Bytes.size_zeros _)]
  have hfold : ∀ start, plan.transfers.foldlM (ReadProgress.execute ⟨source, d', options⟩) start =
      plan.transfers.foldlM (ReadProgress.execute ⟨source, d, options⟩) start :=
    foldlM_congr_left fun t ht p => h.execute_eq hlayout hexact ht p
  simp only [h.layout_eq, hlayout, h.elementSize_eq, hfold]
  rfl

end Descriptor.SameTiles

/-- Failures of one kind: corrupt data for whatever cause, or the same failure. -/
def ReadError.SameKind : ReadError → ReadError → Prop
  | corruptChunk _, corruptChunk _ => True
  | e, e' => e = e'

/-- Reads that come to the same bytes, or to failures of one kind. -/
def Alike : Except ReadError Bytes → Except ReadError Bytes → Prop
  | .ok bytes, .ok bytes' => bytes = bytes'
  | .error e, .error e' => e.SameKind e'
  | _, _ => False

theorem CompressedChunk.FailsWith.sameKind {e e' : ReadError} (h : chunk.FailsWith options e)
    (h' : chunk.FailsWith options e') : e.SameKind e' := by
  cases h with
  | tooLarge hlt =>
    cases h' with
    | unknown hle | large hle => exact absurd hlt (Nat.not_lt.2 hle)
    | _ => trivial
  | unknown hle hunknown =>
    cases h' with
    | tooLarge hlt => exact absurd hlt (Nat.not_lt.2 hle)
    | unknown => rfl
    | large _ hknown | corrupt _ hknown =>
      exact hknown.elim fun codec hcodec => absurd hcodec (hunknown codec)
  | large hle hknown hlarge =>
    cases h' with
    | tooLarge hlt => exact absurd hlt (Nat.not_lt.2 hle)
    | unknown _ hunknown => exact hknown.elim fun codec hcodec => absurd hcodec (hunknown codec)
    | large => rfl
    | corrupt _ _ hcapacity => exact absurd hlarge (Nat.not_lt.2 hcapacity)
  | corrupt hle hknown hcapacity =>
    cases h' with
    | unknown _ hunknown => exact hknown.elim fun codec hcodec => absurd hcodec (hunknown codec)
    | large _ _ hlarge => exact absurd hlarge (Nat.not_lt.2 hcapacity)
    | _ => trivial

section Reads

variable [Decoder]

/-- The kind of the first failure is said by the chunks that a section selects from. -/
theorem FirstFailure.sameKind {chunks' : ChunkMap CompressedChunk} {content' : Bytes}
    {e e' : ReadError} (h : FirstFailure chunkShape chunks s content options e)
    (h' : FirstFailure chunkShape chunks' s content' options e')
    (hselects : ∀ origin chunk, s.Selects chunkShape chunks' origin chunk ↔
      s.Selects chunkShape chunks origin chunk)
    (hgood : ∀ origin chunk, s.Selects chunkShape chunks origin chunk →
      (chunk.Good content' options ↔ chunk.Good content options)) : e'.SameKind e := by
  obtain ⟨origin, chunk, hchunk, ⟨hfails, hnot⟩, hleast⟩ := h
  obtain ⟨origin', chunk', hchunk', ⟨hfails', hnot'⟩, hleast'⟩ := h'
  rw [hselects] at hchunk'
  rw [hgood origin' chunk' hchunk'] at hnot'
  have hlt := hleast origin' chunk' hchunk' hnot'
  have hlt' := hleast' origin chunk ((hselects origin chunk).2 hchunk)
    ((not_congr (hgood origin chunk hchunk)).2 hnot)
  -- two chunks would each come before the other
  obtain rfl : origin' = origin := Decidable.byContradiction fun hne =>
    List.lt_irrefl origin (List.lt_trans (hlt hne) (hlt' (Ne.symm hne)))
  obtain rfl := Option.some.inj (hchunk.2.symm.trans hchunk'.2)
  exact hfails'.sameKind hfails

theorem CompressedChunk.good_congr {content' : Bytes}
    (h : chainBytes content' chunk.data.segments = chainBytes content chunk.data.segments) :
    chunk.Good content' options ↔ chunk.Good content options := by
  simp only [Good, Decodes, EncodedStream.Yields, encoded, h]

theorem EncodedStream.decoded?_congr {e : EncodedStream} {content' : Bytes}
    (h : chainBytes content' e.segments = chainBytes content e.segments) :
    e.decoded? content' = e.decoded? content := by
  simp only [decoded?, h]

/-- What the bytes of a read have to be is said by the chunks that the section selects from. -/
theorem Descriptor.SameTiles.tileByteAt?_eq {d' : Descriptor} {chunks' : ChunkMap CompressedChunk}
    (h : d'.SameTiles chunks' d chunkShape chunks s)
    (hlayout : d.layout = .compressedTiled chunkShape chunks) {content' : Bytes}
    (hpayload : ∀ origin chunk, s.Selects chunkShape chunks origin chunk →
      chainBytes content' chunk.data.segments = chainBytes content chunk.data.segments)
    {j : Nat} (hj : j < s.totalCount * d.elementSize) :
    d'.tileByteAt? (chunks'.decoded? content') s j =
      d.tileByteAt? (chunks.decoded? content) s j := by
  have htouches : s.Touches chunkShape (chunkShape.originOf (s.indexAt (j / d.elementSize))) :=
    ⟨_, Nat.div_lt_of_lt_mul (by rwa [Nat.mul_comm] at hj), rfl⟩
  rw [tileByteAt?, tileByteAt?, tileByte?, tileByte?, place?_tiles hlayout,
    place?_tiles h.layout_eq, h.elementSize_eq, h.fill_eq, h.get?_eq _ htouches]
  cases hget : chunks.get? (chunkShape.originOf (s.indexAt (j / d.elementSize))) with
  | none => rfl
  | some chunk =>
    cases ravel? (Index.relativeTo _ _) chunkShape.toShape with
    | none => rfl
    | some k =>
      simp only [Option.map_some, ChunkMap.decoded?, h.get?_eq _ htouches, hget, Option.bind_some]
      rw [EncodedStream.decoded?_congr (e := chunk.encoded) (hpayload _ _ ⟨htouches, hget⟩)]

/-- The same variable in plain chunks is readable where the one in compressed chunks is. -/
theorem Descriptor.Unpacks.readable_iff {raw : Descriptor} {plain : ChunkMap ByteRange}
    {store : Bytes} (h : raw.Unpacks plain store d chunkShape chunks content s)
    (hlayout : d.layout = .compressedTiled chunkShape chunks) {b : Build} :
    raw.Readable b s ↔ d.Readable b s := by
  simp only [Descriptor.Readable, Descriptor.Stops, h.layout_eq, hlayout, h.elementSize_eq,
    StorageLayout.runShape?]

variable [LawfulDecoder]

/-- Where all chunks that the section selects from are good, reads come to the same bytes. -/
theorem StoredTiles.exists_ok (hstored : StoredTiles d chunkShape chunks s source content)
    (hs : s.validate d.shape = .ok ())
    (hcapacity : s.totalCount * d.elementSize ≤ Bytes.maxCapacity)
    (hgood : ∀ origin chunk, s.Selects chunkShape chunks origin chunk →
      chunk.Good content options) :
    ∃ out : Bytes, out.size = s.totalCount * d.elementSize ∧
      (∀ j, j < s.totalCount * d.elementSize →
        out[j]? = d.tileByteAt? (chunks.decoded? content) s j) ∧
      ∀ a, ((readSection ⟨source, d, options⟩ s).outcome a).1 = .ok out := by
  have hread : ∀ a, ∃ out : Bytes, ((readSection ⟨source, d, options⟩ s).outcome a).1 = .ok out ∧
      out.size = s.totalCount * d.elementSize ∧ ∀ j, j < s.totalCount * d.elementSize →
        out[j]? = d.tileByteAt? (chunks.decoded? content) s j := by
    intro a
    rcases (ends_readSection_tiles hstored hs hcapacity a).cases with
      ⟨out, a', houtcome, hsize, hout, -⟩ | ⟨e, a', -, origin, chunk, hselects, hbad, -⟩
    · exact ⟨out, by rw [houtcome], hsize, hout⟩
    · exact absurd (hgood origin chunk hselects) hbad.2
  obtain ⟨out, -, hsize, hout⟩ := hread {}
  refine ⟨out, hsize, hout, fun a => ?_⟩
  obtain ⟨out', houtcome, hsize', hout'⟩ := hread a
  rw [houtcome, Bytes.eq_of_getElem? hsize' hsize fun j hj => (hout' j hj).trans (hout j hj).symm]

theorem StoredTiles.exists_error (hstored : StoredTiles d chunkShape chunks s source content)
    (hs : s.validate d.shape = .ok ())
    (hcapacity : s.totalCount * d.elementSize ≤ Bytes.maxCapacity)
    (hselects : s.Selects chunkShape chunks origin chunk)
    (hnot : ¬chunk.Good content options) (a : Activity) :
    ∃ e, FirstFailure chunkShape chunks s content options e ∧
      ((readSection ⟨source, d, options⟩ s).outcome a).1 = .error e := by
  rcases (ends_readSection_tiles hstored hs hcapacity a).cases with
    ⟨out, a', -, -, -, hgood⟩ | ⟨e, a', houtcome, hfirst⟩
  · exact absurd (hgood origin chunk hselects) hnot
  · exact ⟨e, hfirst, by rw [houtcome]⟩

/-- Reads come to the same bytes or to failures of one kind, whatever the sources hold outside of
the chunks that the section selects from. -/
theorem Descriptor.SameTiles.alike {d' : Descriptor} {chunks' : ChunkMap CompressedChunk}
    (h : d'.SameTiles chunks' d chunkShape chunks s)
    (hstored : StoredTiles d chunkShape chunks s source content)
    (hs : s.validate d.shape = .ok ())
    (hcapacity : s.totalCount * d.elementSize ≤ Bytes.maxCapacity)
    {source' : ByteSource} {content' : Bytes} (hholds : source'.Holds content')
    (hpayload : ∀ origin chunk, s.Selects chunkShape chunks origin chunk →
      chunk.data.Inside content' ∧
        chainBytes content' chunk.data.segments = chainBytes content chunk.data.segments)
    (a a' : Activity) :
    Alike ((readSection ⟨source', d', options⟩ s).outcome a').1
      ((readSection ⟨source, d, options⟩ s).outcome a).1 := by
  have hselects : ∀ origin chunk, s.Selects chunkShape chunks' origin chunk ↔
      s.Selects chunkShape chunks origin chunk := fun _ _ => h.selects_iff
  have hgood : ∀ origin chunk, s.Selects chunkShape chunks origin chunk →
      (chunk.Good content' options ↔ chunk.Good content options) :=
    fun origin chunk hchunk => CompressedChunk.good_congr (hpayload origin chunk hchunk).2
  have hstored' : StoredTiles d' chunkShape chunks' s source' content' :=
    ⟨h.layout_eq, hholds, fun origin chunk hchunk =>
      (hpayload origin chunk ((hselects origin chunk).1 hchunk)).1⟩
  have hs' : s.validate d'.shape = .ok () := h.shape_eq ▸ hs
  have hcapacity' : s.totalCount * d'.elementSize ≤ Bytes.maxCapacity :=
    h.elementSize_eq ▸ hcapacity
  by_cases hall : ∀ origin chunk, s.Selects chunkShape chunks origin chunk →
      chunk.Good content options
  · obtain ⟨out, hsize, hout, hread⟩ := hstored.exists_ok hs hcapacity hall
    obtain ⟨out', hsize', hout', hread'⟩ := hstored'.exists_ok hs' hcapacity' fun origin chunk hchunk =>
      (hgood origin chunk ((hselects origin chunk).1 hchunk)).2
        (hall origin chunk ((hselects origin chunk).1 hchunk))
    rw [hread, hread']
    rw [h.elementSize_eq] at hsize' hout'
    refine Bytes.eq_of_getElem? hsize' hsize fun j hj => ?_
    rw [hout j hj, hout' j hj]
    exact h.tileByteAt?_eq hstored.layout_eq (fun origin chunk hchunk =>
      (hpayload origin chunk hchunk).2) hj
  · simp only [Classical.not_forall] at hall
    obtain ⟨origin, chunk, hchunk, hnot⟩ := hall
    obtain ⟨e, hfirst, hread⟩ := hstored.exists_error hs hcapacity hchunk hnot a
    obtain ⟨e', hfirst', hread'⟩ := hstored'.exists_error hs' hcapacity'
      ((hselects origin chunk).2 hchunk)
      ((not_congr (hgood origin chunk hchunk)).2 hnot) a'
    rw [hread, hread']
    exact hfirst.sameKind hfirst' hselects hgood

/-- A read of a variable in compressed chunks gives what the decoded chunks would give by
themselves, where all chunks that the section selects from are good. Where one of them is not, it
fails as the first of these does, and the program stops where that one is declared larger than a
buffer. Chunks from which the section selects nothing make no difference, whatever is declared of
them and whatever their bytes are. All this is over any lawful decoder and of sections that the build
reads, and the program stops at all others. -/
theorem readSection_tiles (d : Descriptor) {chunkShape : ChunkShape}
    {chunks : ChunkMap CompressedChunk} (hlayout : d.layout = .compressedTiled chunkShape chunks)
    (s : Section) (hs : s.validate d.shape = .ok ()) {source : ByteSource} {content : Bytes}
    (hholds : source.Holds content)
    (hinside : ∀ origin chunk, s.Selects chunkShape chunks origin chunk →
      chunk.data.Inside content) (options : ReadOptions) (b : Build) :
    (¬d.Readable b s → ∀ a, ∃ cause, (readSection ⟨source, d, options⟩ s b).Halts a cause) ∧
    (d.Readable b s →
      ((∀ origin chunk, s.Selects chunkShape chunks origin chunk → chunk.Good content options) →
        ∃ out : Bytes, out.size = s.totalCount * d.elementSize ∧
          (∀ k i, k < s.totalCount → i < d.elementSize →
            out[k * d.elementSize + i]? =
              d.tileByte? (chunks.decoded? content) (s.indexAt k) i) ∧
          (∀ a, ((readSection ⟨source, d, options⟩ s b).outcome a).1 = .ok out) ∧
          ∀ raw plain store, Descriptor.Unpacks raw plain store d chunkShape chunks content s →
            ∀ options' a,
              ((readSection ⟨.memory store, raw, options'⟩ s b).outcome a).1 = .ok out) ∧
      ((∃ origin chunk, s.Selects chunkShape chunks origin chunk ∧ ¬chunk.Good content options) →
        ∀ a, ∃ e, FirstFailure chunkShape chunks s content options e ∧
          ((readSection ⟨source, d, options⟩ s b).outcome a).1 = .error e) ∧
      ∀ d' chunks', Descriptor.SameTiles d' chunks' d chunkShape chunks s →
        (∀ a, (readSection ⟨source, d', options⟩ s b).outcome a =
          (readSection ⟨source, d, options⟩ s b).outcome a) ∧
        ∀ source' content', ByteSource.Holds source' content' →
          (∀ origin chunk, s.Selects chunkShape chunks origin chunk →
            chunk.data.Inside content' ∧ chainBytes content' chunk.data.segments =
              chainBytes content chunk.data.segments) →
          ∀ a a', Alike ((readSection ⟨source', d', options⟩ s b).outcome a').1
            ((readSection ⟨source, d, options⟩ s b).outcome a).1) := by
  refine ⟨fun hread a => readSection_halts (r := ⟨source, d, options⟩) hs hread a, fun hread => ?_⟩
  have hstored : StoredTiles d chunkShape chunks s source content := ⟨hlayout, hholds, hinside⟩
  -- a readable section is read as in a build without checks
  rw [readSection_build (r := ⟨source, d, options⟩) hs hread]
  refine ⟨fun hgood => ?_, fun ⟨origin, chunk, hselects, hnot⟩ =>
    hstored.exists_error hs hread.2 hselects hnot, fun d' chunks' hsame => ?_⟩
  · obtain ⟨out, hsize, hout, hreads⟩ := hstored.exists_ok hs hread.2 hgood
    refine ⟨out, hsize, fun k i hk hi => ?_, hreads, fun raw plain store hraw options' a => ?_⟩
    · rw [hout _ (mul_add_lt_mul hk hi), Descriptor.tileByteAt?, mul_add_div_of_lt hi,
        Nat.mul_add_mod_of_lt hi]
    · have hsraw : s.validate raw.shape = .ok () := hraw.shape_eq ▸ hs
      have hrawread : raw.Readable b s := (hraw.readable_iff hlayout).2 hread
      have hdirect : EndsDirect raw store s (readSection ⟨.memory store, raw, options'⟩ s) a :=
        ends_readSection_direct (by rw [hraw.layout_eq]; rfl) hsraw hrawread.2 options' a
      rw [readSection_build (r := ⟨.memory store, raw, options'⟩) hsraw hrawread]
      refine hdirect.eq_ok (hraw.elementSize_eq ▸ hsize) fun j hj => ?_
      rw [hraw.elementSize_eq] at hj
      exact (hout j hj).trans (hraw.byteAt?_eq hlayout hj).symm
  · have hs' : s.validate d'.shape = .ok () := hsame.shape_eq ▸ hs
    have hread' : d'.Readable b s := (hsame.readable_iff hlayout).2 hread
    refine ⟨fun a => ?_, fun source' content' hholds' hpayload a a' => ?_⟩
    · rw [readSection_build (r := ⟨source, d', options⟩) hs' hread',
        hsame.readSection_eq hlayout hs hread.2]
    · rw [readSection_build (r := ⟨source', d', options⟩) hs' hread']
      exact hsame.alike hstored hs hread.2 hholds' hpayload a a'

end Reads

/-- Four bytes in two chunks. The first one is a zlib stream, the codec of the second one is not
known. -/
def packedTiles : Descriptor :=
  { shape := [4]
    elementSize := 1
    fill := none
    layout := .compressedTiled [⟨2, Nat.two_pos⟩]
      (.ofList [([0], ⟨.contiguous ⟨1, 13⟩, 2, 4⟩), ([2], ⟨.linked [⟨0, 2⟩], 2, 3⟩)])
    accepted := rfl }

/-- The same four bytes, the first chunk stored as it is. -/
def plainTiles : Descriptor :=
  { shape := [4]
    elementSize := 1
    fill := none
    layout := .tiled [⟨2, Nat.two_pos⟩] (.ofList [([0], ⟨1, 2⟩)])
    accepted := rfl }

/-- The stream of the bytes 7 and 8, after a byte of other data. -/
def packedTileBytes : Bytes :=
  #[9, 120, 1, 1, 2, 0, 253, 255, 7, 8, 0, 24, 0, 16]

/-- A section that selects from the first chunk only is read from either variable. -/
theorem readSection_packedTiles :
    CompressedChunk.Good ⟨.contiguous ⟨1, 13⟩, 2, 4⟩ packedTileBytes {} ∧
      ¬CompressedChunk.Good ⟨.linked [⟨0, 2⟩], 2, 3⟩ packedTileBytes {} ∧
      (∀ a, ((readSection ⟨.memory packedTileBytes, packedTiles, {}⟩
        ⟨[.contiguous 0 2]⟩).outcome a).1 = .ok #[7, 8]) ∧
      ∀ options a, ((readSection ⟨.memory #[9, 7, 8], plainTiles, options⟩
        ⟨[.contiguous 0 2]⟩).outcome a).1 = .ok #[7, 8] := by
  have hdecode : Decoder.decode (chainBytes packedTileBytes [⟨1, 13⟩]) = (#[7, 8], none) := by
    decide +kernel
  have hyields : EncodedStream.Yields ⟨[⟨1, 13⟩], 4, 2⟩ packedTileBytes {} #[7, 8] :=
    ⟨by decide, rfl, .deflate, rfl,
      Codec.decode_eq_ok_iff.2 ⟨congrArg Prod.snd hdecode, congrArg Prod.fst hdecode⟩⟩
  have hgood : CompressedChunk.Good ⟨.contiguous ⟨1, 13⟩, 2, 4⟩ packedTileBytes {} :=
    ⟨_, by decide, hyields⟩
  have htouches : ∀ origin,
      Section.Touches ⟨[.contiguous 0 2]⟩ [⟨2, Nat.two_pos⟩] origin → origin = [0] := by
    rintro origin ⟨k, hk, rfl⟩
    have hk : k < 2 := hk
    revert k
    decide
  have hselects : ∀ origin chunk, Section.Selects ⟨[.contiguous 0 2]⟩ [⟨2, Nat.two_pos⟩]
      (.ofList [([0], ⟨.contiguous ⟨1, 13⟩, 2, 4⟩), ([2], ⟨.linked [⟨0, 2⟩], 2, 3⟩)])
      origin chunk → origin = [0] ∧ chunk = ⟨.contiguous ⟨1, 13⟩, 2, 4⟩ := by
    rintro origin chunk ⟨htouch, hget⟩
    obtain rfl := htouches origin htouch
    exact ⟨rfl, (Option.some.inj hget).symm⟩
  obtain ⟨hread, -⟩ := (readSection_tiles packedTiles rfl ⟨[.contiguous 0 2]⟩ rfl
    (ByteSource.holds_memory packedTileBytes)
    (fun origin chunk h => by
      obtain ⟨-, rfl⟩ := hselects origin chunk h
      exact Nat.le_refl packedTileBytes.size) {} .wrapping).2 ⟨packedTiles.not_stops _, by decide⟩
  obtain ⟨out, -, -, hpacked, hraw⟩ := hread fun origin chunk h => by
    obtain ⟨-, rfl⟩ := hselects origin chunk h
    exact hgood
  have hplain := hraw plainTiles (.ofList [([0], ⟨1, 2⟩)]) #[9, 7, 8]
    { shape_eq := rfl
      elementSize_eq := rfl
      fill_eq := rfl
      layout_eq := rfl
      absent := fun origin h hnone => by
        obtain rfl := htouches origin h
        cases hnone
      unpacked := fun origin chunk h => by
        obtain ⟨rfl, rfl⟩ := hselects origin chunk h
        exact ⟨⟨1, 2⟩, #[7, 8], rfl, rfl, hyields.decoded?_eq⟩ }
  have hout : ((readSection ⟨.memory #[9, 7, 8], plainTiles, {}⟩
      ⟨[.contiguous 0 2]⟩).outcome {}).1.toOption = some #[7, 8] := by
    decide +kernel
  rw [hplain {} {}] at hout
  cases hout
  refine ⟨hgood, ?_, hpacked, hplain⟩
  rintro ⟨-, -, -, -, codec, hcodec, -⟩
  cases codec <;> cases hcodec

/-- One byte in a chunk that is declared one byte larger than a buffer can be. -/
def hugeTile : Descriptor :=
  { shape := [1, 1]
    elementSize := 1
    fill := none
    layout := .compressedTiled
      [⟨17179869184, Nat.zero_lt_succ _⟩, ⟨536870912, Nat.zero_lt_succ _⟩]
      (.ofList [([0, 0], ⟨.contiguous ⟨0, 1⟩, 9223372036854775808, 0⟩)])
    accepted := rfl }

/-- The limit on decoded chunks lets the chunk pass, and the program stops instead of saying that the
chunk is corrupt. -/
theorem readSection_hugeTile :
    Section.validate ⟨[.contiguous 0 1, .contiguous 0 1]⟩ hugeTile.shape = .ok () ∧
      ∀ b, hugeTile.Readable b ⟨[.contiguous 0 1, .contiguous 0 1]⟩ ∧
        ((readSection ⟨.memory #[7], hugeTile, { maxDecodedChunkSize := maxOffset }⟩
          ⟨[.contiguous 0 1, .contiguous 0 1]⟩ b).outcome {}).1 =
            .error (.halted (.capacity 9223372036854775808)) := by
  have hread : ∀ b, hugeTile.Readable b ⟨[.contiguous 0 1, .contiguous 0 1]⟩ := by
    intro b
    cases b <;> decide
  refine ⟨rfl, fun b => ⟨hread b, ?_⟩⟩
  rw [readSection_build (r := ⟨.memory #[7], hugeTile, { maxDecodedChunkSize := maxOffset }⟩) rfl
    (hread b)]
  rfl

end Hyperslab
