import Hyperslab.Proofs.Persist.Descriptor

/-!
# Persistence

What is written is read back, and what is read has passed the checks of the constructors. A value is
written with numbers up to the largest ones that are read, `InRange`, which every value that was read
is; so what was read can be written and read again.

A list of chunks may repeat an origin. It is read as the map of the last pair of each origin, before
anything is checked, and then the chunks of the map are checked.

## Main definitions

- `ReadsBack`: what is written is read back
- `ChunkMap.Denotes`: the map of a list of pairs in a document
- `StorageMetadata.ChecksLast`: which pairs of a list are checked

## Main statements

- `ChunkMap.decode_eq_some_iff`: what a list of pairs is read as
- `StorageMetadata.check_chunks_iff`: only the chunks of the map are checked
- `persisted_read_back`: reading and writing taken together
-/

namespace Hyperslab

open Persisted LawfulPersisted

/-- Values with numbers that can be read are read as they were written. -/
def ReadsBack (α : Type) [Persisted α] [LawfulPersisted α] : Prop :=
  ∀ v : α, InRange v → decode (encode v) = some v

namespace ChunkMap

variable {α : Type}

/-- The document is a list of pairs of an origin and a value, and the map has under each origin the
value of its last pair. -/
def Denotes [Persisted α] (doc : Document) (pairs : List (Index × α)) (m : ChunkMap α) : Prop :=
  (∃ items, doc = .list items ∧ items.mapM decodeEntry = some pairs) ∧
    ∀ origin value, m.get? origin = some value ↔ LastEntry pairs origin value

/-- The document lists the chunks of the map in the order of their origins. -/
def ListedBy [Persisted α] (doc : Document) (m : ChunkMap α) : Prop :=
  ∃ pairs : List (Index × α), doc = .list (pairs.map encodeEntry) ∧
    (pairs.Pairwise fun a b => a.1 < b.1) ∧
      ∀ origin value, (origin, value) ∈ pairs ↔ m.get? origin = some value

theorem listedBy_encode [Persisted α] (m : ChunkMap α) : ListedBy (encode m) m :=
  ⟨m.entries, rfl, m.sorted, fun _ _ => mem_entries_iff⟩

/-- A map is told from others by the last pairs of its origins. -/
theorem eq_ofList_iff {pairs : List (Index × α)} {m : ChunkMap α} :
    ofList pairs = m ↔ ∀ origin value, m.get? origin = some value ↔ LastEntry pairs origin value := by
  constructor
  · rintro rfl origin value
    exact get?_ofList_eq_some_iff
  · intro h
    refine eq_of_get?_eq fun origin => Option.ext fun value => ?_
    rw [get?_ofList_eq_some_iff, h]

/-- A document says a chunk map if it is a list of pairs, of which the last ones count. -/
theorem decode_eq_some_iff [Persisted α] {doc : Document} {m : ChunkMap α} :
    decode doc = some m ↔ ∃ pairs, Denotes doc pairs m := by
  constructor
  · intro h
    obtain ⟨pairs, hpairs, hmap⟩ := Option.bind_eq_some_iff.1 h
    unfold Document.list? at hpairs
    split at hpairs
    · exact ⟨pairs, ⟨_, rfl, hpairs⟩, eq_ofList_iff.1 (Option.some.inj hmap)⟩
    · cases hpairs
  · rintro ⟨pairs, ⟨items, rfl, hpairs⟩, h⟩
    exact Option.bind_eq_some_iff.2 ⟨pairs, hpairs, congrArg some (eq_ofList_iff.2 h)⟩

end ChunkMap

namespace StorageMetadata

variable {α : Type} {m : StorageMetadata} {chunkShape : ChunkShape} {chunks : ChunkMap α}
  {checkEntry : ChunkGrid → Nat → Index × α → Except DescriptorError Unit}

/-- A declaration in chunks is consistent if it is without the chunks, and each chunk is. -/
theorem check_chunks_iff {bare : StorageLayout}
    (hlayout : ∀ bytes b, m.checkLayout bytes b = m.checkChunks chunkShape checkEntry chunks b)
    (hbare : ∀ bytes b, checkLayout { m with layout := bare } bytes b =
      m.checkChunks chunkShape checkEntry .empty b) :
    m.check = .ok () ↔
      check { m with layout := bare } = .ok () ∧
        m.checkChunks chunkShape checkEntry chunks .checked = .ok () := by
  rw [check_eq_ok_iff, check_eq_ok_iff]
  simp only [hlayout, hbare]
  constructor
  · rintro ⟨hsize, hfill, bytes, hbytes, hchunks⟩
    obtain ⟨grid, chunkBytes, hgrid, -⟩ := checkChunks_eq_ok_iff.1 hchunks
    refine ⟨⟨hsize, hfill, bytes, hbytes, checkChunks_eq_ok_iff.2 ?_⟩, hchunks⟩
    exact ⟨grid, chunkBytes, hgrid, fun _ value h => (Option.some_ne_none value h.symm).elim⟩
  · rintro ⟨⟨hsize, hfill, bytes, hbytes, -⟩, hchunks⟩
    exact ⟨hsize, hfill, bytes, hbytes, hchunks⟩

/-- The declaration is consistent if it is with the layout `bare`, and the last pair of each origin
passes its check. -/
def ChecksLast (m : StorageMetadata) (bare : StorageLayout) (chunkShape : ChunkShape)
    (checkEntry : ChunkGrid → Nat → Index × α → Except DescriptorError Unit)
    (pairs : List (Index × α)) : Prop :=
  m.check = .ok () ↔
    check { m with layout := bare } = .ok () ∧
      ∃ grid chunkBytes, m.gridOf chunkShape .checked = .ok (grid, chunkBytes) ∧
        ∀ origin value, ChunkMap.LastEntry pairs origin value →
          checkEntry grid chunkBytes (origin, value) = .ok ()

theorem checksLast_of_denotes [Persisted α] {bare : StorageLayout} {list : Document}
    {pairs : List (Index × α)} (hpairs : chunks.Denotes list pairs)
    (hlayout : ∀ bytes b, m.checkLayout bytes b = m.checkChunks chunkShape checkEntry chunks b)
    (hbare : ∀ bytes b, checkLayout { m with layout := bare } bytes b =
      m.checkChunks chunkShape checkEntry .empty b) :
    m.ChecksLast bare chunkShape checkEntry pairs := by
  rw [ChecksLast, check_chunks_iff hlayout hbare, checkChunks_eq_ok_iff]
  simp only [hpairs.2]

theorem checksLast_of_tiled {chunks : ChunkMap ByteRange} {list : Document}
    {pairs : List (Index × ByteRange)} (hlayout : m.layout = .tiled chunkShape chunks)
    (hpairs : chunks.Denotes list pairs) :
    m.ChecksLast (.tiled chunkShape .empty) chunkShape checkChunk pairs :=
  checksLast_of_denotes hpairs (checkLayout_tiled hlayout) (checkLayout_tiled rfl)

theorem checksLast_of_compressedTiled {chunks : ChunkMap CompressedChunk} {list : Document}
    {pairs : List (Index × CompressedChunk)} (hlayout : m.layout = .compressedTiled chunkShape chunks)
    (hpairs : chunks.Denotes list pairs) :
    m.ChecksLast (.compressedTiled chunkShape .empty) chunkShape checkCompressedChunk pairs :=
  checksLast_of_denotes hpairs (checkLayout_compressedTiled hlayout)
    (checkLayout_compressedTiled rfl)

end StorageMetadata

/-- The document is a layout of the kind in chunks of the shape, and the map is that of the pairs it
lists. -/
def SaysChunks {α : Type} [Persisted α] (doc : Document) (kind : String) (chunkShape : ChunkShape)
    (chunks : ChunkMap α) : Prop :=
  ∃ d shape list pairs, doc.tagged? "kind" = some (kind, d) ∧
    d.fields? ["chunk_shape", "chunks"] = some [shape, list] ∧
      ChunkShape.decode shape = some chunkShape ∧ chunks.Denotes list pairs

namespace StorageLayout

variable {doc : Document} {chunkShape : ChunkShape}

theorem decode_eq_tiled_iff {chunks : ChunkMap ByteRange} :
    decode doc = some (tiled chunkShape chunks) ↔ SaysChunks doc "tiled" chunkShape chunks := by
  rw [decode_eq_some_iff]
  simp only [SaysChunks, Says, ChunkMap.decode_eq_some_iff, name]
  grind

theorem decode_eq_compressedTiled_iff {chunks : ChunkMap CompressedChunk} :
    decode doc = some (compressedTiled chunkShape chunks) ↔
      SaysChunks doc "compressed_tiled" chunkShape chunks := by
  rw [decode_eq_some_iff]
  simp only [SaysChunks, Says, ChunkMap.decode_eq_some_iff, name]
  grind

end StorageLayout

/-- Reading and writing: what is written is read back, a chunk map being written in the order of its
origins. A document that says a descriptor or the layout of a record says one that is accepted when
it is made of the same parts, and reads the same once more when it is written again. A list of chunks
is read as the map of the last pair of each origin, and of its pairs only these are checked. -/
theorem persisted_read_back :
    (ReadsBack SectionRange ∧ ReadsBack Section ∧ ReadsBack ByteRange ∧
      (∀ id ≤ maxCodecId, CodecId.decode (CodecId.encode id) = some id) ∧
      (∀ v : FillValue, decode (encode v) = some v) ∧
      ReadsBack ChunkData ∧ ReadsBack CompressedChunk ∧ ReadsBack StorageLayout ∧
      (∀ (m : StorageMetadata) (d : Descriptor), InRange m → Descriptor.create m = .ok d →
        decode (encode d) = some d) ∧
      (∀ recordSize ≤ maxOffset, ∀ (fields : List RecordField) (l : RecordLayout),
        RecordLayout.create recordSize fields = .ok l → decode (encode l) = some l)) ∧
    ((∀ chunks : ChunkMap ByteRange, chunks.ListedBy (encode chunks)) ∧
      ∀ chunks : ChunkMap CompressedChunk, chunks.ListedBy (encode chunks)) ∧
    (∀ (doc : Document) (d : Descriptor),
      (decode doc = some d ↔
        ∃ m, StorageMetadata.Says doc m ∧ Descriptor.create m = .ok d) ∧
      (decode doc = some d → decode (encode d) = some d)) ∧
    (∀ (doc : Document) (l : RecordLayout),
      (decode doc = some l ↔
        ∃ recordSize fields, RecordLayout.Says doc recordSize fields ∧
          RecordLayout.create recordSize fields = .ok l) ∧
      (decode doc = some l → decode (encode l) = some l)) ∧
    ((∀ doc chunkShape chunks, decode doc = some (StorageLayout.tiled chunkShape chunks) ↔
        SaysChunks doc "tiled" chunkShape chunks) ∧
      (∀ doc chunkShape chunks, decode doc = some (StorageLayout.compressedTiled chunkShape chunks) ↔
        SaysChunks doc "compressed_tiled" chunkShape chunks)) ∧
    (∀ (m : StorageMetadata) chunkShape chunks list pairs, m.layout = .tiled chunkShape chunks →
      chunks.Denotes list pairs →
      m.ChecksLast (.tiled chunkShape .empty) chunkShape StorageMetadata.checkChunk pairs) ∧
    ∀ (m : StorageMetadata) chunkShape chunks list pairs,
      m.layout = .compressedTiled chunkShape chunks → chunks.Denotes list pairs →
      m.ChecksLast (.compressedTiled chunkShape .empty) chunkShape
        StorageMetadata.checkCompressedChunk pairs := by
  have hdescriptor : ∀ (m : StorageMetadata) (d : Descriptor), InRange m →
      Descriptor.create m = .ok d → decode (encode d) = some d := by
    intro m d hrange hcreate
    rw [← Descriptor.create_eq_ok_iff.1 hcreate] at hrange
    exact decode_encode d hrange
  have hrecord : ∀ recordSize ≤ maxOffset, ∀ (fields : List RecordField) (l : RecordLayout),
      RecordLayout.create recordSize fields = .ok l → decode (encode l) = some l := by
    intro recordSize hsize fields l hcreate
    rw [← (RecordLayout.create_eq_ok_iff.1 hcreate).1] at hsize
    exact decode_encode l (RecordLayout.inRange_of_size hsize)
  refine ⟨⟨decode_encode, decode_encode, decode_encode, fun id => CodecId.decode_encode,
      fun v => decode_encode v trivial, decode_encode, decode_encode, decode_encode, hdescriptor,
      hrecord⟩, ⟨ChunkMap.listedBy_encode, ChunkMap.listedBy_encode⟩, fun doc d => ?_,
    fun doc l => ?_, ⟨fun _ _ _ => StorageLayout.decode_eq_tiled_iff,
      fun _ _ _ => StorageLayout.decode_eq_compressedTiled_iff⟩,
    fun _ _ _ _ _ => StorageMetadata.checksLast_of_tiled,
    fun _ _ _ _ _ => StorageMetadata.checksLast_of_compressedTiled⟩
  · exact ⟨Descriptor.decode_eq_some_iff, fun h => decode_encode d (inRange_of_decode h)⟩
  · exact ⟨RecordLayout.decode_eq_some_iff, fun h => decode_encode l (inRange_of_decode h)⟩

/-- The chunk at zero is listed twice, at first with a wrong length. -/
def relistedPairs : List (Index × ByteRange) :=
  [([0], ⟨0, 9⟩), ([0], ⟨6, 2⟩)]

def relisted : StorageMetadata where
  shape := [4]
  elementSize := 1
  fill := none
  layout := .tiled [⟨2, Nat.two_pos⟩] (.ofList relistedPairs)

theorem eq_of_mem_relisted {e : Index × ByteRange}
    (h : e ∈ (ChunkMap.ofList relistedPairs).entries) : e = ([0], ⟨6, 2⟩) :=
  List.mem_singleton.1 h

theorem persisted_relisted :
    (ChunkMap.ofList relistedPairs).Denotes (.list (relistedPairs.map encodeEntry)) relistedPairs ∧
      relisted.check = .ok () ∧
      ∃ d, Descriptor.create relisted = .ok d ∧ decode (encode d) = some d := by
  obtain ⟨⟨-, -, -, -, -, -, -, -, hdescriptor, -⟩, -, -, -, -, htiled, -⟩ := persisted_read_back
  have hdenotes : (ChunkMap.ofList relistedPairs).Denotes
      (.list (relistedPairs.map encodeEntry)) relistedPairs :=
    ⟨⟨_, rfl, rfl⟩, fun _ _ => ChunkMap.get?_ofList_eq_some_iff⟩
  have hcheck : relisted.check = .ok () := by
    refine (htiled relisted _ _ _ _ rfl hdenotes).2
      ⟨rfl, ⟨[4], [⟨2, Nat.two_pos⟩], rfl⟩, 2, rfl, fun origin range hlast => ?_⟩
    have hget := ChunkMap.get?_ofList_eq_some_iff.2 hlast
    cases eq_of_mem_relisted (ChunkMap.mem_entries_iff.2 hget)
    rfl
  refine ⟨hdenotes, hcheck, ⟨relisted, hcheck⟩, Descriptor.create_eq_ok hcheck, ?_⟩
  refine hdescriptor relisted _ ?_ (Descriptor.create_eq_ok hcheck)
  refine ⟨by decide, by decide, ?_, fun e he => ?_⟩
  · exact List.forall_mem_singleton.2 (show 2 ≤ maxOffset by decide)
  · cases eq_of_mem_relisted he
    exact ⟨by decide, show 6 ≤ maxOffset ∧ 2 ≤ maxOffset by decide⟩

end Hyperslab
