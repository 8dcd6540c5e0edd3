import Hyperslab.Proofs.Descriptor

/-!
# Consistent declarations

`StorageMetadata.check` goes through the parts of a declaration in turn and does its arithmetic one
step at a time, each step refused where it passes the largest offset. `StorageMetadata.Consistent`
is what the checks amount to, in exact arithmetic and whatever their order: a condition on the
element size, one on the fill value, one on the size of the variable, and one on its layout.

## Main definitions

- `StartsChunk`: an index is the origin of a chunk, dimension by dimension
- `StorageMetadata.ChunksFit`: what the chunks of both kinds have to keep to
- `StorageMetadata.LayoutFits`, `StorageMetadata.Consistent`: what is declared fits together

## Main statements

- `isOriginAlong_iff`, `StorageMetadata.checkChunks_iff_chunksFit`: the checks of chunks
- `StorageMetadata.accepted_iff_consistent`: a declaration makes a descriptor exactly if it is
  consistent
-/

namespace Hyperslab

/-- An index is the origin of a chunk: it has the rank of the variable, and in every dimension it is
inside of the variable and a multiple of the chunk length. -/
structure StartsChunk (shape : Shape) (chunkShape : ChunkShape) (origin : Index) : Prop where
  rank_eq : origin.length = shape.length
  along : ∀ (k o n : Nat) (c : PosNat), origin[k]? = some o → shape[k]? = some n →
    chunkShape[k]? = some c → o < n ∧ c.val ∣ o

theorem startsChunk_cons_iff {o n : Nat} {c : PosNat} {origin : Index} {shape : Shape}
    {chunkShape : ChunkShape} :
    StartsChunk (n :: shape) (c :: chunkShape) (o :: origin) ↔
      (o < n ∧ c.val ∣ o) ∧ StartsChunk shape chunkShape origin := by
  constructor
  · rintro ⟨hrank, halong⟩
    exact ⟨halong 0 o n c rfl rfl rfl, Nat.succ.inj hrank, fun k => halong (k + 1)⟩
  · rintro ⟨hfirst, hrank, halong⟩
    refine ⟨congrArg Nat.succ hrank, fun k => ?_⟩
    cases k with
    | zero => simpa using hfirst
    | succ k => exact halong k

theorem isOriginAlong_iff {origin : Index} {shape : Shape} {chunkShape : ChunkShape}
    (h : shape.length = chunkShape.length) :
    ChunkGrid.isOriginAlong origin shape chunkShape = true ↔
      StartsChunk shape chunkShape origin := by
  induction shape generalizing origin chunkShape with
  | nil =>
    obtain rfl := List.length_eq_zero_iff.1 h.symm
    cases origin with
    | nil => exact iff_of_true rfl ⟨rfl, by simp⟩
    | cons o origin => exact iff_of_false nofun fun ho => nomatch ho.rank_eq
  | cons n shape ih =>
    obtain ⟨c, chunkShape, rfl⟩ := List.exists_cons_of_length_eq_add_one h.symm
    cases origin with
    | nil => exact iff_of_false nofun fun ho => nomatch ho.rank_eq
    | cons o origin =>
      rw [ChunkGrid.isOriginAlong, Bool.and_eq_true, ih (Nat.succ.inj h), startsChunk_cons_iff,
        Nat.dvd_iff_mod_eq_zero]
      simp

/-- Encoded bytes end at offsets, in one piece or in a chain. -/
def ChunkData.Fits : ChunkData → Prop
  | contiguous range => range.offset + range.length ≤ maxOffset
  | linked segments => ChainFits segments

theorem ChunkData.check_eq_ok_iff {data : ChunkData} : data.check = .ok () ↔ data.Fits := by
  cases data with
  | contiguous range => exact ByteRange.check_eq_ok_iff
  | linked segments => exact checkChain_eq_ok_iff

namespace StorageMetadata

variable {m : StorageMetadata}

/-- The number of bytes of the variable. -/
def totalBytes (m : StorageMetadata) : Nat :=
  m.elementSize * elementCount m.shape

/-- The number of bytes of a whole chunk. -/
def chunkBytes (m : StorageMetadata) (chunkShape : ChunkShape) : Nat :=
  m.elementSize * elementCount chunkShape.toShape

/-- The chunks have the rank of the variable and as many bytes as there are offsets at most, and
what is stored is under the origin of a chunk and fits the number of bytes of one. -/
structure ChunksFit {α : Type} (m : StorageMetadata) (chunkShape : ChunkShape)
    (chunks : ChunkMap α) (fits : Nat → α → Prop) : Prop where
  rank_eq : chunkShape.length = m.shape.length
  chunk_le : m.chunkBytes chunkShape ≤ maxOffset
  startsChunk : ∀ origin stored, chunks.get? origin = some stored →
    StartsChunk m.shape chunkShape origin
  stored : ∀ origin stored, chunks.get? origin = some stored →
    fits (m.chunkBytes chunkShape) stored

theorem checkChunks_iff_chunksFit {α : Type} {chunkShape : ChunkShape} {chunks : ChunkMap α}
    (hsize : 1 ≤ m.elementSize)
    {checkEntry : ChunkGrid → Nat → Index × α → Except DescriptorError Unit}
    {fits : Nat → α → Prop}
    (hentry : ∀ grid bytes origin stored, checkEntry grid bytes (origin, stored) = .ok () ↔
      grid.isOrigin origin = true ∧ fits bytes stored) :
    m.checkChunks chunkShape checkEntry chunks .checked = .ok () ↔
      m.ChunksFit chunkShape chunks fits := by
  rw [checkChunks_eq_ok_iff]
  constructor
  · rintro ⟨⟨shape, chunkShape, hrank⟩, bytes, hgrid, hchunks⟩
    obtain ⟨⟨rfl, rfl⟩, -, hle, rfl⟩ := gridOf_eq_ok_iff.1 hgrid
    simp only [hentry, ChunkGrid.isOrigin, isOriginAlong_iff hrank] at hchunks
    rw [ChunkGrid.chunkElements, Nat.mul_comm] at hle hchunks
    exact ⟨hrank.symm, hle, fun origin stored h => (hchunks origin stored h).1,
      fun origin stored h => (hchunks origin stored h).2⟩
  · rintro ⟨hrank, hle, hstarts, hstored⟩
    refine ⟨⟨m.shape, chunkShape, hrank.symm⟩, m.chunkBytes chunkShape, ?_, fun origin stored h =>
      (hentry _ _ _ _).2 ⟨(isOriginAlong_iff hrank.symm).2 (hstarts origin stored h),
        hstored origin stored h⟩⟩
    rw [chunkBytes, Nat.mul_comm] at hle ⊢
    -- elements have bytes, so where these can be counted the elements can
    have hcount := Nat.le_trans (Nat.le_mul_of_pos_right (elementCount chunkShape.toShape) hsize) hle
    exact gridOf_eq_ok_iff.2 ⟨⟨rfl, rfl⟩, hcount, hle, rfl⟩

/-- What is stored ends at offsets, and has or is declared to have the size of what it holds. -/
def LayoutFits (m : StorageMetadata) : Prop :=
  match m.layout with
  | .noData => True
  | .regular baseOffset => baseOffset + m.totalBytes ≤ maxOffset
  | .segmented segments => ChainFits segments
  | .compressed data uncompressedLength _ =>
    data.offset + data.length ≤ maxOffset ∧ uncompressedLength = m.totalBytes
  | .compressedSegmented segments _ uncompressedLength =>
    ChainFits segments ∧ uncompressedLength = m.totalBytes
  | .tiled chunkShape chunks => m.ChunksFit chunkShape chunks fun bytes range =>
    range.offset + range.length ≤ maxOffset ∧ range.length = bytes
  | .compressedTiled chunkShape chunks => m.ChunksFit chunkShape chunks fun bytes chunk =>
    chunk.data.Fits ∧ chunk.uncompressedLength = bytes

/-- Elements have bytes, the fill value has those of one, the number of bytes is an offset after each
dimension, outermost first, and the layout fits the variable. -/
structure Consistent (m : StorageMetadata) : Prop where
  elementSize_pos : 1 ≤ m.elementSize
  fill_size : ∀ v, m.fill = some v → v.size = m.elementSize
  products_le : ∀ k < m.shape.length,
    m.elementSize * elementCount (m.shape.take (k + 1)) ≤ maxOffset
  layoutFits : m.LayoutFits

theorem checkChunk_eq_ok_iff (grid : ChunkGrid) (bytes : Nat) (origin : Index) (range : ByteRange) :
    checkChunk grid bytes (origin, range) = .ok () ↔ grid.isOrigin origin = true ∧
      (range.offset + range.length ≤ maxOffset ∧ range.length = bytes) := by
  rw [checkChunk, guard_eq_ok_iff, seq_eq_ok_iff, lastGuard_eq_ok_iff, ByteRange.check_eq_ok_iff]
  simp

theorem checkCompressedChunk_eq_ok_iff (grid : ChunkGrid) (bytes : Nat) (origin : Index)
    (chunk : CompressedChunk) :
    checkCompressedChunk grid bytes (origin, chunk) = .ok () ↔ grid.isOrigin origin = true ∧
      (chunk.data.Fits ∧ chunk.uncompressedLength = bytes) := by
  rw [checkCompressedChunk, guard_eq_ok_iff, seq_eq_ok_iff, ChunkData.check_eq_ok_iff,
    checkDecodedLength_eq_ok_iff]
  simp

theorem checkLayout_eq_ok_iff (hsize : 1 ≤ m.elementSize) :
    m.checkLayout m.totalBytes .checked = .ok () ↔ m.LayoutFits := by
  rw [LayoutFits]
  cases hlayout : m.layout with
  | tiled chunkShape chunks =>
    rw [checkLayout_tiled hlayout]
    exact checkChunks_iff_chunksFit hsize checkChunk_eq_ok_iff
  | compressedTiled chunkShape chunks =>
    rw [checkLayout_compressedTiled hlayout]
    exact checkChunks_iff_chunksFit hsize checkCompressedChunk_eq_ok_iff
  | _ =>
    rw [checkLayout, hlayout]
    simp only [seq_eq_ok_iff, checkDecodedLength_eq_ok_iff, checkChain_eq_ok_iff,
      ByteRange.check_eq_ok_iff]

/-- A declaration makes a descriptor, which declares the same, exactly if it is consistent. -/
theorem accepted_iff_consistent (m : StorageMetadata) :
    (∃ d, Descriptor.create m = .ok d ∧ d.toStorageMetadata = m) ↔ m.Consistent := by
  have hcheck : (∃ d, Descriptor.create m = .ok d ∧ d.toStorageMetadata = m) ↔ m.check = .ok () :=
    ⟨fun ⟨d, _, hd⟩ => hd ▸ d.accepted, fun h => ⟨⟨m, h⟩, Descriptor.create_eq_ok h, rfl⟩⟩
  rw [hcheck, check_eq_ok_iff, checkFill_eq_ok_iff]
  constructor
  · rintro ⟨hsize, hfill, bytes, hbytes, hlayout⟩
    obtain ⟨hproducts, rfl⟩ := bytesWithin?_eq_some_iff.1 hbytes
    have hpos := Nat.pos_of_ne_zero hsize
    exact ⟨hpos, hfill, hproducts, (checkLayout_eq_ok_iff hpos).1 hlayout⟩
  · rintro ⟨hsize, hfill, hproducts, hlayout⟩
    exact ⟨Nat.ne_of_gt hsize, hfill, m.totalBytes, bytesWithin?_eq_some_iff.2 ⟨hproducts, rfl⟩,
      (checkLayout_eq_ok_iff hsize).2 hlayout⟩

/-- A variable without elements may have too many bytes all the same, where the product passes the
largest offset before it comes to the dimension of length zero. -/
example : check ⟨[9223372036854775808, 4, 0], 1, none, .noData⟩ =
    .error (.variableTooLarge [9223372036854775808, 4, 0] 1) := rfl

end StorageMetadata

end Hyperslab
