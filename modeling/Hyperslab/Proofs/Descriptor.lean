import Hyperslab.Proofs.Build
import Hyperslab.Proofs.ChunkMap
import Hyperslab.Proofs.Section
import Hyperslab.Descriptor.Basic

/-!
# What accepted descriptors keep to

`StorageMetadata.check` is taken apart once, into the facts that later modules use: elements have
bytes, the variable has as many bytes as there are offsets at most, and what is stored lies at
offsets that exist. In a checked build it also has the size of what it holds, which a wrapping build
makes sure of only where the elements of a chunk can be counted.

## Main statements

- `StorageMetadata.check_eq_ok_iff`, `StorageMetadata.checkChunks_eq_ok_iff`: what the checks say
- `StorageMetadata.check_of_checked`: what a checked build accepts every build accepts
- `Descriptor.elementSize_pos`, `Descriptor.fill_size`: facts of every layout
- `Descriptor.checkLayout_eq_ok`: the layout fits the bytes of the variable
- `Descriptor.regular_le`, `Descriptor.range_of_tiled`, `Descriptor.rank_of_chunks`,
  `Descriptor.of_encoded`, `Descriptor.of_compressedTiled`: what that says of a layout
-/

namespace Hyperslab

/-- A check after another one passes exactly if both do. -/
theorem seq_eq_ok_iff {β ε : Type} {x : Except ε Unit} {f : Unit → Except ε β} {y : β} :
    (x >>= f) = .ok y ↔ x = .ok () ∧ f () = .ok y := by
  rw [bind_eq_ok_iff]
  exact ⟨fun ⟨_, hx, hf⟩ => ⟨hx, hf⟩, fun ⟨hx, hf⟩ => ⟨(), hx, hf⟩⟩

/-- What comes after a guard passes exactly if the condition of the guard does not hold and it
passes itself. -/
theorem guard_eq_ok_iff {α β ε : Type} {p : Prop} [Decidable p] {e : ε} {f : β → Except ε α}
    {rest : Except ε α} {y : α} :
    (if p then throw e >>= f else rest) = .ok y ↔ ¬p ∧ rest = .ok y := by
  by_cases h : p <;> simp [h, throw, throwThe, MonadExceptOf.throw, bind, Except.bind]

theorem lastGuard_eq_ok_iff {ε : Type} {p : Prop} [Decidable p] {e : ε} {u : Unit} :
    (if p then throw e else pure PUnit.unit : Except ε Unit) = .ok u ↔ ¬p := by
  by_cases h : p <;> simp [h, throw, throwThe, MonadExceptOf.throw, pure, Except.pure]

theorem forM_eq_ok_iff {α ε : Type} {check : α → Except ε Unit} {xs : List α} :
    forM xs check = .ok () ↔ ∀ x ∈ xs, check x = .ok () := by
  induction xs with
  | nil => simp [pure, Except.pure]
  | cons x xs ih =>
    rw [List.forM_cons, seq_eq_ok_iff, List.forall_mem_cons, ← ih]

theorem ByteRange.check_eq_ok_iff {range : ByteRange} :
    range.check = .ok () ↔ range.offset + range.length ≤ maxOffset := by
  rw [check, stop?]
  by_cases h : range.offset + range.length ≤ maxOffset
  · simp [Offset.checked, h]
  · simp [Offset.checked, h]

variable {b : Build}

/-- The size of a variable is the product of the element size and all lengths, where the product
after each of them is an offset. -/
theorem bytesWithin?_eq_some_iff {size bytes : Nat} {shape : Shape} :
    bytesWithin? size shape = some bytes ↔
      (∀ k < shape.length, size * elementCount (shape.take (k + 1)) ≤ maxOffset) ∧
        size * elementCount shape = bytes := by
  induction shape generalizing size with
  | nil => simp [bytesWithin?]
  | cons n shape ih =>
    -- the products of the rest start from the first one
    have hstep : ∀ k, size * elementCount ((n :: shape).take (k + 1 + 1)) =
        size * n * elementCount (shape.take (k + 1)) := fun k => by
      rw [List.take_succ_cons, elementCount_cons, Nat.mul_assoc]
    simp only [bytesWithin?, Option.bind_eq_bind, Option.bind_eq_some_iff, ih,
      Offset.checked_eq_some_iff, List.length_cons, Nat.forall_lt_succ_left, hstep]
    simp [and_assoc, Nat.mul_assoc]

namespace StorageMetadata

theorem variableBytes_eq_ok_iff {m : StorageMetadata} {bytes : Nat} :
    m.variableBytes = .ok bytes ↔ bytesWithin? m.elementSize m.shape = some bytes := by
  rw [variableBytes]
  cases bytesWithin? m.elementSize m.shape <;> simp

theorem checkFill_eq_ok_iff {m : StorageMetadata} :
    m.checkFill = .ok () ↔ ∀ v, m.fill = some v → v.size = m.elementSize := by
  rw [checkFill]
  cases m.fill <;> simp

/-- A declaration is consistent if its parts are, the layout with the size of the variable. -/
theorem check_eq_ok_iff {m : StorageMetadata} :
    m.check b = .ok () ↔
      m.elementSize ≠ 0 ∧ m.checkFill = .ok () ∧
        ∃ bytes, bytesWithin? m.elementSize m.shape = some bytes ∧
          m.checkLayout bytes b = .ok () := by
  rw [check, guard_eq_ok_iff, seq_eq_ok_iff, bind_eq_ok_iff]
  simp only [variableBytes_eq_ok_iff, ne_eq]

theorem of_check {m : StorageMetadata} (h : m.check b = .ok ()) :
    m.elementSize ≠ 0 ∧ m.checkFill = .ok () ∧
      bytesWithin? m.elementSize m.shape = some (m.elementSize * elementCount m.shape) ∧
      m.checkLayout (m.elementSize * elementCount m.shape) b = .ok () := by
  obtain ⟨hsize, hfill, bytes, hbytes, hlayout⟩ := check_eq_ok_iff.1 h
  obtain ⟨-, rfl⟩ := bytesWithin?_eq_some_iff.1 hbytes
  exact ⟨hsize, hfill, hbytes, hlayout⟩

end StorageMetadata

namespace Descriptor

theorem create_eq_ok {m : StorageMetadata} (h : m.check b = .ok ()) :
    create m b = .ok ⟨m, h⟩ := by
  unfold create
  split
  · rfl
  · rename_i e herror
    rw [h] at herror
    cases herror

/-- A declaration that is accepted becomes the descriptor that declares it. -/
theorem create_eq_ok_iff {m : StorageMetadata} {d : Descriptor b} :
    create m b = .ok d ↔ d.toStorageMetadata = m := by
  constructor
  · intro h
    unfold create at h
    split at h <;> cases h
    rfl
  · rintro rfl
    exact create_eq_ok d.accepted

/-- A declaration is refused for what its checks find out. -/
theorem create_eq_error_iff {m : StorageMetadata} {e : DescriptorError} :
    create m b = .error e ↔ m.check b = .error e := by
  unfold create
  split
  · rename_i hok
    simp [hok]
  · rename_i e' herror
    simp [herror]

theorem elementSize_pos (d : Descriptor b) : 0 < d.elementSize :=
  Nat.pos_of_ne_zero (StorageMetadata.of_check d.accepted).1

theorem fill_size (d : Descriptor b) {v : FillValue} (h : d.fill = some v) :
    v.size = d.elementSize :=
  StorageMetadata.checkFill_eq_ok_iff.1 (StorageMetadata.of_check d.accepted).2.1 v h

/-- The number of bytes of the variable. -/
def variableSize (d : Descriptor b) : Nat :=
  d.elementSize * elementCount d.shape

theorem checkLayout_eq_ok (d : Descriptor b) : d.checkLayout d.variableSize b = .ok () :=
  (StorageMetadata.of_check d.accepted).2.2.2

/-- A variable has as many bytes as there are offsets at most, where one element has. -/
theorem variableSize_le (d : Descriptor b) (h : d.shape ≠ [] ∨ d.elementSize ≤ maxOffset) :
    d.variableSize ≤ maxOffset := by
  by_cases hrank : d.shape = []
  · rw [variableSize, hrank, elementCount_nil, Nat.mul_one]
    exact h.resolve_left fun hne => hne hrank
  · have hproducts := (bytesWithin?_eq_some_iff.1 (StorageMetadata.of_check d.accepted).2.2.1).1
    have hpos := List.length_pos_iff.2 hrank
    have hlast := hproducts (d.shape.length - 1) (by omega)
    rwa [Nat.sub_add_cancel hpos, List.take_length] at hlast

/-- A length of a variable that has elements is an offset. -/
theorem length_le (d : Descriptor b) (hne : elementCount d.shape ≠ 0) {n : Nat} (hn : n ∈ d.shape) :
    n ≤ maxOffset := by
  have hle : n ≤ elementCount d.shape :=
    Nat.le_of_dvd (Nat.pos_of_ne_zero hne) (dvd_elementCount_of_mem hn)
  have hsize := Nat.le_mul_of_pos_left (elementCount d.shape) d.elementSize_pos
  exact Nat.le_trans (Nat.le_trans hle hsize) (d.variableSize_le (.inl (List.ne_nil_of_mem hn)))

theorem regular_le {d : Descriptor b} {baseOffset : Nat} (h : d.layout = .regular baseOffset) :
    baseOffset + d.variableSize ≤ maxOffset := by
  have hcheck := d.checkLayout_eq_ok
  rw [StorageMetadata.checkLayout, h] at hcheck
  exact ByteRange.check_eq_ok_iff.1 hcheck

end Descriptor

namespace StorageMetadata

section Chunks

variable {α : Type} {m : StorageMetadata} {chunkShape : ChunkShape}

/-- Checks each chunk with the grid of the variable and the number of bytes of a whole chunk. -/
def checkChunks (m : StorageMetadata) (chunkShape : ChunkShape)
    (checkEntry : ChunkGrid → Nat → Index × α → Except DescriptorError Unit)
    (chunks : ChunkMap α) (b : Build) : Except DescriptorError Unit := do
  let (grid, chunkBytes) ← m.gridOf chunkShape b
  chunks.entries.forM (checkEntry grid chunkBytes)

theorem checkChunks_eq_ok_iff {chunks : ChunkMap α}
    {checkEntry : ChunkGrid → Nat → Index × α → Except DescriptorError Unit} :
    m.checkChunks chunkShape checkEntry chunks b = .ok () ↔
      ∃ grid chunkBytes, m.gridOf chunkShape b = .ok (grid, chunkBytes) ∧
        ∀ origin value, chunks.get? origin = some value →
          checkEntry grid chunkBytes (origin, value) = .ok () := by
  rw [checkChunks, bind_eq_ok_iff, Prod.exists]
  refine exists_congr fun grid => exists_congr fun chunkBytes => and_congr_right fun _ => ?_
  rw [List.forM_eq_forM, forM_eq_ok_iff, Prod.forall]
  exact forall_congr' fun origin => forall_congr' fun value => by rw [ChunkMap.mem_entries_iff]

theorem checkLayout_tiled {chunks : ChunkMap ByteRange} (h : m.layout = .tiled chunkShape chunks)
    (bytes : Nat) (b : Build) :
    m.checkLayout bytes b = m.checkChunks chunkShape checkChunk chunks b := by
  rw [checkLayout, h]
  rfl

theorem checkLayout_compressedTiled {chunks : ChunkMap CompressedChunk}
    (h : m.layout = .compressedTiled chunkShape chunks) (bytes : Nat) (b : Build) :
    m.checkLayout bytes b = m.checkChunks chunkShape checkCompressedChunk chunks b := by
  rw [checkLayout, h]
  rfl

end Chunks

end StorageMetadata

theorem ChunkGrid.create_eq_ok_iff {arrayShape : Shape} {chunkShape : ChunkShape}
    {grid : ChunkGrid} :
    create arrayShape chunkShape = .ok grid ↔
      grid.arrayShape = arrayShape ∧ grid.chunkShape = chunkShape := by
  obtain ⟨a, c, hrank⟩ := grid
  rw [create]
  split
  · simp [eq_comm]
  · simp only [reduceCtorEq, false_iff]
    rintro ⟨rfl, rfl⟩
    contradiction

/-- Chunks have elements. -/
theorem ChunkShape.pos_of_mem_toShape {chunkShape : ChunkShape} {n : Nat}
    (h : n ∈ chunkShape.toShape) : 0 < n := by
  obtain ⟨c, -, rfl⟩ := List.mem_map.1 h
  exact c.property

/-- Every build counts the elements of a chunk right where their number is an offset. -/
theorem ChunkGrid.countElements_of_le {grid : ChunkGrid} (h : grid.chunkElements ≤ maxOffset) :
    grid.countElements b = .ok grid.chunkElements := by
  have hproduct := Build.product_of_le (b := b) (fun _ => ChunkShape.pos_of_mem_toShape)
    (by rwa [Nat.one_mul] : 1 * elementCount grid.chunkShape.toShape ≤ maxOffset)
  rwa [Nat.one_mul] at hproduct

theorem ChunkGrid.countElements_checked_iff {grid : ChunkGrid} {elements : Nat} :
    grid.countElements .checked = .ok elements ↔
      grid.chunkElements ≤ maxOffset ∧ grid.chunkElements = elements := by
  constructor
  · intro h
    have hcount := Build.of_product_checked (by decide) h
    rwa [Nat.one_mul] at hcount
  · rintro ⟨hle, rfl⟩
    exact countElements_of_le hle

/-- The grid of a layout that fits the variable, with the bytes of a chunk, in a checked build. -/
theorem StorageMetadata.gridOf_eq_ok_iff {m : StorageMetadata} {chunkShape : ChunkShape}
    {grid : ChunkGrid} {bytes : Nat} :
    m.gridOf chunkShape .checked = .ok (grid, bytes) ↔
      (grid.arrayShape = m.shape ∧ grid.chunkShape = chunkShape) ∧
        grid.chunkElements ≤ maxOffset ∧ grid.chunkElements * m.elementSize ≤ maxOffset ∧
        grid.chunkElements * m.elementSize = bytes := by
  rw [gridOf, ← ChunkGrid.create_eq_ok_iff, ← Offset.checked_eq_some_iff]
  cases ChunkGrid.create m.shape chunkShape with
  | error mismatch => simp
  | ok g =>
    cases hcount : g.countElements .checked with
    | error cause =>
      have hlarge : ¬g.chunkElements ≤ maxOffset := fun hle => by
        rw [ChunkGrid.countElements_of_le hle] at hcount
        cases hcount
      grind
    | ok elements =>
      obtain ⟨hle, rfl⟩ := ChunkGrid.countElements_checked_iff.1 hcount
      cases hbytes : Offset.checked (g.chunkElements * m.elementSize) with
      | none => grind
      | some size => grind

/-- The grid of a layout in chunks, and the size that its chunks are expected to have. -/
theorem StorageMetadata.of_gridOf {m : StorageMetadata} {chunkShape : ChunkShape}
    {grid : ChunkGrid} {bytes : Nat} (h : m.gridOf chunkShape .checked = .ok (grid, bytes)) :
    grid.arrayShape = m.shape ∧ grid.chunkShape = chunkShape ∧
      bytes = elementCount chunkShape.toShape * m.elementSize ∧ bytes ≤ maxOffset := by
  obtain ⟨⟨harray, rfl⟩, -, hle, rfl⟩ := gridOf_eq_ok_iff.1 h
  exact ⟨harray, rfl, rfl, hle⟩

/-- A grid that a checked build finds is found by every build. -/
theorem StorageMetadata.gridOf_of_checked {m : StorageMetadata} {chunkShape : ChunkShape}
    {grid : ChunkGrid} {bytes : Nat} (h : m.gridOf chunkShape .checked = .ok (grid, bytes))
    (b : Build) : m.gridOf chunkShape b = .ok (grid, bytes) := by
  obtain ⟨hcreate, hcount, hle, rfl⟩ := gridOf_eq_ok_iff.1 h
  rw [gridOf, ChunkGrid.create_eq_ok_iff.2 hcreate]
  simp only [ChunkGrid.countElements_of_le hcount, Offset.checked_eq_some_iff.2 ⟨hle, rfl⟩]

/-- What a checked build accepts every build accepts. -/
theorem StorageMetadata.check_of_checked {m : StorageMetadata} (h : m.check = .ok ())
    (b : Build) : m.check b = .ok () := by
  obtain ⟨hsize, hfill, bytes, hbytes, hlayout⟩ := check_eq_ok_iff.1 h
  refine check_eq_ok_iff.2 ⟨hsize, hfill, bytes, hbytes, ?_⟩
  rw [checkLayout] at hlayout ⊢
  cases hkind : m.layout <;> rw [hkind] at hlayout <;> try exact hlayout
  all_goals
    obtain ⟨⟨grid, chunkBytes⟩, hgrid, hchunks⟩ := bind_eq_ok_iff.1 hlayout
    exact bind_eq_ok_iff.2 ⟨_, gridOf_of_checked hgrid b, hchunks⟩

namespace Descriptor

/-- A variable in chunks and its chunks have one rank, and a chunk has as many bytes as there are
offsets at most. -/
theorem rank_of_chunks {d : Descriptor} {chunkShape : ChunkShape}
    (h : d.layout.chunkShape? = some chunkShape) :
    d.shape.length = chunkShape.length ∧
      elementCount chunkShape.toShape * d.elementSize ≤ maxOffset := by
  have hcheck := d.checkLayout_eq_ok
  have hgrid : ∃ grid bytes, d.gridOf chunkShape .checked = .ok (grid, bytes) := by
    rw [StorageMetadata.checkLayout] at hcheck
    cases hlayout : d.layout <;> rw [hlayout] at h hcheck <;> cases h
    all_goals
      obtain ⟨⟨grid, bytes⟩, hgrid, -⟩ := bind_eq_ok_iff.1 hcheck
      exact ⟨grid, bytes, hgrid⟩
  obtain ⟨grid, bytes, hgrid⟩ := hgrid
  obtain ⟨harray, hchunk, rfl, hle⟩ := StorageMetadata.of_gridOf hgrid
  have hrank := grid.rank_eq
  rw [harray, hchunk] at hrank
  exact ⟨hrank, hle⟩

/-- A plain chunk that is stored ends at an offset and has the size of a chunk. -/
theorem range_of_tiled {d : Descriptor} {chunkShape : ChunkShape} {chunks : ChunkMap ByteRange}
    (h : d.layout = .tiled chunkShape chunks) {origin : Index} {range : ByteRange}
    (hget : chunks.get? origin = some range) :
    range.offset + range.length ≤ maxOffset ∧
      range.length = elementCount chunkShape.toShape * d.elementSize := by
  have hcheck := d.checkLayout_eq_ok
  rw [StorageMetadata.checkLayout_tiled h] at hcheck
  obtain ⟨grid, bytes, hgrid, hchunks⟩ := StorageMetadata.checkChunks_eq_ok_iff.1 hcheck
  obtain ⟨-, -, rfl, -⟩ := StorageMetadata.of_gridOf hgrid
  have hentry := hchunks origin range hget
  rw [StorageMetadata.checkChunk] at hentry
  obtain ⟨-, hentry⟩ := guard_eq_ok_iff.1 hentry
  obtain ⟨hrange, hlength⟩ := seq_eq_ok_iff.1 hentry
  exact ⟨ByteRange.check_eq_ok_iff.1 hrange, Decidable.not_not.1 (lastGuard_eq_ok_iff.1 hlength)⟩

end Descriptor

/-- What a stream of a variable is decoded from, and what is declared of it. -/
structure EncodedStream where
  segments : List ByteRange
  codec : CodecId
  /-- The declared number of decoded bytes. -/
  length : Nat

/-- The stream of a layout that is compressed as a whole. -/
def StorageLayout.encoded? : StorageLayout → Option EncodedStream
  | compressed data length codec => some ⟨[data], codec, length⟩
  | compressedSegmented segments codec length => some ⟨segments, codec, length⟩
  | _ => none

/-- The segments that the logical stream of a layout is read from. -/
def StorageLayout.chain? : StorageLayout → Option (List ByteRange)
  | segmented segments => some segments
  | layout => layout.encoded?.map (·.segments)

theorem StorageLayout.chain?_of_encoded {layout : StorageLayout} {e : EncodedStream}
    (h : layout.encoded? = some e) : layout.chain? = some e.segments := by
  cases layout <;> cases h <;> rfl

/-- The segments of a chain end at offsets, and together they have as many bytes as there are
offsets at most. -/
def ChainFits (chain : List ByteRange) : Prop :=
  (∀ segment ∈ chain, segment.offset + segment.length ≤ maxOffset) ∧ chainLength chain ≤ maxOffset

theorem checkChainFrom_eq_ok_iff {segments total : Nat} {chain : List ByteRange}
    (h : total ≤ maxOffset) :
    checkChainFrom segments total chain = .ok () ↔
      (∀ segment ∈ chain, segment.offset + segment.length ≤ maxOffset) ∧
        total + chainLength chain ≤ maxOffset := by
  induction chain generalizing total with
  | nil => simp [checkChainFrom, h]
  | cons range rest ih =>
    rw [checkChainFrom, seq_eq_ok_iff, ByteRange.check_eq_ok_iff, List.forall_mem_cons, and_assoc,
      chainLength_cons, ← Nat.add_assoc]
    refine and_congr_right fun _ => ?_
    by_cases hle : total + range.length ≤ maxOffset
    · rw [Offset.checked_eq_some_iff.2 ⟨hle, rfl⟩]
      exact ih hle
    · rw [Offset.checked, if_neg hle]
      have hlonger := Nat.le_add_right (total + range.length) (chainLength rest)
      simp only [reduceCtorEq, false_iff]
      omega

theorem checkChain_eq_ok_iff {chain : List ByteRange} :
    checkChain chain = .ok () ↔ ChainFits chain := by
  rw [checkChain, checkChainFrom_eq_ok_iff (Nat.zero_le maxOffset), Nat.zero_add, ChainFits]

theorem checkDecodedLength_eq_ok_iff {declared expected : Nat} :
    checkDecodedLength declared expected = .ok () ↔ declared = expected := by
  rw [checkDecodedLength]
  split <;> simp [*]

/-- A stream is declared to have the bytes of the variable, and its segments end at offsets. -/
theorem Descriptor.of_encoded {d : Descriptor b} {e : EncodedStream}
    (h : d.layout.encoded? = some e) :
    e.length = d.variableSize ∧
      ∀ segment ∈ e.segments, segment.offset + segment.length ≤ maxOffset := by
  have hcheck := d.checkLayout_eq_ok
  rw [StorageMetadata.checkLayout] at hcheck
  cases hlayout : d.layout <;> rw [hlayout] at h hcheck <;> cases h
  all_goals
    obtain ⟨hranges, hlength⟩ := seq_eq_ok_iff.1 hcheck
    refine ⟨checkDecodedLength_eq_ok_iff.1 hlength, ?_⟩
  · exact List.forall_mem_singleton.2 (ByteRange.check_eq_ok_iff.1 hranges)
  · exact (checkChain_eq_ok_iff.1 hranges).1

/-- The segments of a variable end at offsets. -/
theorem Descriptor.of_segmented {d : Descriptor b} {segments : List ByteRange}
    (h : d.layout = .segmented segments) :
    ∀ segment ∈ segments, segment.offset + segment.length ≤ maxOffset := by
  have hcheck := d.checkLayout_eq_ok
  rw [StorageMetadata.checkLayout, h] at hcheck
  exact (checkChain_eq_ok_iff.1 hcheck).1

/-- The segments of a compressed chunk, which are one range for a chunk in one piece. -/
def ChunkData.segments : ChunkData → List ByteRange
  | contiguous range => [range]
  | linked segments => segments

theorem ChunkData.of_check {data : ChunkData} (h : data.check = .ok ()) :
    ∀ segment ∈ data.segments, segment.offset + segment.length ≤ maxOffset := by
  cases data with
  | contiguous range => exact List.forall_mem_singleton.2 (ByteRange.check_eq_ok_iff.1 h)
  | linked segments => exact (checkChain_eq_ok_iff.1 h).1

/-- A compressed chunk that is stored ends at offsets and is declared to have the size of a
chunk. -/
theorem Descriptor.of_compressedTiled {d : Descriptor} {chunkShape : ChunkShape}
    {chunks : ChunkMap CompressedChunk} (h : d.layout = .compressedTiled chunkShape chunks)
    {origin : Index} {chunk : CompressedChunk} (hget : chunks.get? origin = some chunk) :
    chunk.uncompressedLength = elementCount chunkShape.toShape * d.elementSize ∧
      ∀ segment ∈ chunk.data.segments, segment.offset + segment.length ≤ maxOffset := by
  have hcheck := d.checkLayout_eq_ok
  rw [StorageMetadata.checkLayout_compressedTiled h] at hcheck
  obtain ⟨grid, bytes, hgrid, hchunks⟩ := StorageMetadata.checkChunks_eq_ok_iff.1 hcheck
  obtain ⟨-, -, rfl, -⟩ := StorageMetadata.of_gridOf hgrid
  have hentry := hchunks origin chunk hget
  rw [StorageMetadata.checkCompressedChunk] at hentry
  obtain ⟨-, hentry⟩ := guard_eq_ok_iff.1 hentry
  obtain ⟨hdata, hlength⟩ := seq_eq_ok_iff.1 hentry
  exact ⟨checkDecodedLength_eq_ok_iff.1 hlength, ChunkData.of_check hdata⟩

end Hyperslab
