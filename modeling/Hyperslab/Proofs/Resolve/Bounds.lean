import Hyperslab.Proofs.Resolve.Exact

/-!
# Transfers stay inside of what they address

A transfer is from bytes that follow one another in one thing: the variable where it is stored in
one piece, the logical stream of the layout, or one chunk in its declared shape. Its first and its
last element are elements of that thing, which has a size that the checks of a descriptor know, so
all of the transfer is inside. Nothing else is needed for sums and products of offsets to be offsets.

## Main definitions

- `Transfer.Addressed`: the bytes of a transfer are bytes of what it is from

## Main statements

- `TransferPlan.Exact.inside_block`: a transfer of numbered elements stays among them
- `addressed_of_resolve`: transfers of a section that fits are addressed
- `bounds_of_resolve`: they write inside of the destination, and reach no offset past the largest
-/

namespace Hyperslab

namespace StorageLayout

/-- The bytes from `start` to `stop` of the byte source are of the variable, which has `size` bytes
where it is in one piece, and of one stored chunk where it is in chunks. -/
def StoresBytes (size start stop : Nat) : StorageLayout → Prop
  | regular baseOffset => baseOffset ≤ start ∧ stop ≤ baseOffset + size
  | tiled _ chunks => ∃ origin range, chunks.get? origin = some range ∧
    range.offset ≤ start ∧ stop ≤ range.offset + range.length
  | _ => False

/-- The layout has a logical stream, and its first `stop` bytes are of the variable, which has `size`
bytes, and of what is declared to be decoded. -/
def StreamsBytes (size stop : Nat) : StorageLayout → Prop
  | segmented _ => stop ≤ size
  | compressed _ uncompressedLength _ | compressedSegmented _ _ uncompressedLength =>
    stop ≤ size ∧ stop ≤ uncompressedLength
  | _ => False

/-- A compressed chunk is stored under the origin, and is declared to have `stop` bytes. -/
def UnpacksBytes (origin : Index) (stop : Nat) : StorageLayout → Prop
  | compressedTiled _ chunks =>
    ∃ chunk, chunks.get? origin = some chunk ∧ stop ≤ chunk.uncompressedLength
  | _ => False

end StorageLayout

/-- The bytes that a transfer moves are bytes of what it is from. -/
def Transfer.Addressed (t : Transfer) (d : Descriptor) : Prop :=
  match t.source with
  | .direct offset =>
    d.layout.StoresBytes d.variableSize offset (offset + t.runLength * d.elementSize)
  | .stream offset => d.layout.StreamsBytes d.variableSize (offset + t.runLength * d.elementSize)
  | .chunk origin offset => d.layout.UnpacksBytes origin (offset + t.runLength * d.elementSize)
  | .fill => True

variable {d : Descriptor} {s : Section} {plan : TransferPlan} {t : Transfer}

theorem BlockSource.at_inj {block : BlockSource} (h : block ≠ .fill) {m n : Nat} :
    block.at m = block.at n ↔ m = n := by
  refine ⟨fun heq => ?_, congrArg block.at⟩
  have hoffset := congrArg TransferSource.offset heq
  rw [offset_at h, offset_at h n] at hoffset
  exact Nat.add_left_cancel hoffset

/-- Where all elements of a transfer are numbered elements of a shape, so are its bytes. -/
theorem TransferPlan.Exact.inside_block (h : plan.Exact d s) (ht : t ∈ plan.transfers)
    (block : BlockSource) (hfill : block ≠ .fill) {shape : Shape} (index : Nat → Index)
    (hplace : ∀ k, t.Covers k → d.place? (s.indexAt k) =
      (ravel? (index k) shape).map fun m => block.at (m * d.elementSize)) :
    ∃ m, t.source = block.at m ∧
      m + t.runLength * d.elementSize ≤ elementCount shape * d.elementSize := by
  have hlength := h.runLength_pos t ht
  obtain ⟨n, hlast, hn⟩ := h.place_last ht
  have hfirst := h.place_destination ht
  rw [hplace _ (h.covers_destination ht)] at hfirst
  rw [hplace _ ⟨by omega, by omega⟩] at hlast
  obtain ⟨m, -, hsource⟩ := Option.map_eq_some_iff.1 hfirst
  obtain ⟨m', hm', hadvance⟩ := Option.map_eq_some_iff.1 hlast
  refine ⟨m * d.elementSize, hsource.symm, ?_⟩
  rw [← hsource, BlockSource.advance_at, BlockSource.at_inj hfill] at hadvance
  -- the bytes end with those of the last element
  have hstop := mul_add_le_mul d.elementSize (ravel?_lt hm')
  omega

theorem TransferPlan.Exact.source_eq_fill (h : plan.Exact d s) (ht : t ∈ plan.transfers)
    (hplace : d.place? (s.indexAt t.destination) = some .fill) : t.source = .fill :=
  Option.some.inj ((h.place_destination ht).symm.trans hplace)

/-- A transfer from a variable in one piece stays inside of the variable. -/
theorem TransferPlan.Exact.inside_variable (h : plan.Exact d s) (ht : t ∈ plan.transfers)
    (block : BlockSource) (hfill : block ≠ .fill)
    (hplace : ∀ index, d.place? index =
      (ravel? index d.shape).map fun m => block.at (m * d.elementSize)) :
    ∃ m, t.source = block.at m ∧ m + t.runLength * d.elementSize ≤ d.variableSize := by
  rw [Descriptor.variableSize, Nat.mul_comm d.elementSize]
  exact h.inside_block ht block hfill s.indexAt fun k _ => hplace (s.indexAt k)

/-- A transfer from a variable in chunks stays inside of the chunk that it starts in. -/
theorem inside_chunk {chunkShape : ChunkShape} {origin : Index} (block : BlockSource)
    (hs : s.validate d.shape = .ok ()) (h : resolve d s = .ok plan) (ht : t ∈ plan.transfers)
    (hlayout : d.layout.chunkShape? = some chunkShape)
    (horigin : chunkShape.originOf (s.indexAt t.destination) = origin) (hfill : block ≠ .fill)
    (hplace : ∀ index, chunkShape.originOf index = origin → d.place? index =
      (ravel? (index.relativeTo origin) chunkShape.toShape).map fun m =>
        block.at (m * d.elementSize)) :
    ∃ m, t.source = block.at m ∧
      m + t.runLength * d.elementSize ≤ elementCount chunkShape.toShape * d.elementSize := by
  have hexact := exact_of_resolve_tiled hlayout hs h
  refine hexact.inside_block ht block hfill (fun k => (s.indexAt k).relativeTo origin) fun k hk => ?_
  refine hplace _ (Eq.trans ?_ horigin)
  exact originOf_eq_of_covers hlayout hs h ht hk (hexact.covers_destination ht)

/-- The bytes of a transfer are bytes of what it is from, whatever the layout. -/
theorem addressed_of_resolve (hs : s.validate d.shape = .ok ()) (h : resolve d s = .ok plan)
    (ht : t ∈ plan.transfers) : t.Addressed d := by
  have hexact := exact_of_resolve hs h
  rw [Transfer.Addressed]
  cases hlayout : d.layout with
  | noData =>
    rw [hexact.source_eq_fill ht (by rw [Descriptor.place?, hlayout])]
    trivial
  | regular baseOffset =>
    obtain ⟨m, hsource, hle⟩ := hexact.inside_variable ht (.direct baseOffset) (by simp)
      fun index => by rw [Descriptor.place?, hlayout]; rfl
    rw [hsource]
    exact ⟨Nat.le_add_right _ _, by rw [Nat.add_assoc]; exact Nat.add_le_add_left hle _⟩
  | segmented segments =>
    obtain ⟨offset, hsource, hle⟩ := hexact.inside_variable ht .stream (by simp)
      fun index => by rw [Descriptor.place?, hlayout]; rfl
    rw [hsource]
    exact hle
  | compressed data uncompressedLength codec =>
    obtain ⟨offset, hsource, hle⟩ := hexact.inside_variable ht .stream (by simp)
      fun index => by rw [Descriptor.place?, hlayout]; rfl
    have hlength : uncompressedLength = d.variableSize := (d.of_encoded (by rw [hlayout]; rfl)).1
    rw [hsource]
    exact ⟨hle, hlength ▸ hle⟩
  | compressedSegmented segments codec uncompressedLength =>
    obtain ⟨offset, hsource, hle⟩ := hexact.inside_variable ht .stream (by simp)
      fun index => by rw [Descriptor.place?, hlayout]; rfl
    have hlength : uncompressedLength = d.variableSize := (d.of_encoded (by rw [hlayout]; rfl)).1
    rw [hsource]
    exact ⟨hle, hlength ▸ hle⟩
  | tiled chunkShape chunks =>
    cases hget : chunks.get? (chunkShape.originOf (s.indexAt t.destination)) with
    | none =>
      rw [hexact.source_eq_fill ht (by simp only [Descriptor.place?, hlayout, hget])]
      trivial
    | some range =>
      obtain ⟨m, hsource, hle⟩ := inside_chunk (.direct range.offset) hs h ht (by rw [hlayout]; rfl)
        rfl (by simp) fun index horigin => by
          simp only [Descriptor.place?, hlayout, horigin, hget]; rfl
      rw [← (Descriptor.range_of_tiled hlayout hget).2] at hle
      rw [hsource]
      exact ⟨_, range, hget, Nat.le_add_right _ _,
        by rw [Nat.add_assoc]; exact Nat.add_le_add_left hle _⟩
  | compressedTiled chunkShape chunks =>
    cases hget : chunks.get? (chunkShape.originOf (s.indexAt t.destination)) with
    | none =>
      rw [hexact.source_eq_fill ht (by simp only [Descriptor.place?, hlayout, hget])]
      trivial
    | some chunk =>
      obtain ⟨m, hsource, hle⟩ := inside_chunk (.chunk (chunkShape.originOf (s.indexAt t.destination)))
        hs h ht (by rw [hlayout]; rfl) rfl (by simp) fun index horigin => by
          simp only [Descriptor.place?, hlayout, horigin, hget]; rfl
      rw [← (Descriptor.of_compressedTiled hlayout hget).1] at hle
      rw [hsource]
      exact ⟨chunk, hget, hle⟩

/-- A section selects no more elements than the variable has. -/
theorem Section.Within.elementCount_le {ranges : List SectionRange} {shape : Shape}
    (h : Section.Within ranges shape) :
    elementCount (ranges.map (·.count)) ≤ elementCount shape := by
  induction ranges generalizing shape with
  | nil =>
    obtain rfl := List.length_eq_zero_iff.1 h.length_eq.symm
    exact Nat.le_refl _
  | cons range ranges ih =>
    obtain ⟨n, shape, rfl, hrange, hranges⟩ := h.of_cons
    exact Nat.mul_le_mul hrange.count_le (ih hranges)

/-- The bytes of a section are no more than there are offsets. -/
theorem totalCount_mul_le (hsize : d.elementSize ≤ maxOffset) (hs : s.validate d.shape = .ok ()) :
    s.totalCount * d.elementSize ≤ maxOffset := by
  by_cases hzero : s.totalCount = 0
  · rw [hzero, Nat.zero_mul]
    exact Nat.zero_le _
  · have hcount : s.totalCount ≤ elementCount d.shape :=
      (Section.within_of_validate hs hzero).elementCount_le
    refine Nat.le_trans (Nat.mul_le_mul_right _ hcount) ?_
    rw [Nat.mul_comm]
    exact d.variableSize_le (.inr hsize)

theorem Transfer.Addressed.stop_le (hsize : d.elementSize ≤ maxOffset) (h : t.Addressed d)
    (hrun : t.runLength * d.elementSize ≤ maxOffset) :
    t.source.offset + t.runLength * d.elementSize ≤ maxOffset := by
  have hvariable := d.variableSize_le (.inr hsize)
  rw [Addressed] at h
  cases hsource : t.source with
  | direct offset =>
    rw [hsource] at h
    cases hlayout : d.layout <;> rw [hlayout] at h
    case regular baseOffset => exact Nat.le_trans h.2 (Descriptor.regular_le hlayout)
    case tiled chunkShape chunks =>
      obtain ⟨origin, range, hget, -, hle⟩ := h
      exact Nat.le_trans hle (Descriptor.range_of_tiled hlayout hget).1
    all_goals exact h.elim
  | stream offset =>
    rw [hsource] at h
    cases hlayout : d.layout <;> rw [hlayout] at h
    case segmented => exact Nat.le_trans h hvariable
    case compressed => exact Nat.le_trans h.1 hvariable
    case compressedSegmented => exact Nat.le_trans h.1 hvariable
    all_goals exact h.elim
  | chunk origin offset =>
    rw [hsource] at h
    cases hlayout : d.layout <;> rw [hlayout] at h
    case compressedTiled chunkShape chunks =>
      obtain ⟨chunk, hget, hle⟩ := h
      have hchunks : d.layout.chunkShape? = some chunkShape := by rw [hlayout]; rfl
      have hchunk := (Descriptor.rank_of_chunks hchunks).2
      rw [← (Descriptor.of_compressedTiled hlayout hget).1] at hchunk
      exact Nat.le_trans hle hchunk
    all_goals exact h.elim
  | fill => rwa [TransferSource.offset, Nat.zero_add]

/-- Transfers write inside of the destination and are from bytes that there are. No end of one is
larger than the largest offset, which the size of an element is not. -/
theorem bounds_of_resolve (hsize : d.elementSize ≤ maxOffset) (hs : s.validate d.shape = .ok ())
    (h : resolve d s = .ok plan) (ht : t ∈ plan.transfers) :
    t.destination + t.runLength ≤ s.totalCount ∧ t.Addressed d ∧
      t.source.offset + t.runLength * d.elementSize ≤ maxOffset := by
  have hexact := exact_of_resolve hs h
  have haddressed := addressed_of_resolve hs h ht
  have hrun : t.runLength * d.elementSize ≤ s.totalCount * d.elementSize :=
    Nat.le_trans (Nat.le_add_left _ _) (hexact.fits ht d.elementSize)
  have hinside := hexact.fits ht 1
  simp only [Nat.mul_one] at hinside
  have htotal := totalCount_mul_le hsize hs
  exact ⟨hinside, haddressed, haddressed.stop_le hsize (Nat.le_trans hrun htotal)⟩

end Hyperslab
