import Hyperslab.Proofs.Resolve.Computed

/-!
# Addresses that a build computes

Of a descriptor that every build accepts, a build comes to the exact places of the elements, inside
of what the descriptor says is stored, or it stops at a step that is no offset. A build without
checks accepts more descriptors than that: the number of elements of a chunk may go around, and a
chunk that is stored in a few bytes, or in none, then stands for more elements than there are
offsets. The places of these elements go around too, or lie beyond the bytes of the chunk.

## Main statements

- `resolve_tiled_exact`: the transfers of a section of a variable in chunks
- `resolve_within_offsets`: transfers stay within the destination and within what they are from
-/

namespace Hyperslab

/-- A section of a variable in chunks is resolved to transfers that write each element of the
destination once, from the place of the element in its chunk, or with the fill value where the chunk
is not stored. The transfers of a chunk follow one another, and the chunks come in lexicographic
order of their origins. A build with checks stops instead where the step of the section along a
dimension of a chunk is no offset. -/
theorem resolve_tiled_exact (d : Descriptor) (chunkShape : ChunkShape)
    (hlayout : d.layout.chunkShape? = some chunkShape) (s : Section)
    (hs : s.validate d.shape = .ok ()) (b : Build) :
    (d.Stops b s → resolveIn b d s = .error (.halted .overflow)) ∧
    (¬d.Stops b s → ∃ plan : TransferPlan,
      resolveIn b d s = .ok plan.transfers ∧ plan.Exact d s ∧
      ∃ chunks : List (Index × List Transfer),
        plan.transfers = chunks.flatMap (·.2) ∧
        chunks.Pairwise (fun a b => a.1 < b.1) ∧
        ∀ chunk ∈ chunks, chunk.2 ≠ [] ∧ ∀ t ∈ chunk.2, ∀ k, t.Covers k →
          chunkShape.originOf (s.indexAt k) = chunk.1) := by
  refine ⟨resolveIn_of_stops hs, fun hfit => ?_⟩
  obtain ⟨plan, hplan, hlist⟩ := resolveIn_of_fit hs hfit
  obtain ⟨plan', hplan', hexact, hchunks⟩ := resolve_tiled_chunks hlayout hs
  rw [hplan] at hplan'
  cases hplan'
  exact ⟨plan, hlist, hexact, hchunks⟩

/-- A variable of three by three elements, in chunks of two by two of which the last is not
stored. -/
def quarters : Descriptor :=
  { shape := [3, 3]
    elementSize := 2
    fill := none
    layout := .tiled [⟨2, by decide⟩, ⟨2, by decide⟩]
      (.ofList [([0, 0], ⟨10, 8⟩), ([0, 2], ⟨30, 8⟩), ([2, 0], ⟨50, 8⟩)])
    accepted := rfl }

/-- Each of the four corners but the last comes from a chunk of its own. -/
theorem resolve_quarters_exact :
    ∃ plan : TransferPlan,
      resolveIn .checked quarters ⟨[⟨0, 2, 2, by decide⟩, .contiguous 1 2]⟩ = .ok plan.transfers ∧
      plan.Exact quarters ⟨[⟨0, 2, 2, by decide⟩, .contiguous 1 2]⟩ ∧
      plan.transfers =
        [⟨.direct 12, 0, 1⟩, ⟨.direct 30, 1, 1⟩, ⟨.direct 52, 2, 1⟩, ⟨.fill, 3, 1⟩] := by
  have hfit : ¬quarters.Stops .checked ⟨[⟨0, 2, 2, by decide⟩, .contiguous 1 2]⟩ := by decide
  obtain ⟨plan, hlist, hexact, -⟩ :=
    (resolve_tiled_exact quarters [⟨2, by decide⟩, ⟨2, by decide⟩] rfl
      ⟨[⟨0, 2, 2, by decide⟩, .contiguous 1 2]⟩ rfl .checked).2 hfit
  exact ⟨plan, hlist, hexact, (Except.ok.inj hlist).symm⟩

/-- Two elements in one chunk, whose number of elements is `2 ^ 65` and goes around to zero. It is
stored in no bytes at all, and a build without checks accepts it. -/
def coiledPair : Descriptor .wrapping :=
  { shape := [2, 1, 1]
    elementSize := 1
    fill := none
    layout := .tiled
      [⟨2, Nat.zero_lt_succ _⟩, ⟨4294967296, Nat.zero_lt_succ _⟩, ⟨4294967296, Nat.zero_lt_succ _⟩]
      (.ofList [([0, 0, 0], ⟨0, 0⟩)])
    accepted := rfl }

/-- Both elements are taken from the first byte, though the place of the second one is `2 ^ 64`. -/
theorem resolve_coiledPair_twice :
    Section.validate ⟨[.contiguous 0 2, .contiguous 0 1, .contiguous 0 1]⟩ coiledPair.shape =
        .ok () ∧
      resolveIn .wrapping coiledPair ⟨[.contiguous 0 2, .contiguous 0 1, .contiguous 0 1]⟩ =
        .ok [⟨.direct 0, 0, 1⟩, ⟨.direct 0, 1, 1⟩] ∧
      ravel? [1, 0, 0] [2, 4294967296, 4294967296] = some (maxOffset + 1) :=
  ⟨rfl, rfl, rfl⟩

/-- A section that fits is resolved to transfers that write inside of the destination and are from
bytes that there are: no end of one, no number of bytes and no offset in between is larger than the
largest offset, which the size of an element is not. A build with checks stops instead where the
step of the section along a dimension is no offset. -/
theorem resolve_within_offsets (d : Descriptor) (hsize : d.elementSize ≤ maxOffset) (s : Section)
    (hs : s.validate d.shape = .ok ()) (b : Build) :
    s.totalCount * d.elementSize ≤ maxOffset ∧
    (d.Stops b s → resolveIn b d s = .error (.halted .overflow)) ∧
    (¬d.Stops b s → ∃ transfers, resolveIn b d s = .ok transfers ∧
      ∀ t ∈ transfers, t.destination + t.runLength ≤ s.totalCount ∧ t.Addressed d ∧
        t.source.offset + t.runLength * d.elementSize ≤ maxOffset) := by
  refine ⟨totalCount_mul_le hsize hs, resolveIn_of_stops hs, fun hfit => ?_⟩
  obtain ⟨plan, hplan, hlist⟩ := resolveIn_of_fit hs hfit
  exact ⟨plan.transfers, hlist, fun t ht => bounds_of_resolve hsize hs hplan ht⟩

/-- A variable of five elements in two chunks of three, of which the second one sticks out of the
variable and ends at the largest offset. -/
def lastOffsets : Descriptor :=
  { shape := [5]
    elementSize := 2
    fill := none
    layout := .tiled [⟨3, by decide⟩] (.ofList [([0], ⟨0, 6⟩), ([3], ⟨maxOffset - 6, 6⟩)])
    accepted := rfl }

/-- Every third element from the second one on is from the middle of a chunk. -/
theorem resolve_lastOffsets_within :
    lastOffsets.elementSize ≤ maxOffset ∧
      Section.validate ⟨[⟨1, 3, 2, by decide⟩]⟩ lastOffsets.shape = .ok () ∧
      ∃ transfers, resolveIn .checked lastOffsets ⟨[⟨1, 3, 2, by decide⟩]⟩ = .ok transfers ∧
        transfers = [⟨.direct 2, 0, 1⟩, ⟨.direct (maxOffset - 4), 1, 1⟩] ∧
        ∀ t ∈ transfers, t.Addressed lastOffsets ∧
          t.source.offset + t.runLength * lastOffsets.elementSize ≤ maxOffset := by
  have hfit : ¬lastOffsets.Stops .checked ⟨[⟨1, 3, 2, by decide⟩]⟩ := by decide
  obtain ⟨transfers, hlist, hbounds⟩ := (resolve_within_offsets lastOffsets (by decide)
    ⟨[⟨1, 3, 2, by decide⟩]⟩ rfl .checked).2.2 hfit
  exact ⟨by decide, rfl, transfers, hlist, (Except.ok.inj hlist).symm, fun t ht => (hbounds t ht).2⟩

/-- Four elements in a chunk of `2 ^ 64` elements, which go around to zero. -/
def coiledSquare : Descriptor .wrapping :=
  { shape := [2, 2]
    elementSize := 1
    fill := none
    layout := .tiled [⟨4294967296, Nat.zero_lt_succ _⟩, ⟨4294967296, Nat.zero_lt_succ _⟩]
      (.ofList [([0, 0], ⟨0, 0⟩)])
    accepted := rfl }

/-- The transfers are from outside of the one chunk that there is, which has no bytes. -/
theorem resolve_coiledSquare_outside :
    Section.validate ⟨[.contiguous 0 2, .contiguous 0 2]⟩ coiledSquare.shape = .ok () ∧
      resolveIn .wrapping coiledSquare ⟨[.contiguous 0 2, .contiguous 0 2]⟩ =
        .ok [⟨.direct 0, 0, 2⟩, ⟨.direct 4294967296, 2, 2⟩] ∧
      ¬coiledSquare.layout.StoresBytes 4 0 2 := by
  refine ⟨rfl, rfl, ?_⟩
  rintro ⟨origin, range, hget, -, hle⟩
  have hmem : (origin, range) ∈ [(([0, 0] : Index), (⟨0, 0⟩ : ByteRange))] :=
    ChunkMap.mem_entries_iff.2 hget
  cases List.mem_singleton.1 hmem
  exact absurd hle (by decide)

end Hyperslab
