import Hyperslab.Proofs.Codec.Payload

/-!
# Places in a chain of segments

The bytes of a chain are numbered from front to back, whatever the segments are that they are in.
`chainOffsets` says where in the byte source each of them is. A place in a chain is reached by
walking past the bytes before it, and two walks one after the other come to the same as one.
Segments without bytes do not count: what is left of a chain may begin with some of them.

## Main definitions

- `chainOffsets`: the offsets of the bytes of a chain
- `leftInSegment`: the number of bytes from a place on that are in one segment

## Main statements

- `SegmentStream.chainOffsets_walkPast`, `SegmentStream.walkPast_walkPast`: what is left of a chain
- `toList_chainBytes`: the bytes of a chain are those at its offsets
-/

namespace Hyperslab

namespace ByteRange

/-- The offsets of the bytes of a range. -/
def offsets (r : ByteRange) : List Nat :=
  List.range' r.offset r.length

@[simp] theorem length_offsets (r : ByteRange) : r.offsets.length = r.length :=
  List.length_range'

theorem mem_offsets {r : ByteRange} {o : Nat} :
    o ∈ r.offsets ↔ r.offset ≤ o ∧ o < r.offset + r.length :=
  List.mem_range'_1

theorem offsets_of_length_eq_zero {r : ByteRange} (h : r.length = 0) : r.offsets = [] := by
  rw [offsets, h]
  rfl

/-- A range is cut into its front and what is left of it. -/
theorem offsets_take_append_drop (r : ByteRange) (n : Nat) :
    (r.take n).offsets ++ (r.drop n).offsets = r.offsets := by
  by_cases hn : n ≤ r.length
  · simp only [offsets, take, drop, Nat.min_eq_left hn]
    rw [List.range'_append_1, Nat.add_sub_cancel' hn]
  · have hle : r.length ≤ n := by omega
    simp only [offsets, take, drop, Nat.min_eq_right hle, Nat.sub_eq_zero_of_le hle]
    exact List.append_nil _

theorem offsets_take (r : ByteRange) (n : Nat) : (r.take n).offsets = r.offsets.take n := by
  have hlength : (r.take n).offsets.length = min n r.length := length_offsets _
  rw [← offsets_take_append_drop r n, List.take_append, hlength]
  by_cases hn : n ≤ r.length
  · rw [Nat.min_eq_left hn, Nat.sub_self, List.take_zero, List.append_nil, List.take_of_length_le]
    omega
  · rw [offsets_of_length_eq_zero (r := r.drop n) (by show r.length - n = 0; omega), List.take_nil,
      List.append_nil, List.take_of_length_le]
    omega

theorem offsets_drop (r : ByteRange) (n : Nat) : (r.drop n).offsets = r.offsets.drop n := by
  have hcut := offsets_take_append_drop r n
  rw [offsets_take] at hcut
  exact List.append_cancel_left (hcut.trans (List.take_append_drop n r.offsets).symm)

end ByteRange

/-- The offsets of the bytes of a chain, one segment after the other. -/
def chainOffsets (chain : List ByteRange) : List Nat :=
  chain.flatMap ByteRange.offsets

@[simp] theorem chainOffsets_nil : chainOffsets [] = [] := rfl

@[simp] theorem chainOffsets_cons (r : ByteRange) (chain : List ByteRange) :
    chainOffsets (r :: chain) = r.offsets ++ chainOffsets chain :=
  List.flatMap_cons

@[simp] theorem chainOffsets_append (front back : List ByteRange) :
    chainOffsets (front ++ back) = chainOffsets front ++ chainOffsets back :=
  List.flatMap_append

@[simp] theorem length_chainOffsets (chain : List ByteRange) :
    (chainOffsets chain).length = chainLength chain := by
  induction chain with
  | nil => rfl
  | cons r chain ih => simp [ih]

theorem chainLength_eq_zero_iff {chain : List ByteRange} :
    chainLength chain = 0 ↔ ∀ segment ∈ chain, segment.length = 0 := by
  induction chain with
  | nil => simp
  | cons segment rest ih => rw [chainLength_cons, Nat.add_eq_zero_iff, ih, List.forall_mem_cons]

theorem chainLength_append (front back : List ByteRange) :
    chainLength (front ++ back) = chainLength front + chainLength back := by
  rw [← length_chainOffsets, chainOffsets_append, List.length_append, length_chainOffsets,
    length_chainOffsets]

/-- A chain lies inside of a content just where each of its bytes does. -/
theorem chainWithin_iff {content : Bytes} {chain : List ByteRange} :
    ChainWithin content chain ↔ ∀ o ∈ chainOffsets chain, o < content.size ∧ o < maxOffset := by
  constructor
  · intro h o ho
    obtain ⟨r, hr, hmem⟩ := List.mem_flatMap.1 ho
    obtain ⟨hle, hlt⟩ := ByteRange.mem_offsets.1 hmem
    have := h r hr (by omega)
    omega
  · intro h r hr hne
    -- the last byte of the segment
    have hlast := h (r.offset + (r.length - 1))
      (List.mem_flatMap.2 ⟨r, hr, ByteRange.mem_offsets.2 (by omega)⟩)
    omega

theorem ChainWithin.of_subset {content : Bytes} {chain part : List ByteRange}
    (h : ChainWithin content chain) (hsub : chainOffsets part ⊆ chainOffsets chain) :
    ChainWithin content part :=
  chainWithin_iff.2 fun o ho => chainWithin_iff.1 h o (hsub ho)

theorem toList_extract_range (content : Bytes) (offset length : Nat) :
    (content.extract offset (offset + length)).toList =
      (List.range' offset length).filterMap (content[·]?) := by
  induction length generalizing offset with
  | zero => simp
  | succ length ih =>
    rw [List.range'_succ, List.filterMap_cons]
    by_cases hlt : offset < content.size
    · have hsplit : content.extract offset (offset + (length + 1)) =
          content.extract offset (offset + 1) ++
            content.extract (offset + 1) (offset + 1 + length) := by
        rw [Array.extract_append_extract]
        congr 1 <;> omega
      rw [hsplit, Array.toList_append, ih, Array.getElem?_eq_getElem hlt]
      simp [List.extract_eq_take_drop, List.take_one, hlt]
    · rw [Array.getElem?_eq_none (by omega), ← ih, Array.extract_empty_of_size_le_start (by omega),
        Array.extract_empty_of_size_le_start (by omega)]

/-- The bytes of a chain are those at its offsets. -/
theorem toList_chainBytes (content : Bytes) (chain : List ByteRange) :
    (chainBytes content chain).toList = (chainOffsets chain).filterMap (content[·]?) := by
  induction chain with
  | nil => rfl
  | cons r chain ih =>
    rw [chainBytes, Array.toList_append, toList_extract_range, ih, chainOffsets_cons,
      List.filterMap_append]
    rfl

theorem size_chainBytes {content : Bytes} {chain : List ByteRange} (h : ChainWithin content chain) :
    (chainBytes content chain).size = chainLength chain := by
  induction chain with
  | nil => rfl
  | cons r chain ih =>
    obtain ⟨hr, hchain⟩ := List.forall_mem_cons.1 h
    rw [chainBytes, Array.size_append, Array.size_extract, ih hchain, chainLength_cons]
    by_cases hzero : r.length = 0
    · omega
    · have := hr hzero
      omega

theorem toList_chainBytes_of_within {content : Bytes} {chain : List ByteRange}
    (h : ChainWithin content chain) :
    (chainBytes content chain).toList = (chainOffsets chain).map (content.getD · 0) := by
  rw [toList_chainBytes]
  have hinside : ∀ o ∈ chainOffsets chain, o < content.size :=
    fun o ho => (chainWithin_iff.1 h o ho).1
  generalize chainOffsets chain = offsets at hinside ⊢
  induction offsets with
  | nil => rfl
  | cons o offsets ih =>
    obtain ⟨ho, hinside⟩ := List.forall_mem_cons.1 hinside
    simp [Array.getD, ho, ih hinside]

/-- The bytes of a chain that has the offsets of `n` bytes of another one. -/
theorem chainBytes_of_offsets {content : Bytes} {chain part : List ByteRange} {p n : Nat}
    (hwithin : ChainWithin content chain)
    (h : chainOffsets part = ((chainOffsets chain).drop p).take n) :
    chainBytes content part = (chainBytes content chain).extract p (p + n) := by
  have hpart : ChainWithin content part :=
    hwithin.of_subset fun o ho => List.mem_of_mem_drop (List.mem_of_mem_take (h ▸ ho))
  apply Array.toList_inj.1
  rw [Array.toList_extract, List.extract_eq_take_drop, toList_chainBytes_of_within hpart,
    toList_chainBytes_of_within hwithin, h, List.map_take, List.map_drop, Nat.add_sub_cancel_left]

namespace SegmentStream

variable {chain : List ByteRange}

theorem fst_walkPast (chain : List ByteRange) (n : Nat) :
    (walkPast chain n).1 = min n (chainLength chain) := by
  induction chain generalizing n with
  | nil => simp [walkPast]
  | cons segment rest ih =>
    rw [walkPast, chainLength_cons]
    split
    · exact (Nat.min_eq_left (by omega)).symm
    · show segment.length + (walkPast rest (n - segment.length)).1 = _
      rw [ih]
      omega

/-- Walking past some bytes leaves the others. -/
theorem chainOffsets_walkPast (chain : List ByteRange) (n : Nat) :
    chainOffsets (walkPast chain n).2 = (chainOffsets chain).drop n := by
  induction chain generalizing n with
  | nil => simp [walkPast]
  | cons segment rest ih =>
    rw [walkPast, chainOffsets_cons, List.drop_append, ByteRange.length_offsets]
    split
    · rw [chainOffsets_cons, ByteRange.offsets_drop, Nat.sub_eq_zero_of_le (by omega),
        List.drop_zero]
    · have hsegment : segment.offsets.drop n = [] :=
        List.drop_eq_nil_of_le (by rw [ByteRange.length_offsets]; omega)
      rw [hsegment, List.nil_append]
      exact ih (n - segment.length)

theorem chainLength_walkPast (chain : List ByteRange) (n : Nat) :
    chainLength (walkPast chain n).2 = chainLength chain - n := by
  rw [← length_chainOffsets, chainOffsets_walkPast, List.length_drop, length_chainOffsets]

@[simp] theorem chainOffsets_trim (chain : List ByteRange) :
    chainOffsets (trim chain) = chainOffsets chain := by
  induction chain with
  | nil => rfl
  | cons segment rest ih =>
    rw [trim]
    split
    · rw [ih, chainOffsets_cons, ByteRange.offsets_of_length_eq_zero ‹_›, List.nil_append]
    · rfl

/-- Segments without bytes at the front make no difference to a walk. -/
theorem walkPast_trim (chain : List ByteRange) (n : Nat) :
    walkPast (trim chain) n = walkPast chain n := by
  induction chain with
  | nil => rfl
  | cons segment rest ih =>
    rw [trim]
    split
    · rename_i hzero
      rw [ih, walkPast, hzero, if_neg (Nat.not_lt_zero n), Nat.sub_zero]
      simp only [Nat.zero_add]
    · rfl

theorem snd_walkPast_zero (chain : List ByteRange) : (walkPast chain 0).2 = trim chain := by
  induction chain with
  | nil => rfl
  | cons segment rest ih =>
    rw [walkPast, trim]
    split
    · rw [if_neg (by omega)]
      rfl
    · rw [if_pos (by omega), Nat.zero_sub]
      exact ih

theorem trim_of_pos {segment : ByteRange} (h : 0 < segment.length) (rest : List ByteRange) :
    trim (segment :: rest) = segment :: rest := by
  rw [trim, if_neg (by omega)]

/-- A walk ends before a segment with bytes. -/
theorem trim_walkPast (chain : List ByteRange) (n : Nat) :
    trim (walkPast chain n).2 = (walkPast chain n).2 := by
  induction chain generalizing n with
  | nil => rfl
  | cons segment rest ih =>
    rw [walkPast]
    split
    · exact trim_of_pos (by show 0 < segment.length - n; omega) rest
    · exact ih (n - segment.length)

/-- Two walks one after the other come to the same as one. -/
theorem walkPast_walkPast (chain : List ByteRange) (m n : Nat) :
    (walkPast (walkPast chain m).2 n).2 = (walkPast chain (m + n)).2 := by
  induction chain generalizing m with
  | nil => rfl
  | cons segment rest ih =>
    rw [walkPast, walkPast]
    by_cases hm : m < segment.length
    · rw [if_pos hm]
      dsimp only
      rw [walkPast]
      by_cases hn : m + n < segment.length
      · rw [if_pos hn, if_pos (by show n < segment.length - m; omega)]
        simp only [ByteRange.drop, ByteRange.mk.injEq, List.cons.injEq, and_true]
        omega
      · have hrest : n - (segment.length - m) = m + n - segment.length := by omega
        rw [if_neg hn, if_neg (by show ¬n < segment.length - m; omega)]
        show (walkPast rest (n - (segment.length - m))).2 = _
        rw [hrest]
    · have hrest : m - segment.length + n = m + n - segment.length := by omega
      rw [if_neg hm, if_neg (by omega)]
      show (walkPast (walkPast rest (m - segment.length)).2 n).2 = _
      rw [ih, hrest]

theorem snd_walkPast_of_le {n : Nat} (h : chainLength chain ≤ n) : (walkPast chain n).2 = [] := by
  induction chain generalizing n with
  | nil => rfl
  | cons segment rest ih =>
    rw [chainLength_cons] at h
    rw [walkPast, if_neg (by omega)]
    exact ih (by omega)

end SegmentStream

/-- The number of bytes from place `p` of a chain on that are in one segment. -/
def leftInSegment : List ByteRange → Nat → Nat
  | [], _ => 0
  | segment :: rest, p =>
    if p < segment.length then segment.length - p else leftInSegment rest (p - segment.length)

theorem leftInSegment_of_walkPast_eq_nil {chain : List ByteRange} {p : Nat}
    (h : (SegmentStream.walkPast chain p).2 = []) : leftInSegment chain p = 0 := by
  induction chain generalizing p with
  | nil => rfl
  | cons segment rest ih =>
    rw [SegmentStream.walkPast] at h
    rw [leftInSegment]
    split at h
    · cases h
    · rw [if_neg ‹_›]
      exact ih h

theorem leftInSegment_of_walkPast_eq_cons {chain rest : List ByteRange} {segment : ByteRange}
    {p : Nat} (h : (SegmentStream.walkPast chain p).2 = segment :: rest) :
    leftInSegment chain p = segment.length := by
  induction chain generalizing p with
  | nil => cases h
  | cons first others ih =>
    rw [SegmentStream.walkPast] at h
    rw [leftInSegment]
    split at h
    · cases h
      rw [if_pos ‹_›]
      rfl
    · rw [if_neg ‹_›]
      exact ih h

/-- There is a byte of some segment at each place before the end. -/
theorem leftInSegment_eq_zero_iff {chain : List ByteRange} {p : Nat} :
    leftInSegment chain p = 0 ↔ chainLength chain ≤ p := by
  induction chain generalizing p with
  | nil => exact iff_of_true rfl (Nat.zero_le p)
  | cons segment rest ih =>
    rw [leftInSegment, chainLength_cons]
    split
    · omega
    · rw [ih]
      omega

end Hyperslab
