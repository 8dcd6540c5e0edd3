import Hyperslab.Proofs.Run
import Hyperslab.Proofs.Section
import Hyperslab.Grid

/-!
# The part of a section in each chunk

Along one dimension the chunks that hold a selected index are the candidates, and a candidate is a
`Piece`: the selected indices inside of one chunk, which are neighbours in the order of positions.
Every position lies in the piece of the chunk that its index falls in. Along all dimensions together
a part of the section is a choice of one piece each, so each position tuple lies in one part.

## Main statements

- `SectionRange.partIn_of_localise`, `SectionRange.not_mem_of_localise`: what a restriction to an
  extent selects
- `ChunkGrid.piece_of_mem_candidates`, `ChunkGrid.exists_candidate`: the candidates of a dimension
- `ChunkGrid.pieces_of_mem_choices`, `ChunkGrid.exists_choice`: the same for all dimensions
- `ChunkGrid.pairwise_origins`: parts come in the order of their chunks
-/

namespace Hyperslab

/-- A local range selects the indices of a range that lie in an extent: those at its own positions,
and no others. -/
structure SectionRange.PartIn (r : SectionRange) (origin extent : Nat) (part : LocalRange) :
    Prop where
  stride_eq : part.stride = r.stride
  count_pos : 0 < part.count
  stop_le : part.output + part.count ≤ r.count
  start_eq : origin + part.start = r.element part.output
  mem_iff : ∀ j, j < r.count →
    ((origin ≤ r.element j ∧ r.element j < origin + extent) ↔
      (part.output ≤ j ∧ j < part.output + part.count))

namespace SectionRange

variable {r : SectionRange} {origin extent last : Nat}

/-- The first position at or after the origin of an extent. -/
theorem origin_le_element_iff (r : SectionRange) (origin j : Nat) :
    origin ≤ r.element j ↔
      (if origin ≤ r.start then 0 else ceilDiv (origin - r.start) r.stride) ≤ j := by
  rw [element]
  split
  · omega
  · rw [ceilDiv_le_iff r.stride_pos]
    omega

/-- The last position before the end of an extent. -/
theorem element_lt_iff {stop : Nat} (h : r.start < stop) (j : Nat) :
    r.element j < stop ↔ j ≤ (stop - 1 - r.start) / r.stride := by
  rw [Nat.le_div_iff_mul_le r.stride_pos, element]
  omega

/-- A restriction that selects something selects what lies in the extent. -/
theorem partIn_of_localise {part : LocalRange} (h : r.localise origin extent = some part) :
    r.PartIn origin extent part := by
  rw [localise] at h
  split at h
  · rename_i last stop hlast hstop
    obtain ⟨-, rfl⟩ := Offset.checked_eq_some_iff.1 hstop
    obtain ⟨houtside, h⟩ := Option.ite_none_left_eq_some.1 h
    obtain ⟨hle, h⟩ := Option.ite_none_left_eq_some.1 h
    cases h
    have hcount : r.count ≠ 0 := by
      intro hzero
      simp [last?, hzero] at hlast
    have hfirst := r.origin_le_element_iff origin
    have hfinal : ∀ j, r.element j < origin + extent ↔ _ := element_lt_iff (by omega)
    revert hle hfirst
    -- all that matters of the first position is that the positions from it on are inside
    generalize (if origin ≤ r.start then 0 else ceilDiv (origin - r.start) r.stride) = first
    intro hle hfirst
    have horigin := (hfirst first).2 (Nat.le_refl first)
    refine ⟨rfl, Nat.succ_pos _, ?_, ?_, fun j hj => ?_⟩
    · dsimp only
      omega
    · dsimp only
      omega
    · rw [hfirst, hfinal]
      dsimp only
      omega
  · cases h

/-- A restriction selects nothing only where nothing lies in the extent. -/
theorem not_mem_of_localise (hlast : r.last? = some last) (hstop : origin + extent ≤ maxOffset)
    (h : r.localise origin extent = none) {j : Nat} (hj : j < r.count) :
    ¬(origin ≤ r.element j ∧ r.element j < origin + extent) := by
  rintro ⟨horigin, hextent⟩
  have hchecked : Offset.checked (origin + extent) = some (origin + extent) :=
    Offset.checked_eq_some_iff.2 ⟨hstop, rfl⟩
  have hle : r.element j ≤ last := by
    rw [last?, if_neg (by omega)] at hlast
    obtain ⟨-, rfl⟩ := Offset.checked_eq_some_iff.1 hlast
    exact element_le (by omega)
  have hstart : r.start ≤ r.element j := Nat.le_add_right _ _
  -- no guard of the restriction stops, so it selects something
  rw [localise, hlast, hchecked] at h
  dsimp only at h
  rw [if_neg (by omega)] at h
  have hfirst := (r.origin_le_element_iff origin j).1 horigin
  have hfinal := (element_lt_iff (by omega) j).1 hextent
  rw [if_neg (by omega)] at h
  cases h

end SectionRange

/-- The selected indices of a range inside of the chunk with origin `o` along a dimension. -/
structure Piece (r : SectionRange) (c : PosNat) (o : Nat) (part : LocalRange) : Prop where
  origin_dvd : c.val ∣ o
  count_pos : 0 < part.count
  stop_le : part.output + part.count ≤ r.count
  element_eq : ∀ i, o + part.element i = r.element (part.output + i)
  element_lt : ∀ i, i < part.count → part.element i < c.val

/-- The indices of a piece fall in its chunk. -/
theorem Piece.origin_eq {r : SectionRange} {c : PosNat} {o : Nat} {part : LocalRange}
    (h : Piece r c o part) {i : Nat} (hi : i < part.count) :
    r.element (part.output + i) / c.val * c.val = o := by
  obtain ⟨k, rfl⟩ := h.origin_dvd
  rw [← h.element_eq, Nat.mul_add_div c.property, Nat.div_eq_of_lt (h.element_lt i hi),
    Nat.add_zero, Nat.mul_comm]

theorem Piece.stride_eq {r : SectionRange} {c : PosNat} {o : Nat} {part : LocalRange}
    (h : Piece r c o part) : part.stride = r.stride := by
  have hfirst := h.element_eq 0
  have hsecond := h.element_eq 1
  simp only [LocalRange.element, SectionRange.element, Nat.add_mul] at hfirst hsecond
  omega

namespace ChunkGrid

theorem piece_of_mem_candidates {range : SectionRange} {n : Nat} {c : PosNat} {o : Nat}
    {part : LocalRange} (h : (o, part) ∈ candidates range n c) : Piece range c o part := by
  rw [candidates, List.mem_filterMap] at h
  obtain ⟨k, -, hk⟩ := h
  obtain ⟨part', hpart, heq⟩ := Option.map_eq_some_iff.1 hk
  cases heq
  have hin := SectionRange.partIn_of_localise hpart
  have helement : ∀ i, k * c.val + part.element i = range.element (part.output + i) := by
    intro i
    have hstart := hin.start_eq
    rw [SectionRange.element] at hstart
    rw [LocalRange.element, SectionRange.element, hin.stride_eq, Nat.add_mul]
    omega
  refine ⟨Nat.dvd_mul_left c.val k, hin.count_pos, hin.stop_le, helement, fun i hi => ?_⟩
  have hstop := hin.stop_le
  have hmem := (hin.mem_iff (part.output + i) (by omega)).2 ⟨by omega, by omega⟩
  have hextent : extentAlong (k * c.val) n c ≤ c.val := Nat.min_le_left _ _
  rw [← helement] at hmem
  omega

/-- Each position of a range is in the candidate of the chunk that its index falls in. -/
theorem exists_candidate {range : SectionRange} {n : Nat} {c : PosNat} (h : range.Within n)
    (hn : n ≤ maxOffset) {j : Nat} (hj : j < range.count) :
    ∃ part, (range.element j / c.val * c.val, part) ∈ candidates range n c ∧
      part.output ≤ j ∧ j < part.output + part.count := by
  have hlt := h.element_lt hj
  have hfloor := Nat.div_mul_le_self (range.element j) c.val
  have hnext := Nat.lt_div_mul_add (a := range.element j) c.property
  have hextent : extentAlong (range.element j / c.val * c.val) n c =
      min c.val (n - range.element j / c.val * c.val) := rfl
  -- the variable may end inside of the chunk, but not before the index
  have hmem : range.element j / c.val * c.val ≤ range.element j ∧ range.element j <
      range.element j / c.val * c.val + extentAlong (range.element j / c.val * c.val) n c := by
    omega
  cases hpart : range.localise (range.element j / c.val * c.val)
      (extentAlong (range.element j / c.val * c.val) n c) with
  | none =>
    have hnot := SectionRange.not_mem_of_localise h.last? (by omega) hpart hj
    exact absurd hmem hnot
  | some part =>
    have hbounds := ((SectionRange.partIn_of_localise hpart).mem_iff j hj).1 hmem
    refine ⟨part, ?_, hbounds⟩
    rw [candidates, List.mem_filterMap]
    refine ⟨range.element j / c.val, ?_, by simp only [hpart, Option.map_some]⟩
    rw [h.last?, List.mem_range'_1]
    have hfirst : range.start / c.val ≤ range.element j / c.val :=
      Nat.div_le_div_right (Nat.le_add_right _ _)
    have hfinal : range.element j / c.val ≤ range.element (range.count - 1) / c.val :=
      Nat.div_le_div_right (SectionRange.element_le (by omega))
    dsimp only
    omega

theorem pairwise_candidates (range : SectionRange) (n : Nat) (c : PosNat) :
    (candidates range n c).Pairwise fun a b => a.1 < b.1 := by
  rw [candidates]
  refine List.pairwise_filterMap.2 ((List.pairwise_lt_range' ..).imp fun {k l} hkl => ?_)
  rintro a ha b hb
  obtain ⟨-, -, rfl⟩ := Option.map_eq_some_iff.1 ha
  obtain ⟨-, -, rfl⟩ := Option.map_eq_some_iff.1 hb
  exact Nat.mul_lt_mul_of_pos_right hkl c.property

end ChunkGrid

/-- One piece along each dimension, in the chunk with the given origin. -/
def Pieces : List SectionRange → ChunkShape → Index → List LocalRange → Prop
  | [], [], [], [] => True
  | range :: ranges, c :: chunkShape, o :: origin, part :: parts =>
    Piece range c o part ∧ Pieces ranges chunkShape origin parts
  | _, _, _, _ => False

theorem Pieces.of_nil {chunkShape : ChunkShape} {origin : Index} {parts : List LocalRange}
    (h : Pieces [] chunkShape origin parts) : chunkShape = [] ∧ origin = [] ∧ parts = [] := by
  cases chunkShape <;> cases origin <;> cases parts <;> first | exact ⟨rfl, rfl, rfl⟩ | exact h.elim

theorem Pieces.of_cons {range : SectionRange} {ranges : List SectionRange}
    {chunkShape : ChunkShape} {origin : Index} {parts : List LocalRange}
    (h : Pieces (range :: ranges) chunkShape origin parts) :
    ∃ c chunks o origins part rest, chunkShape = c :: chunks ∧ origin = o :: origins ∧
      parts = part :: rest ∧ Piece range c o part ∧ Pieces ranges chunks origins rest := by
  cases chunkShape with
  | nil => exact h.elim
  | cons c chunks =>
    cases origin with
    | nil => exact h.elim
    | cons o origins =>
      cases parts with
      | nil => exact h.elim
      | cons part rest => exact ⟨c, chunks, o, origins, part, rest, rfl, rfl, rfl, h⟩

/-- The origin of the chunk that an index tuple falls in. -/
def ChunkShape.originOf (chunkShape : ChunkShape) (index : Index) : Index :=
  List.zipWith (fun i c => i / c.val * c.val) index chunkShape

/-- The index tuple counted from the origin of a chunk. -/
def Index.relativeTo (index origin : Index) : Index :=
  List.zipWith (· - ·) index origin

open LocalRange

/-- What pieces along all dimensions say of a position of theirs: its place in the section, its
chunk, and its place in the chunk. -/
theorem Pieces.at_position {ranges : List SectionRange} {chunkShape : ChunkShape} {origin : Index}
    {parts : List LocalRange} (h : Pieces ranges chunkShape origin parts) {position : Index}
    (hposition : Below position (counts parts)) :
    Below (outputsAt parts position) (ranges.map (·.count)) ∧
      chunkShape.originOf (Section.elementsAt ranges (outputsAt parts position)) = origin ∧
      Index.relativeTo (Section.elementsAt ranges (outputsAt parts position)) origin =
        elementsAt parts position ∧
      Below (elementsAt parts position) chunkShape.toShape := by
  induction ranges generalizing chunkShape origin parts position with
  | nil =>
    obtain ⟨rfl, rfl, rfl⟩ := h.of_nil
    obtain rfl := List.length_eq_zero_iff.1 hposition.length_eq
    exact ⟨trivial, rfl, rfl, trivial⟩
  | cons range ranges ih =>
    obtain ⟨c, chunkShape, o, origin, part, parts, rfl, rfl, rfl, hpiece, hrest⟩ := h.of_cons
    cases position with
    | nil => exact hposition.elim
    | cons i position =>
      obtain ⟨hi, hbelow⟩ := hposition
      obtain ⟨houtput, horigin, hfrom, helement⟩ := ih hrest hbelow
      have hi : i < part.count := hi
      have hstop := hpiece.stop_le
      refine ⟨⟨?_, houtput⟩, ?_, ?_, hpiece.element_lt i hi, helement⟩
      · change part.output + i < range.count
        omega
      · change range.element (part.output + i) / c.val * c.val ::
          ChunkShape.originOf chunkShape
            (Section.elementsAt ranges (outputsAt parts position)) = _
        rw [horigin, hpiece.origin_eq hi]
      · change (range.element (part.output + i) - o) ::
          Index.relativeTo (Section.elementsAt ranges (outputsAt parts position)) origin = _
        rw [hfrom, ← hpiece.element_eq, Nat.add_sub_cancel_left]
        rfl

namespace ChunkGrid

theorem pieces_of_mem_choices {ranges : List SectionRange} {shape : Shape}
    {chunkShape : ChunkShape} (hranges : ranges.length = shape.length)
    (hchunks : shape.length = chunkShape.length) {choice : List (Nat × LocalRange)}
    (h : choice ∈ choices (candidatesAlong ranges shape chunkShape)) :
    Pieces ranges chunkShape (choice.map (·.1)) (choice.map (·.2)) := by
  induction ranges generalizing shape chunkShape choice with
  | nil =>
    obtain rfl := List.length_eq_zero_iff.1 hranges.symm
    obtain rfl := List.length_eq_zero_iff.1 hchunks.symm
    rw [candidatesAlong, choices, List.mem_singleton] at h
    · subst h
      trivial
    all_goals simp
  | cons range ranges ih =>
    obtain ⟨n, shape, rfl⟩ := List.exists_cons_of_length_eq_add_one hranges.symm
    obtain ⟨c, chunkShape, rfl⟩ := List.exists_cons_of_length_eq_add_one hchunks.symm
    rw [candidatesAlong, choices, List.mem_flatMap] at h
    obtain ⟨⟨o, part⟩, hcandidate, hmem⟩ := h
    obtain ⟨rest, hrest, rfl⟩ := List.mem_map.1 hmem
    exact ⟨piece_of_mem_candidates hcandidate,
      ih (Nat.succ.inj hranges) (Nat.succ.inj hchunks) hrest⟩

/-- Each position tuple of a section is one of the choice for the chunk that its element falls
in. -/
theorem exists_choice {ranges : List SectionRange} {shape : Shape} {chunkShape : ChunkShape}
    (h : Section.Within ranges shape) (hle : ∀ n ∈ shape, n ≤ maxOffset)
    (hchunks : shape.length = chunkShape.length) {position : Index}
    (hposition : Below position (ranges.map (·.count))) :
    ∃ choice ∈ choices (candidatesAlong ranges shape chunkShape),
      choice.map (·.1) = chunkShape.originOf (Section.elementsAt ranges position) ∧
      ∃ inner, Below inner (counts (choice.map (·.2))) ∧
        outputsAt (choice.map (·.2)) inner = position := by
  induction ranges generalizing shape chunkShape position with
  | nil =>
    obtain rfl := List.length_eq_zero_iff.1 h.length_eq.symm
    obtain rfl := List.length_eq_zero_iff.1 hchunks.symm
    obtain rfl := List.length_eq_zero_iff.1 hposition.length_eq
    exact ⟨[], List.mem_singleton.2 rfl, rfl, [], trivial, rfl⟩
  | cons range ranges ih =>
    obtain ⟨n, shape, rfl, h⟩ := h.of_cons
    obtain ⟨c, chunkShape, rfl⟩ := List.exists_cons_of_length_eq_add_one hchunks.symm
    cases position with
    | nil => exact hposition.elim
    | cons j position =>
      obtain ⟨part, hcandidate, hstart, hstop⟩ :=
        exists_candidate (c := c) h.1 (hle n List.mem_cons_self) hposition.1
      obtain ⟨choice, hchoice, horigin, inner, hinner, houtput⟩ :=
        ih h.2 (fun m hm => hle m (List.mem_cons_of_mem n hm)) (Nat.succ.inj hchunks) hposition.2
      refine ⟨(range.element j / c.val * c.val, part) :: choice, ?_, ?_, (j - part.output) :: inner,
        ⟨?_, hinner⟩, ?_⟩
      · rw [candidatesAlong, choices, List.mem_flatMap]
        exact ⟨_, hcandidate, List.mem_map.2 ⟨choice, hchoice, rfl⟩⟩
      · rw [List.map_cons, horigin]
        rfl
      · change j - part.output < part.count
        omega
      · change (part.output + (j - part.output)) :: outputsAt (choice.map (·.2)) inner = _
        rw [houtput, Nat.add_sub_cancel' hstart]

/-- Choices come in lexicographic order of their keys if the members of each list do. -/
theorem pairwise_choices {α : Type} (key : α → Nat) {lists : List (List α)}
    (h : ∀ options ∈ lists, options.Pairwise fun a b => key a < key b) :
    (choices lists).Pairwise fun a b => a.map key < b.map key := by
  induction lists with
  | nil => exact List.pairwise_singleton _ _
  | cons options rest ih =>
    obtain ⟨hoptions, hrest⟩ := List.forall_mem_cons.1 h
    -- two choices differ in the first list, or else in the others
    rw [choices, List.pairwise_flatMap]
    refine ⟨fun x _ => ?_, hoptions.imp fun {x y} hxy a ha b hb => ?_⟩
    · rw [List.pairwise_map]
      exact (ih hrest).imp fun hab => List.cons_lt_cons_self.2 hab
    · obtain ⟨a, -, rfl⟩ := List.mem_map.1 ha
      obtain ⟨b, -, rfl⟩ := List.mem_map.1 hb
      exact List.cons_lt_cons_iff.2 (.inl hxy)

theorem pairwise_candidatesAlong {ranges : List SectionRange} {shape : Shape}
    {chunkShape : ChunkShape} :
    ∀ options ∈ candidatesAlong ranges shape chunkShape,
      options.Pairwise fun a b => a.1 < b.1 := by
  induction ranges generalizing shape chunkShape with
  | nil => simp [candidatesAlong]
  | cons range ranges ih =>
    cases shape with
    | nil => simp [candidatesAlong]
    | cons n shape =>
      cases chunkShape with
      | nil => simp [candidatesAlong]
      | cons c chunkShape =>
        rw [candidatesAlong, List.forall_mem_cons]
        exact ⟨pairwise_candidates range n c, ih⟩

/-- The parts of a section come in lexicographic order of the origins of their chunks. -/
theorem pairwise_origins (g : ChunkGrid) (s : Section) :
    (g.intersecting s).Pairwise fun a b => a.origin < b.origin := by
  rw [intersecting, List.pairwise_map]
  refine pairwise_choices Prod.fst ?_
  rw [candidatesOf]
  split
  · exact pairwise_candidatesAlong
  · simp

end ChunkGrid

end Hyperslab
