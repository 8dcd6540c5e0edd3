import Mathlib.Data.List.Basic
import Hyperslab.Proofs.Position
import Hyperslab.Proofs.Resolve.Tiled

/-!
# Parts of a section partition it

The chunks that hold some of a section are found from a window of candidates along each dimension.
Looking at every chunk of the grid comes to the same list: outside of the window a range selects
nothing, and inside of it a chunk that a long stride passes over is left out. The position tuples
of an accepted section are shared out among the parts, each to one of them, and the part has the
element of the position at its own place in the chunk.

## Main definitions

- `ChunkGrid.origins`: all chunks of a grid
- `ChunkIntersection.Holds`: the position tuples that a part holds
- `ChunkIntersection.total`: the number of elements of some parts

## Main statements

- `ChunkGrid.intersecting_eq_filterMap`: the parts are those of all chunks of the grid
- `ChunkGrid.perm_positions`: the positions of the parts are those of the section
- `ChunkGrid.intersecting_partitions`: both, with the place of each position in its part
-/

namespace Hyperslab

open LocalRange

/-- Tests of numbers that fail outside of an interval only need to be made inside of it. -/
theorem filterMap_range_eq {α : Type} {f : Nat → Option α} {start size bound : Nat}
    (hbelow : ∀ k, k < start → f k = none) (habove : ∀ k, start + size ≤ k → f k = none)
    (hbound : ∀ k, bound ≤ k → f k = none) :
    (List.range bound).filterMap f = (List.range' start size).filterMap f := by
  have hcut : ∀ {n m}, (∀ k, n ≤ k → f k = none) → n ≤ m →
      (List.range m).filterMap f = (List.range n).filterMap f := by
    intro n m hnone hle
    obtain ⟨d, rfl⟩ := Nat.le.dest hle
    have hrest : (List.range d).filterMap (f ∘ (n + ·)) = [] :=
      List.filterMap_eq_nil_iff.2 fun k _ => hnone _ (Nat.le_add_right n k)
    rw [List.range_add, List.filterMap_append, List.filterMap_map, hrest, List.append_nil]
  have hstart : (List.range (start + size)).filterMap f =
      (List.range' start size).filterMap f := by
    rw [List.range_add, List.filterMap_append, ← List.range'_eq_map_range,
      List.filterMap_eq_nil_iff.2 fun k hk => hbelow k (List.mem_range.1 hk), List.nil_append]
  rw [← hstart]
  rcases Nat.le_total bound (start + size) with hle | hle
  · exact (hcut hbound hle).symm
  · exact hcut habove hle

/-- To go on from what remains of a list is to go on from each of its members that remains. -/
theorem flatMap_filterMap {α β γ : Type} (f : α → Option β) (g : β → List γ) (xs : List α) :
    (xs.filterMap f).flatMap g = xs.flatMap fun x => (f x).elim [] g := by
  induction xs with
  | nil => rfl
  | cons x xs ih =>
    rw [List.filterMap_cons, List.flatMap_cons, ← ih]
    cases f x <;> rfl

namespace SectionRange

variable {range : SectionRange} {origin extent last : Nat}

theorem localise_of_last?_none (h : range.last? = none) : range.localise origin extent = none := by
  rw [localise, h]

theorem localise_of_last_lt (hlast : range.last? = some last) (h : last < origin) :
    range.localise origin extent = none := by
  rw [localise, hlast]
  split
  · rename_i heq _
    cases heq
    rw [if_pos (.inr (.inl h))]
  · rfl

theorem localise_of_le_start (h : origin + extent ≤ range.start) :
    range.localise origin extent = none := by
  rw [localise]
  split
  · rename_i hstop
    obtain ⟨-, rfl⟩ := Offset.checked_eq_some_iff.1 hstop
    rw [if_pos (.inr (.inr h))]
  · rfl

theorem localise_zero : range.localise origin 0 = none := by
  rw [localise]
  split
  · rw [if_pos (.inl rfl)]
  · rfl

end SectionRange

namespace ChunkGrid

/-- The origins of the chunks along one dimension. -/
def originsAlong (n : Nat) (c : PosNat) : List Nat :=
  (List.range (ceilDiv n c.val)).map (· * c.val)

/-- The origins of all chunks of the grid, the last dimension fastest. -/
def origins (g : ChunkGrid) : List Index :=
  choices (List.zipWith originsAlong g.arrayShape g.chunkShape)

theorem mem_originsAlong {n : Nat} {c : PosNat} {o : Nat} :
    o ∈ originsAlong n c ↔ o < n ∧ o % c.val = 0 := by
  rw [originsAlong, List.mem_map]
  constructor
  · rintro ⟨k, hk, rfl⟩
    have hlt : k < ceilDiv n c.val := List.mem_range.1 hk
    refine ⟨Nat.not_le.1 fun hle => ?_, Nat.mul_mod_left k c.val⟩
    have := (ceilDiv_le_iff c.property).2 hle
    omega
  · rintro ⟨hlt, hmod⟩
    have hdiv : o / c.val * c.val = o := Nat.div_mul_cancel (Nat.dvd_of_mod_eq_zero hmod)
    refine ⟨o / c.val, List.mem_range.2 (Nat.not_le.1 fun hle => ?_), hdiv⟩
    have := (ceilDiv_le_iff c.property).1 hle
    omega

theorem pairwise_originsAlong (n : Nat) (c : PosNat) : (originsAlong n c).Pairwise (· < ·) := by
  rw [originsAlong, List.pairwise_map]
  exact List.pairwise_lt_range.imp fun hlt => Nat.mul_lt_mul_of_pos_right hlt c.property

theorem mem_choices_originsAlong {shape : Shape} {chunkShape : ChunkShape}
    (h : shape.length = chunkShape.length) {origin : Index} :
    origin ∈ choices (List.zipWith originsAlong shape chunkShape) ↔
      isOriginAlong origin shape chunkShape = true := by
  induction shape generalizing chunkShape origin with
  | nil =>
    obtain rfl := List.length_eq_zero_iff.1 h.symm
    cases origin <;> simp [choices, isOriginAlong]
  | cons n shape ih =>
    obtain ⟨c, chunkShape, rfl⟩ := List.exists_cons_of_length_eq_add_one h.symm
    rw [List.zipWith_cons_cons, choices, List.mem_flatMap]
    cases origin with
    | nil => simp [isOriginAlong]
    | cons o origin =>
      rw [isOriginAlong, Bool.and_eq_true, ← ih (Nat.succ.inj h), Bool.and_eq_true,
        decide_eq_true_eq, decide_eq_true_eq, ← mem_originsAlong]
      simp

theorem mem_origins {g : ChunkGrid} {origin : Index} :
    origin ∈ g.origins ↔ g.isOrigin origin = true :=
  mem_choices_originsAlong g.rank_eq

theorem pairwise_allOrigins (g : ChunkGrid) : g.origins.Pairwise (· < ·) := by
  have hlists : ∀ options ∈ List.zipWith originsAlong g.arrayShape g.chunkShape,
      options.Pairwise (· < ·) := by
    intro options hoptions
    obtain ⟨k, hk, rfl⟩ := List.getElem_of_mem hoptions
    rw [List.getElem_zipWith]
    exact pairwise_originsAlong _ _
  simpa only [origins, List.map_id] using pairwise_choices id hlists

/-- The window of candidates misses no chunk along its dimension. -/
theorem candidates_eq_filterMap (range : SectionRange) (n : Nat) (c : PosNat) :
    candidates range n c = (originsAlong n c).filterMap fun o =>
      (range.localise o (extentAlong o n c)).map (o, ·) := by
  rw [originsAlong, List.filterMap_map, candidates]
  symm
  cases hlast : range.last? with
  | none =>
    have hnone : ∀ k : Nat, ((range.localise (k * c.val) (extentAlong (k * c.val) n c)).map
        fun part => (k * c.val, part)) = none := fun k => by
      rw [SectionRange.localise_of_last?_none hlast, Option.map_none]
    exact filterMap_range_eq (fun k _ => hnone k) (fun k _ => hnone k) fun k _ => hnone k
  | some last =>
    refine filterMap_range_eq (fun k hk => ?_) (fun k hk => ?_) fun k hk => ?_
    · -- the chunk ends at or before the first chunk of the window
      have hnext : (k + 1) * c.val ≤ range.start :=
        (Nat.le_div_iff_mul_le c.property).1 hk
      have hextent : extentAlong (k * c.val) n c ≤ c.val := Nat.min_le_left _ _
      rw [Nat.succ_mul] at hnext
      rw [Function.comp_apply, SectionRange.localise_of_le_start (by omega), Option.map_none]
    · have hlt : last / c.val < k := by
        dsimp only at hk
        omega
      rw [Function.comp_apply, SectionRange.localise_of_last_lt hlast
        ((Nat.div_lt_iff_lt_mul c.property).1 hlt), Option.map_none]
    · have hzero : extentAlong (k * c.val) n c = 0 := by
        rw [extentAlong, Nat.sub_eq_zero_of_le ((ceilDiv_le_iff c.property).1 hk), Nat.min_zero]
      rw [Function.comp_apply, hzero, SectionRange.localise_zero, Option.map_none]

/-- The lengths of the chunk at an origin inside of the variable. -/
def extents (origin : Index) (shape : Shape) (chunkShape : ChunkShape) : Shape :=
  List.zipWith (fun (o, n) c => extentAlong o n c) (origin.zip shape) chunkShape

theorem extent?_of_mem_origins {g : ChunkGrid} {origin : Index} (h : origin ∈ g.origins) :
    g.extent? origin = some (extents origin g.arrayShape g.chunkShape) := by
  rw [extent?, if_pos (mem_origins.1 h)]
  rfl

/-- Choosing a candidate along each dimension comes to restricting the section to every chunk. -/
theorem choices_candidatesAlong {ranges : List SectionRange} {shape : Shape}
    {chunkShape : ChunkShape} (hranges : ranges.length = shape.length)
    (hchunks : shape.length = chunkShape.length) :
    (choices (candidatesAlong ranges shape chunkShape)).map partOf =
      (choices (List.zipWith originsAlong shape chunkShape)).filterMap fun origin =>
        (localiseAll ranges origin (extents origin shape chunkShape)).map (⟨origin, ·⟩) := by
  induction ranges generalizing shape chunkShape with
  | nil =>
    obtain rfl := List.length_eq_zero_iff.1 hranges.symm
    obtain rfl := List.length_eq_zero_iff.1 hchunks.symm
    rfl
  | cons range ranges ih =>
    obtain ⟨n, shape, rfl⟩ := List.exists_cons_of_length_eq_add_one hranges.symm
    obtain ⟨c, chunkShape, rfl⟩ := List.exists_cons_of_length_eq_add_one hchunks.symm
    have hrest := ih (Nat.succ.inj hranges) (Nat.succ.inj hchunks)
    rw [candidatesAlong, choices, candidates_eq_filterMap, flatMap_filterMap,
      List.zipWith_cons_cons, choices, List.filterMap_flatMap, List.map_flatMap]
    congr 1
    funext o
    rw [List.filterMap_map]
    cases hpart : range.localise o (extentAlong o n c) with
    | none =>
      symm
      refine List.filterMap_eq_nil_iff.2 fun origin _ => ?_
      simp [localiseAll, extents, hpart]
    | some part =>
      have hcons := congrArg (List.map fun i : ChunkIntersection =>
        ChunkIntersection.mk (o :: i.origin) (part :: i.localRanges)) hrest
      rw [List.map_map, List.map_filterMap] at hcons
      rw [Option.map_some, Option.elim_some, List.map_map]
      refine hcons.trans (congrArg (List.filterMap · _) (funext fun origin => ?_))
      simp only [Function.comp_apply, extents, List.zip_cons_cons, List.zipWith_cons_cons,
        localiseAll, hpart, Option.bind_eq_bind, Option.bind_some]
      cases localiseAll ranges origin
        (List.zipWith (fun x c => extentAlong x.1 x.2 c) (origin.zip shape) chunkShape) <;> rfl

theorem nil_mem_candidatesAlong {ranges : List SectionRange} {shape : Shape}
    {chunkShape : ChunkShape} (hranges : ranges.length = shape.length)
    (hchunks : shape.length = chunkShape.length) {range : SectionRange} (h : range ∈ ranges)
    (hzero : range.count = 0) : [] ∈ candidatesAlong ranges shape chunkShape := by
  induction ranges generalizing shape chunkShape with
  | nil => cases h
  | cons head ranges ih =>
    obtain ⟨n, shape, rfl⟩ := List.exists_cons_of_length_eq_add_one hranges.symm
    obtain ⟨c, chunkShape, rfl⟩ := List.exists_cons_of_length_eq_add_one hchunks.symm
    rw [candidatesAlong]
    rcases List.mem_cons.1 h with rfl | h
    · have hlast : range.last? = none := by rw [SectionRange.last?, if_pos hzero]
      have hnil : candidates range n c = [] := by
        rw [candidates_eq_filterMap]
        refine List.filterMap_eq_nil_iff.2 fun o _ => ?_
        rw [SectionRange.localise_of_last?_none hlast, Option.map_none]
      rw [hnil]
      exact List.mem_cons_self
    · exact List.mem_cons_of_mem _ (ih (Nat.succ.inj hranges) (Nat.succ.inj hchunks) h)

theorem choices_of_nil_mem {α : Type} {lists : List (List α)} (h : [] ∈ lists) :
    choices lists = [] := by
  induction lists with
  | nil => cases h
  | cons options rest ih =>
    rw [choices]
    rcases List.mem_cons.1 h with rfl | h
    · rfl
    · rw [ih h]
      simp

/-- No chunk holds any of a section that is empty or of another rank. -/
theorem intersecting_eq_nil {g : ChunkGrid} {s : Section}
    (h : s.rank ≠ g.rank ∨ s.isEmpty = true) : g.intersecting s = [] := by
  rw [intersecting, candidatesOf, if_neg]
  · rfl
  · rcases h with hrank | hempty <;> simp [*]

/-- The parts of a section are those of all chunks of the grid that hold some of it. -/
theorem intersecting_eq_filterMap (g : ChunkGrid) (s : Section) :
    g.intersecting s = g.origins.filterMap (g.intersect s) := by
  by_cases hrank : s.rank = g.rank
  case neg =>
    have hnone : ∀ origin, g.intersect s origin = none := fun origin => if_pos hrank
    rw [intersecting_eq_nil (.inl hrank), List.filterMap_eq_nil_iff.2 fun origin _ => hnone origin]
  have hpart : ∀ origin ∈ g.origins,
      (localiseAll s.ranges origin (extents origin g.arrayShape g.chunkShape)).map (⟨origin, ·⟩) =
        g.intersect s origin := by
    intro origin horigin
    rw [intersect, if_neg (not_not_intro hrank), extent?_of_mem_origins horigin]
    exact Option.map_eq_bind
  have hall : (choices (candidatesAlong s.ranges g.arrayShape g.chunkShape)).map partOf =
      g.origins.filterMap (g.intersect s) := by
    rw [choices_candidatesAlong hrank g.rank_eq]
    exact List.filterMap_congr hpart
  rw [← hall]
  cases hempty : s.isEmpty with
  | true =>
    obtain ⟨range, hrange, hzero⟩ := List.any_eq_true.1 hempty
    rw [intersecting_eq_nil (.inr hempty), choices_of_nil_mem
      (nil_mem_candidatesAlong hrank g.rank_eq hrange (of_decide_eq_true hzero)), List.map_nil]
  | false =>
    rw [intersecting, candidatesOf, hempty, hrank]
    simp

end ChunkGrid

/-- Along each dimension the position is one of those that the range is written to. -/
def LocalRange.AllHold : List LocalRange → Index → Prop
  | [], [] => True
  | part :: parts, j :: position =>
    (part.output ≤ j ∧ j < part.output + part.count) ∧ AllHold parts position
  | _, _ => False

namespace ChunkIntersection

/-- The position tuple of the section lies in the part. -/
def Holds (part : ChunkIntersection) (position : Index) : Prop :=
  AllHold part.localRanges position

/-- The position tuples of the section in the part. -/
def heldPositions (part : ChunkIntersection) : List Index :=
  (positions (counts part.localRanges)).map (outputsAt part.localRanges)

/-- The number of elements of some parts together. -/
def total : List ChunkIntersection → Nat
  | [] => 0
  | part :: parts => part.numElements + total parts

theorem nodup_heldPositions (part : ChunkIntersection) : part.heldPositions.Nodup := by
  rw [heldPositions, List.nodup_iff_pairwise_ne, List.pairwise_map]
  refine (nodup_positions _).imp_of_mem fun {a b} ha hb hne heq => hne ?_
  exact outputsAt_injective (mem_positions.1 ha) (mem_positions.1 hb) heq

theorem total_eq_length (parts : List ChunkIntersection) :
    total parts = (parts.flatMap heldPositions).length := by
  induction parts with
  | nil => rfl
  | cons part parts ih =>
    rw [total, ih, List.flatMap_cons, List.length_append, heldPositions, List.length_map,
      length_positions]
    rfl

end ChunkIntersection

/-- The positions in some local ranges are the places that their own positions are written to. -/
theorem LocalRange.allHold_iff {parts : List LocalRange} {position : Index} :
    AllHold parts position ↔ ∃ inner, Below inner (counts parts) ∧ outputsAt parts inner = position := by
  induction parts generalizing position with
  | nil =>
    constructor
    · intro h
      cases position with
      | nil => exact ⟨[], trivial, rfl⟩
      | cons j position => exact h.elim
    · rintro ⟨inner, -, rfl⟩
      trivial
  | cons part parts ih =>
    constructor
    · intro h
      cases position with
      | nil => exact h.elim
      | cons j position =>
        obtain ⟨⟨hstart, hstop⟩, hrest⟩ := h
        obtain ⟨inner, hinner, rfl⟩ := ih.1 hrest
        have hlt : j - part.output < part.count := by omega
        refine ⟨(j - part.output) :: inner, ⟨hlt, hinner⟩, ?_⟩
        change (part.output + (j - part.output)) :: outputsAt parts inner = _
        rw [Nat.add_sub_cancel' hstart]
    · rintro ⟨inner, hinner, rfl⟩
      cases inner with
      | nil => exact hinner.elim
      | cons i inner =>
        exact ⟨⟨Nat.le_add_right _ _, Nat.add_lt_add_left hinner.1 _⟩, ih.2 ⟨inner, hinner.2, rfl⟩⟩

theorem ChunkIntersection.mem_heldPositions {part : ChunkIntersection} {position : Index} :
    position ∈ part.heldPositions ↔ part.Holds position := by
  rw [Holds, allHold_iff, heldPositions, List.mem_map]
  simp only [mem_positions]

/-- Along each dimension the selected index at the position is the index that the part has at it,
counted from the origin of the chunk, and is inside of the extent. -/
def Located : List SectionRange → Index → Shape → List LocalRange → Index → Prop
  | [], [], [], [], [] => True
  | range :: ranges, o :: origin, n :: extent, part :: parts, j :: position =>
    (o + part.element (j - part.output) = range.element j ∧ part.element (j - part.output) < n) ∧
      Located ranges origin extent parts position
  | _, _, _, _, _ => False

/-- A position is at its place in the part that it lies in, and inside of the variable. -/
theorem Pieces.located {ranges : List SectionRange} {shape : Shape} {chunkShape : ChunkShape}
    {origin : Index} {parts : List LocalRange} (h : Pieces ranges chunkShape origin parts)
    (hwithin : Section.Within ranges shape) {position : Index} (hposition : AllHold parts position) :
    Located ranges origin (ChunkGrid.extents origin shape chunkShape) parts position := by
  induction ranges generalizing shape chunkShape origin parts position with
  | nil =>
    obtain ⟨rfl, rfl, rfl⟩ := h.of_nil
    cases position with
    | nil => trivial
    | cons j position => exact hposition.elim
  | cons range ranges ih =>
    obtain ⟨c, chunkShape, o, origin, part, parts, rfl, rfl, rfl, hpiece, hpieces⟩ := h.of_cons
    obtain ⟨n, shape, rfl, hrange, hranges⟩ := hwithin.of_cons
    cases position with
    | nil => exact hposition.elim
    | cons j position =>
      obtain ⟨⟨hstart, hstop⟩, hrest⟩ := hposition
      have helement := hpiece.element_eq (j - part.output)
      rw [Nat.add_sub_cancel' hstart] at helement
      have hinside := hpiece.element_lt (j - part.output) (by omega)
      have hle := hpiece.stop_le
      have hlt := hrange.element_lt (show j < range.count by omega)
      refine ⟨⟨helement, Nat.lt_min.2 ⟨hinside, ?_⟩⟩, ih hpieces hranges hrest⟩
      omega

namespace ChunkGrid

variable {g : ChunkGrid} {s : Section}

/-- A part is that of the section in its chunk. -/
theorem intersect_of_mem {part : ChunkIntersection} (h : part ∈ g.intersecting s) :
    g.isOrigin part.origin = true ∧ g.intersect s part.origin = some part := by
  rw [intersecting_eq_filterMap, List.mem_filterMap] at h
  obtain ⟨origin, horigin, h⟩ := h
  have hpart : part.origin = origin := by
    have h := (Option.ite_none_left_eq_some.1 h).2
    obtain ⟨extent, -, h⟩ := Option.bind_eq_some_iff.1 h
    obtain ⟨parts, -, h⟩ := Option.bind_eq_some_iff.1 h
    cases h
    rfl
  subst hpart
  exact ⟨mem_origins.1 horigin, h⟩

/-- A position lies in one part at most: the part is that of the chunk of its element. -/
theorem part_unique (hwithin : Section.Within s.ranges g.arrayShape)
    {part other : ChunkIntersection} (hpart : part ∈ g.intersecting s)
    (hother : other ∈ g.intersecting s) {position : Index} (h : part.Holds position)
    (h' : other.Holds position) : part = other := by
  have horigin : ∀ {p : ChunkIntersection}, p ∈ g.intersecting s → p.Holds position →
      g.chunkShape.originOf (Section.elementsAt s.ranges position) = p.origin := by
    intro p hp hholds
    obtain ⟨inner, hinner, rfl⟩ := allHold_iff.1 hholds
    exact ((pieces_of_mem_intersecting hwithin hp).at_position hinner).2.1
  have heq : part.origin = other.origin := (horigin hpart h).symm.trans (horigin hother h')
  have hsame := (intersect_of_mem hpart).2
  rw [heq, (intersect_of_mem hother).2] at hsame
  exact (Option.some.inj hsame).symm

/-- A position lies in the part of the chunk of its element. -/
theorem exists_part (hwithin : Section.Within s.ranges g.arrayShape)
    (hle : ∀ n ∈ g.arrayShape, n ≤ maxOffset) {position : Index}
    (hposition : Below position s.shape) : ∃ part ∈ g.intersecting s, part.Holds position := by
  obtain ⟨choice, hchoice, -, hinner⟩ := exists_choice hwithin hle g.rank_eq hposition
  refine ⟨partOf choice, ?_, allHold_iff.2 hinner⟩
  rw [intersecting_eq hwithin]
  exact List.mem_map_of_mem hchoice

/-- The positions in a part are positions of the section. -/
theorem below_of_holds (hwithin : Section.Within s.ranges g.arrayShape) {part : ChunkIntersection}
    (hpart : part ∈ g.intersecting s) {position : Index} (h : part.Holds position) :
    Below position s.shape := by
  obtain ⟨inner, hinner, rfl⟩ := allHold_iff.1 h
  exact ((pieces_of_mem_intersecting hwithin hpart).at_position hinner).1

/-- The positions of the parts of a section are those of the section. -/
theorem perm_positions (hwithin : Section.Within s.ranges g.arrayShape)
    (hle : ∀ n ∈ g.arrayShape, n ≤ maxOffset) :
    ((g.intersecting s).flatMap ChunkIntersection.heldPositions).Perm (positions s.shape) := by
  refine (List.perm_ext_iff_of_nodup ?_ (nodup_positions _)).2 fun position => ?_
  · rw [List.nodup_iff_pairwise_ne, List.pairwise_flatMap]
    refine ⟨fun part _ => ?_, (pairwise_origins g s).imp_of_mem ?_⟩
    · exact part.nodup_heldPositions
    · rintro part other hpart hother hlt position hholds _ hholds' rfl
      have heq := part_unique hwithin hpart hother (ChunkIntersection.mem_heldPositions.1 hholds)
        (ChunkIntersection.mem_heldPositions.1 hholds')
      rw [heq] at hlt
      exact List.lt_irrefl _ hlt
  · rw [List.mem_flatMap, mem_positions]
    simp only [ChunkIntersection.mem_heldPositions]
    exact ⟨fun ⟨_, hpart, hholds⟩ => below_of_holds hwithin hpart hholds,
      fun hposition => exists_part hwithin hle hposition⟩

/-- Looking at every chunk of the grid, in the order of the origins, gives the parts of a section;
there are none of a section that is empty or of another rank. Each position tuple of an accepted
section lies in one of the parts, at the place that its element has in the chunk, and the parts have
as many elements together as the section. -/
theorem intersecting_partitions (g : ChunkGrid) (s : Section)
    (hle : ∀ n ∈ g.arrayShape, n ≤ maxOffset) :
    (∀ origin, origin ∈ g.origins ↔ g.isOrigin origin = true) ∧
    g.origins.Pairwise (· < ·) ∧
    g.intersecting s = g.origins.filterMap (g.intersect s) ∧
    (g.intersecting s).Pairwise (fun a b => a.origin < b.origin) ∧
    (s.rank ≠ g.rank ∨ s.isEmpty = true → g.intersecting s = []) ∧
    (s.validate g.arrayShape = .ok () →
      (∀ position, Below position s.shape →
        ∃ part ∈ g.intersecting s, part.Holds position ∧
          (∀ other ∈ g.intersecting s, other.Holds position → other = part) ∧
          ∃ extent, g.extent? part.origin = some extent ∧
            Located s.ranges part.origin extent part.localRanges position) ∧
      ChunkIntersection.total (g.intersecting s) = s.totalCount) := by
  refine ⟨fun _ => mem_origins, pairwise_allOrigins g, intersecting_eq_filterMap g s,
    pairwise_origins g s, intersecting_eq_nil, fun hs => ?_⟩
  by_cases hzero : s.totalCount = 0
  case pos =>
    refine ⟨fun position hposition => absurd hposition.rowMajor_lt ?_, ?_⟩
    · rw [← Section.totalCount, hzero]
      exact Nat.not_lt_zero _
    · rw [intersecting_eq_nil (.inr (Section.isEmpty_iff.2 hzero)), hzero]
      rfl
  have hwithin := Section.within_of_validate hs hzero
  constructor
  · intro position hposition
    obtain ⟨part, hpart, hholds⟩ := exists_part hwithin hle hposition
    refine ⟨part, hpart, hholds, fun other hother h => part_unique hwithin hother hpart h hholds,
      _, extent?_of_mem_origins (mem_origins.2 (intersect_of_mem hpart).1), ?_⟩
    exact (pieces_of_mem_intersecting hwithin hpart).located hwithin hholds
  · rw [ChunkIntersection.total_eq_length, (perm_positions hwithin hle).length_eq,
      length_positions]
    rfl

/-- Five rows in chunks of two, of which the last one is cut off. -/
def strips : ChunkGrid where
  arrayShape := [5, 3]
  chunkShape := [⟨2, Nat.two_pos⟩, ⟨4, Nat.succ_pos 3⟩]
  rank_eq := rfl

/-- Of three chunks the one in the middle holds none of the rows one and four. -/
theorem intersecting_strips_partitions :
    strips.intersecting ⟨[⟨1, 3, 2, by decide⟩, .contiguous 1 2]⟩ =
      [⟨[0, 0], [⟨1, 3, 1, 0⟩, ⟨1, 1, 2, 0⟩]⟩, ⟨[4, 0], [⟨0, 3, 1, 1⟩, ⟨1, 1, 2, 0⟩]⟩] ∧
    ChunkIntersection.total
      (strips.intersecting ⟨[⟨1, 3, 2, by decide⟩, .contiguous 1 2]⟩) = 4 := by
  obtain ⟨-, -, hall, -, -, hparts⟩ := intersecting_partitions strips
    ⟨[⟨1, 3, 2, by decide⟩, .contiguous 1 2]⟩ (by decide)
  refine ⟨?_, (hparts rfl).2⟩
  rw [hall]
  rfl

end ChunkGrid

end Hyperslab
