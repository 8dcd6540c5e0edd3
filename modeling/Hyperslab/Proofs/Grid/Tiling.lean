import Hyperslab.Proofs.Grid.Partition

/-!
# Chunks tile a variable

The extent of a chunk is the box of the variable that the chunk has. Along one dimension an index is
in the extent of the chunk that it is rounded down to and in no other, so the extents along all
dimensions are a partition of the variable into boxes. There are as many of them as the grid has
places, and the lengths along one dimension add up to the length of the variable, also where the
last chunk is cut off and where the variable has no element.

## Main definitions

- `InBox`: an index is in a box
- `ChunkGrid.Holds`: a chunk has an element
- `totalElements`: the number of elements of some boxes

## Main statements

- `ChunkGrid.holds_iff`: the chunk that has an element is the one that the index is rounded down to
- `ChunkGrid.length_origins`: the number of chunks
- `ChunkGrid.totalElements_extents`: the number of elements of all chunks
- `ChunkGrid.chunks_tile`: each element of the variable is in one chunk, and the numbers agree
-/

namespace Hyperslab

/-- The index is in the box with the given first index and lengths. -/
def InBox : Index → Index → Shape → Prop
  | [], [], [] => True
  | i :: index, o :: origin, n :: extent => (o ≤ i ∧ i < o + n) ∧ InBox index origin extent
  | _, _, _ => False

/-- The number of elements of some boxes together. -/
def totalElements : List Shape → Nat
  | [] => 0
  | shape :: shapes => elementCount shape + totalElements shapes

theorem totalElements_append (shapes shapes' : List Shape) :
    totalElements (shapes ++ shapes') = totalElements shapes + totalElements shapes' := by
  induction shapes with
  | nil => exact (Nat.zero_add _).symm
  | cons shape shapes ih =>
    rw [List.cons_append, totalElements, totalElements, ih, Nat.add_assoc]

theorem totalElements_map_cons (n : Nat) (shapes : List Shape) :
    totalElements (shapes.map (n :: ·)) = n * totalElements shapes := by
  induction shapes with
  | nil => rfl
  | cons shape shapes ih =>
    rw [List.map_cons, totalElements, ih, elementCount_cons, totalElements, Nat.mul_add]

/-- Boxes with one more dimension, of every length there with every box, have as many elements as
the lengths together times those of the boxes. -/
theorem totalElements_flatMap {α : Type} (length : α → Nat) (xs : List α) (shapes : List Shape) :
    totalElements (xs.flatMap fun x => shapes.map (length x :: ·)) =
      totalElements (xs.map fun x => [length x]) * totalElements shapes := by
  induction xs with
  | nil => exact (Nat.zero_mul _).symm
  | cons x xs ih =>
    rw [List.flatMap_cons, totalElements_append, ih, totalElements_map_cons, List.map_cons,
      totalElements, elementCount_cons, elementCount_nil, Nat.mul_one, Nat.add_mul]

theorem length_choices {α : Type} (lists : List (List α)) :
    (choices lists).length = elementCount (lists.map List.length) := by
  induction lists with
  | nil => rfl
  | cons options rest ih =>
    rw [choices, List.map_cons, elementCount_cons, ← ih]
    induction options with
    | nil => exact (Nat.zero_mul _).symm
    | cons x options ih' =>
      rw [List.flatMap_cons, List.length_append, ih', List.length_map, List.length_cons,
        Nat.succ_mul, Nat.add_comm]

namespace ChunkGrid

variable {g : ChunkGrid} {shape : Shape} {chunkShape : ChunkShape} {index origin : Index}
  {n i o : Nat} {c : PosNat}

/-- An index is in the extent of the chunk that it is rounded down to, and in no other. -/
theorem mem_extentAlong_iff (hlt : o < n) (hmod : o % c.val = 0) :
    (o ≤ i ∧ i < o + extentAlong o n c) ↔ i < n ∧ i / c.val * c.val = o := by
  have hextent : extentAlong o n c = min c.val (n - o) := rfl
  have hfloor := Nat.div_mul_le_self i c.val
  have hnext := Nat.lt_div_mul_add (a := i) c.property
  constructor
  · rintro ⟨hle, hi⟩
    refine ⟨by omega, ?_⟩
    obtain ⟨k, rfl⟩ := Nat.dvd_of_mod_eq_zero hmod
    have hdigit : i / c.val = k := by
      apply Nat.div_eq_of_lt_le
      · rwa [Nat.mul_comm]
      · rw [Nat.succ_mul, Nat.mul_comm]
        omega
    rw [hdigit, Nat.mul_comm]
  · rintro ⟨hi, rfl⟩
    omega

/-- The lengths of the chunks along a dimension add up to its length. -/
theorem totalElements_extentsAlong (n : Nat) (c : PosNat) :
    totalElements ((originsAlong n c).map fun o => [extentAlong o n c]) = n := by
  have hfront : ∀ count, totalElements (((List.range count).map (· * c.val)).map fun o =>
      [extentAlong o n c]) = min n (count * c.val) := by
    intro count
    induction count with
    | zero =>
      rw [Nat.zero_mul, Nat.min_zero]
      rfl
    | succ count ih =>
      rw [List.range_succ, List.map_append, List.map_append, totalElements_append, ih,
        Nat.succ_mul]
      show _ + (min c.val (n - count * c.val) * 1 + 0) = _
      omega
  rw [originsAlong, hfront]
  exact Nat.min_eq_left ((ceilDiv_le_iff c.property).1 (Nat.le_refl _))

theorem originAlong_cons_eq_some_iff {index : Index} {o : Nat} :
    originAlong (i :: index) (n :: shape) (c :: chunkShape) = some (o :: origin) ↔
      (i < n ∧ i / c.val * c.val = o) ∧ originAlong index shape chunkShape = some origin := by
  rw [originAlong]
  by_cases hi : i < n
  · simp [hi, and_comm]
  · simp [hi]

theorem originAlong_eq_none_iff (h : shape.length = chunkShape.length) :
    originAlong index shape chunkShape = none ↔ ¬Below index shape := by
  induction shape generalizing index chunkShape with
  | nil =>
    obtain rfl := List.length_eq_zero_iff.1 h.symm
    cases index <;> simp [originAlong, Below]
  | cons n shape ih =>
    obtain ⟨c, chunkShape, rfl⟩ := List.exists_cons_of_length_eq_add_one h.symm
    cases index with
    | nil => simp [originAlong, Below]
    | cons i index =>
      rw [originAlong, Below, not_and_or, ← ih (Nat.succ.inj h)]
      by_cases hi : i < n <;> simp [hi]

/-- What is rounded down to a chunk is what the box of the chunk has. -/
theorem originAlong_eq_some_iff (h : shape.length = chunkShape.length) :
    originAlong index shape chunkShape = some origin ↔
      isOriginAlong origin shape chunkShape = true ∧
        InBox index origin (extents origin shape chunkShape) := by
  induction shape generalizing index origin chunkShape with
  | nil =>
    obtain rfl := List.length_eq_zero_iff.1 h.symm
    cases index <;> cases origin <;> simp [originAlong, isOriginAlong, extents, InBox]
  | cons n shape ih =>
    obtain ⟨c, chunkShape, rfl⟩ := List.exists_cons_of_length_eq_add_one h.symm
    cases origin with
    | nil => cases index <;> simp [originAlong, isOriginAlong]
    | cons o origin =>
      cases index with
      | nil => simp [originAlong, InBox]
      | cons i index =>
        rw [originAlong_cons_eq_some_iff, ih (Nat.succ.inj h), isOriginAlong]
        simp only [Bool.and_eq_true, decide_eq_true_eq]
        show _ ↔ _ ∧ (o ≤ i ∧ i < o + extentAlong o n c) ∧
          InBox index origin (extents origin shape chunkShape)
        constructor
        · rintro ⟨⟨hi, rfl⟩, horigin, hinside⟩
          have hlt := Nat.lt_of_le_of_lt (Nat.div_mul_le_self i c.val) hi
          have hmod := Nat.mul_mod_left (i / c.val) c.val
          exact ⟨⟨⟨hlt, hmod⟩, horigin⟩, (mem_extentAlong_iff hlt hmod).2 ⟨hi, rfl⟩, hinside⟩
        · rintro ⟨⟨⟨hlt, hmod⟩, horigin⟩, hmem, hinside⟩
          exact ⟨(mem_extentAlong_iff hlt hmod).1 hmem, horigin, hinside⟩

/-- The chunk with the given origin has the element. -/
def Holds (g : ChunkGrid) (origin index : Index) : Prop :=
  ∃ extent, g.extent? origin = some extent ∧ InBox index origin extent

theorem extent?_eq_some_iff {extent : Shape} :
    g.extent? origin = some extent ↔
      g.isOrigin origin = true ∧ extents origin g.arrayShape g.chunkShape = extent := by
  rw [extent?]
  by_cases h : g.isOrigin origin
  · simp [h, extents]
  · simp [h]

theorem extent?_eq_none_iff : g.extent? origin = none ↔ ¬g.isOrigin origin = true := by
  rw [extent?]
  by_cases h : g.isOrigin origin <;> simp [h]

theorem holds_iff : g.Holds origin index ↔ g.originOf? index = some origin := by
  rw [originOf?, originAlong_eq_some_iff g.rank_eq]
  simp only [Holds, extent?_eq_some_iff]
  constructor
  · rintro ⟨_, ⟨horigin, rfl⟩, hinside⟩
    exact ⟨horigin, hinside⟩
  · rintro ⟨horigin, hinside⟩
    exact ⟨_, ⟨horigin, rfl⟩, hinside⟩

theorem Holds.isOrigin (h : g.Holds origin index) : g.isOrigin origin = true := by
  obtain ⟨extent, hextent, -⟩ := h
  exact (extent?_eq_some_iff.1 hextent).1

/-- No chunk is empty, and none is larger than the chunk shape. -/
theorem extents_bounds (horigin : isOriginAlong origin shape chunkShape = true) :
    List.Forall₂ (fun n (c : PosNat) => 1 ≤ n ∧ n ≤ c.val) (extents origin shape chunkShape)
      chunkShape := by
  induction shape generalizing origin chunkShape with
  | nil => cases origin <;> cases chunkShape <;> simp_all [isOriginAlong, extents]
  | cons n shape ih =>
    cases chunkShape with
    | nil => cases origin <;> simp [isOriginAlong] at horigin
    | cons c chunkShape =>
      cases origin with
      | nil => simp [isOriginAlong] at horigin
      | cons o origin =>
        simp only [isOriginAlong, Bool.and_eq_true, decide_eq_true_eq] at horigin
        obtain ⟨⟨hlt, -⟩, horigin⟩ := horigin
        refine .cons ⟨?_, Nat.min_le_left _ _⟩ (ih horigin)
        exact Nat.le_min.2 ⟨c.property, Nat.sub_pos_of_lt hlt⟩

theorem length_origins (g : ChunkGrid) : g.origins.length = elementCount g.gridShape := by
  rw [origins, length_choices, gridShape, List.map_zipWith]
  congr 2
  funext n c
  rw [originsAlong, List.length_map, List.length_range]

theorem nodup_origins (g : ChunkGrid) : g.origins.Nodup := by
  rw [List.nodup_iff_pairwise_ne]
  refine (pairwise_allOrigins g).imp ?_
  rintro origin _ hlt rfl
  exact List.lt_irrefl origin hlt

/-- The boxes of all chunks have the elements of the variable together. -/
theorem totalElements_extents (h : shape.length = chunkShape.length) :
    totalElements ((choices (List.zipWith originsAlong shape chunkShape)).map
      fun origin => extents origin shape chunkShape) = elementCount shape := by
  induction shape generalizing chunkShape with
  | nil =>
    obtain rfl := List.length_eq_zero_iff.1 h.symm
    rfl
  | cons n shape ih =>
    obtain ⟨c, chunkShape, rfl⟩ := List.exists_cons_of_length_eq_add_one h.symm
    have hboxes : ((choices (List.zipWith originsAlong (n :: shape) (c :: chunkShape))).map
        fun origin => extents origin (n :: shape) (c :: chunkShape)) =
        (originsAlong n c).flatMap fun o =>
          ((choices (List.zipWith originsAlong shape chunkShape)).map
            fun origin => extents origin shape chunkShape).map (extentAlong o n c :: ·) := by
      rw [List.zipWith_cons_cons, choices, List.map_flatMap]
      simp only [List.map_map]
      rfl
    rw [hboxes, totalElements_flatMap, totalElements_extentsAlong, ih (Nat.succ.inj h),
      elementCount_cons]

theorem filterMap_extent? (g : ChunkGrid) :
    g.origins.filterMap g.extent? =
      g.origins.map fun origin => extents origin g.arrayShape g.chunkShape := by
  rw [← List.filterMap_eq_map]
  exact List.filterMap_congr fun origin horigin => extent?_of_mem_origins horigin

/-- The chunks of a grid tile the variable. Each element is in the extent of one chunk, which is
the one that is found for its index, and for what is no index of the variable none is found. Only
origins of chunks have an extent, with lengths from one to those of the chunk shape. There are as
many origins as the grid shape has places, and the extents have as many elements together as the
variable. -/
theorem chunks_tile (g : ChunkGrid) :
    (∀ index, Below index g.arrayShape →
      ∃ origin, g.isOrigin origin = true ∧ g.Holds origin index ∧
        (∀ other, g.isOrigin other = true → g.Holds other index → other = origin) ∧
        g.originOf? index = some origin) ∧
    (∀ index, g.originOf? index = none ↔ ¬Below index g.arrayShape) ∧
    (∀ origin, g.extent? origin = none ↔ ¬g.isOrigin origin = true) ∧
    (∀ origin extent, g.extent? origin = some extent →
      List.Forall₂ (fun n (c : PosNat) => 1 ≤ n ∧ n ≤ c.val) extent g.chunkShape) ∧
    (∀ origin, origin ∈ g.origins ↔ g.isOrigin origin = true) ∧
    g.origins.Nodup ∧
    g.origins.length = elementCount g.gridShape ∧
    totalElements (g.origins.filterMap g.extent?) = elementCount g.arrayShape := by
  refine ⟨fun index hindex => ?_, fun index => originAlong_eq_none_iff g.rank_eq,
    fun origin => extent?_eq_none_iff, ?_, fun origin => mem_origins, nodup_origins g,
    length_origins g, ?_⟩
  · have hsome : g.originOf? index ≠ none := fun hnone =>
      (originAlong_eq_none_iff g.rank_eq).1 hnone hindex
    obtain ⟨origin, horigin⟩ := Option.ne_none_iff_exists'.1 hsome
    have hholds := holds_iff.2 horigin
    refine ⟨origin, hholds.isOrigin, hholds, fun other _ hother => ?_, horigin⟩
    exact Option.some.inj ((holds_iff.1 hother).symm.trans horigin)
  · intro origin extent hextent
    obtain ⟨horigin, rfl⟩ := extent?_eq_some_iff.1 hextent
    exact extents_bounds horigin
  · rw [filterMap_extent?]
    exact totalElements_extents g.rank_eq

/-- The last one of three strips is cut off after one row, and the chunks have the fifteen elements
of the variable. -/
theorem chunks_tile_strips :
    Below [4, 2] strips.arrayShape ∧
    (∃ origin, strips.isOrigin origin = true ∧ strips.Holds origin [4, 2] ∧
      strips.originOf? [4, 2] = some origin) ∧
    List.Forall₂ (fun n (c : PosNat) => 1 ≤ n ∧ n ≤ c.val) [1, 3] strips.chunkShape ∧
    strips.origins.length = 3 ∧
    totalElements (strips.origins.filterMap strips.extent?) = 15 := by
  obtain ⟨hchunk, -, -, hbounds, -, -, hlength, htotal⟩ := chunks_tile strips
  have hbelow : Below [4, 2] strips.arrayShape := ⟨by decide, by decide, trivial⟩
  obtain ⟨origin, horigin, hholds, -, hfound⟩ := hchunk [4, 2] hbelow
  exact ⟨hbelow, ⟨origin, horigin, hholds, hfound⟩, hbounds [4, 0] [1, 3] rfl, hlength, htotal⟩

end ChunkGrid

end Hyperslab
