import Hyperslab.Transfer

/-!
# First transfers

A section of a variable in chunks may have far more transfers than are looked at. There is a
transfer at least for each chunk that holds some of the section, so the first transfers are those of
the first chunks. `resolveFirst` keeps to these.

## Main statements

- `Runs.numRuns_pos_of_plan`: there is a run if every dimension selects something
- `ChunkGrid.count_pos_of_mem_intersecting`: the part of a section in a chunk selects something
- `take_resolveFirst`: the first transfers are those of `resolve`
-/

namespace Hyperslab

/-- A plan that has the first `limit` transfers of a section, and of a variable in chunks nothing
beyond the first `limit` chunks. -/
def resolveFirst (d : Descriptor) (s : Section) (limit : Nat) : Except ReadError TransferPlan :=
  resolveParts d s (·.takeIntersecting s limit)

theorem RunDimension.range_mem_of_mem_ofShapes {ranges : List LocalRange} {source output : Shape}
    {d : RunDimension} (h : d ∈ ofShapes ranges source output) : d.range ∈ ranges := by
  induction ranges generalizing source output with
  | nil => simp [ofShapes] at h
  | cons range ranges ih =>
    cases source with
    | nil => simp [ofShapes] at h
    | cons n source =>
      cases output with
      | nil => simp [ofShapes] at h
      | cons m output =>
        rw [ofShapes] at h
        rcases List.mem_cons.1 h with rfl | h
        · exact List.mem_cons_self
        · exact List.mem_cons_of_mem _ (ih h)

/-- Where every dimension selects something a run is not empty, and neither is a dimension that the
runs step along. -/
theorem RunSplit.pos_of_ofDimensions {dims : List RunDimension}
    (h : ∀ d ∈ dims, 0 < d.range.count) :
    0 < (ofDimensions dims).length ∧ ∀ d ∈ (ofDimensions dims).outer, 0 < d.range.count := by
  induction dims with
  | nil => simp [ofDimensions]
  | cons d dims ih =>
    obtain ⟨hlength, houter⟩ := ih fun e he => h e (List.mem_cons_of_mem _ he)
    have hd := h d List.mem_cons_self
    rw [ofDimensions]
    split
    · exact ⟨Nat.mul_pos hd hlength, by simp⟩
    · refine ⟨hlength, fun e he => ?_⟩
      rcases List.mem_cons.1 he with rfl | he
      · exact hd
      · exact houter e he

theorem Runs.numRuns_pos_of_plan {source output : Shape} {ranges : List LocalRange} {runs : Runs}
    (h : plan source ranges output = .ok runs) (hpos : ∀ r ∈ ranges, 0 < r.count) :
    0 < runs.numRuns := by
  rw [plan] at h
  split at h
  · cases h
  · split at h
    · cases h
    · dsimp only at h
      split at h
      · cases h
      · cases h
        have hdims : ∀ d ∈ RunDimension.ofShapes ranges source output, 0 < d.range.count :=
          fun d hd => hpos d.range (RunDimension.range_mem_of_mem_ofShapes hd)
        have hsplit := RunSplit.pos_of_ofDimensions hdims
        rw [numRuns, if_neg (Nat.ne_of_gt hsplit.1)]
        apply elementCount_pos
        intro n hn
        simp only [List.map_map, List.mem_map] at hn
        obtain ⟨d, hd, rfl⟩ := hn
        exact hsplit.2 d hd

/-- A range restricted to an extent selects something there. -/
theorem SectionRange.count_pos_of_localise {r : SectionRange} {origin extent : Nat}
    {part : LocalRange} (h : r.localise origin extent = some part) : 0 < part.count := by
  rw [localise] at h
  split at h
  · obtain ⟨_, h⟩ := Option.ite_none_left_eq_some.1 h
    obtain ⟨_, h⟩ := Option.ite_none_left_eq_some.1 h
    cases h
    exact Nat.succ_pos _
  · cases h

namespace ChunkGrid

theorem count_pos_of_mem_candidates {range : SectionRange} {length : Nat} {chunk : PosNat}
    {candidate : Nat × LocalRange} (h : candidate ∈ candidates range length chunk) :
    0 < candidate.2.count := by
  rw [candidates, List.mem_filterMap] at h
  obtain ⟨k, _, hk⟩ := h
  obtain ⟨part, hpart, rfl⟩ := Option.map_eq_some_iff.1 hk
  exact SectionRange.count_pos_of_localise hpart

theorem count_pos_of_mem_candidatesAlong {ranges : List SectionRange} {shape : Shape}
    {chunkShape : ChunkShape} {options : List (Nat × LocalRange)}
    (h : options ∈ candidatesAlong ranges shape chunkShape) {candidate : Nat × LocalRange}
    (hc : candidate ∈ options) : 0 < candidate.2.count := by
  induction ranges generalizing shape chunkShape with
  | nil => simp [candidatesAlong] at h
  | cons range ranges ih =>
    cases shape with
    | nil => simp [candidatesAlong] at h
    | cons n shape =>
      cases chunkShape with
      | nil => simp [candidatesAlong] at h
      | cons c chunkShape =>
        rw [candidatesAlong] at h
        rcases List.mem_cons.1 h with rfl | h
        · exact count_pos_of_mem_candidates hc
        · exact ih h

/-- The part of a section in a chunk that holds some of it selects something of every dimension. -/
theorem count_pos_of_mem_intersecting {g : ChunkGrid} {s : Section} {part : ChunkIntersection}
    (h : part ∈ g.intersecting s) {r : LocalRange} (hr : r ∈ part.localRanges) : 0 < r.count := by
  obtain ⟨choice, hchoice, rfl⟩ := List.mem_map.1 h
  obtain ⟨candidate, hmem, rfl⟩ := List.mem_map.1 hr
  obtain ⟨options, hoptions, hcandidate⟩ := mem_of_mem_choices hchoice hmem
  rw [candidatesOf] at hoptions
  split at hoptions
  · exact count_pos_of_mem_candidatesAlong hoptions hcandidate
  · rw [List.mem_singleton] at hoptions
    simp [hoptions] at hcandidate

end ChunkGrid

theorem numRuns_pos_of_chunkBlock {d : Descriptor} {chunkShape : ChunkShape}
    {source : Index → BlockSource} {output : Shape} {part : ChunkIntersection}
    {block : TransferBlock} (h : chunkBlock d chunkShape source output part = .ok block)
    (hpos : ∀ r ∈ part.localRanges, 0 < r.count) : 0 < block.runs.numRuns := by
  rw [chunkBlock] at h
  split at h
  · rename_i runs hruns
    cases h
    exact Runs.numRuns_pos_of_plan hruns hpos
  · cases h

/-- If each of some things has a list of one member or more, then the first `limit` things have the
first `limit` members. -/
theorem take_flatMap_take {α β : Type} {f : α → List β} {xs : List α}
    (h : ∀ x ∈ xs, 0 < (f x).length) (limit : Nat) :
    ((xs.take limit).flatMap f).take limit = (xs.flatMap f).take limit := by
  induction xs generalizing limit with
  | nil => simp
  | cons x xs ih =>
    cases limit with
    | zero => simp
    | succ limit =>
      have hx := h x List.mem_cons_self
      have hrest := ih (fun y hy => h y (List.mem_cons_of_mem _ hy)) limit
      have hle : limit + 1 - (f x).length ≤ limit := by omega
      rw [List.take_succ_cons, List.flatMap_cons, List.flatMap_cons, List.take_append,
        List.take_append]
      congr 1
      rw [← Nat.min_eq_left hle, ← List.take_take, hrest, List.take_take]

/-- The values of the first things are the first values, and each value is that of a thing. -/
theorem mapM_take {α β ε : Type} {f : α → Except ε β} {xs : List α} {ys : List β}
    (h : xs.mapM f = .ok ys) (limit : Nat) :
    (xs.take limit).mapM f = .ok (ys.take limit) ∧ ∀ y ∈ ys, ∃ x ∈ xs, f x = .ok y := by
  induction xs generalizing ys limit with
  | nil =>
    rw [List.mapM_nil] at h
    cases h
    simp [pure, Except.pure]
  | cons x xs ih =>
    rw [List.mapM_cons] at h
    cases hx : f x with
    | error e => simp [hx, bind, Except.bind] at h
    | ok y =>
      cases hxs : xs.mapM f with
      | error e => simp [hx, hxs, bind, Except.bind] at h
      | ok rest =>
        simp only [hx, hxs, bind, Except.bind, pure, Except.pure, Except.ok.injEq] at h
        subst h
        refine ⟨?_, fun z hz => ?_⟩
        · cases limit with
          | zero => rfl
          | succ limit =>
            rw [List.take_succ_cons, List.mapM_cons, hx, (ih hxs limit).1]
            rfl
        · rcases List.mem_cons.1 hz with rfl | hz
          · exact ⟨x, List.mem_cons_self, hx⟩
          · obtain ⟨w, hw, hfw⟩ := (ih hxs limit).2 z hz
            exact ⟨w, List.mem_cons_of_mem _ hw, hfw⟩

theorem take_chunkBlocks {d : Descriptor} {chunkShape : ChunkShape}
    {source : Index → BlockSource} {s : Section} {blocks : List TransferBlock}
    (h : chunkBlocks d chunkShape source s (·.intersecting s) = .ok blocks) (limit : Nat) :
    ∃ first, chunkBlocks d chunkShape source s (·.takeIntersecting s limit) = .ok first ∧
      (first.flatMap (·.transfers)).take limit = (blocks.flatMap (·.transfers)).take limit := by
  rw [chunkBlocks] at h
  rw [chunkBlocks]
  split at h
  · cases h
  · rename_i grid _
    obtain ⟨hfirst, hmem⟩ := mapM_take h limit
    refine ⟨blocks.take limit, ?_, ?_⟩
    · rw [← hfirst, ChunkGrid.takeIntersecting_eq]
    · apply take_flatMap_take
      intro block hblock
      obtain ⟨part, hpart, hchunk⟩ := hmem block hblock
      rw [TransferBlock.length_transfers]
      exact numRuns_pos_of_chunkBlock hchunk
        fun r hr => ChunkGrid.count_pos_of_mem_intersecting hpart hr

/-- The first transfers of a section are those of the whole plan. -/
theorem take_resolveFirst {d : Descriptor} {s : Section} {plan : TransferPlan}
    (h : resolve d s = .ok plan) (limit : Nat) :
    ∃ first, resolveFirst d s limit = .ok first ∧ first.numElements = plan.numElements ∧
      first.take limit = plan.take limit := by
  rw [resolve, resolveParts] at h
  rw [resolveFirst, resolveParts]
  split at h
  · cases h
  · by_cases hcount : s.totalCount = 0
    · rw [if_pos hcount] at h
      exact ⟨plan, by simp [hcount, h], rfl, rfl⟩
    · rw [if_neg hcount] at h
      cases hblocks : resolveBlocks d s (·.intersecting s) with
      | error e => simp [hblocks, bind, Except.bind] at h
      | ok blocks =>
        simp only [hblocks, bind, Except.bind, pure, Except.pure, Except.ok.injEq] at h
        subst h
        have hfirst : ∃ first, resolveBlocks d s (·.takeIntersecting s limit) = .ok first ∧
            (first.flatMap (·.transfers)).take limit =
              (blocks.flatMap (·.transfers)).take limit := by
          rw [resolveBlocks] at hblocks
          rw [resolveBlocks]
          split at hblocks
          case h_6 => exact take_chunkBlocks hblocks limit
          case h_7 => exact take_chunkBlocks hblocks limit
          all_goals exact ⟨blocks, hblocks, rfl⟩
        obtain ⟨first, hresolve, htake⟩ := hfirst
        refine ⟨{ numElements := s.totalCount, blocks := first }, ?_, rfl, ?_⟩
        · simp [hcount, hresolve, bind, Except.bind, pure, Except.pure]
        · rw [TransferPlan.take_eq_transfers_take, TransferPlan.take_eq_transfers_take]
          exact htake

end Hyperslab
