import Hyperslab.Proofs.Resolve.Linear
import Hyperslab.Proofs.Resolve.Tiled

/-!
# Transfers of any variable

Whatever the layout, a section that fits its variable is resolved, and each of its elements is moved
once, from its place. What is stored in the byte source ends at an offset.

## Main statements

- `exists_exact`: a section that fits is resolved to an exact plan
- `Descriptor.place_le`: an element in the byte source ends at an offset
-/

namespace Hyperslab

variable {d : Descriptor} {s : Section}

/-- One run of the fill value is all that a section of a variable without data needs. -/
theorem exact_of_noData (hlayout : d.layout = .noData) (hs : s.validate d.shape = .ok ()) :
    ∃ plan, resolve d s = .ok plan ∧ plan.Exact d s := by
  by_cases hzero : s.totalCount = 0
  · exact ⟨_, resolve_of_empty hs hzero, exact_of_empty hzero⟩
  · have hblocks : resolveBlocks d s (·.intersecting s) =
        .ok [{ source := .fill, elementSize := d.elementSize, runs := wholeRun s.totalCount }] := by
      rw [resolveBlocks, hlayout]
    refine ⟨_, resolve_of_blocks hs hzero hblocks, ?_⟩
    have htransfers : TransferPlan.transfers ⟨s.totalCount,
        [{ source := .fill, elementSize := d.elementSize, runs := wholeRun s.totalCount }]⟩ =
        [⟨.fill, 0, s.totalCount⟩] := by
      have hruns : (wholeRun s.totalCount).numRuns = 1 := if_neg hzero
      rw [TransferPlan.transfers_singleton, TransferBlock.transfers, Runs.toList,
        hruns]
      simp [TransferBlock.transfer, BlockSource.at, Runs.run, wholeRun, Runs.displace]
    constructor
    · rfl
    all_goals rw [htransfers]
    · simp only [List.mem_singleton, forall_eq]
      omega
    · intro k hk
      exact ⟨_, List.mem_singleton_self _, Nat.zero_le k, by simpa using hk⟩
    · simp only [List.mem_singleton, forall_eq]
      rintro k ⟨-, hk⟩
      simpa using hk
    · exact List.pairwise_singleton _ _
    · simp only [List.mem_singleton, forall_eq]
      intro k hk
      rw [Descriptor.place?, hlayout]
      rfl

/-- A section that fits its variable is resolved to transfers that move each element once, from its
place. -/
theorem exists_exact (hs : s.validate d.shape = .ok ()) :
    ∃ plan, resolve d s = .ok plan ∧ plan.Exact d s := by
  by_cases hlinear : d.layout.isLinear = true
  · obtain ⟨plan, hplan⟩ := exists_plan_linear hlinear hs
    exact ⟨plan, hplan, exact_of_resolve_linear hlinear hs hplan⟩
  · cases hchunks : d.layout.chunkShape? with
    | some chunkShape =>
      obtain ⟨plan, hplan⟩ := exists_plan_tiled hchunks hs
      exact ⟨plan, hplan, exact_of_resolve_tiled hchunks hs hplan⟩
    | none =>
      refine exact_of_noData ?_ hs
      cases hlayout : d.layout <;>
        simp_all [StorageLayout.isLinear, StorageLayout.chunkShape?]

theorem exact_of_resolve (hs : s.validate d.shape = .ok ()) {plan : TransferPlan}
    (h : resolve d s = .ok plan) : plan.Exact d s := by
  obtain ⟨exactPlan, hplan, hexact⟩ := exists_exact hs
  rw [h] at hplan
  cases hplan
  exact hexact

/-- An element that is stored in the byte source ends at an offset. -/
theorem Descriptor.place_le {index : Index} {offset : Nat}
    (h : d.place? index = some (.direct offset)) : offset + d.elementSize ≤ maxOffset := by
  rw [place?] at h
  cases hlayout : d.layout with
  | regular baseOffset =>
    rw [hlayout] at h
    obtain ⟨k, hk, heq⟩ := Option.map_eq_some_iff.1 h
    cases heq
    have hlt := ravel?_lt hk
    have hle := regular_le hlayout
    have hmul := mul_add_le_mul d.elementSize hlt
    rw [variableSize, Nat.mul_comm] at hle
    omega
  | tiled chunkShape chunks =>
    rw [hlayout] at h
    dsimp only at h
    split at h
    · cases h
    · rename_i range hget
      obtain ⟨k, hk, heq⟩ := Option.map_eq_some_iff.1 h
      cases heq
      have hlt := ravel?_lt hk
      obtain ⟨hle, hlength⟩ := range_of_tiled hlayout hget
      have hmul := mul_add_le_mul d.elementSize hlt
      omega
  | compressedTiled chunkShape chunks =>
    rw [hlayout] at h
    dsimp only at h
    split at h
    · cases h
    · obtain ⟨k, -, heq⟩ := Option.map_eq_some_iff.1 h
      cases heq
  | _ =>
    rw [hlayout] at h
    simp at h

end Hyperslab
