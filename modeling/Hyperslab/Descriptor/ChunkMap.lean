import Hyperslab.Index

/-!
# Chunk maps

What is known of each stored chunk, under the origin of the chunk. Origins are in lexicographic
order, so a map has one form only, and each origin occurs once.
-/

namespace Hyperslab

/-- Entries in strictly increasing order of their origins. -/
structure ChunkMap (α : Type) where
  entries : List (Index × α)
  sorted : entries.Pairwise fun a b => a.1 < b.1

namespace ChunkMap

variable {α : Type}

def empty : ChunkMap α :=
  ⟨[], List.Pairwise.nil⟩

/-- Puts an entry in its place, instead of one with the same origin. -/
def insertEntry (origin : Index) (value : α) : List (Index × α) → List (Index × α)
  | [] => [(origin, value)]
  | (o, v) :: rest =>
    if origin < o then (origin, value) :: (o, v) :: rest
    else if origin = o then (origin, value) :: rest
    else (o, v) :: insertEntry origin value rest

/-- Origins after an insertion are the new one and those of before. -/
theorem fst_of_mem_insertEntry {origin : Index} {value : α} {entries : List (Index × α)}
    {e : Index × α} (h : e ∈ insertEntry origin value entries) :
    e.1 = origin ∨ ∃ e' ∈ entries, e.1 = e'.1 := by
  induction entries with
  | nil =>
    simp only [insertEntry, List.mem_singleton] at h
    exact .inl (by rw [h])
  | cons entry rest ih =>
    obtain ⟨o, v⟩ := entry
    rw [insertEntry] at h
    split at h
    · rcases List.mem_cons.1 h with h | h
      · exact .inl (by rw [h])
      · exact .inr ⟨e, h, rfl⟩
    · split at h
      · rcases List.mem_cons.1 h with h | h
        · exact .inl (by rw [h])
        · exact .inr ⟨e, List.mem_cons_of_mem _ h, rfl⟩
      · rcases List.mem_cons.1 h with h | h
        · exact .inr ⟨(o, v), List.mem_cons_self, by rw [h]⟩
        · rcases ih h with h | ⟨e', he', heq⟩
          · exact .inl h
          · exact .inr ⟨e', List.mem_cons_of_mem _ he', heq⟩

theorem pairwise_insertEntry {origin : Index} {value : α} {entries : List (Index × α)}
    (h : entries.Pairwise fun a b => a.1 < b.1) :
    (insertEntry origin value entries).Pairwise fun a b => a.1 < b.1 := by
  induction entries with
  | nil => exact List.pairwise_singleton _ _
  | cons entry rest ih =>
    obtain ⟨o, v⟩ := entry
    obtain ⟨hhead, htail⟩ := List.pairwise_cons.1 h
    rw [insertEntry]
    split
    · rename_i hlt
      refine List.pairwise_cons.2 ⟨fun e he => ?_, h⟩
      rcases List.mem_cons.1 he with rfl | he
      · exact hlt
      · exact List.lt_trans hlt (hhead e he)
    · rename_i hnlt
      split
      · rename_i heq
        subst heq
        exact List.pairwise_cons.2 ⟨hhead, htail⟩
      · rename_i hne
        have hgt : o < origin := by
          rcases List.le_total o origin with hle | hle
          · rcases List.le_iff_lt_or_eq.1 hle with hlt | heq
            · exact hlt
            · exact absurd heq.symm hne
          · rcases List.le_iff_lt_or_eq.1 hle with hlt | heq
            · exact absurd hlt hnlt
            · exact absurd heq hne
        refine List.pairwise_cons.2 ⟨fun e he => ?_, ih htail⟩
        rcases fst_of_mem_insertEntry he with heq | ⟨e', he', heq⟩
        · simpa [heq] using hgt
        · simpa [heq] using hhead e' he'

/-- The map with an entry, instead of one with the same origin. -/
def insert (m : ChunkMap α) (origin : Index) (value : α) : ChunkMap α :=
  ⟨insertEntry origin value m.entries, pairwise_insertEntry m.sorted⟩

/-- The map of a list of entries, the last one of each origin. -/
def ofList (entries : List (Index × α)) : ChunkMap α :=
  entries.foldl (fun m (origin, value) => m.insert origin value) empty

def get? (m : ChunkMap α) (origin : Index) : Option α :=
  m.entries.lookup origin

end ChunkMap

end Hyperslab
