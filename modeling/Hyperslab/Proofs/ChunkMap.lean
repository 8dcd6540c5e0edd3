import Hyperslab.Descriptor.ChunkMap

/-!
# Entries of chunk maps

A chunk map is known by what it has under each origin. The map of a list of entries has under an
origin what its last entry has, and a map is the map of its own entries.

## Main statements

- `ChunkMap.mem_entries_iff`: an entry is what the map has under its origin
- `ChunkMap.get?_ofList`: the last entry of an origin counts
- `ChunkMap.ofList_entries`: a map is the map of its entries
- `ChunkMap.eq_of_get?_eq`: maps with the same under each origin are the same
-/

namespace Hyperslab

section Lookup

variable {α : Type} {origin o : Index} {value v : α} {entries : List (Index × α)}

theorem lookup_cons_eq_ite (origin : Index) (value : α) (entries : List (Index × α)) (o : Index) :
    ((origin, value) :: entries).lookup o = if o = origin then some value else entries.lookup o := by
  rw [List.lookup_cons]
  by_cases h : o = origin
  · rw [if_pos h, beq_iff_eq.2 h]
  · rw [if_neg h, beq_eq_false_iff_ne.2 h]

/-- Among entries of different origins an entry is what is found under its origin. -/
theorem lookup_eq_some_iff_mem (h : entries.Pairwise fun a b => a.1 ≠ b.1) :
    entries.lookup origin = some value ↔ (origin, value) ∈ entries := by
  induction entries with
  | nil => simp
  | cons entry rest ih =>
    obtain ⟨o, v⟩ := entry
    obtain ⟨hhead, hrest⟩ := List.pairwise_cons.1 h
    rw [lookup_cons_eq_ite, List.mem_cons]
    by_cases heq : origin = o
    · subst heq
      have hnot : (origin, value) ∉ rest := fun hmem => hhead _ hmem rfl
      simp [hnot, eq_comm]
    · simp [heq, ih hrest]

end Lookup

namespace ChunkMap

variable {α : Type} {m m' : ChunkMap α} {origin : Index} {value : α}

theorem lookup_insertEntry (origin : Index) (value : α) (entries : List (Index × α)) (o : Index) :
    (insertEntry origin value entries).lookup o =
      if o = origin then some value else entries.lookup o := by
  induction entries with
  | nil => rw [insertEntry, lookup_cons_eq_ite]
  | cons entry rest ih =>
    obtain ⟨first, v⟩ := entry
    rw [insertEntry]
    split
    · rw [lookup_cons_eq_ite]
    · split
      · rename_i heq
        rw [lookup_cons_eq_ite, lookup_cons_eq_ite, heq]
        split <;> rfl
      · rename_i hne
        rw [lookup_cons_eq_ite, lookup_cons_eq_ite, ih]
        by_cases h : o = origin
        · rw [if_pos h, if_pos h, if_neg fun heq => hne (h ▸ heq)]
        · rw [if_neg h, if_neg h]

theorem get?_insert (m : ChunkMap α) (origin : Index) (value : α) (o : Index) :
    (m.insert origin value).get? o = if o = origin then some value else m.get? o :=
  lookup_insertEntry origin value m.entries o

/-- Of the entries of an origin the last one counts. -/
theorem get?_ofList (entries : List (Index × α)) (o : Index) :
    (ofList entries).get? o = entries.reverse.lookup o := by
  -- the map is built from the front, and what is found last is what was put in last
  suffices h : ∀ m : ChunkMap α, (entries.foldl (fun m e => m.insert e.1 e.2) m).get? o =
      (entries.reverse.lookup o).or (m.get? o) by
    refine (h empty).trans ?_
    rw [show (empty : ChunkMap α).get? o = none from rfl, Option.or_none]
  induction entries with
  | nil => exact fun m => rfl
  | cons entry rest ih =>
    intro m
    rw [List.foldl_cons, ih, get?_insert, List.reverse_cons, List.lookup_append, Option.or_assoc,
      lookup_cons_eq_ite]
    split <;> rfl

/-- The last entry of an origin: those after it have other origins. -/
def LastEntry (entries : List (Index × α)) (origin : Index) (value : α) : Prop :=
  ∃ front back, entries = front ++ (origin, value) :: back ∧ ∀ e ∈ back, e.1 ≠ origin

theorem get?_ofList_eq_some_iff {entries : List (Index × α)} :
    (ofList entries).get? origin = some value ↔ LastEntry entries origin value := by
  rw [get?_ofList, List.lookup_eq_some_iff]
  constructor
  · rintro ⟨back, front, hentries, hback⟩
    refine ⟨front.reverse, back.reverse, ?_, fun e he heq => ?_⟩
    · rw [← List.reverse_reverse entries, hentries]
      simp
    · exact bne_iff_ne.1 (hback e (List.mem_reverse.1 he)) heq.symm
  · rintro ⟨front, back, rfl, hback⟩
    refine ⟨back.reverse, front.reverse, by simp, fun e he => bne_iff_ne.2 fun heq => ?_⟩
    exact hback e (List.mem_reverse.1 he) heq.symm

theorem entries_ne (m : ChunkMap α) : m.entries.Pairwise fun a b => a.1 ≠ b.1 := by
  refine m.sorted.imp fun {a b} hlt heq => ?_
  rw [heq] at hlt
  exact List.lt_irrefl _ hlt

/-- An entry is what the map has under its origin. -/
theorem mem_entries_iff : (origin, value) ∈ m.entries ↔ m.get? origin = some value :=
  (lookup_eq_some_iff_mem m.entries_ne).symm

/-- The map of a list has no other entries. -/
theorem mem_of_mem_ofList {entries : List (Index × α)} {e : Index × α}
    (h : e ∈ (ofList entries).entries) : e ∈ entries := by
  obtain ⟨front, back, rfl, -⟩ := get?_ofList_eq_some_iff.1 (mem_entries_iff.1 h)
  exact List.mem_append_right front List.mem_cons_self

/-- Maps with the same under each origin are the same. -/
theorem eq_of_get?_eq (h : ∀ origin, m.get? origin = m'.get? origin) : m = m' := by
  have hnodup : ∀ m : ChunkMap α, m.entries.Nodup := fun m =>
    List.nodup_iff_pairwise_ne.2 (m.entries_ne.imp fun hne heq => hne (congrArg Prod.fst heq))
  have hperm : m.entries.Perm m'.entries :=
    (List.perm_ext_iff_of_nodup (hnodup m) (hnodup m')).2 fun ⟨origin, value⟩ => by
      rw [mem_entries_iff, mem_entries_iff, h]
  have hentries : m.entries = m'.entries := hperm.eq_of_pairwise
    (fun a b _ _ hab hba => absurd (List.lt_trans hab hba) (List.lt_irrefl _)) m.sorted m'.sorted
  cases m
  cases m'
  cases hentries
  rfl

/-- A map is the map of its entries. -/
theorem ofList_entries (m : ChunkMap α) : ofList m.entries = m := by
  refine eq_of_get?_eq fun origin => Option.ext fun value => ?_
  have hreverse : m.entries.reverse.Pairwise fun a b => a.1 ≠ b.1 :=
    List.pairwise_reverse.2 (m.entries_ne.imp Ne.symm)
  rw [get?_ofList, lookup_eq_some_iff_mem hreverse, List.mem_reverse, mem_entries_iff]

end ChunkMap

end Hyperslab
