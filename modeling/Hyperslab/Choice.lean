/-!
# Choices

The ways to choose one member of each of some lists. There may be far more of them than one wants to
hold at a time: the first ones are found without the others, and a computation may go through all of
them one by one.

## Main definitions

- `choices`: all ways to choose, the last list fastest
- `takeChoices`: the first of them
- `foldChoices`: a computation for each of them
-/

namespace Hyperslab

/-- The first `limit` members of the lists of some things, one list after the other. The first
members of each list are given by `first`. -/
def takeInTurn {α β : Type} (first : α → Nat → List β) : List α → Nat → List β
  | [], _ => []
  | x :: xs, limit =>
    if limit = 0 then []
    else
      let found := first x limit
      found ++ takeInTurn first xs (limit - found.length)

theorem takeInTurn_eq {α β : Type} {first : α → Nat → List β} {all : α → List β}
    (h : ∀ x limit, first x limit = (all x).take limit) (xs : List α) (limit : Nat) :
    takeInTurn first xs limit = (xs.flatMap all).take limit := by
  induction xs generalizing limit with
  | nil => simp [takeInTurn]
  | cons x xs ih =>
    rw [takeInTurn]
    split
    · rename_i hzero
      simp [hzero]
    · have hlen : limit - ((all x).take limit).length = limit - (all x).length := by
        rw [List.length_take]
        omega
      simp only [h, ih, hlen]
      rw [List.flatMap_cons, List.take_append]

/-- All ways to choose one member of each list, the last list fastest. -/
def choices {α : Type} : List (List α) → List (List α)
  | [] => [[]]
  | options :: rest => options.flatMap fun x => (choices rest).map (x :: ·)

/-- The first `limit` ways to choose one member of each list. -/
def takeChoices {α : Type} : List (List α) → Nat → List (List α)
  | [], limit => [[]].take limit
  | options :: rest, limit =>
    takeInTurn (fun x n => (takeChoices rest n).map (x :: ·)) options limit

/-- Carries out `step` for each way to choose one member of each list. -/
def foldChoices {α σ : Type} {m : Type → Type} [Monad m] :
    List (List α) → (σ → List α → m σ) → σ → m σ
  | [], step, state => step state []
  | options :: rest, step, state =>
    options.foldlM
      (fun state x => foldChoices rest (fun state tail => step state (x :: tail)) state) state

theorem takeChoices_eq {α : Type} (lists : List (List α)) (limit : Nat) :
    takeChoices lists limit = (choices lists).take limit := by
  induction lists generalizing limit with
  | nil => rfl
  | cons options rest ih =>
    rw [takeChoices, choices]
    exact takeInTurn_eq (fun x n => by rw [ih, List.map_take]) options limit

theorem foldlM_flatMap {α β σ : Type} {m : Type → Type} [Monad m] [LawfulMonad m]
    (f : α → List β) (step : σ → β → m σ) (xs : List α) (state : σ) :
    (xs.flatMap f).foldlM step state =
      xs.foldlM (fun state x => (f x).foldlM step state) state := by
  induction xs generalizing state with
  | nil => rfl
  | cons x xs ih =>
    rw [List.flatMap_cons, List.foldlM_append, List.foldlM_cons]
    exact bind_congr fun state => ih state

theorem foldChoices_eq {α σ : Type} {m : Type → Type} [Monad m] [LawfulMonad m]
    (lists : List (List α)) (step : σ → List α → m σ) (state : σ) :
    foldChoices lists step state = (choices lists).foldlM step state := by
  induction lists generalizing step state with
  | nil =>
    rw [foldChoices, choices, List.foldlM_cons]
    simp
  | cons options rest ih =>
    rw [foldChoices, choices, foldlM_flatMap]
    simp only [ih, List.foldlM_map]

/-- A choice has one member of each list. -/
theorem mem_of_mem_choices {α : Type} {lists : List (List α)} {choice : List α}
    (h : choice ∈ choices lists) {x : α} (hx : x ∈ choice) : ∃ options ∈ lists, x ∈ options := by
  induction lists generalizing choice with
  | nil =>
    rw [choices, List.mem_singleton] at h
    simp [h] at hx
  | cons options rest ih =>
    rw [choices, List.mem_flatMap] at h
    obtain ⟨y, hy, h⟩ := h
    obtain ⟨tail, htail, rfl⟩ := List.mem_map.1 h
    rcases List.mem_cons.1 hx with rfl | hx
    · exact ⟨options, List.mem_cons_self, hy⟩
    · obtain ⟨others, hothers, hmem⟩ := ih htail hx
      exact ⟨others, List.mem_cons_of_mem _ hothers, hmem⟩

end Hyperslab
