import Hyperslab.Options

/-!
# Options over time

Options are made from the defaults or from other options, and the defaults and the options are
changed in place, in any order and as often as one likes. `Settings` holds the defaults together with
all options made so far, and each step carries out one `Configuration.step` on the defaults and on
some of the options. Options see no change but those made to themselves, and a segment read size is
never zero.

## Main definitions

- `Settings.step`, `Settings.after`: the defaults and all options, over time
- `ConfigStep.changeTo?`: which steps change some options in place

## Main statements

- `Settings.getElem?_after`: options are what their own changes in place make of them
- `Settings.size_after_initial`: the segment read sizes that there are
-/

namespace Hyperslab

namespace ConfigStep

/-- The change that a step makes, whatever it makes it to. -/
def change? : ConfigStep → Option SettingChange
  | setDefault change => some change
  | setOption change => some change
  | withOption change => some change
  | renew => none

/-- Whether a step makes new options. -/
def makes : ConfigStep → Bool
  | setDefault _ => false
  | setOption _ => false
  | withOption _ => true
  | renew => true

/-- The change in place to the options made as number `j`, by a step with those made as number
`k`. -/
def changeTo? (j k : Nat) : ConfigStep → Option SettingChange
  | setOption change => if k = j then some change else none
  | _ => none

end ConfigStep

/-- The largest request of a changed segment read size is the one wanted, or one where none is. -/
theorem SettingChange.segmentReadSize_apply (o : ReadOptions) (change : SettingChange) :
    (change.apply o).segmentReadSize = o.segmentReadSize ∨
      ∃ n, change = .segmentReadSize n ∧ (change.apply o).segmentReadSize = max n 1 := by
  cases change with
  | segmentReadSize n => exact .inr ⟨n, rfl, rfl⟩
  | maxDecodedChunkSize => exact .inl rfl
  | coalesceDirectReads => exact .inl rfl

/-- The defaults, and all options made so far, in the order in which they were made. -/
structure Settings where
  defaults : ReadOptions
  made : List ReadOptions

namespace Settings

/-- The defaults as they are at first, with options made from them. -/
def initial : Settings :=
  let first : ReadOptions := { segmentReadSize_pos := Nat.succ_pos 4095 }
  { defaults := first, made := [first] }

def all (s : Settings) : List ReadOptions :=
  s.defaults :: s.made

/-- A step with the defaults and the options made as number `k`. Options that it makes come after
all others, and without such options it does nothing. -/
def step (s : Settings) (k : Nat) (action : ConfigStep) : Settings :=
  match s.made[k]? with
  | none => s
  | some o =>
    let c := Configuration.step { defaults := s.defaults, options := o } action
    { defaults := c.defaults
      made := if action.makes then s.made ++ [c.options] else s.made.set k c.options }

/-- What some steps lead to, each with the number of the options that it is for. -/
def after (s : Settings) : List (Nat × ConfigStep) → Settings
  | [] => s
  | (k, action) :: steps => (s.step k action).after steps

variable {s : Settings} {o : ReadOptions} {j k : Nat} {action : ConfigStep}
  {change : SettingChange}

theorem after_append (s : Settings) (steps others : List (Nat × ConfigStep)) :
    s.after (steps ++ others) = (s.after steps).after others := by
  induction steps generalizing s with
  | nil => rfl
  | cons p steps ih => exact ih _

section Step

theorem step_of_none (h : s.made[k]? = none) (action : ConfigStep) : s.step k action = s := by
  rw [step, h]

variable (h : s.made[k]? = some o)

include h

theorem step_setDefault :
    s.step k (.setDefault change) = { s with defaults := change.apply s.defaults } := by
  have hset : s.made.set k o = s.made := by
    obtain ⟨hk, rfl⟩ := List.getElem?_eq_some_iff.1 h
    exact List.set_getElem_self hk
  rw [step, h]
  exact congrArg (Settings.mk _) hset

theorem step_setOption :
    s.step k (.setOption change) = { s with made := s.made.set k (change.apply o) } := by
  rw [step, h]
  rfl

theorem step_withOption :
    s.step k (.withOption change) = { s with made := s.made ++ [change.apply o] } := by
  rw [step, h]
  rfl

theorem step_renew : s.step k .renew = { s with made := s.made ++ [s.defaults] } := by
  rw [step, h]
  rfl

end Step

/-- A step changes the options in place that it is for, where it does, and no others. -/
theorem getElem?_step (h : s.made[j]? = some o) (k : Nat) (action : ConfigStep) :
    (s.step k action).made[j]? =
      some ((action.changeTo? j k).toList.foldl SettingChange.apply o) := by
  have hj : j < s.made.length := (List.getElem?_eq_some_iff.1 h).1
  cases hk : s.made[k]? with
  | none =>
    have hne : k ≠ j := by
      rintro rfl
      rw [h] at hk
      cases hk
    rw [step_of_none hk, h]
    cases action <;> simp [ConfigStep.changeTo?, hne]
  | some other =>
    cases action with
    | setDefault change =>
      rw [step_setDefault hk]
      exact h
    | setOption change =>
      rw [step_setOption hk, ConfigStep.changeTo?]
      by_cases hkj : k = j
      · subst hkj
        obtain rfl := Option.some.inj (hk.symm.trans h)
        rw [if_pos rfl]
        exact List.getElem?_set_self hj
      · rw [if_neg hkj]
        exact (List.getElem?_set_ne hkj).trans h
    | withOption change =>
      rw [step_withOption hk]
      exact (List.getElem?_append_left hj).trans h
    | renew =>
      rw [step_renew hk]
      exact (List.getElem?_append_left hj).trans h

/-- Options are what their own changes in place make of them, one after the other, whatever else is
done to the defaults and to other options. -/
theorem getElem?_after (h : s.made[j]? = some o) (steps : List (Nat × ConfigStep)) :
    (s.after steps).made[j]? =
      some ((steps.filterMap fun p => p.2.changeTo? j p.1).foldl SettingChange.apply o) := by
  induction steps generalizing s o with
  | nil => exact h
  | cons p steps ih =>
    obtain ⟨k, action⟩ := p
    rw [after, ih (getElem?_step h k action), List.filterMap_cons]
    dsimp only
    cases action.changeTo? j k <;> rfl

/-- What there is after a step was there before, or it is the change of the step to what was. -/
theorem mem_all_step (h : o ∈ (s.step k action).all) :
    ∃ before ∈ s.all, o = before ∨ ∃ change, action.change? = some change ∧
      o = change.apply before := by
  have hdefaults : s.defaults ∈ s.all := List.mem_cons_self
  cases hk : s.made[k]? with
  | none =>
    rw [step_of_none hk] at h
    exact ⟨o, h, .inl rfl⟩
  | some other =>
    have hother : other ∈ s.all := List.mem_cons_of_mem _ (List.mem_of_getElem? hk)
    cases action with
    | setDefault change =>
      rw [step_setDefault hk] at h
      rcases List.mem_cons.1 h with rfl | hmade
      · exact ⟨s.defaults, hdefaults, .inr ⟨change, rfl, rfl⟩⟩
      · exact ⟨o, List.mem_cons_of_mem _ hmade, .inl rfl⟩
    | setOption change =>
      rw [step_setOption hk] at h
      rcases List.mem_cons.1 h with rfl | hmade
      · exact ⟨s.defaults, hdefaults, .inl rfl⟩
      · rcases List.mem_or_eq_of_mem_set hmade with hmade | rfl
        · exact ⟨o, List.mem_cons_of_mem _ hmade, .inl rfl⟩
        · exact ⟨other, hother, .inr ⟨change, rfl, rfl⟩⟩
    | withOption change =>
      rw [step_withOption hk] at h
      rcases List.mem_append.1 (show o ∈ s.all ++ [_] from h) with hbefore | hnew
      · exact ⟨o, hbefore, .inl rfl⟩
      · exact ⟨other, hother, .inr ⟨change, rfl, List.mem_singleton.1 hnew⟩⟩
    | renew =>
      rw [step_renew hk] at h
      rcases List.mem_append.1 (show o ∈ s.all ++ [_] from h) with hbefore | hnew
      · exact ⟨o, hbefore, .inl rfl⟩
      · exact ⟨s.defaults, hdefaults, .inl (List.mem_singleton.1 hnew)⟩

/-- The segment read size of options and defaults after some steps is one that was there before, or
one that a step sets, where zero counts as one. -/
theorem size_after (steps : List (Nat × ConfigStep)) (h : o ∈ (s.after steps).all) :
    (∃ before ∈ s.all, o.segmentReadSize = before.segmentReadSize) ∨
      ∃ k action n, (k, action) ∈ steps ∧ action.change? = some (.segmentReadSize n) ∧
        o.segmentReadSize = max n 1 := by
  induction steps generalizing s with
  | nil => exact .inl ⟨o, h, rfl⟩
  | cons p steps ih =>
    obtain ⟨k, action⟩ := p
    rcases ih h with ⟨between, hbetween, hsize⟩ | ⟨k', action', n, hmem, hchange, hsize⟩
    · obtain ⟨before, hbefore, rfl | ⟨change, hchange, rfl⟩⟩ := mem_all_step hbetween
      · exact .inl ⟨_, hbefore, hsize⟩
      · rcases change.segmentReadSize_apply before with hkept | ⟨n, rfl, hset⟩
        · exact .inl ⟨before, hbefore, hsize.trans hkept⟩
        · exact .inr ⟨k, action, n, List.mem_cons_self, hchange, hsize.trans hset⟩
    · exact .inr ⟨k', action', n, List.mem_cons_of_mem _ hmem, hchange, hsize⟩

/-- From the start on a segment read size is the first default, or one that a step sets, where zero
counts as one. -/
theorem size_after_initial (steps : List (Nat × ConfigStep)) (h : o ∈ (initial.after steps).all) :
    o.segmentReadSize = 4096 ∨
      ∃ k action n, (k, action) ∈ steps ∧ action.change? = some (.segmentReadSize n) ∧
        o.segmentReadSize = max n 1 := by
  rcases size_after steps h with ⟨before, hbefore, hsize⟩ | hset
  · have hfirst : before.segmentReadSize = 4096 := by
      rcases List.mem_cons.1 hbefore with rfl | hmade
      · rfl
      · rw [List.mem_singleton.1 hmade]
    exact .inl (hsize.trans hfirst)
  · exact .inr hset

end Settings

end Hyperslab
