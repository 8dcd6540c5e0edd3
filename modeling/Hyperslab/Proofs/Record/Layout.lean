import Hyperslab.Proofs.Record

/-!
# Accepted record layouts

Fields make a record layout where each of them ends in the record and no name is there twice. Fields
that do not are refused for one reason: the first field that ends after the record, and only where
there is none the first place at which a name is there for the second time. Ends are exact sums, also
beyond the largest offset.

## Main definitions

- `FirstSecond`: which repeated name is named
- `RecordLayout.Flaw`: what is the matter with the fields of a record

## Main statements

- `firstRepeated_eq_some_iff`: the name found by going through a list once
- `RecordLayout.create_eq_error_iff_flaw`: fields are refused for what is the matter with them
- `RecordLayout.create_exact`: which fields are accepted, and what is found in them
-/

namespace Hyperslab

/-- Place `k` of a list of names has `name`, and it is there for the second time. -/
def SecondAt (names : List String) (k : Nat) (name : String) : Prop :=
  names[k]? = some name ∧ (names.take k).count name = 1

/-- No name is there for the second time before `name` is. -/
def FirstSecond (names : List String) (name : String) : Prop :=
  ∃ k, SecondAt names k name ∧ ∀ j < k, ∀ other, ¬SecondAt names j other

section Names

variable {front names : List String} {name : String} {k : Nat}

/-- Among names that are all different none is there for the second time. -/
theorem not_secondAt_of_nodup (hnodup : front.Nodup) (rest : List String) (hk : k < front.length) :
    ¬SecondAt (front ++ rest) k name := by
  rintro ⟨hhere, hsecond⟩
  rw [List.getElem?_append_left hk] at hhere
  rw [List.take_append_of_le_length (Nat.le_of_lt hk)] at hsecond
  have htake : name ∈ front.take k := List.count_pos_iff.1 (by omega)
  have hdrop : name ∈ front.drop k :=
    List.mem_of_getElem? (i := 0) (by rw [List.getElem?_drop, Nat.add_zero, hhere])
  rw [← List.take_append_drop k front, List.nodup_append] at hnodup
  exact hnodup.2.2 name htake name hdrop rfl

/-- The first name of the rest that is in front of it already is there for the second time. -/
theorem secondAt_of_mem (hnodup : front.Nodup) (hmem : name ∈ front) (rest : List String) :
    SecondAt (front ++ name :: rest) front.length name := by
  refine ⟨by simp, ?_⟩
  rw [List.take_left' rfl, hnodup.count, if_pos hmem]

/-- The names seen so far are all different, so the first one seen again comes for the second
time. -/
theorem firstRepeated_reverse_eq_some_iff (hnodup : front.Nodup) :
    firstRepeated front.reverse names = some name ↔ FirstSecond (front ++ names) name := by
  induction names generalizing front with
  | nil =>
    simp only [firstRepeated, reduceCtorEq, false_iff]
    rintro ⟨k, hsecond, -⟩
    have hk : k < (front ++ []).length := (List.getElem?_eq_some_iff.1 hsecond.1).1
    rw [List.append_nil] at hk
    exact not_secondAt_of_nodup hnodup [] hk hsecond
  | cons first names ih =>
    rw [firstRepeated]
    by_cases hmem : first ∈ front
    · have hhere := secondAt_of_mem hnodup hmem names
      rw [if_pos (List.mem_reverse.2 hmem), Option.some.injEq]
      constructor
      · rintro rfl
        exact ⟨front.length, hhere, fun j hj other => not_secondAt_of_nodup hnodup _ hj⟩
      · rintro ⟨k, hsecond, hbefore⟩
        -- an earlier place has no second name, and a later one is not the first
        have hk : k = front.length := by
          rcases Nat.lt_trichotomy k front.length with hlt | heq | hgt
          · exact absurd hsecond (not_secondAt_of_nodup hnodup _ hlt)
          · exact heq
          · exact absurd hhere (hbefore _ hgt first)
        subst hk
        exact Option.some.inj (hhere.1.symm.trans hsecond.1)
    · have hnext : (front ++ [first]).Nodup := by
        refine List.nodup_append.2 ⟨hnodup, by simp, fun name hname other hother heq => ?_⟩
        rw [heq, List.mem_singleton.1 hother] at hname
        exact hmem hname
      have hrest := ih hnext
      rw [List.reverse_append, List.append_assoc] at hrest
      rw [if_neg (mt List.mem_reverse.1 hmem)]
      exact hrest

theorem firstRepeated_eq_some_iff : firstRepeated [] names = some name ↔ FirstSecond names name :=
  firstRepeated_reverse_eq_some_iff List.nodup_nil

end Names

namespace RecordLayout

/-- What is the matter with the fields of a record. -/
inductive Flaw (recordSize : Nat) (fields : List RecordField) : RecordLayoutError → Prop where
  /-- Whatever the names are, the first field that ends after the record is named. -/
  | outOfBounds {before after : List RecordField} {field : RecordField}
      (hfields : fields = before ++ field :: after)
      (hbefore : ∀ f ∈ before, f.offset + f.size ≤ recordSize)
      (hout : recordSize < field.offset + field.size) :
      Flaw recordSize fields (.fieldOutOfBounds field recordSize)
  | duplicate {name : String} (hinside : ∀ f ∈ fields, f.offset + f.size ≤ recordSize)
      (hname : FirstSecond (fields.map (·.name)) name) :
      Flaw recordSize fields (.duplicateField name)

variable {recordSize : Nat} {fields : List RecordField} {l : RecordLayout}

theorem fits_eq_false_iff (hsize : recordSize ≤ maxOffset) {field : RecordField} :
    (!field.fits recordSize) = true ↔ recordSize < field.offset + field.size := by
  rw [Bool.not_eq_true', Bool.eq_false_iff, ne_eq, RecordField.fits_iff]
  omega

/-- The field that is refused is the first one that ends after the record. -/
theorem find?_eq_some_iff_outside (hsize : recordSize ≤ maxOffset) {field : RecordField} :
    fields.find? (fun f => !f.fits recordSize) = some field ↔
      recordSize < field.offset + field.size ∧ ∃ before after, fields = before ++ field :: after ∧
        ∀ f ∈ before, f.offset + f.size ≤ recordSize := by
  rw [List.find?_eq_some_iff_append, fits_eq_false_iff hsize]
  simp only [Bool.not_eq_true', ← Bool.not_eq_true, fits_eq_false_iff hsize, Nat.not_lt]

theorem find?_eq_none_iff_inside (hsize : recordSize ≤ maxOffset) :
    fields.find? (fun f => !f.fits recordSize) = none ↔
      ∀ f ∈ fields, f.offset + f.size ≤ recordSize := by
  simp only [List.find?_eq_none, fits_eq_false_iff hsize, Nat.not_lt]

/-- Fields are refused for what is the matter with them, and for nothing else. -/
theorem create_eq_error_iff_flaw (hsize : recordSize ≤ maxOffset) {e : RecordLayoutError} :
    create recordSize fields = .error e ↔ Flaw recordSize fields e := by
  rw [create_eq_error_iff, checkFields]
  cases hfind : fields.find? fun f => !f.fits recordSize with
  | some field =>
    obtain ⟨hout, before, after, hfields, hbefore⟩ := (find?_eq_some_iff_outside hsize).1 hfind
    simp only [Except.error.injEq]
    constructor
    · rintro rfl
      exact .outOfBounds hfields hbefore hout
    · rintro (⟨hfields', hbefore', hout'⟩ | ⟨hinside, -⟩)
      · have hfirst := (find?_eq_some_iff_outside hsize).2 ⟨hout', _, _, hfields', hbefore'⟩
        rw [Option.some.inj (hfind.symm.trans hfirst)]
      · rw [(find?_eq_none_iff_inside hsize).2 hinside] at hfind
        cases hfind
  | none =>
    have hinside := (find?_eq_none_iff_inside hsize).1 hfind
    have hflaw : Flaw recordSize fields e ↔
        ∃ name, firstRepeated [] (fields.map (·.name)) = some name ∧ e = .duplicateField name := by
      simp only [firstRepeated_eq_some_iff]
      constructor
      · rintro (⟨rfl, -, hout⟩ | ⟨-, hname⟩)
        · have := hinside _ (List.mem_append_right _ List.mem_cons_self)
          omega
        · exact ⟨_, hname, rfl⟩
      · rintro ⟨name, hname, rfl⟩
        exact .duplicate hinside hname
    rw [hflaw]
    cases firstRepeated [] (fields.map (·.name)) with
    | none => simp
    | some name => simp [eq_comm]

theorem exists_create_iff (hsize : recordSize ≤ maxOffset) :
    (∃ l, create recordSize fields = .ok l) ↔
      (∀ f ∈ fields, f.offset + f.size ≤ recordSize) ∧ (fields.map (·.name)).Nodup := by
  have hfits : ∀ f : RecordField, f.fits recordSize = true ↔ f.offset + f.size ≤ recordSize := by
    intro f
    rw [RecordField.fits_iff]
    omega
  simp only [← hfits, ← checkFields_eq_ok_iff, create_eq_ok_iff]
  constructor
  · rintro ⟨l, rfl, rfl⟩
    exact l.accepted
  · exact fun haccepted => ⟨⟨recordSize, fields, haccepted⟩, rfl, rfl⟩

/-- Among fields with names of their own, those with a name are the one that is found under it. -/
theorem filter_eq_toList_find? (hnodup : (fields.map (·.name)).Nodup) (name : String) :
    fields.filter (·.name = name) = (fields.find? (·.name = name)).toList := by
  induction fields with
  | nil => rfl
  | cons first fields ih =>
    rw [List.map_cons, List.nodup_cons] at hnodup
    by_cases hname : first.name = name
    · have hothers : fields.filter (·.name = name) = [] := by
        simp only [List.filter_eq_nil_iff, decide_eq_true_eq]
        intro field hfield heq
        exact hnodup.1 (List.mem_map.2 ⟨field, hfield, heq.trans hname.symm⟩)
      simp [hname, hothers]
    · simp [hname, ih hnodup.2]

/-- Fields are accepted just where each of them ends in the record and no name is there twice. Where
they are refused, it is for the first one that ends after the record, and only where there is none
for the name that is the first to come a second time. An accepted layout keeps the fields, and under
a name it finds the only field that has it, or nothing where there is none. -/
theorem create_exact (recordSize : Nat) (fields : List RecordField)
    (hsize : recordSize ≤ maxOffset) :
    ((∃ l, create recordSize fields = .ok l) ↔
      (∀ f ∈ fields, f.offset + f.size ≤ recordSize) ∧ (fields.map (·.name)).Nodup) ∧
    (∀ e, create recordSize fields = .error e ↔ Flaw recordSize fields e) ∧
    ∀ l, create recordSize fields = .ok l → l.recordSize = recordSize ∧ l.fields = fields ∧
      ∀ name, fields.filter (·.name = name) = (l.field? name).toList ∧
        (fields.filter (·.name = name)).map (·.offset) = (l.fieldOffset? name).toList := by
  refine ⟨exists_create_iff hsize, fun e => create_eq_error_iff_flaw hsize, fun l hl => ?_⟩
  obtain ⟨hrecordSize, rfl⟩ := create_eq_ok_iff.1 hl
  refine ⟨hrecordSize, rfl, fun name => ?_⟩
  have hfilter := filter_eq_toList_find? (checkFields_eq_ok_iff.1 l.accepted).2 name
  refine ⟨hfilter, ?_⟩
  rw [hfilter, fieldOffset?, field?]
  cases l.fields.find? (·.name = name) <;> rfl

/-- A field that ends beyond the largest offset is refused, although a name is there twice before
it. Of two repeated names the one that is repeated first is named. In a layout that is accepted a
name stands for one field or for none. -/
theorem create_exact_pairs :
    create 8 [⟨"a", 0, 2⟩, ⟨"a", 2, 2⟩, ⟨"b", 18446744073709551615, 2⟩] =
      .error (.fieldOutOfBounds ⟨"b", 18446744073709551615, 2⟩ 8) ∧
    create 8 [⟨"a", 0, 2⟩, ⟨"b", 2, 2⟩, ⟨"b", 4, 2⟩, ⟨"a", 6, 2⟩] = .error (.duplicateField "b") ∧
    ∃ l, create 8 [⟨"a", 0, 4⟩, ⟨"b", 2, 6⟩, ⟨"end", 8, 0⟩] = .ok l ∧
      l.field? "b" = some ⟨"b", 2, 6⟩ ∧ l.field? "c" = none ∧ l.fieldOffset? "end" = some 8 := by
  have hsize : 8 ≤ maxOffset := by decide
  refine ⟨?_, ?_, ?_⟩
  · have hfields : [⟨"a", 0, 2⟩, ⟨"a", 2, 2⟩, ⟨"b", 18446744073709551615, 2⟩] =
        [⟨"a", 0, 2⟩, ⟨"a", 2, 2⟩] ++ (⟨"b", 18446744073709551615, 2⟩ : RecordField) :: [] := rfl
    exact ((create_exact 8 _ hsize).2.1 _).2 (.outOfBounds hfields (by decide) (by decide))
  · refine ((create_exact 8 _ hsize).2.1 _).2 (.duplicate (by decide) ⟨2, ⟨rfl, by decide⟩, ?_⟩)
    have hdistinct : ["a", "b"].Nodup := by decide
    exact fun j hj other => not_secondAt_of_nodup hdistinct ["b", "a"] hj
  · obtain ⟨hok, -, hfields⟩ :=
      create_exact 8 [⟨"a", 0, 4⟩, ⟨"b", 2, 6⟩, ⟨"end", 8, 0⟩] hsize
    obtain ⟨l, hl⟩ := hok.2 (by decide)
    obtain ⟨-, -, hfound⟩ := hfields l hl
    refine ⟨l, hl, ?_, ?_, ?_⟩
    · exact (Option.toList_eq_singleton_iff).1 (hfound "b").1.symm
    · exact (Option.toList_eq_nil_iff).1 (hfound "c").1.symm
    · exact (Option.toList_eq_singleton_iff).1 (hfound "end").2.symm

end RecordLayout

end Hyperslab
