import Hyperslab.Fill

/-!
# Bytes at positions

What stands at each position of a byte string that was overwritten or filled. A part that is
overwritten holds the new bytes whatever was there before, and everything else stays as it was.

## Main definitions

- `Bytes.Completes`: some bytes have come to be what is wanted, and no other one is worse than before
- `byteOfFill`: the byte at an offset of an element that is stored nowhere

## Main statements

- `Bytes.getElem?_overwrite`: the bytes after a part was overwritten
- `Bytes.exists_overwrite`: bytes put where they belong
- `FillValue.getElem?_fill`: the bytes of a buffer that was filled
- `getElem?_fillRuns`: the bytes after a run of elements was filled
- `materialize_eq`, `getElem?_materialize`: the bytes of elements that are stored nowhere
-/

namespace Hyperslab

namespace Bytes

theorem getElem?_overwrite (bytes : Bytes) (start : Nat) (piece : Bytes) {j : Nat}
    (hj : j < bytes.size) :
    (overwrite bytes start piece)[j]? =
      if start ≤ j ∧ j < start + piece.size then piece[j - start]? else bytes[j]? := by
  -- after `n` bytes of the piece, the first `n` places hold them
  have hfold : ∀ (n : Nat) (f : (i : Nat) → i < n → UInt8),
      (Nat.fold n (fun i h (out : Bytes) => out.setIfInBounds (start + i) (f i h)) bytes)[j]? =
        if h : start ≤ j ∧ j < start + n then some (f (j - start) (by omega)) else bytes[j]? := by
    intro n
    induction n with
    | zero =>
      intro f
      rw [dif_neg (by omega)]
      rfl
    | succ n ih =>
      intro f
      have hsize := size_fold_setIfInBounds bytes start n fun i h => f i (Nat.lt_succ_of_lt h)
      rw [Nat.fold_succ, Array.getElem?_setIfInBounds, ih fun i h => f i (Nat.lt_succ_of_lt h)]
      by_cases heq : start + n = j
      · subst heq
        rw [if_pos rfl, if_pos (by omega), dif_pos (by omega)]
        simp
      · rw [if_neg heq]
        by_cases hin : start ≤ j ∧ j < start + n
        · rw [dif_pos hin, dif_pos (by omega)]
        · rw [dif_neg hin, dif_neg (by omega)]
  rw [overwrite, hfold piece.size fun i h => piece[i]]
  by_cases hin : start ≤ j ∧ j < start + piece.size
  · rw [dif_pos hin, if_pos hin, Array.getElem?_eq_getElem]
  · rw [dif_neg hin, if_neg hin]

/-- The front of a byte string is overwritten, and its back stays. -/
theorem overwrite_zero {bytes piece : Bytes} (h : piece.size ≤ bytes.size) :
    overwrite bytes 0 piece = piece ++ bytes.extract piece.size bytes.size := by
  refine Array.ext_getElem? fun j => ?_
  by_cases hj : j < bytes.size
  · rw [getElem?_overwrite _ _ _ hj, Nat.zero_add, Nat.sub_zero, Array.getElem?_append]
    by_cases hlt : j < piece.size
    · rw [if_pos ⟨Nat.zero_le j, hlt⟩, if_pos hlt]
    · have hback : piece.size + (j - piece.size) = j := by omega
      rw [if_neg (by omega), if_neg hlt, Array.getElem?_extract, if_pos (by omega), hback]
  · rw [Array.getElem?_eq_none (by rw [size_overwrite]; omega), Array.getElem?_eq_none]
    rw [Array.size_append, Array.size_extract]
    omega

/-- Byte strings of one size with the same bytes are equal. -/
theorem eq_of_getElem? {bytes bytes' : Bytes} {n : Nat} (hsize : bytes.size = n)
    (hsize' : bytes'.size = n) (h : ∀ j, j < n → bytes[j]? = bytes'[j]?) : bytes = bytes' := by
  refine Array.ext_getElem? fun j => ?_
  by_cases hj : j < n
  · exact h j hj
  · rw [Array.getElem?_eq_none (by omega), Array.getElem?_eq_none (by omega)]

theorem window?_eq_some {bytes : Bytes} {start length : Nat} (h : start + length ≤ bytes.size) :
    window? bytes start length = some (bytes.extract start (start + length)) :=
  if_pos h

theorem overwrite?_eq_some {bytes piece : Bytes} {start : Nat} (h : start + piece.size ≤ bytes.size) :
    overwrite? bytes start piece = some (overwrite bytes start piece) :=
  if_pos h

/-- From one byte string to another the bytes with `covered` have come to be what is wanted, and each
byte that was so before still is. -/
structure Completes (want : Nat → Option UInt8) (covered : Nat → Prop) (before after : Bytes) :
    Prop where
  size_eq : after.size = before.size
  inside : ∀ j, covered j → after[j]? = want j
  kept : ∀ j, before[j]? = want j → after[j]? = want j

namespace Completes

variable {want : Nat → Option UInt8} {covered covered' done : Nat → Prop} {before after : Bytes}

/-- Bytes that are not covered are as they were. -/
theorem of_outside (hsize : after.size = before.size)
    (hinside : ∀ j, covered j → after[j]? = want j)
    (houtside : ∀ j, j < before.size → ¬covered j → after[j]? = before[j]?) :
    Completes want covered before after := by
  refine ⟨hsize, hinside, fun j hj => ?_⟩
  by_cases hin : covered j
  · exact hinside j hin
  · by_cases hlt : j < before.size
    · rw [houtside j hlt hin, hj]
    · rw [← hj, Array.getElem?_eq_none (Nat.le_of_not_lt hlt), Array.getElem?_eq_none]
      omega

theorem trans {last : Bytes} (h : Completes want covered before after)
    (h' : Completes want covered' after last) :
    Completes want (fun j => covered j ∨ covered' j) before last := by
  refine ⟨h'.size_eq.trans h.size_eq, ?_, fun j hj => h'.kept j (h.kept j hj)⟩
  rintro j (hj | hj)
  · exact h'.kept j (h.inside j hj)
  · exact h'.inside j hj

theorem mono (h : Completes want covered before after) (hcovered : ∀ j, covered' j → covered j) :
    Completes want covered' before after :=
  ⟨h.size_eq, fun j hj => h.inside j (hcovered j hj), h.kept⟩

/-- What was done before is done still. -/
theorem settled (h : Completes want covered before after)
    (hdone : ∀ j, done j → before[j]? = want j) : ∀ j, done j ∨ covered j → after[j]? = want j := by
  rintro j (hj | hj)
  · exact h.kept j (hdone j hj)
  · exact h.inside j hj

end Completes

/-- Bytes that are what they have to be are put where they belong. -/
theorem exists_overwrite {output piece : Bytes} {start : Nat} (want : Nat → Option UInt8)
    (hfit : start + piece.size ≤ output.size)
    (hpiece : ∀ i, i < piece.size → piece[i]? = want (start + i)) :
    ∃ out, overwrite? output start piece = some out ∧
      Completes want (fun j => start ≤ j ∧ j < start + piece.size) output out := by
  refine ⟨_, overwrite?_eq_some hfit, .of_outside (size_overwrite _ _ _) ?_ ?_⟩
  · rintro j ⟨hfrom, hto⟩
    rw [getElem?_overwrite _ _ _ (by omega), if_pos ⟨hfrom, hto⟩, hpiece _ (by omega),
      Nat.add_sub_cancel' hfrom]
  · intro j hlt hout
    rw [getElem?_overwrite _ _ _ hlt, if_neg hout]

theorem getElem?_zeros {n i : Nat} (h : i < n) : (zeros n)[i]? = some 0 := by
  simp [zeros, h]

end Bytes

/-- The byte at offset `b` of an element that is stored nowhere. -/
def byteOfFill (fill : Option FillValue) (b : Nat) : UInt8 :=
  match fill with
  | some v => v.bytes.getD b 0
  | none => 0

namespace FillValue

variable {v : FillValue} {buffer : Bytes} {count j : Nat}

theorem copies_succ (v : FillValue) (buffer : Bytes) (count : Nat) :
    v.copies buffer (count + 1) = Bytes.overwrite (v.copies buffer count) (count * v.size)
      (v.bytes.extract 0 (min v.size (buffer.size - count * v.size))) :=
  Nat.fold_succ _ _ _

@[simp] theorem size_copies (v : FillValue) (buffer : Bytes) (count : Nat) :
    (v.copies buffer count).size = buffer.size := by
  induction count with
  | zero => rfl
  | succ count ih => rw [copies_succ, Bytes.size_overwrite, ih]

/-- After some copies, the bytes they reach are those of the value in turn, and the others are as
they were. -/
theorem getElem?_copies (hj : j < buffer.size) :
    (v.copies buffer count)[j]? =
      if j < count * v.size then v.bytes[j % v.size]? else buffer[j]? := by
  induction count with
  | zero =>
    rw [Nat.zero_mul, if_neg (Nat.not_lt_zero j)]
    rfl
  | succ count ih =>
    have hsize : v.bytes.size = v.size := rfl
    have hpiece : (v.bytes.extract 0 (min v.size (buffer.size - count * v.size))).size =
        min v.size (buffer.size - count * v.size) := by
      rw [Array.size_extract]
      omega
    rw [copies_succ, Bytes.getElem?_overwrite _ _ _ (by rwa [size_copies]), hpiece, ih,
      Nat.succ_mul]
    by_cases hdone : j < count * v.size
    · rw [if_neg (by omega), if_pos hdone, if_pos (by omega)]
    · by_cases hin : j < count * v.size + v.size
      · -- the byte is one of the copy that is made now
        have hdigit : j % v.size = j - count * v.size := by
          have hle : v.size * count ≤ j := by
            rw [Nat.mul_comm]
            exact Nat.le_of_not_lt hdone
          rw [← Nat.sub_mul_mod hle, Nat.mul_comm, Nat.mod_eq_of_lt]
          omega
        rw [if_pos (by omega), if_pos hin, Array.getElem?_extract, if_pos (by omega), Nat.zero_add,
          hdigit]
      · rw [if_neg (by omega), if_neg hdone, if_neg hin]

@[simp] theorem size_fill (v : FillValue) (buffer : Bytes) :
    (v.fill buffer).size = buffer.size := by
  unfold fill
  split
  · rfl
  · exact Array.size_replicate
  · exact size_copies _ _ _

/-- A value without bytes changes nothing. -/
theorem fill_of_size_eq_zero (h : v.size = 0) (buffer : Bytes) : v.fill buffer = buffer := by
  have hnil : v.bytes.toList = [] := List.length_eq_zero_iff.1 (by simpa [size] using h)
  rw [fill, hnil]

/-- The bytes of the value in turn, whichever way they are written. -/
theorem getElem?_fill (hpos : 0 < v.size) (hj : j < buffer.size) :
    (v.fill buffer)[j]? = v.bytes[j % v.size]? := by
  unfold fill
  split
  · rename_i hnil
    rw [size, ← Array.length_toList, hnil] at hpos
    cases hpos
  · rename_i byte hbyte
    have hbytes : v.bytes = #[byte] := Array.ext' hbyte
    simp [size, hbytes, hj, Nat.mod_one]
  · have hall := (ceilDiv_le_iff hpos).1 (Nat.le_refl (ceilDiv buffer.size v.size))
    rw [getElem?_copies hj, if_pos (Nat.lt_of_lt_of_le hj hall)]

end FillValue

variable {fill : Option FillValue} {elementSize : Nat}

@[simp] theorem size_fillBytes (fill : Option FillValue) (buffer : Bytes) :
    (fillBytes fill buffer).size = buffer.size := by
  cases fill with
  | none => exact Bytes.size_zeros _
  | some v => exact v.size_fill buffer

theorem getElem?_fillBytes (hfill : ∀ v, fill = some v → v.size = elementSize)
    (hpos : 0 < elementSize) {buffer : Bytes} {i : Nat} (hi : i < buffer.size) :
    (fillBytes fill buffer)[i]? = some (byteOfFill fill (i % elementSize)) := by
  cases fill with
  | none => exact Bytes.getElem?_zeros hi
  | some v =>
    obtain rfl := hfill v rfl
    have hlt : i % v.size < v.bytes.size := Nat.mod_lt i hpos
    rw [fillBytes, FillValue.getElem?_fill hpos hi, byteOfFill]
    simp [Array.getD, hlt]

/-- A run of elements has no place in a buffer that it goes past the end of, be it empty or not. -/
theorem fillRun_eq_none_iff {buffer : Bytes} {destination run : Nat} :
    fillRun buffer elementSize fill destination run = none ↔
      buffer.size < (destination + run) * elementSize := by
  rw [Nat.add_mul]
  by_cases hfit : destination * elementSize + run * elementSize ≤ buffer.size
  · simp [fillRun, fillPart, Bytes.window?_eq_some hfit, Bytes.overwrite?, hfit]
  · simp [fillRun, fillPart, Bytes.window?, hfit, Nat.lt_of_not_le hfit]

/-- Where a run was filled, it is inside of the buffer, whose size does not change. -/
theorem fits_of_fillRun {buffer out : Bytes} {destination run : Nat}
    (h : fillRun buffer elementSize fill destination run = some out) :
    destination * elementSize + run * elementSize ≤ buffer.size ∧ out.size = buffer.size := by
  have hfit : destination * elementSize + run * elementSize ≤ buffer.size := by
    rw [← Nat.add_mul]
    apply Nat.le_of_not_lt
    intro hpast
    rw [fillRun_eq_none_iff.2 hpast] at h
    cases h
  refine ⟨hfit, ?_⟩
  simp only [fillRun, fillPart, Bytes.window?_eq_some hfit, Option.bind_eq_bind, Option.bind_some,
    Bytes.overwrite?, Option.ite_none_right_eq_some, Option.some.injEq] at h
  rw [← h.2, Bytes.size_overwrite]

/-- A run of elements is filled, and all other bytes stay. -/
theorem getElem?_fillRun (hfill : ∀ v, fill = some v → v.size = elementSize)
    (hpos : 0 < elementSize) {buffer out : Bytes} {destination run : Nat}
    (h : fillRun buffer elementSize fill destination run = some out) :
    ∀ j, j < buffer.size → out[j]? =
      if destination * elementSize ≤ j ∧ j < destination * elementSize + run * elementSize then
        some (byteOfFill fill (j % elementSize))
      else buffer[j]? := by
  have hfit := (fits_of_fillRun h).1
  simp only [fillRun, fillPart, Bytes.window?_eq_some hfit, Option.bind_eq_bind,
    Option.bind_some] at h
  let part := buffer.extract (destination * elementSize)
    (destination * elementSize + run * elementSize)
  have hpart : (fillBytes fill part).size = run * elementSize := by
    simp only [part, size_fillBytes, Array.size_extract]
    omega
  rw [Bytes.overwrite?_eq_some (by rw [hpart]; exact hfit), Option.some_inj] at h
  subst h
  intro j hj
  rw [Bytes.getElem?_overwrite _ _ _ hj, hpart]
  split
  · rename_i hin
    have hlt : j - destination * elementSize < part.size := by
      rw [← size_fillBytes fill part, hpart]
      omega
    rw [getElem?_fillBytes hfill hpos hlt, Nat.mul_comm, Nat.sub_mul_mod]
    rw [Nat.mul_comm]
    exact hin.1
  · rfl

/-- A run of elements inside of the buffer is filled. -/
theorem getElem?_fillRuns (hfill : ∀ v, fill = some v → v.size = elementSize)
    (hpos : 0 < elementSize) {buffer : Bytes} {destination run : Nat}
    (hfit : destination * elementSize + run * elementSize ≤ buffer.size) :
    ∃ out, fillRuns buffer elementSize fill [(destination, run)] = some out ∧
      out.size = buffer.size ∧
      ∀ j, j < buffer.size → out[j]? =
        if destination * elementSize ≤ j ∧ j < destination * elementSize + run * elementSize then
          some (byteOfFill fill (j % elementSize))
        else buffer[j]? := by
  have hne : fillRun buffer elementSize fill destination run ≠ none := by
    rw [Ne, fillRun_eq_none_iff, Nat.add_mul]
    exact Nat.not_lt.2 hfit
  obtain ⟨out, hout⟩ := Option.ne_none_iff_exists'.1 hne
  exact ⟨out, by rw [fillRuns, hout]; rfl, (fits_of_fillRun hout).2,
    getElem?_fillRun hfill hpos hout⟩

/-- Fill values are put where they belong. -/
theorem exists_fillRuns (hfill : ∀ v, fill = some v → v.size = elementSize)
    (hpos : 0 < elementSize) {buffer : Bytes} {destination run : Nat} (want : Nat → Option UInt8)
    (hfit : destination * elementSize + run * elementSize ≤ buffer.size)
    (hwant : ∀ j, destination * elementSize ≤ j →
      j < destination * elementSize + run * elementSize →
      want j = some (byteOfFill fill (j % elementSize))) :
    ∃ out, fillRuns buffer elementSize fill [(destination, run)] = some out ∧
      Bytes.Completes want (fun j => destination * elementSize ≤ j ∧
        j < destination * elementSize + run * elementSize) buffer out := by
  obtain ⟨out, hout, hsize, hbytes⟩ := getElem?_fillRuns hfill hpos hfit
  refine ⟨out, hout, .of_outside hsize ?_ ?_⟩
  · rintro j ⟨hfrom, hto⟩
    rw [hbytes j (Nat.lt_of_lt_of_le hto hfit), if_pos ⟨hfrom, hto⟩, hwant j hfrom hto]
  · intro j hlt hout
    rw [hbytes j hlt, if_neg hout]

/-- A new buffer is one of zeros that was filled, also where a value of zeros is not written. -/
theorem filledBuffer_eq (fill : Option FillValue) (size : Nat) :
    filledBuffer fill size = fillBytes fill (Bytes.zeros size) := by
  unfold filledBuffer
  cases fill with
  | none => rw [fillBytes, Bytes.size_zeros]
  | some v =>
    dsimp only [fillBytes]
    split
    · rfl
    · rename_i hany
      by_cases hpos : 0 < v.size
      · refine Bytes.eq_of_getElem? (Bytes.size_zeros _) (by simp) fun i hi => ?_
        have hlt : i % v.size < v.bytes.size := Nat.mod_lt i hpos
        -- no byte of the value differs from zero
        have hzero : v.bytes[i % v.size] = 0 := by
          simp only [Array.any_eq_true, decide_eq_true_eq, not_exists] at hany
          exact Decidable.not_not.1 (hany _ hlt)
        rw [Bytes.getElem?_zeros hi, FillValue.getElem?_fill hpos (by simpa using hi),
          Array.getElem?_eq_getElem hlt, hzero]
      · exact (FillValue.fill_of_size_eq_zero (Nat.eq_zero_of_not_pos hpos) _).symm

theorem materialize_eq (elementSize : Nat) (fill : Option FillValue) (count : Nat) :
    materialize elementSize fill count = fillBytes fill (Bytes.zeros (elementSize * count)) :=
  filledBuffer_eq fill _

theorem getElem?_materialize (hfill : ∀ v, fill = some v → v.size = elementSize)
    (hpos : 0 < elementSize) (count : Nat) {i : Nat} (hi : i < elementSize * count) :
    (materialize elementSize fill count)[i]? = some (byteOfFill fill (i % elementSize)) := by
  rw [materialize_eq]
  apply getElem?_fillBytes hfill hpos
  rwa [Bytes.size_zeros]

@[simp] theorem size_materialize (fill : Option FillValue) (elementSize count : Nat) :
    (materialize elementSize fill count).size = elementSize * count := by
  rw [materialize_eq, size_fillBytes, Bytes.size_zeros]

end Hyperslab
