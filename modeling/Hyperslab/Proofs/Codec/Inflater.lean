import Hyperslab.Codec.Deflate.Inflater

/-!
# What a bit does to the inflater

Decoded bytes stay: a bit adds some at the end of the output or none. A zlib stream ends with a
checksum of 32 bits, so from any place before the checksum it takes more than 32 bits to finish, and
a stream that a last byte finishes is inside of its checksum before that byte.

## Main definitions

- `Inflater.Moves`: the inflater after a code or number other than the checksum
- `Inflater.bitsToFinish`: a number of bits without which the stream does not end

## Main statements

- `Inflater.exists_output_foldl`: bits add to the output
- `Inflater.inChecksum_of_finished`: where the last bits of a stream find the inflater
-/

namespace Hyperslab

namespace Inflater

/-- A code or number other than the checksum was taken: bytes may be added, the bits collected stay
as they are, and the stream has not ended. -/
structure Moves (m m' : Inflater) : Prop where
  output_eq : ∃ more, m'.output = m.output ++ more
  fieldBits_eq : m'.fieldBits = m.fieldBits
  unfinished : m'.isFinished = false

variable {m m' : Inflater}

theorem moves_of_eq (houtput : m'.output = m.output) (hbits : m'.fieldBits = m.fieldBits)
    (hphase : m'.isFinished = false) : Moves m m' :=
  ⟨⟨#[], by rw [houtput, Array.append_empty]⟩, hbits, hphase⟩

theorem moves_enter_of {phase : Phase} (more : Bytes) (houtput : m'.output = m.output ++ more)
    (hbits : m'.fieldBits = m.fieldBits) (hphase : (m'.enter phase).isFinished = false) :
    Moves m (m'.enter phase) :=
  ⟨⟨more, houtput⟩, hbits, hphase⟩

theorem moves_endBlock (more : Bytes) (houtput : m'.output = m.output ++ more)
    (hbits : m'.fieldBits = m.fieldBits) : Moves m m'.endBlock := by
  rw [endBlock]
  split
  · exact moves_enter_of more houtput hbits rfl
  · exact moves_enter_of more houtput hbits rfl

theorem output_copyBack (output : Bytes) (distance length : Nat) :
    ∃ more, copyBack output distance length = output ++ more := by
  induction length with
  | zero => exact ⟨#[], (Array.append_empty).symm⟩
  | succ length ih =>
    obtain ⟨more, hmore⟩ := ih
    rw [copyBack, Nat.fold_succ, ← copyBack, hmore]
    exact ⟨_, Array.push_append⟩

theorem moves_copy (codes : BlockCodes) (distance length : Nat) :
    Moves m (m.copy codes distance length) := by
  obtain ⟨more, hmore⟩ := output_copyBack m.output distance length
  exact ⟨⟨more, hmore⟩, rfl, rfl⟩

theorem moves_takeHeader (value : Nat) : Moves m (m.takeHeader value) := by
  unfold takeHeader
  dsimp only
  split <;> exact moves_of_eq rfl rfl rfl

theorem moves_takeBlockHeader (value : Nat) : Moves m (m.takeBlockHeader value) := by
  unfold takeBlockHeader
  split <;> exact moves_of_eq rfl rfl rfl

theorem moves_takeStoredLength (value : Nat) : Moves m (m.takeStoredLength value) := by
  unfold takeStoredLength
  dsimp only
  split
  · exact moves_of_eq rfl rfl rfl
  · split
    · exact moves_endBlock #[] (Array.append_empty).symm rfl
    · exact moves_of_eq rfl rfl rfl

theorem moves_takeStoredByte (left value : Nat) : Moves m (m.takeStoredByte left value) := by
  have hpush : (m.push (UInt8.ofNat value)).output = m.output ++ #[UInt8.ofNat value] :=
    Array.push_eq_append
  unfold takeStoredByte
  split
  · exact moves_endBlock _ hpush rfl
  · exact moves_enter_of _ hpush rfl rfl

theorem moves_takeCodeSizes (value : Nat) : Moves m (m.takeCodeSizes value) := by
  unfold takeCodeSizes
  dsimp only
  split <;> exact moves_of_eq rfl rfl rfl

theorem moves_takeWidthWidth (sizes : CodeSizes) (widths : List Nat) (value : Nat) :
    Moves m (m.takeWidthWidth sizes widths value) := by
  unfold takeWidthWidth
  dsimp only
  split
  · exact moves_of_eq rfl rfl rfl
  · split <;> exact moves_of_eq rfl rfl rfl

theorem moves_addWidths (sizes : CodeSizes) (code : CodeTree) (widths : Array Nat)
    (value times : Nat) : Moves m (m.addWidths sizes code widths value times) := by
  unfold addWidths
  dsimp only
  split
  · exact moves_of_eq rfl rfl rfl
  · split
    · split <;> exact moves_of_eq rfl rfl rfl
    · exact moves_of_eq rfl rfl rfl

theorem moves_takeWidth (sizes : CodeSizes) (code subtree : CodeTree) (widths : Array Nat) :
    Moves m (m.takeWidth sizes code subtree widths) := by
  unfold takeWidth
  split
  · exact moves_of_eq rfl rfl rfl
  · exact moves_of_eq rfl rfl rfl
  · split
    · exact moves_addWidths _ _ _ _ _
    · split
      · split <;> exact moves_of_eq rfl rfl rfl
      · split <;> exact moves_of_eq rfl rfl rfl

theorem moves_takeSymbol (codes : BlockCodes) (subtree : CodeTree) :
    Moves m (m.takeSymbol codes subtree) := by
  unfold takeSymbol
  split
  · exact moves_of_eq rfl rfl rfl
  · exact moves_of_eq rfl rfl rfl
  · split
    · exact moves_enter_of _ Array.push_eq_append rfl rfl
    · split
      · exact moves_endBlock #[] (Array.append_empty).symm rfl
      · split <;> exact moves_of_eq rfl rfl rfl

theorem moves_takeDistance (codes : BlockCodes) (length : Nat) (subtree : CodeTree) :
    Moves m (m.takeDistance codes length subtree) := by
  unfold takeDistance
  split
  · exact moves_of_eq rfl rfl rfl
  · exact moves_of_eq rfl rfl rfl
  · split
    · exact moves_copy _ _ _
    · exact moves_of_eq rfl rfl rfl
    · exact moves_of_eq rfl rfl rfl

/-- The checksum is being read, and some of its bits were taken. -/
def InChecksum (m : Inflater) : Prop :=
  (∃ padding, m.phase = .checksum padding) ∧ 0 < m.fieldBits

/-- A number of bits without which the stream does not end. Before the checksum it is one more than
the checksum has, for the code or number that comes before it. -/
def bitsToFinish (m : Inflater) : Nat :=
  match m.phase with
  | .finished => 0
  | .checksum padding => padding + 32 - m.fieldBits
  | _ => 33

/-- Before the checksum, whatever is taken leads to a place before its first bit. -/
theorem moves_take (hbits : m.phase.bits ≠ 0) (hchecksum : ∀ padding, m.phase ≠ .checksum padding)
    (value : Nat) : Moves m (m.take value) := by
  unfold take
  split
  case h_1 => exact moves_takeHeader _
  case h_2 => exact moves_takeBlockHeader _
  case h_3 => exact moves_takeStoredLength _
  case h_4 => exact moves_takeStoredByte _ _
  case h_5 => exact moves_takeCodeSizes _
  case h_6 => exact moves_takeWidthWidth _ _ _
  case h_7 => exact moves_takeWidth _ _ _ _
  case h_8 => exact moves_addWidths _ _ _ _ _
  case h_9 => exact moves_takeSymbol _ _
  case h_10 => exact moves_of_eq rfl rfl rfl
  case h_11 => exact moves_takeDistance _ _ _
  case h_12 => exact moves_copy _ _ _
  case h_13 padding hphase => exact absurd hphase (hchecksum padding)
  case h_14 hphase => exact absurd (by rw [hphase]; rfl) hbits
  case h_15 hphase => exact absurd (by rw [hphase]; rfl) hbits

theorem take_checksum {padding : Nat} (h : m.phase = .checksum padding) (value : Nat) :
    m.take value = m.enter .finished ∨ m.take value = m.enter .malformed := by
  rw [take, h]
  dsimp only [takeChecksum]
  split
  · exact .inl rfl
  · exact .inr rfl

/-- The inflater with a bit that completes what the phase asked for, before its value is taken. -/
def complete (m : Inflater) : Inflater :=
  { m with field := 0, fieldBits := 0, bitsTaken := m.bitsTaken + 1 }

/-- All that a bit may do: nothing, once the inflater has stopped; be collected; complete the
checksum; or complete what the phase before it asked for. -/
theorem step_cases (m : Inflater) (bit : Bool) :
    m.step bit = m ∨
    (m.fieldBits + 1 < m.phase.bits ∧ ∃ value, m.step bit =
      { m with field := value, fieldBits := m.fieldBits + 1, bitsTaken := m.bitsTaken + 1 }) ∨
    (∃ padding, m.phase = .checksum padding ∧ padding + 32 ≤ m.fieldBits + 1 ∧
      (m.step bit = m.complete.enter .finished ∨ m.step bit = m.complete.enter .malformed)) ∨
    ((∀ padding, m.phase ≠ .checksum padding) ∧ Moves m.complete (m.step bit)) := by
  by_cases hbits : m.phase.bits = 0
  · exact .inl (if_pos hbits)
  by_cases hlt : m.fieldBits + 1 < m.phase.bits
  · exact .inr (.inl ⟨hlt, _, (if_neg hbits).trans (if_pos hlt)⟩)
  obtain ⟨value, hstep⟩ : ∃ value, m.step bit = m.complete.take value :=
    ⟨_, (if_neg hbits).trans (if_neg hlt)⟩
  rw [hstep]
  by_cases hchecksum : ∃ padding, m.phase = .checksum padding
  · obtain ⟨padding, hphase⟩ := hchecksum
    rw [hphase, Phase.bits] at hlt
    exact .inr (.inr (.inl ⟨padding, hphase, by omega,
      take_checksum (m := m.complete) hphase value⟩))
  · have hnot : ∀ padding, m.phase ≠ .checksum padding := fun padding hphase =>
      hchecksum ⟨padding, hphase⟩
    exact .inr (.inr (.inr ⟨hnot, moves_take (m := m.complete) hbits hnot value⟩))

theorem exists_output_step (m : Inflater) (bit : Bool) :
    ∃ more, (m.step bit).output = m.output ++ more := by
  have hsame : m.output = m.output ++ #[] := Array.append_empty.symm
  rcases m.step_cases bit with hstep | ⟨-, value, hstep⟩ | ⟨_, -, -, hstep | hstep⟩ | ⟨-, hmoves⟩
  · exact ⟨#[], by rw [hstep]; exact hsame⟩
  · exact ⟨#[], by rw [hstep]; exact hsame⟩
  · exact ⟨#[], by rw [hstep]; exact hsame⟩
  · exact ⟨#[], by rw [hstep]; exact hsame⟩
  · exact hmoves.output_eq

theorem exists_output_foldl (bits : List Bool) (m : Inflater) :
    ∃ more, (bits.foldl step m).output = m.output ++ more := by
  induction bits generalizing m with
  | nil => exact ⟨#[], (Array.append_empty).symm⟩
  | cons bit bits ih =>
    obtain ⟨more, hmore⟩ := m.exists_output_step bit
    obtain ⟨rest, hrest⟩ := ih (m.step bit)
    exact ⟨more ++ rest, by rw [List.foldl_cons, hrest, hmore, Array.append_assoc]⟩

theorem foldl_of_isStopped (h : m.isStopped = true) (bits : List Bool) :
    bits.foldl step m = m := by
  have hbits : m.phase.bits = 0 := by simpa [isStopped] using h
  induction bits with
  | nil => rfl
  | cons bit bits ih =>
    have hstep : m.step bit = m := if_pos hbits
    rw [List.foldl_cons, hstep, ih]

/-- What is inside of the checksum after a bit had all of its output before it. -/
theorem output_step_of_inChecksum {bit : Bool} (h : (m.step bit).InChecksum) :
    (m.step bit).output = m.output := by
  obtain ⟨⟨padding, hphase⟩, hpos⟩ := h
  rcases m.step_cases bit with hstep | ⟨-, value, hstep⟩ | ⟨_, -, -, hstep | hstep⟩ | ⟨-, hmoves⟩
  · rw [hstep]
  · rw [hstep]
  · rw [hstep]
    rfl
  · rw [hstep]
    rfl
  · -- nothing of the checksum is collected yet
    rw [hmoves.fieldBits_eq] at hpos
    exact absurd hpos (Nat.lt_irrefl 0)

theorem bitsToFinish_of_checksum {padding : Nat} (h : m.phase = .checksum padding) :
    m.bitsToFinish = padding + 32 - m.fieldBits := by
  rw [bitsToFinish, h]

theorem bitsToFinish_le (h : ∀ padding, m.phase ≠ .checksum padding) : m.bitsToFinish ≤ 33 := by
  unfold bitsToFinish
  split
  · omega
  · exact absurd ‹_› (h _)
  · omega

/-- A checksum takes all of its bits where none was collected before it. -/
theorem Moves.le_bitsToFinish (h : Moves m m') (hzero : m.fieldBits = 0) :
    32 ≤ m'.bitsToFinish := by
  have hbits := h.fieldBits_eq
  have hunfinished := h.unfinished
  unfold bitsToFinish
  split
  · rename_i hphase
    simp [isFinished, hphase] at hunfinished
  · omega
  · omega

theorem bitsToFinish_le_step (m : Inflater) (bit : Bool) :
    m.bitsToFinish ≤ (m.step bit).bitsToFinish + 1 := by
  rcases m.step_cases bit with hstep | ⟨-, value, hstep⟩ | ⟨padding, hphase, hle, -⟩ |
    ⟨hnot, hmoves⟩
  · rw [hstep]
    omega
  · rw [hstep]
    unfold bitsToFinish
    dsimp only
    split <;> omega
  · rw [bitsToFinish_of_checksum hphase]
    omega
  · have hfrom := bitsToFinish_le hnot
    have hto := hmoves.le_bitsToFinish rfl
    omega

theorem bitsToFinish_le_foldl (bits : List Bool) (m : Inflater) :
    m.bitsToFinish ≤ (bits.foldl step m).bitsToFinish + bits.length := by
  induction bits generalizing m with
  | nil => exact Nat.le_refl _
  | cons bit bits ih =>
    have hfirst := m.bitsToFinish_le_step bit
    have hrest := ih (m.step bit)
    rw [List.foldl_cons, List.length_cons]
    omega

theorem bitsToFinish_of_isFinished (h : m.isFinished = true) : m.bitsToFinish = 0 := by
  unfold isFinished at h
  split at h
  · rename_i hphase
    rw [bitsToFinish, hphase]
  · cases h

/-- A stream that up to eight bits finish was inside of its checksum before them, or had ended. -/
theorem inChecksum_of_finished {bits : List Bool} (hlength : bits.length ≤ 8)
    (h : (bits.foldl step m).isFinished = true) : m.isFinished = true ∨ m.InChecksum := by
  have hle := bitsToFinish_le_foldl bits m
  rw [bitsToFinish_of_isFinished h] at hle
  cases hphase : m.phase with
  | finished => exact .inl (by rw [isFinished, hphase])
  | checksum padding =>
    rw [bitsToFinish_of_checksum hphase] at hle
    exact .inr ⟨⟨padding, hphase⟩, by omega⟩
  | _ =>
    rw [bitsToFinish, hphase] at hle
    dsimp only at hle
    omega

/-- The bits of bytes, byte after byte. -/
def bitsOfAll (bytes : List UInt8) : List Bool :=
  bytes.flatMap bitsOf

@[simp] theorem bitsOfAll_nil : bitsOfAll [] = [] := rfl

@[simp] theorem bitsOfAll_cons (byte : UInt8) (bytes : List UInt8) :
    bitsOfAll (byte :: bytes) = bitsOf byte ++ bitsOfAll bytes := rfl

@[simp] theorem bitsOfAll_append (front back : List UInt8) :
    bitsOfAll (front ++ back) = bitsOfAll front ++ bitsOfAll back :=
  List.flatMap_append

theorem run_eq_foldl (m : Inflater) (bytes : Bytes) :
    m.run bytes = (bitsOfAll bytes.toList).foldl step m := by
  rw [run, ← Array.foldl_toList]
  induction bytes.toList generalizing m with
  | nil => rfl
  | cons byte rest ih =>
    rw [List.foldl_cons, ih, bitsOfAll_cons, List.foldl_append]
    rfl

end Inflater

end Hyperslab
