import Hyperslab.Proofs.Codec.Inflater
import Hyperslab.Proofs.Codec.Size

/-!
# Decoding piece by piece

A zlib stream that is decoded as its payload comes in is at every moment on its way to what the
whole payload makes of the inflater: the bits at hand and those still to come lead there from where
it is. So the bytes that reads hand out are the output of the whole payload from front to back, and
reads go on until they have all of it.

## Main definitions

- `InflateStream.bitsAtHand`: the bits of the piece that are not yet taken
- `InflateStream.Reaches`: a stream on its way to what the whole payload makes

## Main statements

- `InflateStream.paused_takeBits`: decoding up to a pause leads where decoding on would
- `InflateStream.ends_read`: a read hands out the next bytes, or fails where the stream has no end
- `LawfulDecoder.inflater`: decoding piece by piece is lawful
-/

namespace Hyperslab

namespace InflateStream

open Inflater

/-- The bits left of the byte begun last and those of the bytes after it. -/
def bitsLeft (piece : Bytes) (bits : List Bool) (begun : Nat) : List Bool :=
  bits ++ bitsOfAll (piece.toList.drop begun)

/-- The bits at hand that are not yet taken. -/
def bitsAtHand (s : InflateStream) : List Bool :=
  bitsLeft s.piece s.bits s.begun

/-- What is known of decoding that pauses with `limit` bytes to hand out. -/
structure Paused (limit : Nat) (piece : Bytes) (m : Inflater) (bits : List Bool) (begun : Nat)
    (r : Inflater × List Bool × Nat) : Prop where
  /-- The bits left lead where those before did. -/
  foldl_eq : (bitsLeft piece r.2.1 r.2.2).foldl step r.1 = (bitsLeft piece bits begun).foldl step m
  length_le : r.2.1.length ≤ 8
  begun_le : begun ≤ r.2.2
  output_eq : ∃ more, r.1.output = m.output ++ more
  /-- Decoding pauses at its end, at the limit, or for lack of bits. -/
  stops : r.1.isStopped = true ∨ limit < r.1.output.size ∨
    (limit = r.1.output.size ∧ r.1.isAtStoredByte = true) ∨ bitsLeft piece r.2.1 r.2.2 = []
  /-- The output is complete before the checksum is begun. -/
  size_le : (m.InChecksum → m.output.size ≤ limit) → r.1.InChecksum → r.1.output.size ≤ limit

/-- The bits of a byte that is begun were those of the bytes to come. -/
theorem bitsLeft_begin {piece : Bytes} {begun : Nat} (h : begun < piece.size) :
    bitsLeft piece (bitsOf piece[begun]) (begun + 1) = bitsLeft piece [] begun := by
  rw [bitsLeft, bitsLeft, List.nil_append, ← bitsOfAll_cons, ← Array.getElem_toList,
    List.getElem_cons_drop]

theorem bitsLeft_of_le {piece : Bytes} {begun : Nat} (h : piece.size ≤ begun) (bits : List Bool) :
    bitsLeft piece bits begun = bits := by
  rw [bitsLeft, List.drop_eq_nil_of_le (by simpa using h), bitsOfAll_nil, List.append_nil]

theorem isPaused_iff {limit held : Nat} {m : Inflater} :
    isPaused limit m held = true ↔ m.isStopped = true ∨ limit < m.output.size ∨
      (limit = m.output.size ∧ m.isAtStoredByte = true ∧ held = 0) := by
  simp [isPaused, or_assoc, and_assoc]

theorem paused_takeBits (limit : Nat) (piece : Bytes) (m : Inflater) (ahead : Lookahead)
    (due : Bool) (bits : List Bool) (begun : Nat) (hlength : bits.length ≤ 8) :
    Paused limit piece m bits begun (takeBits limit piece m ahead due bits begun) := by
  fun_induction takeBits limit piece m ahead due bits begun with
  | case1 m ahead due bits begun held hpaused =>
    refine ⟨rfl, hlength, Nat.le_refl _, ⟨#[], (Array.append_empty).symm⟩, ?_, fun h => h⟩
    rcases isPaused_iff.1 hpaused with hstopped | hlimit | ⟨hlimit, hstored, -⟩
    · exact .inl hstopped
    · exact .inr (.inl hlimit)
    · exact .inr (.inr (.inl ⟨hlimit, hstored⟩))
  | case2 m ahead due begun bit bits m' held hpaused ahead' ih =>
    have hrest := ih (by rw [List.length_cons] at hlength; omega)
    obtain ⟨more, hmore⟩ := hrest.output_eq
    obtain ⟨added, hadded⟩ := m.exists_output_step bit
    refine ⟨hrest.foldl_eq, hrest.length_le, hrest.begun_le, ?_, hrest.stops, ?_⟩
    · exact ⟨added ++ more, by rw [hmore, ← Array.append_assoc, ← hadded]⟩
    · intro _ hchecksum
      refine hrest.size_le (fun hinside => ?_) hchecksum
      -- a bit of the checksum adds nothing to the output, which was not beyond the limit
      have hle : ¬limit < m.output.size := fun hlt => hpaused (isPaused_iff.2 (.inr (.inl hlt)))
      rw [output_step_of_inChecksum hinside]
      omega
  | case3 m ahead due begun hbegun held hpaused ahead' ih =>
    have hrest := ih (Nat.le_of_eq (by simp [bitsOf]))
    refine ⟨?_, hrest.length_le, Nat.le_of_succ_le hrest.begun_le, hrest.output_eq, hrest.stops,
      hrest.size_le⟩
    rw [hrest.foldl_eq, bitsLeft_begin hbegun]
  | case4 m ahead due begun hbegun held hpaused =>
    refine ⟨rfl, hlength, Nat.le_refl _, ⟨#[], (Array.append_empty).symm⟩, ?_, fun h => h⟩
    exact .inr (.inr (.inr (bitsLeft_of_le (Nat.le_of_not_lt hbegun) [])))

/-- The stream is on its way to `m`: the bits at hand and those of the tail lead there. The bytes
handed out and those that may be are output, and a stream that is cut short never ends. -/
structure Reaches (s : InflateStream) (tail : List Bool) (m : Inflater) : Prop where
  foldl_eq : (s.bitsAtHand ++ tail).foldl step s.machine = m
  length_le : s.bits.length ≤ 8
  taken_le : s.taken ≤ s.released
  released_le : s.released ≤ s.machine.output.size
  size_le : s.machine.InChecksum → s.machine.output.size ≤ (s.taken / window + 1) * window
  cut : s.isCut = true → m.isFinished = false

variable {s s' : InflateStream} {tail : List Bool} {m : Inflater}

theorem Reaches.exists_output (h : s.Reaches tail m) :
    ∃ more, m.output = s.machine.output ++ more := by
  rw [← h.foldl_eq]
  exact exists_output_foldl _ _

theorem Reaches.of_isStopped (h : s.Reaches tail m) (hstopped : s.machine.isStopped = true) :
    s.machine = m := by
  rw [← h.foldl_eq, foldl_of_isStopped hstopped]

/-- What is output already is the front of the whole output. -/
theorem Reaches.extract_eq (h : s.Reaches tail m) {i j : Nat} (hj : j ≤ s.machine.output.size) :
    s.machine.output.extract i j = m.output.extract i j := by
  obtain ⟨more, hmore⟩ := h.exists_output
  rw [hmore, Array.extract_append, Nat.sub_eq_zero_of_le hj]
  simp

theorem lt_window (n : Nat) : n < (n / window + 1) * window := by
  unfold window
  omega

theorem window_mono {i j : Nat} (h : i ≤ j) :
    (i / window + 1) * window ≤ (j / window + 1) * window := by
  unfold window
  omega

theorem reaches_handOut (h : s.Reaches tail m) (limit : Nat) :
    (s.handOut limit).2.Reaches tail m ∧
      (s.handOut limit).1.size = min limit (s.released - s.taken) ∧
      (s.handOut limit).1 = m.output.extract s.taken (s.taken + (s.handOut limit).1.size) := by
  have hsize : (s.handOut limit).1.size = min limit (s.released - s.taken) := by
    have := h.released_le
    have := h.taken_le
    simp only [handOut, Array.size_extract]
    omega
  refine ⟨⟨h.foldl_eq, h.length_le, ?_, h.released_le, ?_, h.cut⟩, hsize, ?_⟩
  · have := h.taken_le
    show s.taken + (s.handOut limit).1.size ≤ s.released
    omega
  · intro hchecksum
    exact Nat.le_trans (h.size_le hchecksum) (window_mono (Nat.le_add_right _ _))
  · have := h.released_le
    have := h.taken_le
    rw [← h.extract_eq (by omega), hsize]
    show s.machine.output.extract s.taken (min (s.taken + limit) s.released) = _
    congr 1
    omega

/-- What is known of a stream that was decoded. -/
structure Decoded (s : InflateStream) (tail : List Bool) (m : Inflater) (s' : InflateStream) :
    Prop where
  reaches : s'.Reaches tail m
  taken_eq : s'.taken = s.taken
  payload_eq : s'.payload = s.payload
  piece_eq : s'.piece = s.piece
  begun_le : s.begun ≤ s'.begun
  isCut_eq : s'.isCut = s.isCut
  released_eq : s'.released = min s'.machine.output.size ((s.taken / window + 1) * window)
  stops : s'.machine.isStopped = true ∨
    (s.taken / window + 1) * window < s'.machine.output.size ∨
    ((s.taken / window + 1) * window = s'.machine.output.size ∧
      s'.machine.isAtStoredByte = true) ∨ s'.bitsAtHand = []

theorem decoded_decode (h : s.Reaches tail m) (htaken : s.taken = s.released) :
    Decoded s tail m s.decode := by
  have hpaused := paused_takeBits ((s.taken / window + 1) * window) s.piece s.machine {} true s.bits
    s.begun h.length_le
  obtain ⟨more, hmore⟩ := hpaused.output_eq
  have hlt := lt_window s.taken
  have hsize := congrArg Array.size hmore
  rw [Array.size_append] at hsize
  have hreleased := h.released_le
  refine ⟨⟨?_, hpaused.length_le, ?_, ?_, hpaused.size_le h.size_le, h.cut⟩, rfl, rfl, rfl,
    hpaused.begun_le, rfl, rfl, hpaused.stops⟩
  · have hdecode : s.decode.bitsAtHand.foldl step s.decode.machine =
        s.bitsAtHand.foldl step s.machine := hpaused.foldl_eq
    rw [List.foldl_append, hdecode, ← List.foldl_append, h.foldl_eq]
  · show s.taken ≤ min _ _
    omega
  · exact Nat.min_le_left _ _

/-- Nothing that could be decoded is left of the piece but some bits. -/
def IsSpent (s : InflateStream) : Prop :=
  s.machine.isStopped = true ∨ s.piece.size ≤ s.begun

theorem size_le_of_bitsLeft {piece : Bytes} {bits : List Bool} {begun : Nat}
    (h : bitsLeft piece bits begun = []) : piece.size ≤ begun := by
  by_cases hlt : begun < piece.size
  · rw [bitsLeft, List.append_eq_nil_iff] at h
    rw [List.drop_eq_getElem_cons (by simpa using hlt), bitsOfAll_cons, List.append_eq_nil_iff] at h
    simp [bitsOf] at h
  · omega

theorem takeBits_of_isStopped {limit : Nat} {piece : Bytes} {m : Inflater} {ahead : Lookahead}
    {due : Bool} {bits : List Bool} {begun : Nat} (h : m.isStopped = true) :
    takeBits limit piece m ahead due bits begun = (m, bits, begun) := by
  unfold takeBits
  rw [if_pos (isPaused_iff.2 (.inl h))]

theorem Decoded.isSpent (h : Decoded s tail m s.decode) (hspent : s.IsSpent) :
    s.decode.IsSpent := by
  rcases hspent with hstopped | hle
  · refine .inl ?_
    show (takeBits _ _ _ _ _ _ _).1.isStopped = true
    rw [takeBits_of_isStopped hstopped]
    exact hstopped
  · refine .inr ?_
    rw [h.piece_eq]
    exact Nat.le_trans hle h.begun_le

/-- What is known of up to `limit` bytes that a stream on its way hands out. -/
structure Served (s : InflateStream) (tail : List Bool) (m : Inflater) (limit : Nat) (bytes : Bytes)
    (s' : InflateStream) : Prop where
  reaches : s'.Reaches tail m
  taken_eq : s'.taken = s.taken + bytes.size
  size_le : bytes.size ≤ limit
  bytes_eq : bytes = m.output.extract s.taken (s.taken + bytes.size)
  payload_eq : s'.payload = s.payload
  isCut_eq : s'.isCut = s.isCut
  spent : s.IsSpent → s'.IsSpent
  /-- No bytes are handed out only where there are none, and nothing to decode them from. -/
  empty : bytes.size = 0 → s'.IsSpent ∧ s'.machine.output.size = s'.taken

theorem served_handOut (h : s.Reaches tail m) {limit : Nat} (hlimit : 0 < limit)
    (hlt : s.taken < s.released) : Served s tail m limit (s.handOut limit).1 (s.handOut limit).2 := by
  obtain ⟨hreaches, hsize, hbytes⟩ := reaches_handOut h limit
  exact ⟨hreaches, rfl, by omega, hbytes, rfl, rfl, fun hspent => hspent, fun hzero => by omega⟩

theorem served_decode (h : s.Reaches tail m) (htaken : s.taken = s.released) {limit : Nat}
    (hlimit : 0 < limit) :
    Served s tail m limit (s.decode.handOut limit).1 (s.decode.handOut limit).2 ∧
      (s.decode.machine.InChecksum → s.decode.bitsAtHand = []) := by
  have hdecoded := decoded_decode h htaken
  obtain ⟨hreaches, hsize, hbytes⟩ := reaches_handOut hdecoded.reaches limit
  have hlt := lt_window s.taken
  have hreleased := hdecoded.released_eq
  have htaken' := hdecoded.taken_eq
  refine ⟨⟨hreaches, ?_, by omega, ?_, hdecoded.payload_eq, hdecoded.isCut_eq,
    fun hspent => hdecoded.isSpent hspent, fun hzero => ?_⟩, fun hchecksum => ?_⟩
  · show s.decode.taken + (s.decode.handOut limit).1.size = _
    rw [htaken']
  · rw [htaken'] at hbytes
    exact hbytes
  · have hle := hdecoded.reaches.taken_le
    have houtput := hdecoded.reaches.released_le
    have hempty : s.decode.machine.output.size = s.decode.taken := by omega
    refine ⟨?_, ?_⟩
    · rcases hdecoded.stops with hstopped | hlimit' | ⟨hlimit', -⟩ | hnone
      · exact .inl hstopped
      · omega
      · omega
      · exact .inr (size_le_of_bitsLeft hnone)
    · show s.decode.machine.output.size = s.decode.taken + (s.decode.handOut limit).1.size
      omega
  · have hle := hdecoded.reaches.size_le hchecksum
    obtain ⟨⟨padding, hphase⟩, -⟩ := hchecksum
    rcases hdecoded.stops with hstopped | hlimit' | ⟨-, hstored⟩ | hnone
    · simp [isStopped, hphase, Phase.bits] at hstopped
    · rw [htaken'] at hle
      omega
    · simp [isAtStoredByte, hphase] at hstored
    · exact hnone

theorem Served.trans {limit : Nat} {bytes more : Bytes} {s'' : InflateStream}
    (h : Served s tail m limit bytes s')
    (h' : Served s' tail m (limit - bytes.size) more s'') (hne : bytes.size ≠ 0) :
    Served s tail m limit (bytes ++ more) s'' := by
  have hsize := h.size_le
  have hsize' := h'.size_le
  have htaken := h.taken_eq
  have htaken' := h'.taken_eq
  refine ⟨h'.reaches, ?_, ?_, ?_, h'.payload_eq.trans h.payload_eq, h'.isCut_eq.trans h.isCut_eq,
    fun hspent => h'.spent (h.spent hspent), ?_⟩
  · rw [Array.size_append]
    omega
  · rw [Array.size_append]
    omega
  · have hbytes := h.bytes_eq
    have hmore := h'.bytes_eq
    rw [htaken] at hmore
    rw [Array.size_append]
    calc bytes ++ more
        = m.output.extract s.taken (s.taken + bytes.size) ++ m.output.extract
            (s.taken + bytes.size) (s.taken + bytes.size + more.size) := by rw [← hbytes, ← hmore]
      _ = m.output.extract s.taken (s.taken + (bytes.size + more.size)) := by
          rw [Array.extract_append_extract]
          congr 1 <;> omega
  · intro hzero
    rw [Array.size_append] at hzero
    omega

/-- A result of decoding is what a stream on its way hands out, or an error that comes up only where
the stream does not end. -/
def Serves (s : InflateStream) (tail : List Bool) (m : Inflater) (limit : Nat) :
    Except DecodeError (Bytes × InflateStream) → Prop
  | .ok (bytes, s') =>
    Served s tail m limit bytes s' ∧
      (s.taken = s.released → s'.machine.InChecksum → s'.bitsAtHand = [])
  | .error e => e = .malformed ∧ m.isFinished = false

theorem isStopped_of_isMalformed {m : Inflater} (h : m.isMalformed = true) :
    m.isStopped = true ∧ m.isFinished = false := by
  unfold isMalformed at h
  split at h
  · rename_i hphase
    simp [isStopped, isFinished, hphase, Phase.bits]
  · cases h

/-- A handing out of fewer bytes than wanted is one of all that may be handed out. -/
theorem taken_handOut (h : s.Reaches tail m) (limit : Nat)
    (hlt : (s.handOut limit).1.size < limit) :
    (s.handOut limit).2.taken = (s.handOut limit).2.released := by
  obtain ⟨-, hsize, -⟩ := reaches_handOut h limit
  have hle := h.taken_le
  show s.taken + (s.handOut limit).1.size = s.released
  omega

theorem serves_serveDecoded (s : InflateStream) (limit : Nat) (h : s.Reaches tail m)
    (htaken : s.taken = s.released) (hlimit : 0 < limit) :
    Serves s tail m limit (s.serveDecoded limit) := by
  fun_induction s.serveDecoded limit with
  | case1 s limit s' hmalformed =>
    have hreaches := (decoded_decode h htaken).reaches
    obtain ⟨hstopped, hunfinished⟩ := isStopped_of_isMalformed hmalformed
    exact ⟨rfl, by rw [← hreaches.of_isStopped hstopped]; exact hunfinished⟩
  | case2 s limit s₁ hmalformed bytes s' hhandOut hend =>
    have hserved := served_decode h htaken hlimit
    have hhandOut : s.decode.handOut limit = (bytes, s') := hhandOut
    have hbits : s'.bitsAtHand = s.decode.bitsAtHand := by
      rw [← show (s.decode.handOut limit).2 = s' from congrArg Prod.snd hhandOut]
      rfl
    have hmachine : s'.machine = s.decode.machine := by
      rw [← show (s.decode.handOut limit).2 = s' from congrArg Prod.snd hhandOut]
      rfl
    rw [hhandOut] at hserved
    exact ⟨hserved.1, fun _ => by rw [hbits, hmachine]; exact hserved.2⟩
  | case3 s limit s₁ hmalformed bytes s' hhandOut hend ih =>
    have hhandOut : s.decode.handOut limit = (bytes, s') := hhandOut
    have hserved := (served_decode h htaken hlimit).1
    have htaken' := taken_handOut (decoded_decode h htaken).reaches limit
    rw [hhandOut] at hserved htaken'
    have hne : bytes.size ≠ 0 := fun hzero => hend (.inl hzero)
    have hlt : bytes.size < limit := by omega
    have hrest := ih hserved.reaches (htaken' hlt) (by omega)
    cases hmore : s'.serveDecoded (limit - bytes.size) with
    | error e =>
      rw [hmore] at hrest
      exact hrest
    | ok r =>
      rw [hmore] at hrest
      exact ⟨hserved.trans hrest.1 hne, fun _ => hrest.2 (htaken' hlt)⟩

theorem serves_serve (h : s.Reaches tail m) {limit : Nat} (hlimit : 0 < limit) :
    Serves s tail m limit (s.serve limit) := by
  rw [serve]
  split
  · rename_i hlt
    exact ⟨served_handOut h hlimit hlt, fun heq => absurd hlt (by omega)⟩
  · have htaken := h.taken_le
    exact serves_serveDecoded s limit h (by omega) hlimit

theorem isStopped_of_isFinished {m : Inflater} (h : m.isFinished = true) : m.isStopped = true := by
  unfold isFinished at h
  split at h
  · rename_i hphase
    simp [isStopped, hphase, Phase.bits]
  · cases h

/-- A stream that has not ended does not end with the bits left, once all that was decoded before
the checksum was handed out. -/
theorem Reaches.unfinished (h : s.Reaches [] m) (hspent : s.IsSpent)
    (hmachine : s.machine.isFinished = false)
    (hchecksum : s.machine.InChecksum → s.bitsAtHand = []) : m.isFinished = false := by
  have hfoldl := h.foldl_eq
  rw [List.append_nil] at hfoldl
  rcases hspent with hstopped | hle
  · rw [← h.of_isStopped hstopped]
    exact hmachine
  · by_cases hfinished : m.isFinished = true
    · -- the bits of one byte are too few for the whole checksum
      have hbits : s.bitsAtHand = s.bits := bitsLeft_of_le hle s.bits
      rw [← hfoldl] at hfinished
      rcases inChecksum_of_finished (by rw [hbits]; exact h.length_le) hfinished with hend | hinside
      · rw [hmachine] at hend
        cases hend
      · rw [hchecksum hinside, List.foldl_nil, hmachine] at hfinished
        cases hfinished
    · simpa using hfinished

/-- An error of decoding comes up only where the stream does not end. -/
def Undecodable (m : Inflater) (e : DecodeError) : Prop :=
  (e = .malformed ∨ e = .incomplete) ∧ m.isFinished = false

/-- The stream is on its way to what its whole payload makes of an inflater. -/
structure At (s : InflateStream) (content : Bytes) (m : Inflater) : Prop where
  within : s.payload.Within content
  reaches : s.Reaches (bitsOfAll (s.payload.bytes content).toList) m

/-- What is known of up to `limit` bytes that are read from a stream: they are the next ones of the
output, and none only at its end. -/
structure Hands (s : InflateStream) (content : Bytes) (m : Inflater) (limit : Nat) (bytes : Bytes)
    (s' : InflateStream) : Prop where
  isAt : s'.At content m
  taken_eq : s'.taken = s.taken + bytes.size
  size_le : bytes.size ≤ limit
  bytes_eq : bytes = m.output.extract s.taken (s.taken + bytes.size)
  ended : bytes.size = 0 → m.isFinished = true ∧ m.output.size = s'.taken

variable {content : Bytes} {source : ByteSource}

/-- All that counts of the stream that is read is how many bytes it has handed out. -/
theorem Hands.of_taken_eq {s₁ : InflateStream} {limit : Nat} {bytes : Bytes}
    (h : Hands s₁ content m limit bytes s') (htaken : s₁.taken = s.taken) :
    Hands s content m limit bytes s' := by
  refine ⟨h.isAt, ?_, h.size_le, ?_, h.ended⟩
  · rw [← htaken]
    exact h.taken_eq
  · rw [← htaken]
    exact h.bytes_eq

/-- A stream without an end may be marked as cut short. -/
theorem Hands.cut {limit : Nat} {bytes : Bytes} (h : Hands s content m limit bytes s')
    (hunfinished : m.isFinished = false) :
    Hands s content m limit bytes { s' with isCut := true } := by
  refine ⟨⟨h.isAt.within, ?_⟩, h.taken_eq, h.size_le, h.bytes_eq, h.ended⟩
  exact { h.isAt.reaches with cut := fun _ => hunfinished }

/-- Bytes that were served are handed out, unless there are none and more may come. -/
theorem Served.hands {limit : Nat} {bytes : Bytes}
    (h : Served s (bitsOfAll (s.payload.bytes content).toList) m limit bytes s')
    (hwithin : s.payload.Within content)
    (hended : bytes.size = 0 → s'.machine.isFinished = true) :
    Hands s content m limit bytes s' := by
  refine ⟨⟨?_, ?_⟩, h.taken_eq, h.size_le, h.bytes_eq, fun hzero => ?_⟩
  · rw [h.payload_eq]
    exact hwithin
  · rw [h.payload_eq]
    exact h.reaches
  · have hfinished := hended hzero
    rw [← h.reaches.of_isStopped (isStopped_of_isFinished hfinished)]
    exact ⟨hfinished, (h.empty hzero).2⟩

/-- After the end of the payload, too, bytes are handed out or the stream does not end. -/
theorem hands_serveLast (h : s.Reaches [] m) (hspent : s.IsSpent)
    (hwithin : s.payload.Within content) (hempty : s.payload.bytes content = #[]) {limit : Nat}
    (hlimit : 0 < limit) :
    match s.serveLast limit with
    | .ok (bytes, s') => Hands s content m limit bytes s'
    | .error e => Undecodable m e := by
  have htail : bitsOfAll (s.payload.bytes content).toList = [] := by
    rw [hempty]
    rfl
  rw [serveLast]
  by_cases hcut : s.isCut = true
  · rw [if_pos hcut]
    exact ⟨.inr rfl, h.cut hcut⟩
  rw [if_neg hcut]
  by_cases hlt : s.taken < s.released
  · rw [if_pos hlt]
    have hserved := served_handOut h hlimit hlt
    rw [← htail] at hserved
    refine hserved.hands hwithin fun hzero => ?_
    obtain ⟨-, hsize, -⟩ := reaches_handOut h limit
    omega
  rw [if_neg hlt]
  have htaken : s.taken = s.released := by
    have hle := h.taken_le
    omega
  have hserves := serves_serve h hlimit
  cases hserve : s.serve limit with
  | error e =>
    rw [hserve] at hserves
    exact ⟨.inl hserves.1, hserves.2⟩
  | ok r =>
    obtain ⟨bytes, s'⟩ := r
    rw [hserve] at hserves
    obtain ⟨hserved, hchecksum⟩ := hserves
    have hhands : (bytes.size = 0 → s'.machine.isFinished = true) →
        Hands s content m limit bytes s' := by
      rw [← htail] at hserved
      exact hserved.hands hwithin
    simp only [bind, Except.bind]
    by_cases hfinished : s'.machine.isFinished = true
    · rw [if_pos hfinished]
      exact hhands fun _ => hfinished
    · -- no bits are left that could end the stream
      rw [if_neg hfinished]
      have hunfinished := hserved.reaches.unfinished (hserved.spent hspent)
        (by simpa using hfinished) (hchecksum htaken)
      by_cases hnone : bytes.isEmpty = true
      · rw [if_pos hnone]
        exact ⟨.inr rfl, hunfinished⟩
      · rw [if_neg hnone]
        exact (hhands fun hzero => absurd (by simpa using hzero) hnone).cut hunfinished

/-- Another piece takes the place of one that is spent. -/
theorem Reaches.refill {piece : Bytes} (payload : Payload)
    (h : s.Reaches (bitsOfAll piece.toList ++ tail) m) (hspent : s.IsSpent) :
    Reaches { s with payload := payload, piece := piece, begun := 0 } tail m := by
  refine ⟨?_, h.length_le, h.taken_le, h.released_le, h.size_le, h.cut⟩
  -- an inflater that has stopped does not mind what bits are thrown away
  rcases hspent with hstopped | hle
  · show List.foldl step s.machine _ = m
    rw [foldl_of_isStopped hstopped, h.of_isStopped hstopped]
  · have hfoldl := h.foldl_eq
    rw [bitsAtHand, bitsLeft_of_le hle, ← List.append_assoc] at hfoldl
    exact hfoldl

/-- What was served is handed out, unless it is nothing and there may be more. -/
theorem ends_serve (h : s.At content m) {limit : Nat} (hlimit : 0 < limit)
    (next : InflateStream → SourceM DecodeError (Bytes × InflateStream))
    (hnext : ∀ s' a, s'.At content m → s'.IsSpent → s'.payload = s.payload →
      SourceM.Ends (next s') a (fun r _ => Hands s' content m limit r.1 r.2)
        (fun e _ => Undecodable m e)) (a : Activity) :
    SourceM.Ends
      (do
        let (bytes, s') ← ofExcept (s.serve limit)
        if bytes.isEmpty && !s'.machine.isFinished then next s' else pure (bytes, s')) a
      (fun r _ => Hands s content m limit r.1 r.2) (fun e _ => Undecodable m e) := by
  have hserves := serves_serve h.reaches hlimit
  rw [SourceM.ends_bind]
  cases hserve : s.serve limit with
  | error e =>
    rw [hserve] at hserves
    exact ⟨.inl hserves.1, hserves.2⟩
  | ok r =>
    obtain ⟨bytes, s'⟩ := r
    rw [hserve] at hserves
    obtain ⟨hserved, -⟩ := hserves
    rw [SourceM.ends_ofExcept_ok]
    dsimp only
    split
    · rename_i hnone
      rw [Bool.and_eq_true, Array.isEmpty_iff_size_eq_zero] at hnone
      obtain ⟨hspent, -⟩ := hserved.empty hnone.1
      have htaken : s'.taken = s.taken := by
        rw [hserved.taken_eq, hnone.1]
        rfl
      have hreaches := hserved.reaches
      rw [← hserved.payload_eq] at hreaches
      have hwithin : s'.payload.Within content := hserved.payload_eq ▸ h.within
      refine (hnext s' a ⟨hwithin, hreaches⟩ hspent hserved.payload_eq).mono ?_ fun _ _ he => he
      intro r a' hr
      exact hr.of_taken_eq htaken
    · rename_i hsome
      exact hserved.hands h.within fun hzero => by
        have hempty : bytes.isEmpty = true := Array.isEmpty_iff_size_eq_zero.2 hzero
        simpa [hempty] using hsome

theorem ends_refill (hserves : source.Serves content) (s : InflateStream) (limit : Nat)
    (h : s.At content m) (hspent : s.IsSpent) (hlimit : 0 < limit) (a : Activity) :
    SourceM.Ends (s.refill source limit) a (fun r _ => Hands s content m limit r.1 r.2)
      (fun e _ => Undecodable m e) := by
  fun_induction s.refill source limit generalizing a with
  | case1 s hnone =>
    have hempty := Payload.bytes_of_next?_none (by decide) hnone content
    have hreaches := h.reaches
    rw [hempty] at hreaches
    obtain ⟨hbytes, hwithin⟩ := s.payload.bytes_reportEnd window a content
    rw [SourceM.ends_bind, SourceM.ends_lift]
    have hlast := hands_serveLast
      (s := { s with payload := (s.payload.reportEnd window a).1 })
      ⟨hreaches.foldl_eq, hreaches.length_le, hreaches.taken_le, hreaches.released_le,
        hreaches.size_le, hreaches.cut⟩ hspent (hwithin.2 h.within) (hbytes.trans hempty) hlimit
    split at hlast
    · rename_i bytes s' hserve
      rw [hserve]
      exact hlast.of_taken_eq rfl
    · rename_i e hserve
      rw [hserve]
      exact hlast
  | case2 s supply payload hnext ih =>
    obtain ⟨hwithin, hbytes, -, -⟩ := Payload.bytes_of_next?_some h.within hnext
    rw [SourceM.ends_bind, SourceM.ends_mapError]
    refine Payload.ends_obtain hserves h.within hnext fun a' => ?_
    have hreaches := h.reaches
    rw [hbytes, Array.toList_append, bitsOfAll_append] at hreaches
    have hrefilled :
        At { s with payload := payload, piece := supply.bytes content, begun := 0 } content m :=
      ⟨hwithin, hreaches.refill payload hspent⟩
    -- `refill` puts the payload back that decoding leaves alone
    refine (ends_serve hrefilled hlimit
      (fun s' => refill source { s' with payload := payload } limit)
      (fun s' a'' h' hspent' hpayload => ?_) a').mono ?_ fun _ _ he => he
    · obtain ⟨payload', machine, bits, piece, begun, taken, released, isCut⟩ := s'
      cases hpayload
      exact ih _ h' hspent' a''
    · intro r a'' hr
      exact hr.of_taken_eq rfl

/-- A read of a stream on its way hands out the next bytes, or fails where the stream does not
end. -/
theorem ends_read (hserves : source.Serves content) (h : s.At content m) {limit : Nat}
    (hlimit : 0 < limit) (a : Activity) :
    SourceM.Ends (s.read source limit) a (fun r _ => Hands s content m limit r.1 r.2)
      (fun e _ => Undecodable m e) := by
  rw [read]
  split
  · exact ends_serve h hlimit (fun s' => s'.refill source limit)
      (fun s' a' h' hspent _ => ends_refill hserves s' limit h' hspent hlimit a') a
  · exact ends_refill hserves s limit h (.inr (by omega)) hlimit a

/-- A stream at the start of a payload is on its way to what the payload makes of an inflater. -/
theorem at_ofPayload {payload : Payload} (h : payload.Within content) :
    At (.ofPayload payload) content (({} : Inflater).run (payload.bytes content)) := by
  refine ⟨h, ⟨?_, Nat.zero_le _, Nat.le_refl _, Nat.zero_le _, fun _ => Nat.zero_le _, ?_⟩⟩
  · rw [run_eq_foldl]
    rfl
  · intro hcut
    cases hcut

/-- A stream that reads lead to is on its way, and has handed out the front of the output. -/
theorem at_of_handedOut {encoded front : Bytes} {s : InflateStream}
    (h : Decoder.HandedOut content encoded s front) :
    s.At content (({} : Inflater).run encoded) ∧ s.taken = front.size ∧
      front = (({} : Inflater).run encoded).output.extract 0 front.size := by
  induction h with
  | start hwithin hbytes =>
    subst hbytes
    exact ⟨at_ofPayload hwithin, rfl, by simp⟩
  | @read s s' front bytes source limit a a' h hserves hlimit hread ih =>
    obtain ⟨hat, htaken, hfront⟩ := ih
    have hhands : Hands s content _ limit bytes s' := (ends_read hserves hat hlimit a).of_ok hread
    refine ⟨hhands.isAt, ?_, ?_⟩
    · rw [hhands.taken_eq, htaken, Array.size_append]
    · have hbytes := hhands.bytes_eq
      rw [htaken] at hbytes
      rw [Array.size_append]
      conv => lhs; rw [hfront, hbytes]
      rw [Array.extract_append_extract]
      congr 1
      omega

end InflateStream

namespace Inflater

theorem decode_eq_of_isFinished {encoded : Bytes} (h : (({} : Inflater).run encoded).isFinished) :
    decode encoded = ((({} : Inflater).run encoded).output, none) := by
  simp only [decode, h, if_true]

theorem fault_of_not_isFinished {encoded : Bytes}
    (h : (({} : Inflater).run encoded).isFinished = false) : (decode encoded).2 ≠ none := by
  rw [decode, if_neg (by simp [h])]
  split <;> simp

end Inflater

/-- Decoding piece by piece is lawful. -/
instance LawfulDecoder.inflater : LawfulDecoder where
  size_le _ := InflateStream.meets_read
  in_order {content encoded front s} h := by
    obtain ⟨-, -, hfront⟩ := InflateStream.at_of_handedOut h
    generalize houtput : (({} : Inflater).run encoded).output = output at hfront
    have hsize := congrArg Array.size hfront
    rw [Array.size_extract] at hsize
    refine ⟨output.extract front.size, ?_⟩
    calc (Decoder.decode encoded).1 = output := houtput
      _ = output.extract 0 front.size ++ output.extract front.size := by
          rw [Array.extract_append_extract, Nat.zero_min, Nat.max_eq_right (by omega),
            Array.extract_size]
      _ = front ++ output.extract front.size := by rw [← hfront]
  ended {content encoded front bytes s s' source limit a a'} h hserves hlimit hread hnone := by
    obtain ⟨hat, htaken, hfront⟩ := InflateStream.at_of_handedOut h
    have hhands := (InflateStream.ends_read hserves hat hlimit a).of_ok hread
    obtain ⟨hfinished, hsize⟩ := hhands.ended hnone
    refine (Inflater.decode_eq_of_isFinished hfinished).trans (Prod.ext ?_ rfl)
    have hall := hhands.taken_eq
    rw [← hsize, hnone, Nat.add_zero, htaken] at hall
    dsimp only
    rw [hfront, ← hall, Array.extract_size]
  failed {content encoded front s source limit a a' e} h hserves hlimit hread := by
    obtain ⟨he, hunfinished⟩ :=
      (InflateStream.ends_read hserves (InflateStream.at_of_handedOut h).1 hlimit a).of_error hread
    exact ⟨he, Inflater.fault_of_not_isFinished hunfinished⟩

end Hyperslab
