import Hyperslab.Codec.Stream
import Hyperslab.Proofs.Codec.Decoder

/-!
# The bytes of decoded streams

What a codec makes of a payload does not depend on how the payload is read. A stream over it hands
out these bytes in order, and a read that wants more than there are comes to the end just where the
payload is decoded without a fault.

## Main definitions

- `Codec.IsClean`: a payload is decoded without a fault
- `DecodedStream.At`: a stream that has handed out a number of bytes

## Main statements

- `DecodedStream.ends_readExact`, `DecodedStream.ends_skip`: the bytes of a stream in order
-/

namespace Hyperslab

namespace Codec

variable [Decoder]

/-- The payload is decoded without a fault. -/
def IsClean (codec : Codec) (encoded : Bytes) : Prop :=
  codec.fault? encoded = none

/-- A failure of decoding that is due to the payload. -/
def Broken (codec : Codec) (encoded : Bytes) (e : DecodeError) : Prop :=
  (e = .malformed ∨ e = .incomplete) ∧ ¬codec.IsClean encoded

theorem decode_eq_ok_iff {codec : Codec} {encoded bytes : Bytes} :
    codec.decode encoded = .ok bytes ↔
      codec.IsClean encoded ∧ codec.output encoded = bytes := by
  rw [decode, IsClean]
  split <;> simp [*]

end Codec

namespace DecodedStream

theorem extract_of_append {bytes front back : Bytes} {k : Nat} (hk : k ≤ bytes.size)
    (h : bytes.extract k bytes.size = front ++ back) :
    front = bytes.extract k (k + front.size) ∧
      back = bytes.extract (k + front.size) bytes.size ∧ k + front.size ≤ bytes.size := by
  have hsize := congrArg Array.size h
  rw [Array.size_extract, Array.size_append] at hsize
  have hle : k + front.size ≤ bytes.size := by omega
  have hsplit : bytes.extract k (k + front.size) ++ bytes.extract (k + front.size) bytes.size =
      front ++ back := by
    rw [← h, Array.extract_append_extract]
    congr 1 <;> omega
  obtain ⟨hfront, hback⟩ := Array.append_inj hsplit (by rw [Array.size_extract]; omega)
  exact ⟨hfront.symm, hback.symm, hle⟩

theorem largestAfter_pos {growth largest : Nat} (hgrowth : 0 < growth) (hlargest : 0 < largest)
    (wanted got : Nat) : 0 < largestAfter growth largest wanted got := by
  rw [largestAfter]
  split
  · exact Nat.mul_pos hgrowth hlargest
  · exact hlargest

variable [Decoder]

/-- The stream has handed out `k` bytes of what a codec makes of a payload, and all others are still
to come. -/
def At (content : Bytes) (codec : Codec) (encoded : Bytes) (k : Nat) : DecodedStream → Prop
  | plain payload =>
    codec = .plain ∧ payload.Within content ∧ k ≤ encoded.size ∧
      payload.bytes content = encoded.extract k encoded.size
  | inflating stream =>
    codec = .deflate ∧ ∃ front, Decoder.HandedOut content encoded stream front ∧ front.size = k

variable {content encoded : Bytes} {codec : Codec} {source : ByteSource} {k : Nat}
  {s : DecodedStream}

theorem At.le_size [LawfulDecoder] (h : s.At content codec encoded k) :
    k ≤ (codec.output encoded).size := by
  cases s with
  | plain payload =>
    obtain ⟨rfl, -, hle, -⟩ := h
    exact hle
  | inflating stream =>
    obtain ⟨rfl, front, hfront, rfl⟩ := h
    obtain ⟨back, hback⟩ := LawfulDecoder.in_order hfront
    rw [Codec.output, hback, Array.size_append]
    exact Nat.le_add_right _ _

theorem at_ofPayload (codec : Codec) {payload : Payload} (h : payload.Within content) :
    At content codec (payload.bytes content) 0 (ofPayload codec payload) := by
  cases codec with
  | plain => exact ⟨rfl, h, Nat.zero_le _, Array.extract_size.symm⟩
  | deflate => exact ⟨rfl, #[], .start h rfl, rfl⟩

/-- A read hands out the next bytes of a stream, and none only at its end. -/
theorem ends_read [LawfulDecoder] (hserves : source.Serves content)
    (h : s.At content codec encoded k) {limit : Nat} (hlimit : 0 < limit) (a : Activity) :
    SourceM.Ends (s.read source limit) a
      (fun r _ => r.2.At content codec encoded (k + r.1.size) ∧ r.1.size ≤ limit ∧
        r.1 = (codec.output encoded).extract k (k + r.1.size) ∧
        (r.1.size = 0 → codec.IsClean encoded ∧ (codec.output encoded).size = k))
      (fun e _ => codec.Broken encoded e) := by
  cases s with
  | plain payload =>
    obtain ⟨rfl, hwithin, hle, hbytes⟩ := h
    rw [read, SourceM.ends_bind, SourceM.ends_mapError]
    refine (payload.ends_pull hserves hwithin hlimit a).mono ?_ fun _ _ he => he.elim
    rintro ⟨bytes, rest⟩ a' ⟨hrest, hpull, hsize, hnone⟩
    rw [hbytes] at hpull hnone
    obtain ⟨hfront, hback, hfit⟩ := extract_of_append hle hpull
    refine ⟨⟨rfl, hrest, hfit, hback⟩, hsize, hfront, fun hzero => ⟨rfl, ?_⟩⟩
    have hempty := congrArg Array.size (hnone hzero)
    rw [Array.size_extract, Array.size_empty] at hempty
    exact Nat.le_antisymm (by show encoded.size ≤ k; omega) hle
  | inflating stream =>
    obtain ⟨rfl, front, hfront, rfl⟩ := h
    rw [read, SourceM.ends_bind]
    refine (LawfulDecoder.ends_read hfront hserves hlimit a).mono ?_ fun _ _ he => he
    rintro ⟨bytes, stream'⟩ a' ⟨hbytes, hsize, hend⟩
    obtain ⟨back, hback⟩ := LawfulDecoder.in_order hbytes
    refine ⟨⟨rfl, front ++ bytes, hbytes, Array.size_append⟩, hsize, ?_, fun hzero => ?_⟩
    · show bytes = (Decoder.decode encoded).1.extract front.size (front.size + bytes.size)
      rw [hback]
      simp
    · have hdecode := hend hzero
      exact ⟨congrArg Prod.snd hdecode, congrArg (fun r => r.1.size) hdecode⟩

/-- What is known of up to `count` bytes collected from place `k` on: they are the next ones, and
fewer only at the end of the stream. -/
structure Collected (content : Bytes) (codec : Codec) (encoded : Bytes) (k count : Nat)
    (bytes : Bytes) (s : DecodedStream) : Prop where
  isAt : s.At content codec encoded (k + bytes.size)
  size_le : bytes.size ≤ count
  bytes_eq : bytes = (codec.output encoded).extract k (k + bytes.size)
  ended : bytes.size < count →
    codec.IsClean encoded ∧ (codec.output encoded).size = k + bytes.size

theorem Collected.empty {count : Nat} (h : s.At content codec encoded k)
    (hended : 0 < count → codec.IsClean encoded ∧ (codec.output encoded).size = k) :
    Collected content codec encoded k count #[] s := by
  refine ⟨h, Nat.zero_le count, ?_, hended⟩
  exact (Array.extract_empty_of_stop_le_start (Nat.le_refl k)).symm

theorem ends_collect [LawfulDecoder] (hserves : source.Serves content) {growth largest : Nat}
    (hgrowth : 0 < growth) (s : DecodedStream) (count : Nat) (held : Bytes) {k : Nat}
    (hlargest : 0 < count → 0 < largest) (h : s.At content codec encoded k) (a : Activity) :
    SourceM.Ends (s.collect source growth largest count held) a
      (fun r _ => ∃ more, r.1 = held ++ more ∧ Collected content codec encoded k count more r.2)
      (fun e _ => codec.Broken encoded e) := by
  fun_induction s.collect source growth largest count held generalizing k a with
  | case1 largest s held =>
    exact ⟨#[], Array.append_empty.symm, .empty h fun hlt => absurd hlt (Nat.lt_irrefl 0)⟩
  | case2 largest s count held hcount wanted =>
    rename_i ih
    have hpos : 0 < count := Nat.pos_of_ne_zero hcount
    have hwanted : 0 < wanted := Nat.lt_min.2 ⟨hpos, hlargest hpos⟩
    have hwantedLe : wanted ≤ count := Nat.min_le_left _ _
    rw [SourceM.ends_bind]
    refine (ends_read hserves h hwanted a).mono ?_ fun _ _ he => he
    rintro ⟨bytes, s'⟩ a' ⟨hat, hle, hbytes, hend⟩
    dsimp only at hat hle hbytes hend ⊢
    split
    · rename_i hzero
      rw [hzero, Nat.add_zero] at hat
      exact ⟨#[], Array.append_empty.symm, .empty hat fun _ => hend hzero⟩
    · rename_i hsome
      refine (ih bytes s' hsome (fun _ => largestAfter_pos hgrowth (hlargest hpos) _ _) hat
        a').mono ?_ fun _ _ he => he
      rintro ⟨all, s''⟩ a'' ⟨more, rfl, hmore⟩
      have hsize := hmore.size_le
      -- the bytes read and those collected after them are neighbours in the output
      have hsizes : (bytes ++ more).size = bytes.size + more.size := Array.size_append
      refine ⟨bytes ++ more, Array.append_assoc, ?_, by omega, ?_, fun hlt => ?_⟩
      · rw [hsizes, ← Nat.add_assoc]
        exact hmore.isAt
      · rw [hsizes, ← Nat.add_assoc]
        conv => lhs; rw [hbytes, hmore.bytes_eq]
        rw [Array.extract_append_extract]
        congr 1 <;> omega
      · rw [hsizes, ← Nat.add_assoc]
        exact hmore.ended (by omega)

/-- An exact read gives the next bytes of a stream, and fails where there are too few. -/
theorem ends_readExact [LawfulDecoder] (hserves : source.Serves content)
    (h : s.At content codec encoded k) (count : Nat) (a : Activity) :
    SourceM.Ends (s.readExact source count) a
      (fun r _ => r.2.At content codec encoded (k + count) ∧
        r.1 = (codec.output encoded).extract k (k + count))
      (fun e _ => (e = .malformed ∨ e = .incomplete ∨ e = .exhausted) ∧
        ¬(codec.IsClean encoded ∧ k + count ≤ (codec.output encoded).size)) := by
  rw [readExact, SourceM.ends_bind]
  refine (ends_collect hserves Nat.one_pos s count #[] id h a).mono ?_ ?_
  · rintro ⟨bytes, s'⟩ a' ⟨more, heq, hmore⟩
    obtain rfl : bytes = more := heq.trans Array.empty_append
    dsimp only
    split
    · rename_i hlt
      obtain ⟨-, hend⟩ := hmore.ended hlt
      rw [SourceM.ends_bind, SourceM.ends_throw]
      exact ⟨.inr (.inr rfl), fun hfit => by omega⟩
    · rename_i hge
      have hsize : bytes.size = count := Nat.le_antisymm hmore.size_le (Nat.le_of_not_lt hge)
      have hat := hmore.isAt
      have hbytes := hmore.bytes_eq
      rw [hsize] at hat hbytes
      exact ⟨hat, hbytes⟩
  · rintro e a' ⟨he, hbroken⟩
    exact ⟨he.imp id .inl, fun hfit => hbroken hfit.1⟩

/-- Bytes are passed until there are no more. -/
theorem ends_skip [LawfulDecoder] (hserves : source.Serves content)
    (h : s.At content codec encoded k) (count : Nat) (a : Activity) :
    SourceM.Ends (s.skip source count) a
      (fun r _ => r.2.At content codec encoded (k + r.1) ∧ r.1 ≤ count ∧
        (r.1 < count → codec.IsClean encoded ∧ (codec.output encoded).size = k + r.1))
      (fun e _ => codec.Broken encoded e) := by
  rw [skip, SourceM.ends_bind]
  refine (ends_collect hserves Nat.one_pos s count #[] (fun _ => by decide) h a).mono ?_
    fun _ _ he => he
  rintro ⟨bytes, s'⟩ a' ⟨more, heq, hmore⟩
  obtain rfl : bytes = more := heq.trans Array.empty_append
  exact ⟨hmore.isAt, hmore.size_le, hmore.ended⟩

end DecodedStream

end Hyperslab
