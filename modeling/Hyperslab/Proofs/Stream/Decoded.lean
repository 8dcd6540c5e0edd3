import Hyperslab.Proofs.Codec.Stream
import Hyperslab.Proofs.Read.Section

/-!
# Decoded streams and their declared length

A logical stream that is decoded counts the bytes it has passed. Whatever its reads want, they want
it within the declared length, so a read that fails finds fewer bytes than declared or a fault. The
last step of a read decodes up to one byte more than declared, and passes only where the payload is
decoded without a fault to just as many bytes.

## Main definitions

- `Codec.Decodes`: the payload is decoded without a fault to a number of bytes
- `LogicalStream.DecodedAt`: the stream of a payload at one of its bytes

## Main statements

- `LogicalStream.ends_skipTo_decoded`, `LogicalStream.ends_readExact_decoded`: a stream moves on, or
  its payload is not what was declared
- `LogicalStream.ends_finish_decoded`: a stream that passes is what was declared
-/

namespace Hyperslab

namespace Codec

variable [Decoder]

/-- The payload is decoded without a fault to `n` bytes. -/
def Decodes (codec : Codec) (encoded : Bytes) (n : Nat) : Prop :=
  codec.IsClean encoded ∧ (codec.output encoded).size = n

/-- A failure that comes up only where the payload is not decoded to `n` bytes. -/
def Mismatch (codec : Codec) (encoded : Bytes) (n : Nat) (e : ReadError) : Prop :=
  (∃ cause, e = .corruptChunk cause) ∧ ¬codec.Decodes encoded n

variable {codec : Codec} {encoded : Bytes}

theorem Broken.mismatch {e : DecodeError} (h : codec.Broken encoded e) (n : Nat) :
    codec.Mismatch encoded n (.ofDecode e) := by
  obtain ⟨rfl | rfl, hbroken⟩ := h
  · exact ⟨⟨.malformed, rfl⟩, fun hdecodes => hbroken hdecodes.1⟩
  · exact ⟨⟨.endedPrematurely, rfl⟩, fun hdecodes => hbroken hdecodes.1⟩

end Codec

namespace LogicalStream

variable [Decoder]

/-- The stream decodes a payload, of which `n` bytes are declared, and has passed `k` of them. -/
def DecodedAt (content : Bytes) (codec : Codec) (encoded : Bytes) (n k : Nat) :
    LogicalStream → Prop
  | plain _ => False
  | decoded stream position length =>
    position = k ∧ length = n ∧ stream.At content codec encoded k

variable {content encoded : Bytes} {codec : Codec} {source : ByteSource} {n k : Nat}
  {s : LogicalStream}

theorem DecodedAt.position_eq (h : s.DecodedAt content codec encoded n k) : s.position = k := by
  cases s with
  | plain stream => exact h.elim
  | decoded stream position length => exact h.1

variable [LawfulDecoder]

theorem ends_skip_decoded (hserves : source.Serves content)
    (h : s.DecodedAt content codec encoded n k) (count : Nat) (hle : k + count ≤ n)
    (a : Activity) :
    SourceM.Ends (s.skip source count) a
      (fun s' _ => s'.DecodedAt content codec encoded n (k + count))
      (fun e _ => codec.Mismatch encoded n e) := by
  cases s with
  | plain stream => exact h.elim
  | decoded stream position length =>
    obtain ⟨rfl, rfl, hat⟩ := h
    rw [skip, SourceM.ends_bind, SourceM.ends_mapError]
    refine (DecodedStream.ends_skip hserves hat count a).mono ?_ fun _ _ he => he.mismatch length
    rintro ⟨passed, stream'⟩ a' ⟨hat', hpassed, hend⟩
    dsimp only at hat' hpassed hend ⊢
    split
    · rename_i hne
      rw [SourceM.ends_bind, SourceM.ends_throw]
      refine ⟨⟨_, rfl⟩, fun hdecodes => ?_⟩
      obtain ⟨-, hsize⟩ := hend (by omega)
      have hlength := hdecodes.2
      omega
    · rename_i heq
      obtain rfl := Decidable.not_not.1 heq
      exact ⟨rfl, rfl, hat'⟩

/-- Moving on to a place within the declared length fails only where the stream is not what was
declared. -/
theorem ends_skipTo_decoded (hserves : source.Serves content)
    (h : s.DecodedAt content codec encoded n k) {offset : Nat} (hfrom : k ≤ offset)
    (hto : offset ≤ n) (a : Activity) :
    SourceM.Ends (s.skipTo source offset) a
      (fun s' _ => s'.DecodedAt content codec encoded n offset)
      (fun e _ => codec.Mismatch encoded n e) := by
  rw [skipTo, h.position_eq]
  split
  · rename_i hlt
    have hadd : k + (offset - k) = offset := Nat.add_sub_cancel' hfrom
    have hskip := ends_skip_decoded hserves h (offset - k) (by omega) a
    rwa [hadd] at hskip
  · rename_i hge
    obtain rfl : k = offset := Nat.le_antisymm hfrom (Nat.le_of_not_lt hge)
    exact h

/-- A read within the declared length gives the next bytes, or the stream is not what was
declared. -/
theorem ends_readExact_decoded (hserves : source.Serves content)
    (h : s.DecodedAt content codec encoded n k) {count : Nat} (hle : k + count ≤ n)
    (a : Activity) :
    SourceM.Ends (s.readExact source count) a
      (fun r _ => r.2.DecodedAt content codec encoded n (k + count) ∧ r.1.size = count ∧
        r.1 = (codec.output encoded).extract k (k + count))
      (fun e _ => codec.Mismatch encoded n e) := by
  cases s with
  | plain stream => exact h.elim
  | decoded stream position length =>
    obtain ⟨rfl, rfl, hat⟩ := h
    rw [readExact, SourceM.ends_bind, SourceM.ends_mapError]
    refine (DecodedStream.ends_readExact hserves hat count a).mono ?_ ?_
    · rintro ⟨bytes, stream'⟩ a' ⟨hat', hbytes⟩
      refine ⟨⟨rfl, rfl, hat'⟩, ?_, hbytes⟩
      have hfit := hat'.le_size
      dsimp only at hbytes ⊢
      rw [hbytes, Array.size_extract]
      omega
    · rintro e a' ⟨he, hshort⟩
      have hnot : ¬codec.Decodes encoded length := fun hdecodes =>
        hshort ⟨hdecodes.1, by rw [hdecodes.2]; exact hle⟩
      rcases he with rfl | rfl | rfl <;> exact ⟨⟨_, rfl⟩, hnot⟩

/-- The last step of a read passes just where the stream is what was declared: at most one byte more
is decoded, and none is left. -/
theorem ends_finish_decoded (hserves : source.Serves content)
    (h : s.DecodedAt content codec encoded n k) (hle : k ≤ n) (hn : n < maxOffset)
    (a : Activity) :
    SourceM.Ends (s.finish source) a (fun _ _ => codec.Decodes encoded n)
      (fun e _ => codec.Mismatch encoded n e) := by
  cases s with
  | plain stream => exact h.elim
  | decoded stream position length =>
    obtain ⟨rfl, rfl, hat⟩ := h
    have hremaining : Offset.clamped (length + 1) - position = length + 1 - position := by
      rw [Offset.clamped_of_le hn]
    simp only [finish, hremaining]
    rw [SourceM.ends_bind, SourceM.ends_mapError]
    refine (DecodedStream.ends_skip hserves hat _ a).mono ?_ fun _ _ he => he.mismatch length
    rintro ⟨passed, stream'⟩ a' ⟨hat', hpassed, hend⟩
    -- fewer bytes than wanted are passed at the end of the stream only
    have hfit := hat'.le_size
    dsimp only at hpassed hend hfit ⊢
    split
    · rename_i hshort
      rw [SourceM.ends_bind, SourceM.ends_throw]
      refine ⟨⟨_, rfl⟩, fun hdecodes => ?_⟩
      obtain ⟨-, hsize⟩ := hend (by omega)
      have hlength := hdecodes.2
      omega
    · split
      · refine ⟨⟨_, rfl⟩, fun hdecodes => ?_⟩
        have hlength := hdecodes.2
        omega
      · obtain ⟨hclean, hsize⟩ := hend (by omega)
        exact ⟨hclean, by omega⟩

end LogicalStream

end Hyperslab
