import Hyperslab.Codec.Deflate.Stream
import Hyperslab.Codec.Stream
import Hyperslab.Proofs.Codec.Decoder

/-!
# What a decoder hands out

A read of a decoded stream gives no more bytes than were wanted, whatever the payload holds and
whatever the source answers. So bytes that are collected up to a number do not go beyond it, and an
exact read gives just that number.

## Main statements

- `InflateStream.meets_read`, `DecodedStream.meets_read`: at most as many bytes as wanted
- `DecodedStream.meets_readExact`: just as many bytes as wanted
-/

namespace Hyperslab

open SourceM

variable {source : ByteSource}

namespace InflateStream

variable {s s' : InflateStream} {limit : Nat} {bytes : Bytes}

theorem size_handOut_le (s : InflateStream) (limit : Nat) : (s.handOut limit).1.size ≤ limit := by
  simp only [handOut, Array.size_extract]
  omega

theorem size_le_of_handOut (h : s.handOut limit = (bytes, s')) : bytes.size ≤ limit := by
  have hsize := s.size_handOut_le limit
  rwa [h] at hsize

theorem size_le_of_serveDecoded (s : InflateStream) (limit : Nat) :
    ∀ r, s.serveDecoded limit = .ok r → r.1.size ≤ limit := by
  fun_induction s.serveDecoded limit with
  | case1 => exact fun _ h => nomatch h
  | case2 s limit decoded hwell front rest hout hlast =>
    rintro _ ⟨⟩
    exact size_le_of_handOut (s := decoded) hout
  | case3 s limit decoded hwell front rest hout hgoes ih =>
    intro r h
    have hfront : front.size ≤ limit := size_le_of_handOut (s := decoded) hout
    cases hmore : rest.serveDecoded (limit - front.size) with
    | error e =>
      rw [hmore] at h
      cases h
    | ok more =>
      -- what is served next is limited to what is still wanted
      have hrest : more.1.size ≤ limit - front.size := ih more hmore
      rw [hmore] at h
      cases h
      rw [Array.size_append]
      omega

theorem size_le_of_serve {r : Bytes × InflateStream} (h : s.serve limit = .ok r) :
    r.1.size ≤ limit := by
  rw [serve] at h
  split at h
  · cases h
    exact s.size_handOut_le limit
  · exact size_le_of_serveDecoded s limit r h

theorem size_le_of_serveLast {r : Bytes × InflateStream} (h : s.serveLast limit = .ok r) :
    r.1.size ≤ limit := by
  rw [serveLast] at h
  split at h
  · cases h
  · split at h
    · cases h
      exact s.size_handOut_le limit
    · cases hserve : s.serve limit with
      | error e =>
        rw [hserve] at h
        cases h
      | ok served =>
        have hserved : served.1.size ≤ limit := size_le_of_serve hserve
        rw [hserve] at h
        simp only [bind, Except.bind] at h
        split at h
        · cases h
          exact hserved
        · split at h <;> cases h
          exact hserved

/-- A read that takes further pieces gives what the last of them comes to. -/
theorem meets_refill (s : InflateStream) (limit : Nat) :
    Meets (s.refill source limit) (fun r => r.1.size ≤ limit) fun _ => True := by
  fun_induction s.refill source limit with
  | case1 s hnone =>
    refine .bind .any fun payload _ => ?_
    exact .ofExcept (fun _ => size_le_of_serveLast) fun _ _ => trivial
  | case2 s supply payload hnext ih =>
    refine .bind .any fun piece _ => ?_
    refine .bind (.ofExcept (fun _ => size_le_of_serve) fun _ _ => trivial) ?_
    rintro ⟨bytes, s'⟩ hsize
    dsimp only
    split
    · exact ih s'
    · exact .pure hsize

/-- A read of a zlib stream gives no more bytes than wanted. -/
theorem meets_read (s : InflateStream) (limit : Nat) :
    Meets (s.read source limit) (fun r => r.1.size ≤ limit) fun _ => True := by
  rw [read]
  split
  · refine .bind (.ofExcept (fun _ => size_le_of_serve) fun _ _ => trivial) ?_
    rintro ⟨bytes, s'⟩ hsize
    dsimp only
    split
    · exact s'.meets_refill limit
    · exact .pure hsize
  · exact s.meets_refill limit

end InflateStream

theorem SegmentStream.length_le_of_next? {s s' : SegmentStream} {limit : Nat} {range : ByteRange}
    (h : s.next? limit = some (range, s')) : range.length ≤ limit := by
  unfold next? at h
  split at h
  · cases h
  · dsimp only at h
    split at h
    · cases h
    · cases h
      simp only [ByteRange.take]
      omega

/-- A pull gives no more bytes than wanted, for a source gives just as many as it was asked for. -/
theorem Payload.meets_pull (payload : Payload) (limit : Nat) :
    Meets (payload.pull source limit) (fun r => r.1.size ≤ limit) fun _ => True := by
  rw [pull]
  split
  · rename_i supply payload' hnext
    cases payload with
    | held bytes position =>
      simp only [next?] at hnext
      split at hnext
      · cases hnext
      · cases hnext
        refine .pure ?_
        simp only [Array.size_extract]
        omega
    | chain stream =>
      obtain ⟨⟨range, stream'⟩, hrange, heq⟩ := Option.map_eq_some_iff.1 hnext
      cases heq
      have hle := SegmentStream.length_le_of_next? hrange
      refine .bind (meets_fetchExactly source range) fun bytes hsize => .pure ?_
      exact Nat.le_trans (Nat.le_of_eq hsize) hle
  · exact .bind .any fun payload' _ => .pure (Nat.zero_le limit)

namespace DecodedStream

variable [Decoder] [LawfulDecoder]

theorem meets_read (s : DecodedStream) (limit : Nat) :
    Meets (s.read source limit) (fun r => r.1.size ≤ limit) fun _ => True := by
  cases s with
  | plain payload =>
    refine .bind ((payload.meets_pull limit).mapError fun _ _ => trivial) ?_
    exact fun _ hsize => .pure hsize
  | inflating stream =>
    exact .bind (LawfulDecoder.size_le source stream limit) fun _ hsize => .pure hsize

/-- What is collected never goes beyond what was wanted. -/
theorem meets_collect (growth largest : Nat) (s : DecodedStream) (count : Nat) (held : Bytes) :
    Meets (s.collect source growth largest count held)
      (fun r => r.1.size ≤ held.size + count) fun _ => True := by
  fun_induction s.collect source growth largest count held with
  | case1 => exact .pure (Nat.le_add_right _ _)
  | case2 largest s count held hcount wanted ih =>
    refine .bind (s.meets_read wanted) ?_
    rintro ⟨bytes, s'⟩ hsize
    dsimp only
    split
    · exact .pure (Nat.le_add_right _ _)
    · refine (ih bytes s' ‹_›).mono (fun r hr => ?_) fun _ h => h
      have hwanted : wanted ≤ count := Nat.min_le_left _ _
      simp only [Array.size_append] at hr hsize
      omega

/-- An exact read gives just the number of bytes that it was to give. -/
theorem meets_readExact (s : DecodedStream) (count : Nat) :
    Meets (s.readExact source count) (fun r => r.1.size = count) fun _ => True := by
  refine .bind (s.meets_collect 1 count count #[]) ?_
  rintro ⟨bytes, s'⟩ hsize
  dsimp only
  split
  · exact .bind (.throw trivial) fun _ (h : False) => h.elim
  · refine .pure ?_
    simp only [Array.size_empty] at hsize
    show bytes.size = count
    omega

end DecodedStream

end Hyperslab
