import Hyperslab.Codec.Payload
import Hyperslab.Proofs.Source

/-!
# The bytes of payloads

A payload stands for the bytes of its segments, one segment after the other. A piece of it is the
next of these bytes, and where the segments lie inside of what the source serves, each piece comes.

## Main definitions

- `chainBytes`: the bytes of a chain of segments
- `Payload.Within`: the segments lie inside of a content

## Main statements

- `Payload.ends_pull`: a pull gives the next bytes, some unless there are none
-/

namespace Hyperslab

/-- The bytes of a chain of segments. -/
def chainBytes (content : Bytes) : List ByteRange → Bytes
  | [] => #[]
  | segment :: rest =>
    content.extract segment.offset (segment.offset + segment.length) ++ chainBytes content rest

/-- The segments that hold bytes lie inside of the content, and end at offsets. -/
def ChainWithin (content : Bytes) (chain : List ByteRange) : Prop :=
  ∀ segment ∈ chain, segment.length ≠ 0 →
    segment.offset + segment.length ≤ content.size ∧
      segment.offset + segment.length ≤ maxOffset

variable {content : Bytes} {limit : Nat}

namespace SegmentStream

theorem chainBytes_trim (content : Bytes) (chain : List ByteRange) :
    chainBytes content (trim chain) = chainBytes content chain := by
  induction chain with
  | nil => rfl
  | cons segment rest ih =>
    rw [trim]
    split
    · rename_i hzero
      rw [ih, chainBytes, hzero, Nat.add_zero, Array.extract_empty_of_stop_le_start
        (Nat.le_refl _), Array.empty_append]
    · rfl

theorem mem_of_mem_trim {segment : ByteRange} {chain : List ByteRange}
    (h : segment ∈ trim chain) : segment ∈ chain := by
  induction chain with
  | nil => exact h
  | cons first rest ih =>
    rw [trim] at h
    split at h
    · exact List.mem_cons_of_mem first (ih h)
    · exact h

theorem length_pos_of_trim {segment : ByteRange} {chain rest : List ByteRange}
    (h : trim chain = segment :: rest) : 0 < segment.length := by
  induction chain with
  | nil => cases h
  | cons first others ih =>
    rw [trim] at h
    split at h
    · exact ih h
    · cases h
      omega

theorem chainBytes_of_next?_none {s : SegmentStream} (hlimit : 0 < limit)
    (h : s.next? limit = none) (content : Bytes) : chainBytes content s.left = #[] := by
  unfold next? at h
  split at h
  · rename_i htrim
    rw [← chainBytes_trim, htrim, chainBytes]
  · rename_i segment rest htrim
    have hlength := length_pos_of_trim htrim
    have hreadSize := s.readSize_pos
    dsimp only at h
    split at h
    · omega
    · cases h

theorem chainBytes_of_next?_some {s s' : SegmentStream} {range : ByteRange}
    (hwithin : ChainWithin content s.left) (h : s.next? limit = some (range, s')) :
    0 < range.length ∧ range.length ≤ limit ∧ range.offset + range.length ≤ content.size ∧
      range.offset + range.length ≤ maxOffset ∧
      chainBytes content s.left =
        content.extract range.offset (range.offset + range.length) ++ chainBytes content s'.left ∧
      ChainWithin content s'.left := by
  unfold next? at h
  split at h
  · cases h
  · rename_i segment rest htrim
    have hlength := length_pos_of_trim htrim
    have hsegment := hwithin segment (mem_of_mem_trim (by rw [htrim]; exact List.mem_cons_self))
      (by omega)
    dsimp only at h
    split at h
    · cases h
    · cases h
      generalize hn : min (min segment.length s.readSize) limit = n at *
      have hle : n ≤ segment.length := by omega
      simp only [ByteRange.take, ByteRange.drop, Nat.min_eq_left hle]
      refine ⟨by omega, by omega, by omega, by omega, ?_, ?_⟩
      · rw [← chainBytes_trim, htrim, chainBytes, chainBytes, ← Array.append_assoc,
          Array.extract_append_extract]
        dsimp only
        congr 2 <;> omega
      · intro other hother hne
        rcases List.mem_cons.1 hother with rfl | hother
        · dsimp only at hne ⊢
          omega
        · exact hwithin other
            (mem_of_mem_trim (by rw [htrim]; exact List.mem_cons_of_mem _ hother)) hne

end SegmentStream

/-- The bytes of a piece. -/
def Supply.bytes (content : Bytes) : Supply → Bytes
  | held bytes => bytes
  | request range => content.extract range.offset (range.offset + range.length)

namespace Payload

/-- The bytes still to come. -/
def bytes (content : Bytes) : Payload → Bytes
  | held bytes position => bytes.extract position bytes.size
  | chain stream => chainBytes content stream.left

/-- What is still to be requested lies inside of the content. -/
def Within (content : Bytes) : Payload → Prop
  | held _ _ => True
  | chain stream => ChainWithin content stream.left

variable {payload payload' : Payload} {supply : Supply} {source : ByteSource}

theorem bytes_of_next?_none (hlimit : 0 < limit) (h : payload.next? limit = none)
    (content : Bytes) : payload.bytes content = #[] := by
  cases payload with
  | held bytes position =>
    simp only [next?] at h
    split at h
    · rename_i hzero
      rw [Payload.bytes, Array.extract_empty_of_size_le_start]
      omega
    · cases h
  | chain stream =>
    exact SegmentStream.chainBytes_of_next?_none hlimit (by simpa [next?] using h) content

/-- A piece is the next bytes of a payload, and there is at least one of them. -/
theorem bytes_of_next?_some (hwithin : payload.Within content)
    (h : payload.next? limit = some (supply, payload')) :
    payload'.Within content ∧
      payload.bytes content = supply.bytes content ++ payload'.bytes content ∧
      0 < (supply.bytes content).size ∧ (supply.bytes content).size ≤ limit := by
  cases payload with
  | held bytes position =>
    simp only [next?] at h
    split at h
    · cases h
    · cases h
      refine ⟨trivial, ?_, ?_, ?_⟩
      · simp only [Payload.bytes, Supply.bytes, Array.extract_append_extract]
        congr 1 <;> omega
      all_goals
        simp only [Supply.bytes, Array.size_extract]
        omega
  | chain stream =>
    obtain ⟨⟨range, stream'⟩, hnext, heq⟩ := Option.map_eq_some_iff.1 h
    cases heq
    obtain ⟨hpos, hle, hinside, -, hbytes, hrest⟩ :=
      SegmentStream.chainBytes_of_next?_some hwithin hnext
    refine ⟨hrest, hbytes, ?_, ?_⟩ <;> simp only [Supply.bytes, Array.size_extract] <;> omega

/-- A piece of a payload inside of what the source serves comes. -/
theorem ends_obtain (hserves : source.Serves content) (hwithin : payload.Within content)
    (h : payload.next? limit = some (supply, payload')) {a : Activity}
    {ok : Bytes → Activity → Prop} {err : StorageError → Activity → Prop}
    (hok : ∀ a', ok (supply.bytes content) a') : SourceM.Ends (obtain source supply) a ok err := by
  cases supply with
  | held bytes => exact hok a
  | request range =>
    cases payload with
    | held bytes position =>
      simp only [next?] at h
      split at h <;> cases h
    | chain stream =>
      obtain ⟨⟨range', stream'⟩, hnext, heq⟩ := Option.map_eq_some_iff.1 h
      cases heq
      obtain ⟨-, -, hinside, hmax, -, -⟩ :=
        SegmentStream.chainBytes_of_next?_some hwithin hnext
      exact (SourceM.ends_fetchExactly_of_ok (hserves _ range hmax hinside)).2 (hok _)

theorem bytes_reportEnd (payload : Payload) (limit : Nat) (a : Activity) (content : Bytes) :
    ((payload.reportEnd limit a).1.bytes content = payload.bytes content) ∧
      ((payload.reportEnd limit a).1.Within content ↔ payload.Within content) := by
  cases payload with
  | held bytes position => exact ⟨rfl, Iff.rfl⟩
  | chain stream =>
    have hleft : (stream.reportEmpty limit a).1.left = stream.left := by
      rw [SegmentStream.reportEmpty]
      split <;> rfl
    have hchain : (reportEnd limit (chain stream) a).1 =
        chain (stream.reportEmpty limit a).1 := rfl
    rw [hchain]
    exact ⟨congrArg (chainBytes content) hleft, by rw [Within, Within, hleft]⟩

/-- A pull gives the next bytes of a payload, and none only where there are none. -/
theorem ends_pull (hserves : source.Serves content) (hwithin : payload.Within content)
    (hlimit : 0 < limit) (a : Activity) :
    SourceM.Ends (payload.pull source limit) a
      (fun r _ => r.2.Within content ∧ payload.bytes content = r.1 ++ r.2.bytes content ∧
        r.1.size ≤ limit ∧ (r.1.size = 0 → payload.bytes content = #[]))
      (fun _ _ => False) := by
  rw [pull]
  split
  · rename_i supply payload' hnext
    obtain ⟨hwithin', hbytes, hpos, hle⟩ := bytes_of_next?_some hwithin hnext
    rw [SourceM.ends_bind]
    refine ends_obtain hserves hwithin hnext fun a' => ?_
    exact ⟨hwithin', hbytes, hle, fun hzero => absurd hzero (Nat.ne_of_gt hpos)⟩
  · rename_i hnone
    obtain ⟨hbytes, hwithin'⟩ := payload.bytes_reportEnd limit a content
    have hempty := bytes_of_next?_none hlimit hnone content
    rw [SourceM.ends_bind, SourceM.ends_lift]
    refine ⟨hwithin'.2 hwithin, ?_, Nat.zero_le _, fun _ => hempty⟩
    rw [hbytes, Array.empty_append]

end Payload

end Hyperslab
