import Hyperslab.Proofs.Read.Section
import Hyperslab.Proofs.Stream.Report

/-!
# Positions of streams

A stream counts the bytes it has passed, also where a read stops before it has what it wants.
Passing or reading a number of bytes of a logical stream moves it by just that number, or fails, and
opens no other stream.

## Main statements

- `LogicalStream.ends_skip`, `LogicalStream.ends_readExact`: a stream moves by what was wanted
- `LogicalStream.ends_skipTo`: it opens no other stream where it is moved on
-/

namespace Hyperslab

namespace SegmentStream

variable {ask : ByteRange → SourceM StorageError Bytes}

/-- A walk counts the bytes that it got, where each request is answered in full. -/
theorem size_walk (hask : ∀ range a bytes, ((ask range) a).1 = .ok bytes → bytes.size = range.length)
    (chain : List ByteRange) (count : Nat) {w : ChainWalk} (hw : w.bytes.size = w.passed)
    (a : Activity) :
    (walk ask chain count w a).1.2.bytes.size = (walk ask chain count w a).1.2.passed := by
  induction chain generalizing count w a with
  | nil => exact hw
  | cons segment rest ih =>
    rw [walk]
    split
    · exact hw
    · split
      · exact ih count hw a
      · dsimp only
        rw [run_bind]
        cases hr : ((ask (segment.take count)).attempt a).1 with
        | error e => exact hw
        | ok bytes =>
          have hsize := hask _ _ _ hr
          dsimp only
          split
          · exact ih _ (by simp only [Array.size_append, hw, hsize]) _
          · show (w.bytes ++ bytes).size = w.passed + _
            rw [Array.size_append, hw, hsize]

end SegmentStream

theorem ByteSource.size_fetchExactly (source : ByteSource) (range : ByteRange) (a : Activity)
    (bytes : Bytes) (h : (source.fetchExactly range a).1 = .ok bytes) :
    bytes.size = range.length := by
  refine source.readInto_size a.requests.toList range bytes ?_
  cases hr : source.readInto a.requests.toList range <;>
    simp_all [fetchExactly, ExceptT.mk]

/-- A read that succeeds moves a segment stream by the bytes it gives. -/
theorem SegmentStream.position_readInto {source : ByteSource} {s s' : SegmentStream} {count : Nat}
    {a : Activity} {bytes : Bytes} (h : (s.readInto source count a).1 = (.ok bytes, s')) :
    s'.position = s.position + bytes.size := by
  have hsize := size_walk (source.size_fetchExactly) s.left count
    (w := { bytes := #[], passed := 0, left := [] }) rfl a
  rw [readInto, readBy, run_bind] at h
  rcases hw : (walk source.fetchExactly s.left count _ a).1 with ⟨_ | _, w⟩ <;>
    rw [hw] at h hsize <;> dsimp only at h hsize
  · cases h
  · split at h
    · rw [run_bind] at h
      cases h
      have hreport : ∀ b, ((s.after w).reportEmpty count b).1.position = (s.after w).position := by
        intro b
        rw [reportEmpty]
        split <;> rfl
      rw [hreport, after, hsize]
    · rw [run_bind] at h
      cases h
      change (s.after w).position = _
      rw [after, hsize]

namespace LogicalStream

/-- No stream reports the opening of one. -/
theorem reports_isOpening (s : LogicalStream) : s.Reports fun event => event.isOpening = false :=
  reports_of_forall (fun _ => rfl) s

theorem ends_skip (source : ByteSource) (s : LogicalStream) (count : Nat) (a : Activity) :
    SourceM.Ends (s.skip source count) a (fun s' _ => s'.position = s.position + count)
      fun _ _ => True := by
  cases s with
  | plain stream =>
    rw [skip]
    dsimp only
    split
    · simp
    · rename_i hpassed
      exact congrArg (stream.position + ·) (Decidable.not_not.1 hpassed)
  | decoded stream position length =>
    rw [skip, SourceM.ends_bind, SourceM.ends_mapError]
    refine SourceM.ends_of_forall ?_ fun _ _ => trivial
    rintro ⟨passed, stream'⟩ a'
    dsimp only
    split
    · simp
    · rename_i hpassed
      obtain rfl := Decidable.not_not.1 hpassed
      rfl

theorem ends_readExact (source : ByteSource) (s : LogicalStream) (count : Nat) (a : Activity) :
    SourceM.Ends (s.readExact source count) a (fun r _ => r.2.position = s.position + count)
      fun _ _ => True := by
  cases s with
  | plain stream =>
    rw [readExact, SourceM.ends_bind, SourceM.ends_lift]
    rcases hread : (stream.readInto source count a).1 with ⟨e | bytes, stream'⟩
    · trivial
    · have hposition := SegmentStream.position_readInto hread
      dsimp only
      split
      · simp
      · simp_all [position]
  | decoded stream position length =>
    rw [readExact, SourceM.ends_bind, SourceM.ends_mapError]
    exact SourceM.ends_of_forall (fun _ _ => rfl) fun _ _ => trivial

theorem ends_skipTo (source : ByteSource) {stream : LogicalStream} {offset : Nat}
    (h : stream.position ≤ offset) (a : Activity) :
    SourceM.Ends (stream.skipTo source offset) a
      (fun stream' a' => stream'.position = offset ∧ a'.openings = a.openings)
      (fun _ a' => a'.openings = a.openings) := by
  rw [skipTo]
  split
  · refine ((logs_skip stream.reports_isOpening _).ends_with (stream.ends_skip source _ a)).mono
      ?_ ?_
    · rintro stream' a' ⟨hposition, hopenings⟩
      exact ⟨by omega, hopenings⟩
    · exact fun _ _ h => h.2
  · exact ⟨by omega, rfl⟩

end LogicalStream

end Hyperslab
