import Hyperslab.Proofs.Options
import Hyperslab.Proofs.Stream.Cursor

/-!
# Progress of the reads of a decoder

A decoder takes a read that gives no byte for the end of its data, and it reads until it meets one.
A segment stream gives no byte to it only where all segments are passed, since a read is for one
byte at least: segment read sizes are never zero, whatever was set before. So reads into buffers that
are not empty come to the end of the chain, after as many reads as the chain has bytes at most.

## Main definitions

- `Drains`: what the reads of a decoder give, one after the other
- `ConfigStep.SizesPositive`, `ConfigStep.OptionsApart`: what steps lead to
- `SegmentStream.EndsWhenPassed`, `SegmentStream.DrainsInOrder`: what reads of a decoder lead to

## Main statements

- `SegmentStream.At.pull_gives_nothing_iff`: where a read of a decoder gives no byte
- `SegmentStream.At.drains`: reads of a decoder one after the other
- `decoder_reads_progress`: the segment read sizes there are, and the streams made with them
-/

namespace Hyperslab

/-- Reads of a decoder into `buffers`, from place `p` of a chain up to place `p'`, gave `results`:
some `pieces` at first, none of them empty, and no byte at all `idle` times from then on. -/
structure Drains (content : Bytes) (chain : List ByteRange) (p p' : Nat) (buffers : List Bytes)
    (results : List (Except StorageError StreamAnswer)) (pieces : List Bytes) (idle : Nat) :
    Prop where
  results_eq : results = List.zipWith (fun buffer bytes => .ok (.filling buffer bytes)) buffers
    (pieces ++ List.replicate idle #[])
  length_add_idle : pieces.length + idle = buffers.length
  size_pos : ∀ piece ∈ pieces, 0 < piece.size
  joined : pieces.flatMap (·.toList) = ((chainBytes content chain).extract p p').toList
  /-- Each piece is one byte at least. -/
  place_le : p + pieces.length ≤ p'
  place_of_idle : idle ≠ 0 → p' = chainLength chain

namespace SegmentStream

variable {content : Bytes} {chain : List ByteRange} {options : ReadOptions} {p : Nat}
  {s : SegmentStream} {source : ByteSource} {buffer : Bytes}

/-- What was passed and what is left are the whole chain. -/
theorem At.position_add_remaining (hs : s.At chain options p) :
    s.position + s.remaining = chainLength chain := by
  have hleft := chainLength_walkPast chain p
  rw [← hs.left, chainLength_trim] at hleft
  have hle := hs.le
  rw [hs.position, remaining, hleft]
  omega

/-- All that a read of a decoder can do: it has nothing to ask for, or it makes one request, which
fails and leaves the stream as it is, or is answered and passes its bytes. -/
theorem pull_cases {a a' : Activity} {result : Except StorageError StreamAnswer}
    {s' : SegmentStream}
    (hpull : (StreamCall.pull buffer).carryOut source s a = ((result, s'), a')) :
    (s.next? buffer.size = none ∧ result = .ok (.filling buffer #[]) ∧
      s' = (s.reportEmpty buffer.size a).1) ∨
    ∃ range next, s.next? buffer.size = some (range, next) ∧
      ((∃ e, source.readInto a.requests.toList range = .error e ∧ result = .error e ∧ s' = s) ∨
        ∃ bytes, source.readInto a.requests.toList range = .ok bytes ∧
          result = .ok (.filling buffer bytes) ∧ s' = next) := by
  rw [StreamCall.carryOut, run_bind] at hpull
  have hattempt : (s.pull source buffer.size).attempt a = (s.pull source buffer.size).outcome a := rfl
  rw [hattempt] at hpull
  cases hnext : s.next? buffer.size with
  | none =>
    rw [outcome_pull_of_none hnext] at hpull
    cases hpull
    exact .inl ⟨rfl, rfl, rfl⟩
  | some next =>
    obtain ⟨range, next⟩ := next
    refine .inr ⟨range, next, rfl, ?_⟩
    cases hr : source.readInto a.requests.toList range with
    | error e =>
      rw [outcome_pull_of_error hnext hr] at hpull
      cases hpull
      exact .inl ⟨e, rfl, rfl, rfl⟩
    | ok bytes =>
      rw [outcome_pull_of_ok hnext hr] at hpull
      cases hpull
      exact .inr ⟨bytes, rfl, rfl, rfl⟩

/-- A call leads from one place of a chain to another, whatever the source answers. -/
theorem At.exists_at (hs : s.At chain options p) (source : ByteSource) (call : StreamCall)
    (a : Activity) : ∃ p', (call.carryOut source s a).1.2.At chain options p' := by
  cases call with
  | read count =>
    obtain ⟨_, _, _, -, -, hat⟩ := hs.readBy source.asks_fetch count a
    exact ⟨_, hat⟩
  | readInto buffer =>
    obtain ⟨_, _, _, -, -, hat⟩ := hs.readBy source.asks_fetchExactly buffer.size a
    exact ⟨_, hat⟩
  | skip count => exact ⟨_, (hs.skip count).2⟩
  | pull buffer =>
    generalize hpull : (StreamCall.pull buffer).carryOut source s a = r
    obtain ⟨⟨result, s'⟩, a'⟩ := r
    rcases pull_cases hpull with
      ⟨-, -, rfl⟩ | ⟨range, next, hnext, ⟨e, -, -, rfl⟩ | ⟨bytes, -, -, rfl⟩⟩
    · exact ⟨p, (hs.reportEmpty buffer.size a).1⟩
    · exact ⟨p, hs⟩
    · exact ⟨_, (hs.of_next? hnext).2.2.2⟩

theorem At.exists_at_runCalls (hs : s.At chain options p)
    (calls : List (ByteSource × StreamCall)) (a : Activity) :
    ∃ p', (Hyperslab.runCalls calls s a).1.2.At chain options p' := by
  induction calls generalizing s p a with
  | nil => exact ⟨p, hs⟩
  | cons c calls ih =>
    obtain ⟨p', hat⟩ := hs.exists_at c.1 c.2 a
    rw [runCalls_cons]
    exact ih hat _

/-- No pull of some bytes is put together just where all segments are passed. -/
theorem At.next?_eq_none_iff (hs : s.At chain options p) (hsize : 1 ≤ options.segmentReadSize)
    {limit : Nat} (hlimit : limit ≠ 0) : s.next? limit = none ↔ s.remaining = 0 := by
  have hsum := hs.position_add_remaining
  rw [hs.position] at hsum
  cases hnext : s.next? limit with
  | none =>
    have hzero := hs.eq_zero_of_next? hnext
    have hend := @leftInSegment_eq_zero_iff chain p
    simp only [true_iff]
    omega
  | some next =>
    obtain ⟨range, s'⟩ := next
    obtain ⟨hpos, -, -, hat⟩ := hs.of_next? hnext
    have hle := hat.le
    simp only [reduceCtorEq, false_iff]
    omega

/-- A read into a buffer that is not empty gives no byte just where all segments are passed. -/
theorem At.pull_gives_nothing_iff (hs : s.At chain options p)
    (hsize : 1 ≤ options.segmentReadSize) (hbuffer : buffer.size ≠ 0) (source : ByteSource)
    (a : Activity) :
    (∃ filled, ((StreamCall.pull buffer).carryOut source s a).1.1 = .ok (.filled 0 filled)) ↔
      s.remaining = 0 := by
  rw [← hs.next?_eq_none_iff hsize hbuffer]
  generalize hpull : (StreamCall.pull buffer).carryOut source s a = r
  obtain ⟨⟨result, s'⟩, a'⟩ := r
  rcases pull_cases hpull with
    ⟨hnone, rfl, -⟩ | ⟨range, next, hnext, ⟨e, -, rfl, -⟩ | ⟨bytes, hr, rfl, -⟩⟩
  · exact iff_of_true ⟨_, rfl⟩ hnone
  · simp [hnext]
  · have hpos := (hs.of_next? hnext).1
    have hgot := source.readInto_size _ range bytes hr
    simp only [hnext, reduceCtorEq, iff_false]
    rintro ⟨filled, hfilled⟩
    injection hfilled with hanswer
    injection hanswer with hcount
    omega

/-- A read of a decoder from a source that does not fail gives the next bytes of the chain. It gives
none just at the end. -/
theorem At.exists_pull (hs : s.At chain options p) (hsize : 1 ≤ options.segmentReadSize)
    (hwithin : ChainWithin content chain) (hserves : source.Serves content)
    (hbuffer : buffer.size ≠ 0) (a : Activity) :
    ∃ bytes, ((StreamCall.pull buffer).carryOut source s a).1.1 = .ok (.filling buffer bytes) ∧
      bytes = (chainBytes content chain).extract p (p + bytes.size) ∧
      (bytes.size = 0 ↔ p = chainLength chain) ∧
      ((StreamCall.pull buffer).carryOut source s a).1.2.At chain options (p + bytes.size) := by
  have hnone := hs.next?_eq_none_iff hsize hbuffer
  have hsum := hs.position_add_remaining
  rw [hs.position] at hsum
  generalize hpull : (StreamCall.pull buffer).carryOut source s a = r
  obtain ⟨⟨result, s'⟩, a'⟩ := r
  rcases pull_cases hpull with ⟨hnext, rfl, rfl⟩ | ⟨range, next, hnext, hanswer⟩
  · have hend := hnone.1 hnext
    refine ⟨#[], rfl, ?_, iff_of_true rfl (by omega), (hs.reportEmpty buffer.size a).1⟩
    exact (Array.extract_empty_of_stop_le_start (Nat.le_refl p)).symm
  · obtain ⟨hpos, -, hoffsets, hat⟩ := hs.of_next? hnext
    have hissued := RequestsFor.single hpos hoffsets
    rcases hanswer with ⟨e, hr, -, -⟩ | ⟨bytes, hr, rfl, rfl⟩
    · exact absurd hr (hissued.ne_error hserves hwithin (List.mem_singleton_self range) _ e)
    · have hbytes := eq_extract_of_gather hserves.truthful hwithin hissued
        (gather_cons_of_ok hr rfl)
      rw [Array.append_empty] at hbytes
      have hgot := source.readInto_size _ range bytes hr
      have hend := hat.le
      refine ⟨bytes, rfl, ?_, ?_, ?_⟩
      · rw [hgot]
        exact hbytes
      · omega
      · rw [hgot]
        exact hat

/-- Reads of a decoder into buffers that are not empty, one after the other. -/
theorem At.drains (hs : s.At chain options p) (hsize : 1 ≤ options.segmentReadSize)
    (hwithin : ChainWithin content chain) (hserves : source.Serves content) (buffers : List Bytes)
    (hbuffers : ∀ buffer ∈ buffers, buffer.size ≠ 0) (a : Activity) :
    ∃ p' pieces idle,
      (Hyperslab.runCalls (buffers.map fun buffer => (source, .pull buffer)) s a).1.2.At chain
        options p' ∧
      Drains content chain p p' buffers
        (Hyperslab.runCalls (buffers.map fun buffer => (source, .pull buffer)) s a).1.1
        pieces idle := by
  induction buffers generalizing s p a with
  | nil =>
    refine ⟨p, [], 0, hs, rfl, rfl, nofun, ?_, Nat.le_refl p, fun h => absurd rfl h⟩
    rw [Array.extract_empty_of_stop_le_start (Nat.le_refl p)]
    rfl
  | cons buffer buffers ih =>
    obtain ⟨hbuffer, hbuffers⟩ := List.forall_mem_cons.1 hbuffers
    obtain ⟨bytes, hresult, hbytes, hend, hat⟩ :=
      hs.exists_pull hsize hwithin hserves hbuffer a
    obtain ⟨p', pieces, idle, hat', hdrains⟩ :=
      ih hat hbuffers ((StreamCall.pull buffer).carryOut source s a).2
    have hle := hat'.le
    have hplace := hdrains.place_le
    generalize hn : bytes.size = n at *
    by_cases hzero : n = 0
    · -- the end was met, so the other reads give no byte either
      subst hzero
      obtain rfl := Array.size_eq_zero_iff.1 hn
      have hat := hend.1 rfl
      obtain rfl := List.length_eq_zero_iff.1 (show pieces.length = 0 by omega)
      refine ⟨p', [], idle + 1, hat', ?_, ?_, nofun, hdrains.joined, by omega, fun _ => by omega⟩
      · rw [List.map_cons, runCalls_cons]
        dsimp only
        rw [hresult, hdrains.results_eq]
        rfl
      · have hlength := hdrains.length_add_idle
        simp only [List.length_nil, List.length_cons] at hlength ⊢
        omega
    · refine ⟨p', bytes :: pieces, idle, hat', ?_, ?_, ?_, ?_, ?_, hdrains.place_of_idle⟩
      · rw [List.map_cons, runCalls_cons]
        dsimp only
        rw [hresult, hdrains.results_eq]
        rfl
      · have hlength := hdrains.length_add_idle
        simp only [List.length_cons]
        omega
      · rintro piece hpiece
        rcases List.mem_cons.1 hpiece with rfl | hpiece
        · omega
        · exact hdrains.size_pos piece hpiece
      · rw [List.flatMap_cons, hdrains.joined, hbytes, ← Array.toList_append,
          Array.extract_append_extract, Nat.min_eq_left (by omega), Nat.max_eq_right (by omega)]
      · rw [List.length_cons]
        omega

end SegmentStream

/-- As many reads as the chain has bytes come to its end, and so does a read that gives no byte. -/
theorem Drains.place_eq {content : Bytes} {chain : List ByteRange} {p p' idle : Nat}
    {buffers pieces : List Bytes} {results : List (Except StorageError StreamAnswer)}
    (h : Drains content chain p p' buffers results pieces idle) (hle : p' ≤ chainLength chain)
    (hmany : idle ≠ 0 ∨ chainLength chain ≤ p + buffers.length) : p' = chainLength chain := by
  have hplace := h.place_le
  have hlength := h.length_add_idle
  by_cases hidle : idle = 0
  · have hreads := hmany.resolve_left (not_not_intro hidle)
    omega
  · exact h.place_of_idle hidle

/-- After the steps each segment read size is one at least: it is the first default, or one that was
set, where zero counts as one. -/
def ConfigStep.SizesPositive (steps : List (Nat × ConfigStep)) : Prop :=
  ∀ o ∈ (Settings.initial.after steps).all, 1 ≤ o.segmentReadSize ∧
    (o.segmentReadSize = 4096 ∨ ∃ k action n, (k, action) ∈ steps ∧
      action.change? = some (.segmentReadSize n) ∧ o.segmentReadSize = max n 1)

/-- Options made by the steps see no later change but those made to themselves. -/
def ConfigStep.OptionsApart (steps : List (Nat × ConfigStep)) : Prop :=
  ∀ j o others, (Settings.initial.after steps).made[j]? = some o →
    (Settings.initial.after (steps ++ others)).made[j]? =
      some ((others.filterMap fun p => p.2.changeTo? j p.1).foldl SettingChange.apply o)

namespace SegmentStream

/-- A stream over the chain gives no byte to a decoder just where all segments are passed, whatever
calls it had before and whether or not they failed. -/
def EndsWhenPassed (chain : List ByteRange) (options : ReadOptions) : Prop :=
  ∀ calls start results s a,
    runCalls calls (.ofChain chain options) start = ((results, s), a) →
    s.position + s.remaining = chainLength chain ∧
    ∀ (source : ByteSource) (buffer : Bytes), buffer.size ≠ 0 →
      ((∃ filled, ((StreamCall.pull buffer).carryOut source s a).1.1 =
        .ok (.filled 0 filled)) ↔ s.remaining = 0)

/-- Reads into buffers that are not empty give the bytes of the chain in order, where it lies in a
content, and come to its end by a read that gives none or after as many as there are bytes. This
number is the length of the stream, which stops at the largest offset. -/
def DrainsInOrder (chain : List ByteRange) (options : ReadOptions) : Prop :=
  ∀ (source : ByteSource) (content : Bytes), source.Serves content →
    ChainWithin content chain → ∀ buffers : List Bytes,
    (∀ buffer ∈ buffers, buffer.size ≠ 0) → ∀ start results s a,
    runCalls (buffers.map fun buffer => (source, .pull buffer)) (.ofChain chain options) start =
      ((results, s), a) →
    ∃ pieces idle, Drains content chain 0 s.position buffers results pieces idle ∧
      pieces.length ≤ chainLength chain ∧
      (chainLength chain ≤ maxOffset → s.length = chainLength chain) ∧
      (idle ≠ 0 ∨ chainLength chain ≤ buffers.length →
        s.remaining = 0 ∧
          pieces.flatMap (·.toList) = (chainBytes content chain).toList)

end SegmentStream

/-- Whatever steps change the defaults and options or make options, no segment read size is zero and
options are changed by nothing else than changes to themselves. So every stream made with options
that there are gives no byte to a decoder at its end only, and reads that go on come there. They are
no more than the length that the stream states, as long as the chain has no more bytes than the
largest offset. The stream of a longer chain states that offset. -/
theorem decoder_reads_progress (steps : List (Nat × ConfigStep)) :
    ConfigStep.SizesPositive steps ∧ ConfigStep.OptionsApart steps ∧
    ∀ o ∈ (Settings.initial.after steps).made, ∀ chain : List ByteRange,
      SegmentStream.EndsWhenPassed chain o ∧ SegmentStream.DrainsInOrder chain o := by
  have hsizes : ∀ o ∈ (Settings.initial.after steps).all, o.segmentReadSize = 4096 ∨
      ∃ k action n, (k, action) ∈ steps ∧ action.change? = some (.segmentReadSize n) ∧
        o.segmentReadSize = max n 1 := fun o => Settings.size_after_initial steps
  have hpos : ∀ o ∈ (Settings.initial.after steps).all, 1 ≤ o.segmentReadSize := by
    -- read off from how the options were made, not from their type
    intro o ho
    rcases hsizes o ho with hfirst | ⟨_, _, n, -, -, hset⟩ <;> omega
  refine ⟨fun o ho => ⟨hpos o ho, hsizes o ho⟩, fun j o others hj => ?_, fun o ho chain => ?_⟩
  · rw [Settings.after_append]
    exact Settings.getElem?_after hj others
  have hstart := SegmentStream.at_ofChain chain o
  have hsize := hpos o (List.mem_cons_of_mem _ ho)
  constructor
  · intro calls start results s a hrun
    obtain ⟨p, hat⟩ := hstart.exists_at_runCalls calls start
    rw [hrun] at hat
    exact ⟨hat.position_add_remaining, fun source buffer hbuffer =>
      hat.pull_gives_nothing_iff hsize hbuffer source a⟩
  · intro source content hserves hwithin buffers hbuffers start results s a hrun
    obtain ⟨p, pieces, idle, hat, hdrains⟩ :=
      hstart.drains hsize hwithin hserves buffers hbuffers start
    rw [hrun] at hat hdrains
    dsimp only at hat hdrains
    obtain rfl : s.position = p := hat.position
    have hle := hat.le
    have hplace := hdrains.place_le
    refine ⟨pieces, idle, hdrains, by omega, fun hmax => ?_, fun hmany => ?_⟩
    · exact hat.length.trans (Offset.clamped_of_le hmax)
    · have hend := hdrains.place_eq hle (by rwa [Nat.zero_add])
      have hsum := hat.position_add_remaining
      refine ⟨by omega, ?_⟩
      rw [hdrains.joined, hend, ← size_chainBytes hwithin, Array.extract_size]

/-- Options made after the default was set to zero read one byte at a time: four reads get the four
bytes of two segments with an empty one between them. -/
theorem decoder_reads_progress_single :
    ∃ o ∈ (Settings.initial.after
        [(0, .setDefault (.segmentReadSize 0)), (0, .renew)]).made,
      o.segmentReadSize = 1 ∧ ∃ results s a, runCalls
          (([#[7, 7], #[7, 7, 7], #[7], #[7]] : List Bytes).map fun buffer =>
            (.memory #[10, 11, 12, 13, 14, 15], .pull buffer))
          (.ofChain [⟨1, 2⟩, ⟨3, 0⟩, ⟨4, 2⟩] o) {} = ((results, s), a) ∧
        s.remaining = 0 ∧ ∃ pieces idle,
          Drains #[10, 11, 12, 13, 14, 15] [⟨1, 2⟩, ⟨3, 0⟩, ⟨4, 2⟩] 0 s.position
            [#[7, 7], #[7, 7, 7], #[7], #[7]] results pieces idle ∧
          pieces.flatMap (·.toList) = [11, 12, 14, 15] := by
  obtain ⟨-, -, hstreams⟩ := decoder_reads_progress
    [(0, .setDefault (.segmentReadSize 0)), (0, .renew)]
  have hmem := @List.mem_of_getElem? _ (Settings.initial.after
    [(0, .setDefault (.segmentReadSize 0)), (0, .renew)]).made 1 _ rfl
  have hwithin : ChainWithin #[10, 11, 12, 13, 14, 15] [⟨1, 2⟩, ⟨3, 0⟩, ⟨4, 2⟩] := by
    unfold ChainWithin
    decide
  obtain ⟨-, hreads⟩ := hstreams _ hmem [⟨1, 2⟩, ⟨3, 0⟩, ⟨4, 2⟩]
  obtain ⟨pieces, idle, hdrains, -, -, hall⟩ := hreads _ _ (ByteSource.serves_memory _) hwithin
    [#[7, 7], #[7, 7, 7], #[7], #[7]] (by decide) {} _ _ _ rfl
  obtain ⟨hend, hjoined⟩ := hall (.inr (by decide))
  exact ⟨_, hmem, rfl, _, _, _, rfl, hend, pieces, idle, hdrains, hjoined⟩

end Hyperslab
