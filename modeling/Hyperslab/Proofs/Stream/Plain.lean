import Hyperslab.Proofs.Read.Section
import Hyperslab.Proofs.Stream.Walk

/-!
# Plain logical streams

The logical stream of a variable in segments is the segment stream itself. Moving on to a place and
reading from there each either come to the place wanted, or fail because the chain ends before it or
because the source fails a request. Only a read makes requests, and they are for just the bytes that
it gives.

## Main definitions

- `LogicalStream.PlainAt`: a segment stream at a place of its chain
- `Interrupted`: a read comes to the end of a chain or to a request that fails

## Main statements

- `LogicalStream.ends_skipTo_plain`, `LogicalStream.ends_readExact_plain`: what a stream does
- `ReadProgress.ends_fromStream_plain`: what a transfer from the stream does
-/

namespace Hyperslab

/-- The stream is that of a chain, at place `p`. -/
def LogicalStream.PlainAt [Decoder] (stream : LogicalStream) (chain : List ByteRange)
    (options : ReadOptions) (p : Nat) : Prop :=
  ∃ s : SegmentStream, stream = .plain s ∧ s.At chain options p

/-- The error of a read that wants the bytes of a chain up to place `stop`: the chain ends before
it, or the source fails a request for some of its bytes at some time. -/
def Interrupted (source : ByteSource) (chain : List ByteRange) (stop : Nat) (e : ReadError) :
    Prop :=
  (chainLength chain < stop ∧ ∃ position requested, e = .storage (.chainEnded position requested)) ∨
    ∃ p n issued range before cause, RequestsFor chain p n issued ∧ range ∈ issued ∧
      source.readInto before range = .error cause ∧ e = .storage cause

theorem Interrupted.mono {source : ByteSource} {chain : List ByteRange} {stop stop' : Nat}
    {e : ReadError} (h : Interrupted source chain stop e) (hle : stop ≤ stop') :
    Interrupted source chain stop' e := by
  rcases h with ⟨hlt, he⟩ | hfailed
  · exact .inl ⟨by omega, he⟩
  · exact .inr hfailed

namespace LogicalStream

variable [Decoder] {source : ByteSource} {stream : LogicalStream} {chain : List ByteRange}
  {options : ReadOptions} {p offset : Nat}

theorem PlainAt.position_eq (h : stream.PlainAt chain options p) : stream.position = p := by
  obtain ⟨s, rfl, hs⟩ := h
  exact hs.position

theorem PlainAt.le (h : stream.PlainAt chain options p) : p ≤ chainLength chain := by
  obtain ⟨s, rfl, hs⟩ := h
  exact hs.le

theorem ends_skip_plain (source : ByteSource) (h : stream.PlainAt chain options p) (count : Nat)
    (a : Activity) :
    SourceM.Ends (stream.skip source count) a
      (fun stream' a' => stream'.PlainAt chain options (p + count) ∧ a' = a)
      (fun e _ => Interrupted source chain (p + count) e) := by
  obtain ⟨s, rfl, hs⟩ := h
  obtain ⟨hpassed, hat⟩ := hs.skip count
  have hle := hs.le
  rw [skip]
  dsimp only
  rw [hpassed]
  by_cases hcount : count ≤ chainLength chain - p
  · rw [Nat.min_eq_left hcount] at hat ⊢
    rw [if_neg (not_not_intro rfl)]
    exact ⟨⟨_, rfl, hat⟩, rfl⟩
  · rw [if_pos (by omega)]
    exact .inl ⟨by omega, _, _, rfl⟩

/-- A stream is moved on to a place that the chain reaches, without a request. -/
theorem ends_skipTo_plain (source : ByteSource) (h : stream.PlainAt chain options p)
    (hle : p ≤ offset) (a : Activity) :
    SourceM.Ends (stream.skipTo source offset) a
      (fun stream' a' => stream'.PlainAt chain options offset ∧ a' = a)
      (fun e _ => Interrupted source chain offset e) := by
  rw [skipTo, h.position_eq]
  by_cases hlt : p < offset
  · rw [if_pos hlt]
    have hskip := ends_skip_plain source h (offset - p) a
    rwa [Nat.add_sub_cancel' hle] at hskip
  · obtain rfl : p = offset := by omega
    rw [if_neg hlt]
    exact ⟨h, rfl⟩

/-- A read gives as many bytes as wanted, by requests for just these. -/
theorem ends_readExact_plain (source : ByteSource) (h : stream.PlainAt chain options p)
    (count : Nat) (a : Activity) :
    SourceM.Ends (stream.readExact source count) a
      (fun r a' => ∃ issued, RequestsFor chain p count issued ∧
        gather source.readInto a.requests.toList issued = .ok r.1 ∧ r.1.size = count ∧
        a'.requests.toList = a.requests.toList ++ issued ∧
        r.2.PlainAt chain options (p + count))
      (fun e _ => Interrupted source chain (p + count) e) := by
  obtain ⟨s, rfl, hs⟩ := h
  have hle := hs.le
  rw [readExact, SourceM.ends_bind, SourceM.ends_lift]
  rcases hread : s.readInto source count a with ⟨⟨e | bytes, s'⟩, a'⟩
  · obtain ⟨answered, failed, got, hissued, -, -, hfailed, -⟩ :=
      hs.of_readBy_error source.asks_fetchExactly hread
    exact .inr ⟨_, _, _, failed, _, e, hissued, List.mem_append_right _ (List.mem_singleton_self _),
      hfailed, rfl⟩
  · obtain ⟨issued, hissued, hgot, hrequests, -, hat⟩ :=
      hs.of_readBy_ok source.asks_fetchExactly hread
    have hsize : bytes.size = min count (chainLength chain - p) := by
      rw [size_of_gather_readInto hgot, ← length_chainOffsets, hissued.offsets, List.length_take,
        List.length_drop, length_chainOffsets]
      omega
    dsimp only
    by_cases hcount : count ≤ chainLength chain - p
    · rw [Nat.min_eq_left hcount] at hissued hat hsize
      rw [if_neg (not_not_intro hsize)]
      exact ⟨issued, hissued, hgot, hsize, hrequests, _, rfl, hat⟩
    · rw [if_pos (by omega)]
      exact .inl ⟨by omega, _, _, rfl⟩

end LogicalStream

namespace ReadProgress

variable [Decoder]

/-- The stream of a read, where one is open, is that of a chain. -/
def OnChain (p : ReadProgress) (chain : List ByteRange) (options : ReadOptions) : Prop :=
  ∀ stream, p.stream = some stream → ∃ k, stream.PlainAt chain options k

variable {r : ReadRequest} {p : ReadProgress} {segments : List ByteRange}

theorem ends_ofLayout_segmented (options : ReadOptions) (segments : List ByteRange) (a : Activity) :
    SourceM.Ends (LogicalStream.ofLayout options (.segmented segments)) a
      (fun stream a' => stream.PlainAt segments options 0 ∧ a'.requests = a.requests)
      (fun _ _ => False) :=
  ⟨⟨_, rfl, SegmentStream.at_ofChain segments options⟩, rfl⟩

/-- There is a stream at or before each offset, since one can be opened at the start. -/
theorem ends_streamBefore_plain (hlayout : r.descriptor.layout = .segmented segments)
    (h : p.OnChain segments r.options) (offset : Nat) (a : Activity) :
    SourceM.Ends (p.streamBefore r offset) a
      (fun stream a' => (∃ k, k ≤ offset ∧ stream.PlainAt segments r.options k) ∧
        a'.requests = a.requests)
      (fun _ _ => False) := by
  have hopen : SourceM.Ends (LogicalStream.ofLayout r.options (.segmented segments)) a
      (fun stream a' => (∃ k, k ≤ offset ∧ stream.PlainAt segments r.options k) ∧
        a'.requests = a.requests) (fun _ _ => False) :=
    (ends_ofLayout_segmented r.options segments a).mono
      (fun _ _ h => ⟨⟨0, Nat.zero_le offset, h.1⟩, h.2⟩) fun _ _ he => he
  rw [streamBefore, hlayout]
  cases hstream : p.stream with
  | none => exact hopen
  | some stream =>
    obtain ⟨k, hat⟩ := h stream hstream
    dsimp only
    rw [hat.position_eq]
    split
    · exact hopen
    · exact ⟨⟨k, by omega, hat⟩, rfl⟩

/-- A transfer from the stream requests just its bytes and puts them into the destination, which has
room for them. -/
theorem ends_fromStream_plain (hlayout : r.descriptor.layout = .segmented segments)
    (h : p.OnChain segments r.options) (offset destination length : Nat) (a : Activity) :
    SourceM.Ends (p.fromStream r offset destination length) a
      (fun p' a' => ∃ stream issued bytes, RequestsFor segments offset length issued ∧
        gather r.source.readInto a.requests.toList issued = .ok bytes ∧ bytes.size = length ∧
        a'.requests.toList = a.requests.toList ++ issued ∧
        stream.PlainAt segments r.options (offset + length) ∧
        write { p with stream := some stream } destination bytes = .ok p')
      (fun e _ => destination + length ≤ p.output.size →
        Interrupted r.source segments (offset + length) e) := by
  rw [fromStream_eq, SourceM.ends_bind]
  refine (ends_streamBefore_plain hlayout h offset a).mono ?_ fun _ _ he => he.elim
  rintro stream₁ a₁ ⟨⟨k, hle, hat₁⟩, hrequests₁⟩
  rw [SourceM.ends_bind]
  refine (LogicalStream.ends_skipTo_plain r.source hat₁ hle a₁).mono ?_
    fun _ _ he _ => he.mono (Nat.le_add_right offset length)
  rintro stream₂ a₂ ⟨hat₂, rfl⟩
  rw [checkPart, SourceM.ends_bind]
  by_cases hfit : destination + length ≤ p.output.size
  case neg =>
    rw [if_neg hfit]
    exact fun h => absurd h hfit
  rw [if_pos hfit, SourceM.ends_ofExcept_ok, SourceM.ends_bind]
  refine (LogicalStream.ends_readExact_plain r.source hat₂ length _).mono ?_ fun _ _ he _ => he
  rintro ⟨bytes, stream₃⟩ a₃ ⟨issued, hissued, hgot, hsize, hrequests₃, hat₃⟩
  dsimp only at hgot hsize hat₃ ⊢
  rw [hrequests₁] at hgot hrequests₃
  have hwrite : write { p with stream := some stream₃ } destination bytes =
      .ok { p with
        output := Bytes.overwrite p.output destination bytes
        stream := some stream₃ } := by
    rw [write, Bytes.overwrite?_eq_some (by rw [hsize]; exact hfit)]
  rw [hwrite, SourceM.ends_ofExcept_ok]
  exact ⟨stream₃, issued, bytes, hissued, hgot, hsize, hrequests₃, hat₃, hwrite⟩

end ReadProgress

end Hyperslab
