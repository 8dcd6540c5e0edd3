import Hyperslab.Proofs.Read.Requests
import Hyperslab.Proofs.Request.Intervals

/-!
# Requests for a variable in one range

The elements of a variable in one range follow one another in the byte source, and the transfers of
a section go forward through them and through the destination. A read that joins requests puts each
of them off until the next transfer is known. Since the destination leaves no gap, the next transfer
is joined to it just where it is next to it in the source, so that what is requested in the end are
the maximal intervals of all bytes selected: no other way to request these bytes and nothing else
needs fewer requests. A read that does not join requests makes one for each transfer.

## Main definitions

- `Transfer.range`: the bytes of a transfer in the byte source
- `ReadProgress.Gathers`: the transfers so far, joined where they touch

## Main statements

- `ReadProgress.ends_execute_gathers`: a transfer is joined to what is put off, or comes after it
- `requests_of_regular`: the requests of a read with and without joining
-/

namespace Hyperslab

/-- The bytes of a transfer in the byte source. -/
def Transfer.range (d : Descriptor) (t : Transfer) : ByteRange :=
  ⟨t.source.offset, t.runLength * d.elementSize⟩

theorem elementsMoved_concat (front : List Transfer) (t : Transfer) :
    elementsMoved (front ++ [t]) = elementsMoved front + t.runLength := by
  induction front with
  | nil => exact Nat.add_comm _ _
  | cons u front ih => rw [List.cons_append, elementsMoved, ih, elementsMoved, Nat.add_assoc]

variable {r : ReadRequest} {d : Descriptor} {s : Section} {plan : TransferPlan} {t : Transfer}
  {baseOffset : Nat}

theorem Descriptor.isLinear_of_regular (hlayout : d.layout = .regular baseOffset) :
    d.layout.isLinear = true := by
  rw [hlayout]
  rfl

/-- The transfers of a variable in one range are from the byte source. -/
theorem TransferPlan.Exact.source_of_regular (h : plan.Exact d s)
    (hlayout : d.layout = .regular baseOffset) (ht : t ∈ plan.transfers) :
    ∃ offset, t.source = .direct offset := by
  have hplace := h.place_destination ht
  rw [Descriptor.place?, hlayout] at hplace
  obtain ⟨k, -, hsource⟩ := Option.map_eq_some_iff.1 hplace
  exact ⟨_, hsource.symm⟩

namespace ReadProgress

variable {p p' : ReadProgress} {a a' start : Activity} {front back : List Transfer}
  {offset destination length : Nat}

/-- A direct read is joined to the one that is put off, or put off in its place. -/
theorem ends_direct_joined (hcoalesce : r.options.coalesceDirectReads = true) (p : ReadProgress)
    (offset destination length : Nat) (a : Activity) :
    SourceM.Ends (p.direct r offset destination length) a
      (fun p' a' => p'.stream = p.stream ∧
        ((∃ q, p.pending = some q ∧ q.offset + q.length = offset ∧
            p'.pending = some { q with length := q.length + length } ∧ a' = a) ∨
          ((∀ q, p.pending = some q →
              ¬(q.offset + q.length = offset ∧ q.destination + q.length = destination)) ∧
            p'.pending = some ⟨offset, destination, length⟩ ∧
            a'.requests.toList = a.requests.toList ++ p.putOff)))
      (fun _ _ => True) := by
  rw [direct, if_pos hcoalesce]
  split
  · rename_i read hread
    obtain ⟨q, hpending, hextend⟩ := Option.bind_eq_some_iff.1 hread
    obtain ⟨hadjacent, hextend⟩ := Option.ite_none_right_eq_some.1 hextend
    cases hextend
    exact ⟨rfl, .inl ⟨q, hpending, hadjacent.1, rfl, rfl⟩⟩
  · rename_i hread
    rw [SourceM.ends_bind]
    refine (ends_flush_requests r p a).mono ?_ fun _ _ _ => trivial
    rintro p' a' ⟨hrequests, -, hstream⟩
    refine ⟨hstream, .inr ⟨fun q hq hadjacent => ?_, rfl, hrequests⟩⟩
    rw [hq, Option.bind_some, PendingRead.extend?, if_pos hadjacent] at hread
    cases hread

/-- What was requested since `start` and what is put off are the transfers so far, joined where they
touch. What is put off ends in the destination where the transfers so far do, and in the source at
or before all transfers to come. -/
structure Gathers (p : ReadProgress) (d : Descriptor) (front back : List Transfer)
    (start a : Activity) : Prop where
  stream_eq : p.stream = none
  exists_issued : ∃ issued, a.requests.toList = start.requests.toList ++ issued ∧
    Joined (issued ++ p.putOff) (front.flatMap (Transfer.offsets d)) ∧
    (p.pending = none → issued = [])
  destination_eq : ∀ q, p.pending = some q →
    q.destination + q.length = elementsMoved front * d.elementSize
  before : ∀ q, p.pending = some q → ∀ t ∈ back, q.offset + q.length ≤ t.source.offset

theorem gathers_nil (d : Descriptor) (transfers : List Transfer) (output : Bytes) (a : Activity) :
    Gathers { output := output } d [] transfers a a :=
  ⟨rfl, ⟨[], (List.append_nil _).symm, .nil, fun _ => rfl⟩, nofun, nofun⟩

theorem flatMap_offsets_concat (hsource : t.source = .direct offset) :
    (front ++ [t]).flatMap (Transfer.offsets d) =
      front.flatMap (Transfer.offsets d) ++ (t.range d).offsets := by
  rw [List.flatMap_append, List.flatMap_singleton, Transfer.offsets, Transfer.range, hsource]
  rfl

theorem moved_concat (hdestination : t.destination = elementsMoved front) (n : Nat) :
    elementsMoved (front ++ [t]) * n = t.destination * n + t.runLength * n := by
  rw [elementsMoved_concat, Nat.add_mul, hdestination]

/-- A transfer that touches what is put off makes it longer. -/
theorem Gathers.join {q : PendingRead} (h : p.Gathers d front (t :: back) start a)
    (hsource : t.source = .direct offset) (hdestination : t.destination = elementsMoved front)
    (hforward : ∀ u ∈ back, (t.range d).offset + (t.range d).length ≤ u.source.offset)
    (hq : p.pending = some q) (htouch : q.offset + q.length = (t.range d).offset)
    (hstream : p'.stream = p.stream)
    (hpending : p'.pending = some { q with length := q.length + (t.range d).length }) :
    p'.Gathers d (front ++ [t]) back start a := by
  obtain ⟨issued, hissued, hjoined, -⟩ := h.exists_issued
  have hend := h.destination_eq q hq
  rw [putOff_eq_singleton hq] at hjoined
  refine ⟨hstream.trans h.stream_eq, ⟨issued, hissued, ?_, ?_⟩, ?_, ?_⟩
  · rw [putOff_eq_singleton hpending, flatMap_offsets_concat hsource, ByteRange.offsets, ← htouch]
    exact hjoined.extend _
  · rw [hpending]
    exact fun hnone => absurd hnone (Option.some_ne_none _)
  · rw [hpending]
    rintro _ ⟨⟩
    rw [moved_concat hdestination, hdestination, ← hend]
    exact (Nat.add_assoc _ _ _).symm
  · rw [hpending]
    rintro _ ⟨⟩ u hu
    have hnext := hforward u hu
    dsimp only
    omega

/-- A transfer that does not touch what is put off is put off in its place. -/
theorem Gathers.next (h : p.Gathers d front (t :: back) start a)
    (hsource : t.source = .direct offset) (hpos : 0 < (t.range d).length)
    (hdestination : t.destination = elementsMoved front)
    (hforward : ∀ u ∈ back, (t.range d).offset + (t.range d).length ≤ u.source.offset)
    (hapart : ∀ q, p.pending = some q → ¬(q.offset + q.length = (t.range d).offset ∧
      q.destination + q.length = t.destination * d.elementSize))
    (hstream : p'.stream = p.stream)
    (hpending : p'.pending =
      some ⟨(t.range d).offset, t.destination * d.elementSize, (t.range d).length⟩)
    (hrequests : a'.requests.toList = a.requests.toList ++ p.putOff) :
    p'.Gathers d (front ++ [t]) back start a' := by
  obtain ⟨issued, hissued, hjoined, hfirst⟩ := h.exists_issued
  refine ⟨hstream.trans h.stream_eq, ⟨issued ++ p.putOff, ?_, ?_, ?_⟩, ?_, ?_⟩
  · rw [hrequests, hissued, List.append_assoc]
  · rw [putOff_eq_singleton hpending, flatMap_offsets_concat hsource]
    cases hq : p.pending with
    | none =>
      have hputOff : p.putOff = [] := by rw [putOff, hq]; rfl
      have hempty : front.flatMap (Transfer.offsets d) = [] := by
        rw [← hjoined.offsets_eq, hfirst hq, hputOff]
        rfl
      rw [hfirst hq, hputOff, hempty]
      exact .singleton hpos
    | some q =>
      -- the destinations touch, so the sources do not
      have hend := h.destination_eq q hq
      have hle := h.before q hq t List.mem_cons_self
      rw [← hdestination] at hend
      rw [putOff_eq_singleton hq] at hjoined ⊢
      exact hjoined.concat hpos
        (Nat.lt_of_le_of_ne hle fun heq => hapart q hq ⟨heq, hend⟩)
  · rw [hpending]
    exact fun hnone => absurd hnone (Option.some_ne_none _)
  · rw [hpending]
    rintro _ ⟨⟩
    exact (moved_concat hdestination _).symm
  · rw [hpending]
    rintro _ ⟨⟩
    exact hforward

/-- A transfer from the source is joined to what is put off where it touches it, and put off after
it otherwise. -/
theorem ends_execute_gathers (hcoalesce : r.options.coalesceDirectReads = true)
    (hsource : t.source = .direct offset) (hlength : 0 < t.runLength)
    (hdestination : t.destination = elementsMoved front)
    (hforward : ∀ u ∈ back, t.source.offset + t.runLength * r.descriptor.elementSize ≤
      u.source.offset)
    (h : p.Gathers r.descriptor front (t :: back) start a) :
    SourceM.Ends (p.execute r t) a
      (fun p' a' => p'.Gathers r.descriptor (front ++ [t]) back start a') (fun _ _ => True) := by
  have hpos : 0 < t.runLength * r.descriptor.elementSize :=
    Nat.mul_pos hlength r.descriptor.elementSize_pos
  have hoffset : (t.range r.descriptor).offset = offset := by rw [Transfer.range, hsource]; rfl
  rw [execute, hsource, ← hoffset]
  refine (ends_direct_joined hcoalesce p _ _ _ a).mono ?_ fun _ _ _ => trivial
  rintro p' a' ⟨hstream, ⟨q, hq, htouch, hpending, rfl⟩ | ⟨hapart, hpending, hrequests⟩⟩
  · exact h.join hsource hdestination hforward hq htouch hstream hpending
  · exact h.next hsource hpos hdestination hforward hapart hstream hpending hrequests

theorem ends_transfers_gathers (hcoalesce : r.options.coalesceDirectReads = true)
    (hlayout : r.descriptor.layout = .regular baseOffset)
    (hs : s.validate r.descriptor.shape = .ok ()) (hplan : resolve r.descriptor s = .ok plan)
    (output : Bytes) (a : Activity) :
    SourceM.Ends (plan.transfers.foldlM (execute r) { output := output }) a
      (fun p a' => p.Gathers r.descriptor plan.transfers [] a a') (fun _ _ => True) := by
  have hlinear := Descriptor.isLinear_of_regular hlayout
  have hexact := exact_of_resolve_linear hlinear hs hplan
  have hforward := resolve_linear_forward hlinear hs hplan
  obtain ⟨hdestination, -⟩ := resolve_linear_destination hlinear hs hplan
  refine SourceM.Ends.foldlM
    (fun front back (p : ReadProgress) a' => p.Gathers r.descriptor front back a a') ?_
    (gathers_nil r.descriptor plan.transfers output a)
  intro front t back htransfers p a' hp
  have ht : t ∈ plan.transfers := by simp [htransfers]
  obtain ⟨offset, hsource⟩ := hexact.source_of_regular hlayout ht
  have hnext := hdestination front.length t (by simp [htransfers])
  rw [htransfers, List.take_left] at hnext
  rw [htransfers] at hforward
  exact ends_execute_gathers hcoalesce hsource (hexact.runLength_pos t ht) hnext
    (List.pairwise_cons.1 (List.pairwise_append.1 hforward).2.1).1 hp

/-- A read that does not join requests makes one for each transfer. -/
theorem ends_transfers_ranges (hcoalesce : r.options.coalesceDirectReads = false)
    {transfers : List Transfer} (hsource : ∀ t ∈ transfers, ∃ offset, t.source = .direct offset)
    (output : Bytes) (a : Activity) :
    SourceM.Ends (transfers.foldlM (execute r) { output := output }) a
      (fun p a' => p.stream = none ∧ p.pending = none ∧
        a'.requests.toList = a.requests.toList ++ transfers.map (Transfer.range r.descriptor))
      (fun _ _ => True) := by
  refine SourceM.Ends.foldlM (fun front _ (p : ReadProgress) (a' : Activity) =>
    p.stream = none ∧ p.pending = none ∧
      a'.requests.toList = a.requests.toList ++ front.map (Transfer.range r.descriptor)) ?_
    ⟨rfl, rfl, (List.append_nil _).symm⟩
  rintro front t back htransfers p a' ⟨hstream, hpending, hrequests⟩
  obtain ⟨offset, hdirect⟩ := hsource t (by simp [htransfers])
  rw [execute, hdirect]
  dsimp only
  rw [direct, if_neg (by simp [hcoalesce])]
  refine (ends_fetchInto_requests r p offset _ _ a').mono ?_ fun _ _ _ => trivial
  rintro p' a'' ⟨hrequest, hpending', hstream'⟩
  refine ⟨hstream'.trans hstream, hpending'.trans hpending, ?_⟩
  rw [hrequest, hrequests, List.map_append, List.append_assoc, List.map_singleton, Transfer.range,
    hdirect]
  rfl

/-- Where no stream is open, what is put off is all that is left to request. -/
theorem ends_finish_putOff (hstream : p.stream = none) (a : Activity) :
    SourceM.Ends (p.finish r) a
      (fun _ a' => a'.requests.toList = a.requests.toList ++ p.putOff) (fun _ _ => True) := by
  rw [finish, SourceM.ends_bind]
  refine (ends_flush_requests r p a).mono ?_ fun _ _ _ => trivial
  rintro p' a' ⟨hrequests, -, hstream'⟩
  rw [hstream', hstream]
  exact hrequests

end ReadProgress

/-- The requests of a read of a variable in one range: with joining the maximal intervals of the
bytes selected, as few requests as these bytes need, and without it one for each transfer. -/
structure RegularRequests (r : ReadRequest) (s : Section) (plan : TransferPlan)
    (a a' : Activity) (issued : List ByteRange) : Prop where
  requests : a'.requests.toList = a.requests.toList ++ issued
  joined : r.options.coalesceDirectReads = true →
    MaximalIntervals issued (r.descriptor.storedOffsets s)
  fewest : r.options.coalesceDirectReads = true → ∀ others : List ByteRange,
    (∀ o, o ∈ chainOffsets others ↔ o ∈ r.descriptor.storedOffsets s) →
    issued.length ≤ others.length
  apiece : r.options.coalesceDirectReads = false →
    issued = plan.transfers.map (Transfer.range r.descriptor)

variable {a a' : Activity}

theorem ends_readSectionInto_regular (hlayout : r.descriptor.layout = .regular baseOffset)
    (hs : s.validate r.descriptor.shape = .ok ()) (hplan : resolve r.descriptor s = .ok plan)
    {destination : Bytes} (hsize : destination.size = s.totalCount * r.descriptor.elementSize)
    (a : Activity) :
    SourceM.Ends (readSectionInto r s destination) a
      (fun _ a' => ∃ issued, RegularRequests r s plan a a' issued) (fun _ _ => True) := by
  have hlinear := Descriptor.isLinear_of_regular hlayout
  have hexact := exact_of_resolve_linear hlinear hs hplan
  rw [readSectionInto_eq hs hplan hsize, SourceM.ends_bind, SourceM.ends_report, SourceM.ends_bind]
  cases hcoalesce : r.options.coalesceDirectReads with
  | true =>
    refine (ReadProgress.ends_transfers_gathers hcoalesce hlayout hs hplan destination _).mono ?_
      fun _ _ _ => trivial
    intro p a₁ hp
    obtain ⟨issued, hissued, hjoined, -⟩ := hp.exists_issued
    refine (ReadProgress.ends_finish_putOff hp.stream_eq a₁).mono ?_ fun _ _ _ => trivial
    intro _ a₂ hrequests
    have hmax : MaximalIntervals (issued ++ p.putOff) (r.descriptor.storedOffsets s) :=
      hjoined.maximalIntervals.congr fun o => hexact.perm_offsets.mem_iff
    refine ⟨issued ++ p.putOff, ?_, fun _ => hmax, fun _ others => hmax.length_le,
      by simp [hcoalesce]⟩
    rw [hrequests, hissued, List.append_assoc]
  | false =>
    refine (ReadProgress.ends_transfers_ranges hcoalesce
      (fun t ht => hexact.source_of_regular hlayout ht) destination _).mono ?_ fun _ _ _ => trivial
    rintro p a₁ ⟨hstream, hpending, hissued⟩
    refine (ReadProgress.ends_finish_putOff hstream a₁).mono ?_ fun _ _ _ => trivial
    intro _ a₂ hrequests
    refine ⟨_, ?_, by simp [hcoalesce], by simp [hcoalesce], fun _ => rfl⟩
    have hputOff : p.putOff = [] := by rw [ReadProgress.putOff, hpending]; rfl
    rw [hrequests, hissued, hputOff, List.append_nil]

/-- A read of a variable in one range that succeeds has requested the bytes selected. A read that
joins requests has issued the maximal intervals of these bytes, in increasing order, so that no two
of its requests touch, and the same bytes cannot be requested with fewer of them. A read that does
not has issued the bytes of each transfer, one transfer after the other. Nothing is requested for a
section that is empty. -/
theorem requests_of_regular (r : ReadRequest) (baseOffset : Nat)
    (hlayout : r.descriptor.layout = .regular baseOffset) (s : Section)
    (hs : s.validate r.descriptor.shape = .ok ()) :
    ∃ plan, resolve r.descriptor s = .ok plan ∧
      (∀ a a' bytes, (readSection r s).outcome a = (.ok bytes, a') →
        ∃ issued, RegularRequests r s plan a a' issued) ∧
      (∀ a a' destination bytes, destination.size = s.totalCount * r.descriptor.elementSize →
        (readSectionInto r s destination).outcome a = (.ok bytes, a') →
        ∃ issued, RegularRequests r s plan a a' issued) ∧
      (s.totalCount = 0 → ∀ a, ((readSection r s).outcome a).2.requests = a.requests ∧
        ∀ destination : Bytes, destination.size = s.totalCount * r.descriptor.elementSize →
          ((readSectionInto r s destination).outcome a).2.requests = a.requests) := by
  have hlinear := Descriptor.isLinear_of_regular hlayout
  have hstored : r.descriptor.layout.isAbsent = false := by rw [hlayout]; rfl
  obtain ⟨plan, hplan⟩ := exists_plan_linear hlinear hs
  refine ⟨plan, hplan, ?_, ?_, fun hzero a => ⟨?_, ?_⟩⟩
  · intro a a' bytes h
    rw [readSection_eq hs hstored (capacity_of_readSection (congrArg Prod.fst h))] at h
    exact (ends_readSectionInto_regular hlayout hs hplan (Bytes.size_zeros _) a).of_ok h
  · intro a a' destination bytes hsize h
    exact (ends_readSectionInto_regular hlayout hs hplan hsize a).of_ok h
  · rw [readSection_eq hs hstored (Section.capacity_of_empty hzero _)]
    exact (ends_readSectionInto_silent (.inr hzero) hs (Bytes.size_zeros _) a).activity
  · intro destination hsize
    exact (ends_readSectionInto_silent (.inr hzero) hs hsize a).activity

/-- Two rows of three bytes, after a byte of other data. -/
def twoRows : Descriptor :=
  { shape := [2, 3]
    elementSize := 1
    fill := none
    layout := .regular 1
    accepted := rfl }

/-- The first and the last element of each row. -/
def rowEnds : Section :=
  ⟨[.contiguous 0 2, ⟨0, 2, 2, Nat.two_pos⟩]⟩

/-- Each row end is a transfer of its own. The end of the first row and the start of the second one
touch, and are requested together. -/
theorem requests_rowEnds :
    twoRows.layout = .regular 1 ∧ rowEnds.validate twoRows.shape = .ok () ∧
    ∃ a', (readSection ⟨.memory #[9, 0, 1, 2, 3, 4, 5], twoRows, {}⟩ rowEnds).outcome {} =
        (.ok #[0, 2, 3, 5], a') ∧
      MaximalIntervals a'.requests.toList [1, 3, 4, 6] ∧ ⟨3, 2⟩ ∈ a'.requests.toList := by
  have hread : ((readSection ⟨.memory #[9, 0, 1, 2, 3, 4, 5], twoRows, {}⟩ rowEnds).outcome
      {}).1.toOption = some #[0, 2, 3, 5] := by
    decide +kernel
  have hoffsets : twoRows.storedOffsets rowEnds = [1, 3, 4, 6] := by decide
  refine ⟨rfl, rfl, ?_⟩
  cases houtcome : (readSection ⟨.memory #[9, 0, 1, 2, 3, 4, 5], twoRows, {}⟩ rowEnds).outcome
    {} with
  | mk result a' =>
    rw [houtcome] at hread
    cases result with
    | error e => cases hread
    | ok bytes =>
      obtain rfl : bytes = #[0, 2, 3, 5] := Option.some.inj hread
      obtain ⟨plan, -, hsection, -, -⟩ := requests_of_regular
        ⟨.memory #[9, 0, 1, 2, 3, 4, 5], twoRows, {}⟩ 1 rfl rowEnds rfl
      obtain ⟨issued, hissued⟩ := hsection _ _ _ houtcome
      have hmax : MaximalIntervals a'.requests.toList [1, 3, 4, 6] := by
        rw [hissued.requests, ← hoffsets]
        exact hissued.joined rfl
      refine ⟨a', rfl, hmax, (hmax.mem_iff _).2 ⟨by decide, by decide, ?_, by decide⟩⟩
      intro o ho
      obtain rfl : o = 2 := Nat.succ.inj ho
      decide

end Hyperslab
