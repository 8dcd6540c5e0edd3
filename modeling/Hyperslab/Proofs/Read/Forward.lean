import Hyperslab.Proofs.Resolve.Linear
import Hyperslab.Proofs.Read.Section
import Hyperslab.Proofs.Stream.Position

/-!
# Reads that only go forward

The transfers of a variable in one piece follow one another in what they read. A read that carries
them out therefore comes upon a stream at or before the place it wants, and opens one stream at
most.

## Main definitions

- `ReadProgress.IsForward`: the stream of a read is at or before all that is still to be read

## Main statements

- `ReadProgress.ends_execute`: a transfer keeps a read forward
- `resolve_linear_exact`: the transfers of a variable in one piece, and what carrying them out does
-/

namespace Hyperslab

namespace ReadProgress

/-- The stream of a read, if there is one, is at or before the places of the transfers still to
come, and no other was opened since `openings` were. -/
def IsForward (openings : Nat) (p : ReadProgress) (back : List Transfer) (a : Activity) : Prop :=
  match p.stream with
  | none => a.openings = openings
  | some stream =>
    a.openings ≤ openings + 1 ∧ ∀ t ∈ back, stream.position ≤ t.source.offset

theorem IsForward.openings_le {n : Nat} {p : ReadProgress} {back : List Transfer} {a : Activity}
    (h : p.IsForward n back a) : a.openings ≤ n + 1 := by
  unfold IsForward at h
  split at h
  · omega
  · exact h.1

variable {r : ReadRequest} {a : Activity} {n : Nat}

theorem stream_of_write {p p' : ReadProgress} {start : Nat} {bytes : Bytes}
    (h : p.write start bytes = .ok p') : p'.stream = p.stream := by
  unfold write at h
  dsimp only at h
  split at h
  · cases h
    rfl
  · cases h

/-- Requesting bytes reports nothing and leaves the stream alone. -/
theorem logs_fetchInto {q : LogEvent → Prop} (r : ReadRequest) (p : ReadProgress)
    (offset destination length : Nat) :
    (p.fetchInto r offset destination length).Logs q fun p' => p'.stream = p.stream := by
  refine (SourceM.Logs.check _).bind fun _ _ => ?_
  refine ((SourceM.Logs.of_log_eq (SourceM.log_fetchExactly r.source _)).mapError _).bind ?_
  exact fun bytes _ => .ofExcept fun p' hwrite => stream_of_write hwrite

theorem logs_flush {q : LogEvent → Prop} (r : ReadRequest) (p : ReadProgress) :
    (p.flush r).Logs q fun p' => p'.stream = p.stream := by
  rw [flush]
  split
  · exact logs_fetchInto r { p with pending := none } _ _ _
  · exact .pure rfl

theorem logs_direct {q : LogEvent → Prop} (r : ReadRequest) (p : ReadProgress)
    (offset destination length : Nat) :
    (p.direct r offset destination length).Logs q fun p' => p'.stream = p.stream := by
  rw [direct]
  split
  · split
    · exact .pure rfl
    · exact (logs_flush r p).bind fun _ hstream => .pure hstream
  · exact logs_fetchInto r p offset destination length

theorem ends_flush (r : ReadRequest) (p : ReadProgress) (a : Activity) :
    SourceM.Ends (p.flush r) a (fun p' a' => p'.stream = p.stream ∧ a'.openings = a.openings)
      (fun _ a' => a'.openings = a.openings) :=
  (logs_flush r p).ends_openings a

theorem ends_direct (r : ReadRequest) (p : ReadProgress) (offset destination length : Nat)
    (a : Activity) : SourceM.Ends (p.direct r offset destination length) a
      (fun p' a' => p'.stream = p.stream ∧ a'.openings = a.openings)
      (fun _ a' => a'.openings = a.openings) :=
  (logs_direct r p offset destination length).ends_openings a

end ReadProgress

namespace LogicalStream

theorem ends_ofSegments (options : ReadOptions) (segments : List ByteRange) (codec : CodecId)
    (length : Nat) (a : Activity) :
    SourceM.Ends (ofSegments options segments codec length) a
      (fun stream a' => stream.position = 0 ∧ a'.openings ≤ a.openings + 1)
      (fun _ a' => a'.openings ≤ a.openings + 1) := by
  rw [ofSegments]
  cases checkDecodedSize length options with
  | error e => exact Nat.le_succ _
  | ok _ =>
    cases findCodec codec with
    | error e => exact Nat.le_succ _
    | ok codec => exact ⟨rfl, Nat.le_of_eq (a.openings_push _)⟩

theorem ends_ofLayout (options : ReadOptions) (layout : StorageLayout) (a : Activity) :
    SourceM.Ends (ofLayout options layout) a
      (fun stream a' => stream.position = 0 ∧ a'.openings ≤ a.openings + 1)
      (fun _ a' => a'.openings ≤ a.openings + 1) := by
  cases layout with
  | segmented segments => exact ⟨rfl, Nat.le_of_eq (a.openings_push _)⟩
  | compressed data length codec => exact ends_ofSegments options [data] codec length a
  | compressedSegmented segments codec length =>
    exact ends_ofSegments options segments codec length a
  | noData => exact Nat.le_succ _
  | regular baseOffset => exact Nat.le_succ _
  | tiled chunkShape chunks => exact Nat.le_succ _
  | compressedTiled chunkShape chunks => exact Nat.le_succ _

end LogicalStream

namespace ReadProgress

variable {r : ReadRequest} {p : ReadProgress} {n : Nat} {t : Transfer} {back : List Transfer}
  {a : Activity}

/-- The stream found for a place at or after the present one is at or before that place. -/
theorem ends_streamBefore (h : p.IsForward n (t :: back) a) :
    SourceM.Ends (p.streamBefore r t.source.offset) a
      (fun stream a' => stream.position ≤ t.source.offset ∧ a'.openings ≤ n + 1)
      (fun _ a' => a'.openings ≤ n + 1) := by
  unfold IsForward at h
  rw [streamBefore]
  cases hstream : p.stream with
  | none =>
    simp only [hstream] at h ⊢
    refine (LogicalStream.ends_ofLayout r.options r.descriptor.layout a).mono ?_ ?_
    · rintro stream a' ⟨hposition, hopenings⟩
      exact ⟨by omega, by omega⟩
    · intro e a' hopenings
      omega
  | some stream =>
    simp only [hstream] at h ⊢
    obtain ⟨hopenings, hposition⟩ := h
    have hle := hposition t List.mem_cons_self
    rw [if_neg (by omega)]
    exact ⟨hle, hopenings⟩

/-- A transfer from the stream leaves it after the bytes of the transfer. -/
theorem ends_fromStream (destination length : Nat) (h : p.IsForward n (t :: back) a)
    (hback : ∀ u ∈ back, t.source.offset + length ≤ u.source.offset) :
    SourceM.Ends (p.fromStream r t.source.offset destination length) a
      (fun p' a' => p'.IsForward n back a') (fun _ a' => a'.openings ≤ n + 1) := by
  rw [fromStream_eq, SourceM.ends_bind]
  refine (ends_streamBefore h).mono ?_ fun _ _ h => h
  rintro stream a₁ ⟨hposition, hopenings₁⟩
  rw [SourceM.ends_bind]
  refine (LogicalStream.ends_skipTo r.source hposition a₁).mono ?_ fun _ _ h => by omega
  rintro stream₂ a₂ ⟨hposition₂, hopenings₂⟩
  rw [SourceM.ends_bind]
  cases p.checkPart destination length with
  | error e => exact (by omega : a₂.openings ≤ n + 1)
  | ok _ =>
    rw [SourceM.ends_ofExcept_ok, SourceM.ends_bind]
    refine ((LogicalStream.logs_readExact stream₂.reports_isOpening length).ends_with
      (stream₂.ends_readExact r.source length a₂)).mono ?_ fun _ _ h => by omega
    rintro ⟨bytes, stream₃⟩ a₃ ⟨hposition₃, hopenings₃⟩
    dsimp only at hposition₃ ⊢
    cases hwrite : ({ p with stream := some stream₃ } : ReadProgress).write destination bytes with
    | error e => exact (by omega : a₃.openings ≤ n + 1)
    | ok p' =>
      have hstream := stream_of_write hwrite
      show p'.IsForward n back a₃
      rw [IsForward, hstream]
      refine ⟨by omega, fun u hu => ?_⟩
      have hle := hback u hu
      omega

/-- A transfer from the byte source or a stream keeps a read forward, where the transfers after it
start where it ends or later. -/
theorem ends_execute (hsource : ∃ offset, t.source = .direct offset ∨ t.source = .stream offset)
    (hback : ∀ u ∈ back, t.source.offset + t.runLength * r.descriptor.elementSize ≤ u.source.offset)
    (h : p.IsForward n (t :: back) a) :
    SourceM.Ends (p.execute r t) a (fun p' a' => p'.IsForward n back a')
      (fun _ a' => a'.openings ≤ n + 1) := by
  rw [execute]
  obtain ⟨offset, hdirect | hstream⟩ := hsource
  · rw [hdirect]
    have hle := h.openings_le
    refine (ends_direct r p offset _ _ a).mono ?_ fun _ _ h => by omega
    rintro p' a' ⟨hstream, hopenings⟩
    unfold IsForward at h ⊢
    rw [hstream, hopenings]
    split at h
    · exact h
    · exact ⟨h.1, fun u hu => h.2 u (List.mem_cons_of_mem t hu)⟩
  · have hoffset : t.source.offset = offset := by rw [hstream]; rfl
    rw [hstream]
    dsimp only
    rw [← hoffset]
    exact ends_fromStream _ _ h hback

/-- What a read holds after the transfers in front is forward for those at the back. -/
theorem ends_transfers (front back : List Transfer)
    (hsource : ∀ t ∈ front ++ back, ∃ offset, t.source = .direct offset ∨ t.source = .stream offset)
    (hforward : (front ++ back).Pairwise fun t u =>
      t.source.offset + t.runLength * r.descriptor.elementSize ≤ u.source.offset)
    (output : Bytes) (a : Activity) :
    SourceM.Ends (front.foldlM (execute r) { output := output }) a
      (fun p a' => p.IsForward a.openings back a') (fun _ a' => a'.openings ≤ a.openings + 1) := by
  refine SourceM.Ends.foldlM
    (fun _ rest (p : ReadProgress) a' => p.IsForward a.openings (rest ++ back) a') ?_ rfl
  intro done t rest hfront p a' hp
  rw [hfront] at hsource hforward
  rw [List.append_assoc] at hforward
  have hrest := (List.pairwise_cons.1 (List.pairwise_append.1 hforward).2.1).1
  exact ends_execute (hsource t (by simp)) hrest hp

theorem ends_finish (r : ReadRequest) (p : ReadProgress) (a : Activity) :
    SourceM.Ends (p.finish r) a (fun _ a' => a'.openings = a.openings)
      (fun _ a' => a'.openings = a.openings) := by
  rw [finish, SourceM.ends_bind]
  refine (ends_flush r p a).mono ?_ fun _ _ h => h
  rintro p' a' ⟨-, hopenings⟩
  rw [← hopenings]
  split
  · rename_i stream _
    rw [SourceM.ends_bind]
    exact ((LogicalStream.logs_finish stream.reports_isOpening).ends_openings a').mono
      (fun _ _ h => h.2) fun _ _ h => h
  · exact rfl

end ReadProgress

variable {d : Descriptor} {s : Section} {plan : TransferPlan}

theorem TransferPlan.Exact.source_of_isLinear (h : plan.Exact d s)
    (hlinear : d.layout.isLinear = true) {t : Transfer} (ht : t ∈ plan.transfers) :
    ∃ offset, t.source = .direct offset ∨ t.source = .stream offset := by
  have hplace := h.place_destination ht
  cases hsource : t.source with
  | direct offset => exact ⟨offset, .inl rfl⟩
  | stream offset => exact ⟨offset, .inr rfl⟩
  | _ =>
    rw [hsource] at hplace
    cases hlayout : d.layout <;> simp [hlayout, StorageLayout.isLinear] at hlinear <;>
      simp [Descriptor.place?, hlayout] at hplace

/-- A read of a variable in one piece opens one stream at most, and none where nothing is
selected. -/
theorem ends_readSectionInto {r : ReadRequest} (hlinear : r.descriptor.layout.isLinear = true)
    (hs : s.validate r.descriptor.shape = .ok ()) (destination : Bytes) (a : Activity) :
    SourceM.Ends (readSectionInto r s destination) a
      (fun _ a' => a'.openings ≤ a.openings + min 1 s.totalCount)
      (fun _ a' => a'.openings ≤ a.openings + min 1 s.totalCount) := by
  by_cases hsize : destination.size = s.totalCount * r.descriptor.elementSize
  · obtain ⟨plan, hplan⟩ := exists_plan_linear hlinear hs
    have hexact := exact_of_resolve_linear hlinear hs hplan
    rw [readSectionInto_eq hs hplan hsize, SourceM.ends_bind, SourceM.ends_report, SourceM.ends_bind]
    have hreport := a.openings_push (.readingSection s r.descriptor.layout.name s.totalCount)
    generalize ({ a with log := _ } : Activity) = b at hreport ⊢
    have hopenings : b.openings = a.openings := hreport
    by_cases hzero : s.totalCount = 0
    · rw [hexact.transfers_eq_nil hzero, List.foldlM_nil, SourceM.ends_pure]
      refine (ReadProgress.ends_finish r _ _).mono ?_ ?_
      · intro _ a' hopenings
        omega
      · intro _ a' hopenings
        omega
    · have hone : min 1 s.totalCount = 1 := by omega
      have hrun := ReadProgress.ends_transfers (r := r) plan.transfers []
        (fun t ht => hexact.source_of_isLinear hlinear (by simpa using ht))
        (by simpa using resolve_linear_forward hlinear hs hplan) destination b
      rw [hopenings] at hrun
      rw [hone]
      refine hrun.mono ?_ fun _ _ h => h
      intro p a' hp
      have hle := hp.openings_le
      refine (ReadProgress.ends_finish r p a').mono ?_ ?_
      · intro _ a'' hopenings
        omega
      · intro _ a'' hopenings
        omega
  · rw [readSectionInto_of_size hs hsize]
    exact Nat.le_add_right _ _

theorem StorageLayout.isAbsent_of_isLinear {layout : StorageLayout}
    (h : layout.isLinear = true) : layout.isAbsent = false := by
  cases layout <;> first | rfl | cases h

/-- A read from a logical stream that fails in its first transfer fails so. This one is for the
front of the destination, from the first element of the section on. -/
theorem ends_readSection_of_first [Decoder] {r : ReadRequest} {chain : List ByteRange}
    (hchain : r.descriptor.layout.chain? = some chain) (hs : s.validate r.descriptor.shape = .ok ())
    (hne : s.totalCount ≠ 0)
    (hcapacity : s.totalCount * r.descriptor.elementSize ≤ Bytes.maxCapacity)
    {err : ReadError → Activity → Prop} (a : Activity)
    (hfirst : ∀ length, 0 < length → length ≤ s.totalCount * r.descriptor.elementSize →
      SourceM.Ends (ReadProgress.fromStream r
          { output := Bytes.zeros (s.totalCount * r.descriptor.elementSize) }
          (rowMajor (s.indexAt 0) r.descriptor.shape * r.descriptor.elementSize) 0 length)
        { a with log := a.log.push (.readingSection s r.descriptor.layout.name s.totalCount) }
        (fun _ _ => False) err) :
    SourceM.Ends (readSection r s) a (fun _ _ => False) err := by
  have hlinear := StorageLayout.isLinear_of_chain hchain
  obtain ⟨plan, hplan⟩ := exists_plan_linear hlinear hs
  have hexact := exact_of_resolve_linear hlinear hs hplan
  -- something covers element 0, so there is a transfer, and the first one starts there
  obtain ⟨u, hu, -⟩ := hexact.covered 0 (Nat.pos_of_ne_zero hne)
  obtain ⟨t, back, htransfers⟩ := List.exists_cons_of_ne_nil (List.ne_nil_of_mem hu)
  have ht : t ∈ plan.transfers := by simp [htransfers]
  have hdestination : t.destination = 0 :=
    (resolve_linear_destination hlinear hs hplan).1 0 t (by simp [htransfers])
  obtain ⟨k, hk, hsource⟩ := hexact.source_of_chain hchain ht
  have hbelow := Section.below_indexAt (Section.within_of_validate hs hne) t.destination
  obtain rfl := Option.some.inj (hbelow.ravel?.symm.trans hk)
  have hfit := hexact.fits ht r.descriptor.elementSize
  rw [hdestination] at hsource hfit
  rw [readSection_eq hs (StorageLayout.isAbsent_of_isLinear hlinear) hcapacity,
    readSectionInto_eq hs hplan (Bytes.size_zeros _), SourceM.ends_bind, SourceM.ends_report,
    SourceM.ends_bind, htransfers, List.foldlM_cons, SourceM.ends_bind, ReadProgress.execute,
    hsource, hdestination]
  dsimp only
  rw [Nat.zero_mul] at hfit ⊢
  refine (hfirst _ ?_ (by omega)).mono (fun _ _ hfalse => hfalse.elim) fun _ _ he => he
  exact Nat.mul_pos (hexact.runLength_pos t ht) r.descriptor.elementSize_pos

/-- A build that does not stop at a section of a variable in one piece finds transfers that write
the destination from front to back, and read what they read from front to back. Carried out by any
read, each of them comes upon a stream that is not beyond it, so a read opens one stream at most, and
none where nothing is selected or the program stops. A build with checks stops where the step of the
section along a dimension is no offset. -/
theorem resolve_linear_exact (d : Descriptor) (hlinear : d.layout.isLinear = true) (s : Section)
    (hs : s.validate d.shape = .ok ()) (b : Build) :
    (d.Stops b s → resolveIn b d s = .error (.halted .overflow)) ∧
    (¬d.Stops b s → ∃ plan : TransferPlan,
      resolveIn b d s = .ok plan.transfers ∧ plan.Exact d s ∧
      (∀ n t, plan.transfers[n]? = some t →
        t.destination = elementsMoved (plan.transfers.take n)) ∧
      elementsMoved plan.transfers = s.totalCount ∧
      (plan.transfers.Pairwise fun t u =>
        t.source.offset + t.runLength * d.elementSize ≤ u.source.offset) ∧
      ∀ source options destination n t a p a' stream,
        ((plan.transfers.take n).foldlM (ReadProgress.execute ⟨source, d, options⟩)
          { output := destination }).outcome a = (.ok p, a') →
        plan.transfers[n]? = some t → p.stream = some stream →
        stream.position ≤ t.source.offset) ∧
    ∀ source options a,
      (∀ destination,
        ((readSectionInto ⟨source, d, options⟩ s destination b).outcome a).2.openings ≤
          a.openings + min 1 s.totalCount) ∧
      ((readSection ⟨source, d, options⟩ s b).outcome a).2.openings ≤
        a.openings + min 1 s.totalCount := by
  refine ⟨resolveIn_of_stops hs, fun hfit => ?_, fun source options a => ?_⟩
  · obtain ⟨plan, hplan, hcomputed⟩ := resolveIn_of_fit hs hfit
    have hexact := exact_of_resolve_linear hlinear hs hplan
    have hforward := resolve_linear_forward hlinear hs hplan
    obtain ⟨hdestination, htotal⟩ := resolve_linear_destination hlinear hs hplan
    refine ⟨plan, hcomputed, hexact, hdestination, htotal, hforward, ?_⟩
    intro source options destination n t a p a' stream houtcome hn hstream
    have hrun := ReadProgress.ends_transfers (r := ⟨source, d, options⟩)
      (plan.transfers.take n) (plan.transfers.drop n)
      (fun t ht => hexact.source_of_isLinear hlinear (by simpa using ht))
      (by simpa using hforward) destination a
    have hp := hrun.of_ok houtcome
    unfold ReadProgress.IsForward at hp
    simp only [hstream] at hp
    exact hp.2 t (List.mem_of_getElem? (i := 0) (by simpa using hn))
  · have hinto : ∀ destination,
        ((readSectionInto ⟨source, d, options⟩ s destination b).outcome a).2.openings ≤
          a.openings + min 1 s.totalCount := by
      intro destination
      by_cases hfit : d.Stops b s
      · rw [openings_of_stops (r := ⟨source, d, options⟩) hs hfit]
        exact Nat.le_add_right _ _
      · rw [readSectionInto_build (r := ⟨source, d, options⟩) hs hfit]
        exact (ends_readSectionInto (r := ⟨source, d, options⟩) hlinear hs _ a).activity
    refine ⟨hinto, ?_⟩
    by_cases hcapacity : s.totalCount * d.elementSize ≤ Bytes.maxCapacity
    · rw [readSection_eq (r := ⟨source, d, options⟩) hs (StorageLayout.isAbsent_of_isLinear hlinear)
        hcapacity]
      exact hinto _
    · rw [(readSection_of_large (r := ⟨source, d, options⟩) hs
        (Nat.lt_of_not_le hcapacity) a).openings_eq]
      exact Nat.le_add_right _ _

/-- A variable of two rows of three elements, in a chain of two segments. -/
def linkedRows : Descriptor :=
  { shape := [2, 3]
    elementSize := 2
    fill := none
    layout := .segmented [⟨4, 6⟩, ⟨20, 6⟩]
    accepted := rfl }

/-- Every other column of two rows, in a build with checks. -/
theorem resolve_linkedRows_exact :
    ¬linkedRows.Stops .checked ⟨[.contiguous 0 2, ⟨0, 2, 2, by decide⟩]⟩ ∧
      ∃ plan : TransferPlan,
        resolveIn .checked linkedRows ⟨[.contiguous 0 2, ⟨0, 2, 2, by decide⟩]⟩ =
          .ok plan.transfers ∧
        plan.Exact linkedRows ⟨[.contiguous 0 2, ⟨0, 2, 2, by decide⟩]⟩ ∧
        plan.transfers =
          [⟨.stream 0, 0, 1⟩, ⟨.stream 4, 1, 1⟩, ⟨.stream 6, 2, 1⟩, ⟨.stream 10, 3, 1⟩] := by
  have hfit : ¬linkedRows.Stops .checked ⟨[.contiguous 0 2, ⟨0, 2, 2, by decide⟩]⟩ := by decide
  obtain ⟨plan, hplan, hexact, -⟩ := (resolve_linear_exact linkedRows rfl
    ⟨[.contiguous 0 2, ⟨0, 2, 2, by decide⟩]⟩ rfl .checked).2.1 hfit
  exact ⟨hfit, plan, hplan, hexact, (Except.ok.inj hplan).symm⟩

/-- A row of the largest number of columns that is a power of two, twice. -/
def wideRows : Descriptor :=
  { shape := [2, 4611686018427387904]
    elementSize := 1
    fill := none
    layout := .regular 0
    accepted := rfl }

/-- Four elements of the first row, the next row selected being the one `2 ^ 62` rows on, of which
there is none. A build with checks stops at that step and finds no transfer. -/
theorem resolve_wideRows_stops :
    wideRows.layout.isLinear = true ∧
      Section.validate ⟨[⟨0, 4611686018427387904, 1, by decide⟩, .contiguous 0 4]⟩
        wideRows.shape = .ok () ∧
      resolveIn .checked wideRows
        ⟨[⟨0, 4611686018427387904, 1, by decide⟩, .contiguous 0 4]⟩ =
          .error (.halted .overflow) := by
  exact ⟨rfl, rfl, rfl⟩

end Hyperslab
