import Hyperslab.Proofs.Read.Tiles
import Hyperslab.Proofs.Request.Segments

/-!
# Fetches of compressed chunks

A read of a variable in compressed chunks fetches the stored chunks that its section selects from,
in the order of their origins and each of them once, however many runs there are in a chunk. One
chunk is kept. That is enough because the transfers of a chunk follow one another: the chunk of a
transfer is the one fetched last, or else its origin is beyond those of all chunks fetched so far.
This holds of any source on which the read succeeds, since it is about what is asked for and not
about the answers.

## Main definitions

- `fetchInTurn`: fetches chunks one after the other
- `ReadProgress.Fetched`: the chunks fetched so far are those of the transfers so far
- `FetchesOnce`: what a read asks for is what the fetches of its chunks ask for

## Main statements

- `ReadProgress.ends_execute_fetched`: a transfer fetches its chunk or has it
- `reads_fetch_once`: the fetches of a read, whatever the section, the source and the options
-/

namespace Hyperslab

open SourceM

/-- Fetches chunks one after the other. -/
def fetchInTurn (r : ReadRequest) (origins : List Index) : SourceM ReadError Unit :=
  origins.forM fun origin => do
    let _ ← ReadProgress.fetchStored r origin

/-- A computation comes to what it comes to. -/
theorem SourceM.ends_outcome {ε α : Type} (x : SourceM ε α) (a : Activity) :
    Ends x a (fun v a' => x.outcome a = (.ok v, a')) fun _ _ => True := by
  unfold Ends
  split
  · assumption
  · trivial

variable {d : Descriptor} {s : Section} {chunkShape : ChunkShape}
  {chunks : ChunkMap CompressedChunk} {plan : TransferPlan} {t : Transfer} {r : ReadRequest}
  {start a a' : Activity} {origins : List Index} {origin : Index}

theorem outcome_fetchInTurn_concat {bytes : Bytes}
    (h : (fetchInTurn r origins).outcome start = (.ok (), a))
    (hfetch : (ReadProgress.fetchStored r origin).outcome a = (.ok bytes, a')) :
    (fetchInTurn r (origins ++ [origin])).outcome start = (.ok (), a') := by
  have hconcat : fetchInTurn r (origins ++ [origin]) = (do
      fetchInTurn r origins
      let _ ← ReadProgress.fetchStored r origin) := by
    simp [fetchInTurn]
  rw [hconcat, outcome_bind, h]
  dsimp only
  rw [outcome_bind, hfetch]
  rfl

namespace ReadProgress

variable {p p' : ReadProgress} {front back : List Transfer}

/-- The chunks fetched since `start`, which are those of the transfers so far, the last of them
being kept. -/
structure Fetched (p : ReadProgress) (r : ReadRequest) (front : List Transfer) (start a : Activity)
    (origins : List Index) : Prop where
  outcome_eq : (fetchInTurn r origins).outcome start = (.ok (), a)
  pending_eq : p.pending = none
  stream_eq : p.stream = none
  kept : p.chunk.map (·.1) = origins.getLast?
  sorted : origins.Pairwise (· < ·)
  mem_iff : ∀ origin, origin ∈ origins ↔ ∃ t ∈ front, ∃ offset, t.source = .chunk origin offset

/-- Of the chunks fetched so far only that of the next transfer is not in front of it. -/
theorem Fetched.lt_origin (h : p.Fetched r front start a origins) (hexact : plan.Exact d s)
    (hordered : plan.Ordered chunkShape s) (hlayout : d.layout = .compressedTiled chunkShape chunks)
    (htransfers : plan.transfers = front ++ t :: back) {offset : Nat}
    (hsource : t.source = .chunk origin offset) {before : Index} (hbefore : before ∈ origins)
    (hne : before ≠ origin) : before < origin := by
  obtain ⟨u, hu, offset', husource⟩ := (h.mem_iff before).1 hbefore
  have ht : t ∈ plan.transfers := by simp [htransfers]
  have hmem : u ∈ plan.transfers := htransfers ▸ List.mem_append_left _ hu
  obtain rfl := hexact.originOf_destination hlayout ht hsource
  obtain rfl := hexact.originOf_destination hlayout hmem husource
  rw [TransferPlan.Ordered, htransfers] at hordered
  exact (List.pairwise_append.1 hordered).2.2 u hu t List.mem_cons_self _ _
    (hexact.covers_destination hmem) (hexact.covers_destination ht) (Ne.symm hne)

/-- A chunk that is not the last one fetched was not fetched before it either. -/
theorem Fetched.not_mem (h : p.Fetched r front start a origins)
    (hlt : ∀ before ∈ origins, before ≠ origin → before < origin)
    (hkept : p.chunk.map (·.1) ≠ some origin) : origin ∉ origins := by
  intro hmem
  have hsorted := h.sorted
  rw [h.kept] at hkept
  cases hlast : origins.getLast? with
  | none =>
    rw [List.getLast?_eq_none_iff.1 hlast] at hmem
    cases hmem
  | some last =>
    have hne : last ≠ origin := fun heq => hkept (heq ▸ hlast)
    have hbeyond := hlt last (List.mem_of_getLast? hlast) hne
    obtain ⟨init, rfl⟩ := List.getLast?_eq_some_iff.1 hlast
    rcases List.mem_append.1 hmem with hinit | hmem
    · have := (List.pairwise_append.1 hsorted).2.2 origin hinit last List.mem_cons_self
      exact List.lt_irrefl _ (List.lt_trans this hbeyond)
    · exact hne (List.mem_singleton.1 hmem).symm

/-- The chunk of a transfer is kept, or else it is fetched and is beyond those fetched so far. -/
theorem Fetched.ends_chunkBytes (h : p.Fetched r front start a origins)
    (hlt : ∀ before ∈ origins, before ≠ origin → before < origin) :
    Ends (p.chunkBytes r origin) a
      (fun _ a' => ∃ origins', (fetchInTurn r origins').outcome start = (.ok (), a') ∧
        origins'.getLast? = some origin ∧ origins'.Pairwise (· < ·) ∧
        ∀ o, o ∈ origins' ↔ o ∈ origins ∨ o = origin)
      fun _ _ => True := by
  have hfetch : p.chunk.map (·.1) ≠ some origin → Ends (fetchStored r origin) a
      (fun _ a' => ∃ origins', (fetchInTurn r origins').outcome start = (.ok (), a') ∧
        origins'.getLast? = some origin ∧ origins'.Pairwise (· < ·) ∧
        ∀ o, o ∈ origins' ↔ o ∈ origins ∨ o = origin)
      fun _ _ => True := by
    intro hkept
    refine (ends_outcome _ a).mono ?_ fun _ _ _ => trivial
    intro bytes a' hbytes
    refine ⟨origins ++ [origin], outcome_fetchInTurn_concat h.outcome_eq hbytes, by simp,
      List.pairwise_append.2 ⟨h.sorted, List.pairwise_singleton _ _, ?_⟩, by simp⟩
    intro before hbefore after hafter
    obtain rfl := List.mem_singleton.1 hafter
    exact hlt before hbefore fun heq => h.not_mem hlt hkept (heq ▸ hbefore)
  rw [chunkBytes]
  split
  · rename_i current bytes hchunk
    split
    · rename_i heq
      subst heq
      have hlast : origins.getLast? = some current := by
        rw [← h.kept, hchunk]
        rfl
      refine ⟨origins, h.outcome_eq, hlast, h.sorted, fun o => ⟨.inl, ?_⟩⟩
      rintro (ho | rfl)
      · exact ho
      · exact List.mem_of_getLast? hlast
    · rename_i hne
      exact hfetch (by simpa [hchunk] using hne)
  · rename_i hnone
    exact hfetch (by simp [hnone])

/-- A transfer fetches its chunk, or has it. -/
theorem ends_execute_fetched (hexact : plan.Exact r.descriptor s)
    (hordered : plan.Ordered chunkShape s)
    (hlayout : r.descriptor.layout = .compressedTiled chunkShape chunks)
    (htransfers : plan.transfers = front ++ t :: back)
    (h : p.Fetched r front start a origins) :
    Ends (p.execute r t) a
      (fun p' a' => ∃ origins', p'.Fetched r (front ++ [t]) start a' origins') fun _ _ => True := by
  have ht : t ∈ plan.transfers := by simp [htransfers]
  rw [execute]
  rcases hexact.source_of_tiles hlayout ht with
    hsource | ⟨origin, offset, -, hsource, -, -, -⟩
  · simp only [hsource]
    cases hfill : p.fillElements r t.destination t.runLength with
    | error e => trivial
    | ok p' =>
      obtain ⟨output, rfl⟩ := eq_of_fillElements hfill
      refine ⟨origins, h.outcome_eq, h.pending_eq, h.stream_eq, h.kept, h.sorted, fun o => ?_⟩
      rw [h.mem_iff]
      simp [hsource]
  · simp only [hsource]
    rw [fromChunk, ends_bind]
    refine (h.ends_chunkBytes fun before hbefore hne =>
      h.lt_origin hexact hordered hlayout htransfers hsource hbefore hne).mono ?_ fun _ _ _ => trivial
    rintro bytes a' ⟨origins', houtcome, hlast, hsorted, hmem⟩
    split
    · rename_i part hpart
      cases hwrite : { p with chunk := some (origin, bytes) : ReadProgress }.write
          (t.destination * r.descriptor.elementSize) part with
      | error e => trivial
      | ok p' =>
        obtain ⟨output, rfl⟩ := eq_of_write hwrite
        refine ⟨origins', houtcome, h.pending_eq, h.stream_eq, hlast.symm, hsorted, fun o => ?_⟩
        rw [hmem, h.mem_iff]
        simp only [List.mem_append, List.mem_singleton]
        constructor
        · rintro (⟨u, hu, hu'⟩ | rfl)
          · exact ⟨u, .inl hu, hu'⟩
          · exact ⟨t, .inr rfl, offset, hsource⟩
        · rintro ⟨u, hu | rfl, offset', hu'⟩
          · exact .inl ⟨u, hu, offset', hu'⟩
          · rw [hsource] at hu'
            cases hu'
            exact .inr rfl
    · trivial

theorem ends_transfers_fetched (hexact : plan.Exact r.descriptor s)
    (hordered : plan.Ordered chunkShape s)
    (hlayout : r.descriptor.layout = .compressedTiled chunkShape chunks) (output : Bytes)
    (a : Activity) :
    Ends (plan.transfers.foldlM (execute r) { output := output }) a
      (fun p a' => ∃ origins, p.Fetched r plan.transfers a a' origins) fun _ _ => True := by
  refine Ends.foldlM
    (fun front _ (p : ReadProgress) a' => ∃ origins, p.Fetched r front a a' origins) ?_ ?_
  · rintro front t back htransfers p a' ⟨origins, hp⟩
    exact ends_execute_fetched hexact hordered hlayout htransfers hp
  · exact ⟨[], rfl, rfl, rfl, rfl, .nil, by simp⟩

end ReadProgress

/-- A fetch of a stored chunk, with the requests that it issues. -/
structure ChunkFetch where
  origin : Index
  chunk : CompressedChunk
  issued : List ByteRange

/-- What is reported of a fetch. -/
def ChunkFetch.event (f : ChunkFetch) : LogEvent :=
  .fetchingChunk f.origin f.chunk.data.encodedLength f.chunk.codec

/-- What a read from activity `a` on asks for up to `a'` is what some fetches one after the other ask
for. They are those of the stored chunks that the section selects from, in the order of the origins.
A chunk that is in one range is asked for as a whole, and of a chunk in segments bytes of these are
asked for. -/
def FetchesOnce (r : ReadRequest) (chunkShape : ChunkShape) (chunks : ChunkMap CompressedChunk)
    (s : Section) (a a' : Activity) : Prop :=
  ∃ fetches : List ChunkFetch,
    fetches.Pairwise (fun f g => f.origin < g.origin) ∧
    (∀ origin chunk, (∃ f ∈ fetches, f.origin = origin ∧ f.chunk = chunk) ↔
      s.Selects chunkShape chunks origin chunk) ∧
    (do report (.readingSection s r.descriptor.layout.name s.totalCount)
        fetchInTurn r (fetches.map (·.origin)) : SourceM ReadError Unit).outcome a = (.ok (), a') ∧
    a'.fetches = a.fetches ++ fetches.map ChunkFetch.event ∧
    a'.requests.toList = a.requests.toList ++ fetches.flatMap (·.issued) ∧
    (∀ f ∈ fetches, f.chunk.data.Issues f.issued) ∧
    ((∀ origin chunk, s.Selects chunkShape chunks origin chunk →
        ∃ range, chunk.data = .contiguous range) →
      a'.requests.toList = a.requests.toList ++ fetches.flatMap (·.chunk.data.segments))

/-- A fetch is of the stored chunk, and is reported. -/
theorem ReadProgress.of_fetchStored (hlayout : r.descriptor.layout = .compressedTiled chunkShape chunks)
    {bytes : Bytes} (h : (fetchStored r origin).outcome a = (.ok bytes, a')) :
    ∃ f : ChunkFetch, f.origin = origin ∧ chunks.get? origin = some f.chunk ∧
      a'.fetches = a.fetches ++ [f.event] ∧
      a'.requests.toList = a.requests.toList ++ f.issued ∧ f.chunk.data.Issues f.issued := by
  rw [fetchStored] at h
  simp only [hlayout] at h
  cases hget : chunks.get? origin with
  | none =>
    simp only [hget] at h
    cases h
  | some chunk =>
    simp only [hget] at h
    have hends := chunk.ends_decode_issues r.source r.options
      { a with log := a.log.push (.fetchingChunk origin chunk.data.encodedLength chunk.codec) }
    obtain ⟨⟨issued, hissued, hissues⟩, hfetches⟩ := hends.of_ok h
    refine ⟨⟨origin, chunk, issued⟩, rfl, rfl, ?_, hissued, hissues⟩
    rw [hfetches, Activity.fetches, Array.toList_push, List.filter_append]
    rfl

/-- Fetches one after the other issue the requests of each of them in turn. -/
theorem exists_fetches (hlayout : r.descriptor.layout = .compressedTiled chunkShape chunks)
    (h : (fetchInTurn r origins).outcome a = (.ok (), a')) :
    ∃ fetches : List ChunkFetch, fetches.map (·.origin) = origins ∧
      (∀ f ∈ fetches, chunks.get? f.origin = some f.chunk ∧ f.chunk.data.Issues f.issued) ∧
      a'.fetches = a.fetches ++ fetches.map ChunkFetch.event ∧
      a'.requests.toList = a.requests.toList ++ fetches.flatMap (·.issued) := by
  induction origins generalizing a with
  | nil =>
    cases h
    exact ⟨[], rfl, nofun, (List.append_nil _).symm, (List.append_nil _).symm⟩
  | cons origin origins ih =>
    have hcons : fetchInTurn r (origin :: origins) = (do
        let _ ← ReadProgress.fetchStored r origin
        fetchInTurn r origins) := by
      simp [fetchInTurn]
    rw [hcons, outcome_bind] at h
    rcases hfetch : (ReadProgress.fetchStored r origin).outcome a with ⟨e | bytes, a₁⟩
    · rw [hfetch] at h
      cases h
    · rw [hfetch] at h
      obtain ⟨f, rfl, hget, hreported, hissued, hissues⟩ :=
        ReadProgress.of_fetchStored hlayout hfetch
      obtain ⟨fetches, rfl, hall, hreported', hissued'⟩ := ih h
      refine ⟨f :: fetches, rfl, List.forall_mem_cons.2 ⟨⟨hget, hissues⟩, hall⟩, ?_, ?_⟩
      · rw [hreported', hreported, List.append_assoc]
        rfl
      · rw [hissued', hissued, List.append_assoc]
        rfl

theorem ends_readSectionInto_fetches
    (hlayout : r.descriptor.layout = .compressedTiled chunkShape chunks)
    (hs : s.validate r.descriptor.shape = .ok ()) {destination : Bytes}
    (hsize : destination.size = s.totalCount * r.descriptor.elementSize) (a : Activity) :
    Ends (readSectionInto r s destination) a
      (fun _ a' => FetchesOnce r chunkShape chunks s a a') fun _ _ => True := by
  have hchunks : r.descriptor.layout.chunkShape? = some chunkShape := by rw [hlayout]; rfl
  obtain ⟨plan, hplan⟩ := exists_plan_tiled hchunks hs
  have hexact := exact_of_resolve_tiled hchunks hs hplan
  rw [readSectionInto_eq hs hplan hsize, ends_bind, ends_report, ends_bind]
  refine (ReadProgress.ends_transfers_fetched hexact (ordered_of_resolve_tiled hchunks hs hplan)
    hlayout destination _).mono ?_ fun _ _ _ => trivial
  rintro p a' ⟨origins, hp⟩
  -- nothing was put off, and no stream was opened
  rw [ReadProgress.finish, ReadProgress.flush, hp.pending_eq, ends_bind, ends_pure, hp.stream_eq]
  obtain ⟨fetches, rfl, hall, hreported, hissued⟩ := exists_fetches hlayout hp.outcome_eq
  show FetchesOnce r chunkShape chunks s a a'
  have hselects : ∀ f ∈ fetches, s.Selects chunkShape chunks f.origin f.chunk := by
    intro f hf
    obtain ⟨t, ht, offset, hsource⟩ := (hp.mem_iff f.origin).1 (List.mem_map_of_mem hf)
    rcases hexact.source_of_tiles hlayout ht with
      hfill | ⟨origin, _, _, hchunk, -, ⟨htouches, -⟩, -⟩
    · rw [hfill] at hsource
      cases hsource
    · rw [hchunk] at hsource
      cases hsource
      exact ⟨htouches, (hall f hf).1⟩
  refine ⟨fetches, List.pairwise_map.1 hp.sorted, fun origin chunk => ⟨?_, fun hchunk => ?_⟩,
    hp.outcome_eq, ?_, hissued, fun f hf => (hall f hf).2, fun hcontiguous => ?_⟩
  · rintro ⟨f, hf, rfl, rfl⟩
    exact hselects f hf
  · have hmem := (hp.mem_iff origin).2 (hexact.exists_transfer_of_selects hlayout hchunk)
    obtain ⟨f, hf, rfl⟩ := List.mem_map.1 hmem
    exact ⟨f, hf, rfl, Option.some.inj ((hall f hf).1.symm.trans hchunk.2)⟩
  · rw [hreported, Activity.fetches_push rfl]
  · rw [hissued, List.flatMap_def, List.flatMap_def, List.map_congr_left fun f hf => ?_]
    obtain ⟨range, hrange⟩ := hcontiguous _ _ (hselects f hf)
    have hissues := (hall f hf).2
    rw [hrange] at hissues ⊢
    exact hissues

/-- A read of a variable in compressed chunks that succeeds has fetched the stored chunks that its
section selects from, in the order of their origins and each of them once. No other chunk is asked
for. -/
theorem reads_fetch_once (r : ReadRequest) {chunkShape : ChunkShape}
    {chunks : ChunkMap CompressedChunk}
    (hlayout : r.descriptor.layout = .compressedTiled chunkShape chunks) (s : Section)
    (hs : s.validate r.descriptor.shape = .ok ()) (a : Activity) :
    (∀ bytes, ((readSection r s).outcome a).1 = .ok bytes →
      FetchesOnce r chunkShape chunks s a ((readSection r s).outcome a).2) ∧
    ∀ destination bytes, ((readSectionInto r s destination).outcome a).1 = .ok bytes →
      FetchesOnce r chunkShape chunks s a ((readSectionInto r s destination).outcome a).2 := by
  have hinto : ∀ destination bytes, ((readSectionInto r s destination).outcome a).1 = .ok bytes →
      FetchesOnce r chunkShape chunks s a ((readSectionInto r s destination).outcome a).2 := by
    intro destination bytes hread
    by_cases hsize : destination.size = s.totalCount * r.descriptor.elementSize
    · exact (ends_readSectionInto_fetches hlayout hs hsize a).of_ok (Prod.ext hread rfl)
    · rw [readSectionInto_of_size hs hsize] at hread
      cases hread
  refine ⟨fun bytes hread => ?_, hinto⟩
  have hcapacity := capacity_of_readSection hread
  rw [readSection_eq hs (by rw [hlayout]; rfl) hcapacity] at hread ⊢
  exact hinto _ bytes hread

/-- Four rows of four bytes in chunks of two by two, of which one is not stored. -/
def patches : Descriptor :=
  { shape := [4, 4]
    elementSize := 1
    fill := none
    layout := .compressedTiled [⟨2, Nat.two_pos⟩, ⟨2, Nat.two_pos⟩]
      (.ofList [([2, 2], ⟨.contiguous ⟨9, 4⟩, 4, 0⟩), ([2, 0], ⟨.contiguous ⟨1, 4⟩, 4, 0⟩),
        ([0, 0], ⟨.contiguous ⟨5, 4⟩, 4, 0⟩)])
    accepted := rfl }

/-- The first column has two runs in each of two chunks, which are fetched once. -/
theorem readSection_patches_fetches :
    FetchesOnce ⟨.memory #[9, 1, 2, 3, 4, 5, 6, 7, 8], patches, {}⟩
        [⟨2, Nat.two_pos⟩, ⟨2, Nat.two_pos⟩]
        (.ofList [([2, 2], ⟨.contiguous ⟨9, 4⟩, 4, 0⟩), ([2, 0], ⟨.contiguous ⟨1, 4⟩, 4, 0⟩),
          ([0, 0], ⟨.contiguous ⟨5, 4⟩, 4, 0⟩)])
        ⟨[.contiguous 0 4, .contiguous 0 1]⟩ {}
        ((readSection ⟨.memory #[9, 1, 2, 3, 4, 5, 6, 7, 8], patches, {}⟩
          ⟨[.contiguous 0 4, .contiguous 0 1]⟩).outcome {}).2 ∧
      ((readSection ⟨.memory #[9, 1, 2, 3, 4, 5, 6, 7, 8], patches, {}⟩
        ⟨[.contiguous 0 4, .contiguous 0 1]⟩).outcome {}).2.requests = #[⟨5, 4⟩, ⟨1, 4⟩] := by
  obtain ⟨hread, -⟩ := reads_fetch_once ⟨.memory #[9, 1, 2, 3, 4, 5, 6, 7, 8], patches, {}⟩ rfl
    ⟨[.contiguous 0 4, .contiguous 0 1]⟩ rfl {}
  have hout : ((readSection ⟨.memory #[9, 1, 2, 3, 4, 5, 6, 7, 8], patches, {}⟩
      ⟨[.contiguous 0 4, .contiguous 0 1]⟩).outcome {}).1.toOption = some #[5, 7, 1, 3] := by
    decide +kernel
  refine ⟨?_, by decide +kernel⟩
  cases hresult : ((readSection ⟨.memory #[9, 1, 2, 3, 4, 5, 6, 7, 8], patches, {}⟩
      ⟨[.contiguous 0 4, .contiguous 0 1]⟩).outcome {}).1 with
  | error e =>
    rw [hresult] at hout
    cases hout
  | ok bytes => exact hread bytes hresult

end Hyperslab
