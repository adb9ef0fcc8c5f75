import RdmaTransport.ReceiveSteps

/-!
# The byte stream delivered by `read`

The calls of `RDMAConnectedSocketImpl::read` on a socket should return, one after
the other, the bytes of the received messages. A chunk kept in `rx_buffers` does
not remember the length of its message, is never removed from there, and has its
position set back to zero once it has been read to the end. `FitsBacklog` says when
a call does not run into this: what it takes from each kept chunk is undelivered
payload. Under this condition on every call the stream is the right one.
-/

namespace RdmaTransport

open DrainLoop Memory Runs

/-- A request for `len` bytes takes only undelivered payload from the kept chunks:
from each chunk it reaches it takes nothing, or the position of the chunk still is
the number of bytes delivered from it and the bytes lie within the message. -/
def ChunkStore.FitsBacklog (store : ChunkStore) : List ChunkId → ℕ → Prop
  | [], _ => True
  | c :: rest, len =>
      (store.taken c len = 0 ∨
        (store.copied c = Finset.range (store.chunk c).offset ∧
          (store.chunk c).offset + store.taken c len ≤ store.message c)) ∧
      (store.taken c len < len → store.FitsBacklog rest (len - store.taken c len))

instance ChunkStore.FitsBacklog.decidable (store : ChunkStore) :
    ∀ (rx : List ChunkId) (len : ℕ), Decidable (store.FitsBacklog rx len)
  | [], _ => inferInstanceAs (Decidable True)
  | c :: rest, len =>
      have := FitsBacklog.decidable store rest (len - store.taken c len)
      inferInstanceAs (Decidable (_ ∧ (_ → _)))

/-- The condition on a step: a call of `read` takes only undelivered payload from
the chunks kept by its socket. -/
def RxState.ReadFits {ι : Type*} (s : RxState ι) : RxAction ι → Prop
  | .readEnter i len => s.store.FitsBacklog (s.sock i).rxBuffers len
  | _ => True

instance {ι : Type*} (s : RxState ι) : ∀ a, Decidable (s.ReadFits a)
  | .readEnter i len => inferInstanceAs (Decidable (s.store.FitsBacklog (s.sock i).rxBuffers len))
  | .arrive .. | .readAdvance .. => inferInstanceAs (Decidable True)

/-- The undelivered part of the chunk's message. -/
def ChunkStore.rest (store : ChunkStore) (c : ChunkId) : List UInt8 :=
  if store.Spent c then []
  else ((store.chunk c).buffer.take (store.message c)).drop (store.chunk c).offset

/-- The payload of a completion. -/
def ChunkStore.payload (store : ChunkStore) (wc : Wc) : List UInt8 :=
  (store.chunk wc.wrId).buffer.take wc.byteLen

/-- The chunk's position tells how much of its message has been delivered, unless
all of it has. -/
def ChunkStore.Tracked (store : ChunkStore) (c : ChunkId) : Prop :=
  store.Spent c ∨
    (store.copied c = Finset.range (store.chunk c).offset ∧
      (store.chunk c).offset ≤ store.message c)

namespace ChunkStore

/-- The undelivered part of an untouched chunk is unchanged. -/
theorem ReadsOnly.rest_eq {s t : ChunkStore} {touched : List ChunkId} (h : s.ReadsOnly t touched)
    {c : ChunkId} (hc : c ∉ touched) : t.rest c = s.rest c ∧ (s.Tracked c → t.Tracked c) := by
  obtain ⟨hchunk, hcopied⟩ := h.frame c hc
  simp only [rest, Tracked, Spent, hchunk, hcopied, h.message_eq]
  exact ⟨rfl, id⟩

/-- Reading does not change what was received. -/
theorem ReadsOnly.payload_eq {s t : ChunkStore} {touched : List ChunkId}
    (h : s.ReadsOnly t touched) (wc : Wc) : t.payload wc = s.payload wc := by
  rw [payload, payload, h.buffer_eq]

/-- Whether a request fits depends on the chunks of the list only. -/
theorem FitsBacklog.of_readsOnly {s t : ChunkStore} {touched : List ChunkId}
    (h : s.ReadsOnly t touched) {rx : List ChunkId} (hrx : ∀ c ∈ rx, c ∉ touched) {len : ℕ}
    (hfits : s.FitsBacklog rx len) : t.FitsBacklog rx len := by
  induction rx generalizing len with
  | nil => trivial
  | cons c rest ih =>
    obtain ⟨hchunk, hcopied⟩ := h.frame c (hrx c (by simp))
    have htaken : t.taken c len = s.taken c len := by rw [taken, taken, hchunk]
    refine ⟨?_, fun hlt => ?_⟩
    · rw [htaken, hchunk, hcopied, h.message_eq]
      exact hfits.1
    · rw [htaken] at hlt ⊢
      exact ih (fun d hd => hrx d (by simp [hd])) (hfits.2 hlt)

/-- A read that takes nothing from a tracked chunk changes nothing of what is
undelivered, even when it sets the position back to zero. -/
theorem readChunk_rest_of_taken_eq_zero {s : ChunkStore} {c : ChunkId} {len : ℕ}
    (hvalid : (s.chunk c).Valid) (hmessage : s.message c ≤ (s.chunk c).bytes)
    (htracked : s.Tracked c) (htaken : s.taken c len = 0) :
    (s.readChunk c len).2.1 = [] ∧ (s.readChunk c len).1.rest c = s.rest c ∧
      (s.readChunk c len).1.Tracked c ∧ (0 < len → (s.readChunk c len).1.rest c = []) := by
  have hoffset := hvalid.offset_le
  rw [readChunk_eq hvalid, htaken]
  have hspent : ∀ t : ChunkStore, t.message = s.message → t.copied c = s.copied c →
      (t.Spent c ↔ s.Spent c) := by
    intro t hm hc
    rw [Spent, Spent, hm, hc]
  by_cases hlen : len = 0
  · subst hlen
    simp only [Nat.zero_le, if_true, Nat.add_zero, Finset.Ico_self, Finset.union_empty,
      Function.update_eq_self, List.take_zero, true_and]
    exact ⟨htracked, fun h => absurd h (lt_irrefl 0)⟩
  · -- The chunk was read to its end, so its whole message has been delivered.
    have hend : (s.chunk c).offset = (s.chunk c).bytes := by
      rw [taken] at htaken
      omega
    have hall : s.Spent c := by
      rcases htracked with h | ⟨hcopied, hle⟩
      · exact h
      · rw [Spent, hcopied, Finset.range_subset_range]
        omega
    have hall' := (hspent (s.readChunk c len).1 (by rw [readChunk_eq hvalid])
      (by simp [readChunk_eq hvalid, htaken])).mpr hall
    rw [readChunk_eq hvalid, htaken] at hall'
    refine ⟨by simp, ?_, .inl hall', fun _ => if_pos hall'⟩
    rw [rest, rest, if_pos hall, if_pos hall']

/-- Taking undelivered payload from a chunk splits its undelivered part. If less
than asked for was taken, nothing undelivered is left. -/
theorem readChunk_rest {s : ChunkStore} {c : ChunkId} {len : ℕ} (hvalid : (s.chunk c).Valid)
    (hmessage : s.message c ≤ (s.chunk c).bytes) (htracked : s.Tracked c)
    (hfits : s.taken c len = 0 ∨ (s.copied c = Finset.range (s.chunk c).offset ∧
      (s.chunk c).offset + s.taken c len ≤ s.message c)) :
    (s.readChunk c len).2.1 ++ (s.readChunk c len).1.rest c = s.rest c ∧
      (s.readChunk c len).1.Tracked c ∧
      (s.taken c len < len → (s.readChunk c len).1.rest c = []) := by
  by_cases hzero : s.taken c len = 0
  · obtain ⟨hdata, hrest, htracked', hempty⟩ :=
      readChunk_rest_of_taken_eq_zero hvalid hmessage htracked hzero
    exact ⟨by rw [hdata, hrest, List.nil_append], htracked', fun h => hempty (by omega)⟩
  obtain ⟨hcopied, hwithin⟩ := hfits.resolve_left hzero
  have hoffset := hvalid.offset_le
  have hnot : ¬s.Spent c := by
    rw [Spent, hcopied, Finset.range_subset_range]
    omega
  have hunion : Finset.range (s.chunk c).offset ∪
      Finset.Ico (s.chunk c).offset ((s.chunk c).offset + s.taken c len) =
      Finset.range ((s.chunk c).offset + s.taken c len) := by
    rw [Finset.range_eq_Ico, Finset.range_eq_Ico,
      Finset.Ico_union_Ico_eq_Ico (Nat.zero_le _) (Nat.le_add_right _ _)]
  have hdata : (s.readChunk c len).2.1 = (s.rest c).take (s.taken c len) := by
    have hmin : min (s.taken c len) (s.message c - (s.chunk c).offset) = s.taken c len := by omega
    rw [readChunk_eq hvalid, rest, if_neg hnot, List.drop_take, List.take_take, hmin]
  have hcopied' : (s.readChunk c len).1.copied c =
      Finset.range ((s.chunk c).offset + s.taken c len) := by
    rw [readChunk_eq hvalid, ← hunion, ← hcopied]
    simp
  have hmessage' : (s.readChunk c len).1.message c = s.message c := by rw [readChunk_eq hvalid]
  by_cases hdone : s.message c = (s.chunk c).offset + s.taken c len
  · have hspent : (s.readChunk c len).1.Spent c := by
      rw [Spent, hmessage', hcopied', hdone]
    have hrest : (s.readChunk c len).1.rest c = [] := if_pos hspent
    refine ⟨?_, .inl hspent, fun _ => hrest⟩
    rw [hrest, List.append_nil, hdata, List.take_of_length_le]
    rw [rest, if_neg hnot, List.length_drop, List.length_take]
    omega
  · -- Payload is left, so the request ended inside the message and was met in full.
    have hmet : len ≤ (s.chunk c).bytes - (s.chunk c).offset := by
      rw [taken] at hwithin hdone
      omega
    have htaken : s.taken c len = len := min_eq_left hmet
    have hchunk : (s.readChunk c len).1.chunk c =
        { s.chunk c with offset := (s.chunk c).offset + len } := by
      rw [readChunk_eq hvalid]
      simp [hmet]
    have hopen : ¬(s.readChunk c len).1.Spent c := by
      rw [Spent, hmessage', hcopied', Finset.range_subset_range]
      omega
    refine ⟨?_, .inr ⟨?_, ?_⟩, fun h => absurd h (by omega)⟩
    · rw [hdata, htaken, rest, rest, if_neg hnot, if_neg hopen, hchunk, hmessage']
      dsimp only
      rw [← List.drop_drop, List.take_append_drop]
    · rw [hcopied', hchunk, htaken]
    · rw [hchunk, hmessage']
      dsimp only
      omega

/-- The undelivered part of an untouched message is the whole payload. -/
theorem Fresh.rest_eq {s : ChunkStore} {wc : Wc} (h : s.Fresh wc) :
    s.rest wc.wrId = s.payload wc ∧ s.Tracked wc.wrId := by
  constructor
  · by_cases hspent : s.Spent wc.wrId
    · have hzero : wc.byteLen = 0 := by
        simpa [Spent, h.message_eq, h.copied_eq] using hspent
      rw [rest, if_pos hspent, payload, hzero, List.take_zero]
    · rw [rest, if_neg hspent, payload, h.message_eq, h.offset_eq, List.drop_zero]
  · exact .inr (by rw [h.copied_eq, h.offset_eq]; simp)

/-- A request within the message fits an untouched chunk. -/
theorem Fresh.fits {s : ChunkStore} {wc : Wc} (h : s.Fresh wc) {len : ℕ} (hlen : len ≤ wc.byteLen) :
    s.taken wc.wrId len = 0 ∨ (s.copied wc.wrId = Finset.range (s.chunk wc.wrId).offset ∧
      (s.chunk wc.wrId).offset + s.taken wc.wrId len ≤ s.message wc.wrId) := by
  right
  rw [h.copied_eq, h.offset_eq, h.message_eq, taken]
  exact ⟨rfl, by omega⟩

/-- Such a request is met in full. -/
theorem Fresh.readChunk_count {s : ChunkStore} {wc : Wc} (h : s.Fresh wc)
    (hvalid : (s.chunk wc.wrId).Valid)
    (hmessage : s.message wc.wrId ≤ (s.chunk wc.wrId).bytes) {len : ℕ} (hlen : len ≤ wc.byteLen) :
    (s.readChunk wc.wrId len).2.2 = len := by
  rw [h.message_eq] at hmessage
  rw [readChunk_eq hvalid, taken, h.offset_eq]
  exact min_eq_left (by omega)

/-- A request for the whole message delivers it and leaves nothing. -/
theorem Fresh.readChunk_whole {s : ChunkStore} {wc : Wc} (h : s.Fresh wc)
    (hvalid : (s.chunk wc.wrId).Valid)
    (hmessage : s.message wc.wrId ≤ (s.chunk wc.wrId).bytes) :
    (s.readChunk wc.wrId wc.byteLen).2.1 = s.rest wc.wrId := by
  obtain ⟨hpayload, hown⟩ := h.rest_eq
  obtain ⟨hsplit, _, _⟩ := readChunk_rest hvalid hmessage hown (h.fits le_rfl)
  have hnone : (s.readChunk wc.wrId wc.byteLen).1.rest wc.wrId = [] := by
    have hlength := congrArg List.length hsplit
    have hbytes := hvalid.length_eq
    have hcount := h.readChunk_count hvalid hmessage le_rfl
    rw [h.message_eq] at hmessage
    rw [List.length_append, (ChunkStore.readChunk_count hvalid wc.byteLen).1, hcount, hpayload,
      payload, List.length_take] at hlength
    apply List.eq_nil_of_length_eq_zero
    omega
  rwa [hnone, List.append_nil] at hsplit

end ChunkStore

/-- `read_buffers` delivers the first bytes of what is undelivered in the kept
chunks, and all of it when it returns less than asked for. -/
theorem readBuffers_rest {len : ℕ} {store : ChunkStore} {rx : List ChunkId} (read : ℕ)
    (buf : List UInt8) (hvalid : ∀ c, (store.chunk c).Valid)
    (hmessage : ∀ c, store.message c ≤ (store.chunk c).bytes) (hnodup : rx.Nodup)
    (htracked : ∀ c ∈ rx, store.Tracked c) (hread : read ≤ len)
    (hfits : store.FitsBacklog rx (len - read)) :
    (readBuffers len store rx read buf).2.2 ++
        rx.flatMap (readBuffers len store rx read buf).1.rest = buf ++ rx.flatMap store.rest ∧
      (∀ c ∈ rx, (readBuffers len store rx read buf).1.Tracked c) ∧
      ((readBuffers len store rx read buf).2.1 ≠ len →
        ∀ c ∈ rx, (readBuffers len store rx read buf).1.rest c = []) := by
  induction rx generalizing store read buf with
  | nil => simp [readBuffers]
  | cons c rest ih =>
    obtain ⟨hc, hnodup'⟩ := List.nodup_cons.mp hnodup
    have hreads := store.readChunk_readsOnly c (len - read)
    have hcount : (store.readChunk c (len - read)).2.2 = store.taken c (len - read) := by
      rw [ChunkStore.readChunk_eq (hvalid c)]
    obtain ⟨hsplit, hown, hempty⟩ := ChunkStore.readChunk_rest (hvalid c) (hmessage c)
      (htracked c (by simp)) hfits.1
    have hother : ∀ d ∈ rest, d ∉ [c] := by
      intro d hd hdc
      exact hc (List.mem_singleton.mp hdc ▸ hd)
    have hrest : rest.flatMap (store.readChunk c (len - read)).1.rest = rest.flatMap store.rest :=
      List.flatMap_congr fun d hd => (hreads.rest_eq (hother d hd)).1
    have htracked' : ∀ d ∈ rest, (store.readChunk c (len - read)).1.Tracked d := fun d hd =>
      (hreads.rest_eq (hother d hd)).2 (htracked d (by simp [hd]))
    rw [readBuffers_cons]
    split_ifs with hfull
    · refine ⟨?_, ?_, fun h => absurd hfull h⟩
      · rw [List.flatMap_cons, List.flatMap_cons, hrest, ← hsplit]
        simp
      · intro d hd
        rcases List.mem_cons.mp hd with rfl | hd
        · exact hown
        · exact htracked' d hd
    · have hle : store.taken c (len - read) ≤ len - read := min_le_left _ _
      rw [hcount] at hfull
      have hless : store.taken c (len - read) < len - read := by omega
      have hrem : len - (read + store.taken c (len - read)) =
          len - read - store.taken c (len - read) := by omega
      have hreads' := readBuffers_readsOnly len (store.readChunk c (len - read)).1 rest
        (read + (store.readChunk c (len - read)).2.2)
        (buf ++ (store.readChunk c (len - read)).2.1)
      obtain ⟨hsplit', hown', hempty'⟩ := ih (read + (store.readChunk c (len - read)).2.2)
        (buf ++ (store.readChunk c (len - read)).2.1) (hreads.valid hvalid)
        (fun d => by rw [hreads.message_eq, hreads.bytes_eq]; exact hmessage d) hnodup' htracked'
        (by rw [hcount]; omega)
        (by rw [hcount, hrem]; exact (hfits.2 hless).of_readsOnly hreads hother)
      obtain ⟨hkeep, hkeep'⟩ := hreads'.rest_eq hc
      refine ⟨?_, ?_, fun h => ?_⟩
      · rw [List.flatMap_cons, List.flatMap_cons, hkeep, hempty hless, List.nil_append, hsplit',
          hrest, ← hsplit, hempty hless, List.append_nil, List.append_assoc]
      · intro d hd
        rcases List.mem_cons.mp hd with rfl | hd
        · exact hkeep' hown
        · exact hown' d hd
      · intro d hd
        rcases List.mem_cons.mp hd with rfl | hd
        · rw [hkeep, hempty hless]
        · exact hempty' h d hd

/-- The stream invariant of a socket: what was returned, what the running call has
stored, what is undelivered in the kept chunks and what is pending make up the
messages received. -/
structure Sock.Streams (sock : Sock) (store : ChunkStore) : Prop where
  /-- Positions tell what has been delivered from the kept chunks. -/
  tracked : ∀ c ∈ sock.rxBuffers, store.Tracked c
  /-- No byte is lost, repeated or moved. -/
  stream : sock.returned.flatten ++ sock.buf ++ sock.rxBuffers.flatMap store.rest ++
    sock.pending.flatMap store.payload = sock.payloads.flatten
  /-- A call that wants more has emptied the kept chunks. -/
  short : sock.read ≠ sock.len → ∀ c ∈ sock.rxBuffers, store.rest c = []
  /-- Between two calls nothing is stored. -/
  idle : sock.control.point = .idle → sock.buf = []

/-- Reading other chunks keeps the stream invariant. -/
theorem Sock.Streams.of_readsOnly {sock : Sock} {s t : ChunkStore} {touched : List ChunkId}
    (h : sock.Streams s) (hreads : s.ReadsOnly t touched)
    (hrx : ∀ c ∈ sock.rxBuffers, c ∉ touched) : sock.Streams t where
  tracked c hc := (hreads.rest_eq (hrx c hc)).2 (h.tracked c hc)
  stream := by
    rw [List.flatMap_congr fun c hc => (hreads.rest_eq (hrx c hc)).1,
      List.flatMap_congr fun wc _ => hreads.payload_eq wc]
    exact h.stream
  short hread c hc := by
    rw [(hreads.rest_eq (hrx c hc)).1]
    exact h.short hread c hc
  idle := h.idle

/-- Processing a completion keeps the stream invariant: the payload moves from the
pending completions to the caller, to the kept chunks, or is divided between them. -/
theorem Sock.Streams.of_handleCompletion {store store' : ChunkStore} {sock sock' : Sock} {wc : Wc}
    (hhandle : handleCompletion store sock wc = some (store', sock'))
    (htracked : ∀ c ∈ sock.rxBuffers, store.Tracked c)
    (hstream : sock.returned.flatten ++ sock.buf ++ sock.rxBuffers.flatMap store.rest ++
      (wc :: sock.pending).flatMap store.payload = sock.payloads.flatten)
    (hshort : sock.read ≠ sock.len → ∀ c ∈ sock.rxBuffers, store.rest c = [])
    (hpoint : sock.control.point ≠ .idle) (hvalid : ∀ c, (store.chunk c).Valid)
    (hmessage : ∀ c, store.message c ≤ (store.chunk c).bytes) (hfresh : store.Fresh wc)
    (hrx : wc.wrId ∉ sock.rxBuffers) (hle : sock.read ≤ sock.len) : sock'.Streams store' := by
  obtain ⟨hpayload, hown⟩ := hfresh.rest_eq
  rw [List.flatMap_cons, ← hpayload] at hstream
  have hne : ∀ c ∈ sock.rxBuffers, c ∉ [wc.wrId] := by
    intro c hc hcw
    exact hrx (List.mem_singleton.mp hcw ▸ hc)
  rcases (handleCompletion_cases hhandle).2 with ⟨hfull, rfl, rfl⟩ | ⟨hmore, hlen, rfl, rfl⟩ |
    ⟨hmore, hlen, rfl, rfl⟩
  · refine ⟨?_, ?_, fun hn => absurd hfull hn, fun hi => absurd hi hpoint⟩
    · intro c hc
      rcases List.mem_append.mp hc with hc | hc
      · exact htracked c hc
      · rw [List.mem_singleton.mp hc]
        exact hown
    · simpa [Sock.pending] using hstream
  · have hreads := store.readChunk_readsOnly wc.wrId (sock.len - sock.read)
    have hfits := hfresh.fits (show sock.len - sock.read ≤ wc.byteLen by omega)
    obtain ⟨hsplit, hown', _⟩ :=
      ChunkStore.readChunk_rest (hvalid wc.wrId) (hmessage wc.wrId) hown hfits
    have hempty : ∀ c ∈ sock.rxBuffers,
        (store.readChunk wc.wrId (sock.len - sock.read)).1.rest c = [] := by
      intro c hc
      rw [(hreads.rest_eq (hne c hc)).1]
      exact hshort hmore c hc
    have hread : sock.read + (store.readChunk wc.wrId (sock.len - sock.read)).2.2 = sock.len := by
      rw [hfresh.readChunk_count (hvalid wc.wrId) (hmessage wc.wrId) (by omega)]
      omega
    refine ⟨?_, ?_, fun hn => absurd hread hn, fun hi => absurd hi hpoint⟩
    · intro c hc
      rcases List.mem_append.mp hc with hc | hc
      · exact (hreads.rest_eq (hne c hc)).2 (htracked c hc)
      · rw [List.mem_singleton.mp hc]
        exact hown'
    · rw [List.flatMap_eq_nil_iff.mpr (hshort hmore), ← hsplit] at hstream
      rw [List.flatMap_append, List.flatMap_eq_nil_iff.mpr hempty,
        List.flatMap_congr fun wc _ => hreads.payload_eq wc]
      simpa [Sock.pending] using hstream
  · have hreads := store.readChunk_readsOnly wc.wrId wc.byteLen
    have hwhole := hfresh.readChunk_whole (hvalid wc.wrId) (hmessage wc.wrId)
    refine ⟨?_, ?_, fun hn c hc => ?_, fun hi => absurd hi hpoint⟩
    · exact fun c hc => (hreads.rest_eq (hne c hc)).2 (htracked c hc)
    · rw [← hwhole, List.flatMap_eq_nil_iff.mpr (hshort hmore)] at hstream
      rw [List.flatMap_congr fun c hc => (hreads.rest_eq (hne c hc)).1,
        List.flatMap_eq_nil_iff.mpr (hshort hmore),
        List.flatMap_congr fun wc _ => hreads.payload_eq wc]
      simpa [Sock.pending] using hstream
    · rw [(hreads.rest_eq (hne c hc)).1]
      exact hshort hmore c hc

variable {ι : Type*} [DecidableEq ι]

/-- The stream invariant of every socket. -/
def RxState.Streams (s : RxState ι) : Prop := ∀ i, (s.sock i).Streams s.store

/-- A step of one socket keeps the stream invariant of the others. -/
theorem RxState.Streams.of_sockStep {s t : RxState ι} {i : ι} (h : s.Streams) (hsound : s.Sound)
    (hstep : s.SockStep t i) (hown : (t.sock i).Streams t.store) : t.Streams := by
  intro j
  by_cases hj : j = i
  · rw [hj]
    exact hown
  · rw [hstep.others j hj]
    apply (h j).of_readsOnly hstep.reads
    intro c hc
    exact hstep.not_mem_polled hsound hj
      (List.mem_append_left _ ((hsound.rx_sublist j).subset hc))

/-- A `read` call that fits the backlog starts with the right bytes. -/
theorem RxState.Streams.readEnter {s t : RxState ι} {i : ι} {len : ℕ} (h : s.Streams)
    (hsound : s.Sound) (hfits : s.store.FitsBacklog (s.sock i).rxBuffers len)
    (hstep : s.readEnter i len = some t) : t.Streams := by
  apply h.of_sockStep hsound (hsound.readEnter hstep)
  obtain ⟨control, hcontrol, rfl⟩ := Option.map_eq_some_iff.mp hstep
  obtain ⟨hidle, _, hcontrol'⟩ := Control.enter_cases hcontrol
  have hpending := Control.enter_pending hcontrol
  have hnodup : (s.sock i).rxBuffers.Nodup :=
    (hsound.rx_sublist i).nodup (List.nodup_append.mp (hsound.chunks_nodup i)).1
  obtain ⟨hsplit, htracked, hshort⟩ := readBuffers_rest 0 [] hsound.valid hsound.message_le hnodup
    (h i).tracked (Nat.zero_le len) (by simpa using hfits)
  have hreads := readBuffers_readsOnly len s.store (s.sock i).rxBuffers 0 []
  have hstream := (h i).stream
  rw [(h i).idle hidle, List.append_nil] at hstream
  rw [List.nil_append] at hsplit
  simp only [RxState.setSock_self, RxState.setSock_store]
  refine ⟨htracked, ?_, hshort, fun hi => ?_⟩
  · dsimp only
    rw [List.append_assoc (s.sock i).returned.flatten, hsplit,
      List.flatMap_congr fun wc _ => hreads.payload_eq wc]
    simpa only [Sock.pending, hpending] using hstream
  · rw [hcontrol'] at hi
    cases hi

/-- A step of the completion loop keeps the stream invariant. -/
theorem RxState.Streams.readAdvance {s t : RxState ι} {i : ι} {n : ℕ} (h : s.Streams)
    (hsound : s.Sound) (hstep : s.readAdvance i n = some t) : t.Streams := by
  apply h.of_sockStep hsound (hsound.readAdvance hstep)
  have hi := h i
  rcases RxState.readAdvance_cases hstep with ⟨control, hadvance, rfl⟩ |
    ⟨control, wc, store, sock, hadvance, hhandle, rfl⟩ | ⟨control, hadvance, rfl⟩
  · have hpending := Control.advance_pending hadvance
    simp only [Effect.handled, List.nil_append] at hpending
    have hpoint := Control.advance_point_ne_idle hadvance (by simp)
    simp only [RxState.setSock_self, RxState.setSock_store]
    refine ⟨hi.tracked, ?_, hi.short, fun hidle => absurd hidle hpoint⟩
    simpa only [Sock.pending, hpending] using hi.stream
  · have hpending := Control.advance_pending hadvance
    simp only [Effect.handled, List.singleton_append] at hpending
    have hpoint := Control.advance_point_ne_idle hadvance (by simp)
    have hmem : wc ∈ (s.sock i).pending := by
      rw [Sock.pending, ← hpending]
      exact List.mem_cons_self
    have hrx : wc.wrId ∉ (s.sock i).rxBuffers := fun hc =>
      Sock.not_mem_polled_of_pending (hsound.chunks_nodup i) hmem ((hsound.rx_sublist i).subset hc)
    simp only [RxState.setSock_self, RxState.setSock_store]
    refine Sock.Streams.of_handleCompletion hhandle hi.tracked ?_ hi.short hpoint hsound.valid
      hsound.message_le (hsound.pending_fresh i wc hmem) hrx (hsound.read_le i)
    simpa only [Sock.pending, ← hpending] using hi.stream
  · have hpending := Control.advance_pending hadvance
    simp only [Effect.handled, List.nil_append] at hpending
    simp only [RxState.setSock_self, RxState.setSock_store]
    refine ⟨hi.tracked, ?_, fun hn => absurd rfl hn, fun _ => rfl⟩
    have hstream := hi.stream
    rw [Sock.pending, ← hpending] at hstream
    simpa [Sock.pending] using hstream

/-- An arrival keeps the stream invariant: the message joins the end of the stream. -/
theorem RxState.Streams.of_arriveStep {s t : RxState ι} {i : ι} {c : ChunkId}
    {payload : List UInt8} (h : s.Streams) (hsound : s.Sound)
    (hstep : s.ArriveStep t i c payload) : t.Streams := by
  obtain ⟨_, _, hnew⟩ := hstep.chunk_new hsound.distinct
  have hrest : ∀ j, ∀ d ∈ (s.sock j).rxBuffers,
      t.store.rest d = s.store.rest d ∧ (s.store.Tracked d → t.store.Tracked d) := by
    intro j d hd
    have hne : d ≠ c := by
      rintro rfl
      exact hnew j (List.mem_append_left _ ((hsound.rx_sublist j).subset hd))
    obtain ⟨hchunk, hmessage, hcopied⟩ := s.store.fill_of_ne payload hne
    rw [hstep.store_eq]
    simp only [ChunkStore.rest, ChunkStore.Tracked, ChunkStore.Spent, hchunk, hmessage, hcopied]
    exact ⟨rfl, id⟩
  have hpayload : ∀ j, ∀ wc ∈ (s.sock j).pending, t.store.payload wc = s.store.payload wc := by
    intro j wc hwc
    have hne : wc.wrId ≠ c := by
      rintro rfl
      exact hnew j (List.mem_append_right _ (List.mem_map_of_mem hwc))
    rw [hstep.store_eq, ChunkStore.payload, (s.store.fill_of_ne payload hne).1, ChunkStore.payload]
  intro j
  by_cases hj : j = i
  · subst hj
    have hown : t.store.payload ⟨c, payload.length, .success⟩ = payload := by
      simp [hstep.store_eq, ChunkStore.payload, ChunkStore.fill, overwrite_zero_take]
    have hpending := hstep.pending_eq
    have hsock := hstep.sock_eq
    refine ⟨fun d hd => ?_, ?_, fun hn d hd => ?_, fun hidle => ?_⟩
    · rw [hsock] at hd
      exact (hrest j d hd).2 ((h j).tracked d hd)
    · rw [hpending, hsock]
      simp only
      rw [List.flatMap_append, List.flatMap_congr fun d hd => (hrest j d hd).1,
        List.flatMap_congr (hpayload j), List.flatMap_singleton, hown, ← List.append_assoc,
        (h j).stream, List.flatten_append, List.flatten_singleton]
    · rw [hsock] at hd hn
      rw [(hrest j d hd).1]
      exact (h j).short hn d hd
    · rw [hsock] at hidle ⊢
      exact (h j).idle hidle
  · rw [hstep.others j hj]
    refine ⟨fun d hd => (hrest j d hd).2 ((h j).tracked d hd), ?_, fun hn d hd => ?_, (h j).idle⟩
    · rw [List.flatMap_congr fun d hd => (hrest j d hd).1, List.flatMap_congr (hpayload j)]
      exact (h j).stream
    · rw [(hrest j d hd).1]
      exact (h j).short hn d hd

/-- A step that meets the condition keeps the stream invariant. -/
theorem RxState.Streams.step {s t : RxState ι} {a : RxAction ι} (h : s.Streams)
    (hsound : s.Sound) (hfits : s.ReadFits a) (hstep : s.step a = some t) : t.Streams := by
  cases a with
  | arrive i k payload =>
    obtain ⟨c, hc⟩ := RxState.arrive_cases hstep
    exact h.of_arriveStep hsound hc
  | readEnter i len => exact h.readEnter hsound hfits hstep
  | readAdvance i n => exact h.readAdvance hsound hstep

/-- **Stream fidelity.** In every run in which each call of `read` takes only
undelivered payload from the kept chunks, the bytes returned by the successive calls
on a socket are a prefix of the payloads of the messages it received. -/
theorem read_returns_stream_prefix {host : Host} {size rxNum txNum : UInt32} {accepted : ℕ}
    {start s : RxState ι} {acts : List (RxAction ι)}
    (hstart : RxState.startUp host size rxNum txNum accepted = some start)
    (hfits : Meets RxState.step RxState.ReadFits start acts)
    (hrun : exec RxState.step start acts = some s) (i : ι) :
    (s.sock i).returned.flatten <+: (s.sock i).payloads.flatten := by
  obtain ⟨hsound, hsock⟩ := RxState.startUp_spec hstart
  have hinit : start.Streams := by
    intro j
    rw [hsock]
    exact ⟨by simp [Sock.connected], by simp [Sock.connected, Sock.pending, Control.polled],
      by simp [Sock.connected], fun _ => rfl⟩
  obtain ⟨_, hs⟩ := hfits.invariant (fun s => s.Sound ∧ s.Streams)
    (fun s a t hs hP hstep => ⟨hs.1.step hstep, hs.2.step hs.1 hP hstep⟩) ⟨hsound, hinit⟩ hrun
  rw [← (hs i).stream, List.append_assoc, List.append_assoc]
  exact List.prefix_append _ _

/-- A three byte message read in two calls, the second of which asks for `len`
bytes after a fourth byte has arrived. -/
def twoReads (len : ℕ) : List (RxAction Unit) :=
  .arrive () 0 [1, 2, 3] :: readOne 2 ++ .arrive () 0 [4] :: readOne len

/-- The condition is satisfiable: the second call asks for the one byte left over. -/
theorem read_returns_stream_prefix_one_left :
    ∃ start s : RxState Unit, RxState.startUp plainHost 8192 256 256 256 = some start ∧
      Meets RxState.step RxState.ReadFits start (twoReads 1) ∧
      exec RxState.step start (twoReads 1) = some s ∧
      (s.sock ()).returned = [[1, 2], [3]] ∧
      (s.sock ()).returned.flatten <+: (s.sock ()).payloads.flatten := by
  have hmeets : ∀ start ∈ RxState.startUp (ι := Unit) plainHost 8192 256 256 256,
      Meets RxState.step RxState.ReadFits start (twoReads 1) := by decide +kernel
  have hrun : ((RxState.startUp (ι := Unit) plainHost 8192 256 256 256).bind fun start =>
      exec RxState.step start (twoReads 1)).map (fun s => (s.sock ()).returned) =
        some [[1, 2], [3]] := by decide +kernel
  obtain ⟨s, hs, hreturned⟩ := Option.map_eq_some_iff.mp hrun
  obtain ⟨start, hstart, hexec⟩ := Option.bind_eq_some_iff.mp hs
  exact ⟨start, s, hstart, hmeets start hstart, hexec, hreturned,
    read_returns_stream_prefix hstart (hmeets start hstart) hexec ()⟩

/-- Without the condition the stream is broken: a second call for four bytes returns
three bytes that no message contained, while the fourth byte is still unread. -/
theorem read_returns_bytes_beyond_message :
    ∃ start s : RxState Unit, RxState.startUp plainHost 8192 256 256 256 = some start ∧
      exec RxState.step start (twoReads 4) = some s ∧
      (s.sock ()).returned = [[1, 2], [3, 0, 0, 0]] ∧
      (s.sock ()).payloads = [[1, 2, 3], [4]] ∧
      ¬(s.sock ()).returned.flatten <+: (s.sock ()).payloads.flatten := by
  have hrun : ((RxState.startUp (ι := Unit) plainHost 8192 256 256 256).bind fun start =>
      exec RxState.step start (twoReads 4)).map
        (fun s => ((s.sock ()).returned, (s.sock ()).payloads)) =
        some ([[1, 2], [3, 0, 0, 0]], [[1, 2, 3], [4]]) := by decide +kernel
  obtain ⟨s, hs, hobserved⟩ := Option.map_eq_some_iff.mp hrun
  obtain ⟨start, hstart, hexec⟩ := Option.bind_eq_some_iff.mp hs
  obtain ⟨hreturned, hpayloads⟩ := Prod.mk.inj hobserved
  refine ⟨start, s, hstart, hexec, hreturned, hpayloads, ?_⟩
  rw [hreturned, hpayloads]
  decide

end RdmaTransport
