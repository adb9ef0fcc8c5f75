import RdmaTransport.ReceiveSteps
import Mathlib.Algebra.BigOperators.Group.Finset.Basic
import Mathlib.Algebra.Order.BigOperators.Group.Finset

/-!
# Counting receive buffers

A chunk taken from the shared receive queue by a message is never posted again:
nothing calls `return_rx`, and `read` keeps or forgets the chunks it polls. The
chunks that are posted, completed but unpolled, or polled with undelivered payload
therefore stay as many as were posted at start-up exactly as long as no message has
been delivered to its end. `LeavesPayload` states this for one step, in terms of
the lengths known before it.
-/

namespace RdmaTransport

open DrainLoop Runs

variable {ι : Type*}

/-- The chunks a socket accounts for: those of completions not yet processed and the
polled ones that still hold undelivered payload. -/
def RxState.held (s : RxState ι) (i : ι) : ℕ :=
  (s.sock i).pending.length + ((s.sock i).polled.filter fun c => ¬s.store.Spent c).length

/-- The condition on a step: it leaves payload in every chunk it reads or polls. A
call asks for less than is undelivered in the first kept chunk; a completion has
payload, and more than was asked for if no chunk is kept. -/
def RxState.LeavesPayload (s : RxState ι) : RxAction ι → Prop
  | .arrive .. => True
  | .readEnter i len => ∀ c ∈ (s.sock i).rxBuffers.head?,
      (s.store.chunk c).offset + len < s.store.message c
  | .readAdvance i _ => ∀ wc ∈ (s.sock i).control.polled.head?,
      0 < wc.byteLen ∧ ((s.sock i).rxBuffers = [] → (s.sock i).len < wc.byteLen)

instance (s : RxState ι) (a : RxAction ι) : Decidable (s.LeavesPayload a) := by
  cases a <;> unfold RxState.LeavesPayload <;> infer_instance

/-- Every kept chunk holds undelivered payload and none was dropped; a running call
stands at its start when no chunk is kept and has all its bytes otherwise. -/
structure Sock.Undelivered (sock : Sock) (store : ChunkStore) : Prop where
  /-- No polled chunk was dropped. -/
  polled_eq : sock.polled = sock.rxBuffers
  /-- The position of a kept chunk tells what was delivered, which is not all. -/
  partly : ∀ c ∈ sock.rxBuffers, store.copied c = Finset.range (store.chunk c).offset ∧
    (store.chunk c).offset < store.message c
  /-- Without a kept chunk nothing has been read. -/
  read_zero : sock.rxBuffers = [] → sock.read = 0
  /-- With a kept chunk all requested bytes have been read. -/
  read_full : sock.rxBuffers ≠ [] → sock.read = sock.len

/-- A request that ends inside the message is met and leaves payload in the chunk. -/
theorem ChunkStore.readChunk_leaves {store : ChunkStore} {c : ChunkId} {len : ℕ}
    (hvalid : (store.chunk c).Valid) (hmessage : store.message c ≤ (store.chunk c).bytes)
    (hcopied : store.copied c = Finset.range (store.chunk c).offset)
    (hlen : (store.chunk c).offset + len < store.message c) :
    (store.readChunk c len).2.2 = len ∧
      (store.readChunk c len).1.copied c =
        Finset.range ((store.readChunk c len).1.chunk c).offset ∧
      ((store.readChunk c len).1.chunk c).offset < (store.readChunk c len).1.message c := by
  have hfit : len ≤ (store.chunk c).bytes - (store.chunk c).offset := by omega
  have htaken : store.taken c len = len := min_eq_left hfit
  rw [readChunk_eq hvalid]
  simp only [Function.update_self, htaken, if_pos hfit, hcopied]
  refine ⟨trivial, ?_, hlen⟩
  rw [Finset.range_eq_Ico, Finset.range_eq_Ico,
    Finset.Ico_union_Ico_eq_Ico (Nat.zero_le _) (Nat.le_add_right _ _)]

/-- An untouched chunk of a nonempty message holds undelivered payload. -/
theorem ChunkStore.Fresh.partly {s : ChunkStore} {wc : Wc} (h : s.Fresh wc)
    (hlen : 0 < wc.byteLen) : s.copied wc.wrId = Finset.range (s.chunk wc.wrId).offset ∧
      (s.chunk wc.wrId).offset < s.message wc.wrId := by
  rw [h.copied_eq, h.offset_eq, h.message_eq]
  exact ⟨rfl, hlen⟩

/-- Processing a completion that leaves payload keeps the chunk, with payload in it. -/
theorem Sock.Undelivered.of_handleCompletion {store store' : ChunkStore} {sock sock' : Sock}
    {wc : Wc} (h : sock.Undelivered store)
    (hhandle : handleCompletion store sock wc = some (store', sock'))
    (hvalid : ∀ c, (store.chunk c).Valid)
    (hmessage : ∀ c, store.message c ≤ (store.chunk c).bytes) (hfresh : store.Fresh wc)
    (hpos : 0 < wc.byteLen)
    (hlen : sock.rxBuffers = [] → sock.len < wc.byteLen) : sock'.Undelivered store' := by
  rcases (handleCompletion_cases hhandle).2 with ⟨hfull, rfl, rfl⟩ | ⟨hmore, hle, rfl, rfl⟩ |
    ⟨hmore, hlt, rfl, rfl⟩
  · refine ⟨by simp [h.polled_eq], fun c hc => ?_, by simp, fun _ => hfull⟩
    rcases List.mem_append.mp hc with hc | hc
    · exact h.partly c hc
    · rw [List.mem_singleton.mp hc]
      exact hfresh.partly hpos
  · have hnone : sock.rxBuffers = [] := by
      by_contra hne
      exact hmore (h.read_full hne)
    have hzero := h.read_zero hnone
    have hpart := hfresh.partly hpos
    have hinside : (store.chunk wc.wrId).offset + sock.len < store.message wc.wrId := by
      rw [hfresh.offset_eq, hfresh.message_eq, Nat.zero_add]
      exact hlen hnone
    obtain ⟨hcount, hkept⟩ := ChunkStore.readChunk_leaves (hvalid wc.wrId) (hmessage wc.wrId)
      hpart.1 hinside
    refine ⟨by simp [h.polled_eq], fun c hc => ?_, by simp, fun _ => ?_⟩
    · rw [hnone, List.nil_append, List.mem_singleton] at hc
      subst hc
      rw [hzero, Nat.sub_zero]
      exact hkept
    · simp only [hzero, Nat.sub_zero, hcount, Nat.zero_add]
  · exfalso
    have hnone : sock.rxBuffers = [] := by
      by_contra hne
      exact hmore (h.read_full hne)
    have := hlen hnone
    omega

/-- Reading other chunks leaves undelivered payload alone. -/
theorem Sock.Undelivered.of_readsOnly {sock : Sock} {s t : ChunkStore} {touched : List ChunkId}
    (h : sock.Undelivered s) (hreads : s.ReadsOnly t touched)
    (hrx : ∀ c ∈ sock.rxBuffers, c ∉ touched) : sock.Undelivered t where
  polled_eq := h.polled_eq
  partly c hc := by
    obtain ⟨hchunk, hcopied⟩ := hreads.frame c (hrx c hc)
    rw [hchunk, hcopied, hreads.message_eq]
    exact h.partly c hc
  read_zero := h.read_zero
  read_full := h.read_full

variable [DecidableEq ι]

/-- A call that asks for less than is undelivered in the first kept chunk leaves
payload in every kept chunk. -/
theorem RxState.undelivered_readEnter {s t : RxState ι} {i : ι} {len : ℕ} (hsound : s.Sound)
    (h : (s.sock i).Undelivered s.store) (hleaves : s.LeavesPayload (.readEnter i len))
    (hstep : s.readEnter i len = some t) : (t.sock i).Undelivered t.store := by
  obtain ⟨control, _, rfl⟩ := readEnter_cases hstep
  simp only [setSock_self, setSock_store]
  cases hkept : (s.sock i).rxBuffers with
  | nil =>
    have hpolled := h.polled_eq
    rw [hkept] at hpolled
    exact ⟨hpolled, by simp, fun _ => rfl, fun hne => absurd rfl hne⟩
  | cons c rest =>
    have hnodup : (c :: rest).Nodup := by
      rw [← hkept]
      exact (hsound.rx_sublist i).nodup (List.nodup_append.mp (hsound.chunks_nodup i)).1
    have hpart : ∀ d ∈ c :: rest, _ := fun d hd => h.partly d (by rwa [hkept])
    obtain ⟨hcount, hown⟩ := ChunkStore.readChunk_leaves (hsound.valid c) (hsound.message_le c)
      (hpart c (by simp)).1 (hleaves c (by simp [hkept]))
    rw [readBuffers_cons, Nat.sub_zero, hcount, Nat.zero_add, if_pos rfl]
    refine ⟨h.polled_eq.trans hkept, fun d hd => ?_, fun hnil => absurd hnil (by simp),
      fun _ => rfl⟩
    rcases List.mem_cons.mp hd with rfl | hd'
    · exact hown
    · have hne : d ∉ [c] := by
        rw [List.mem_singleton]
        rintro rfl
        exact (List.nodup_cons.mp hnodup).1 hd'
      have hreads := s.store.readChunk_readsOnly c len
      obtain ⟨hchunk, hcopied⟩ := hreads.frame d hne
      dsimp only
      rw [hchunk, hcopied, hreads.message_eq]
      exact hpart d hd

/-- A step of the completion loop that leaves payload keeps payload in every kept
chunk. -/
theorem RxState.undelivered_readAdvance {s t : RxState ι} {i : ι} {n : ℕ} (hsound : s.Sound)
    (h : (s.sock i).Undelivered s.store) (hleaves : s.LeavesPayload (.readAdvance i n))
    (hstep : s.readAdvance i n = some t) : (t.sock i).Undelivered t.store := by
  rcases readAdvance_cases hstep with ⟨control, hadvance, rfl⟩ |
    ⟨control, wc, store, sock, hadvance, hhandle, rfl⟩ | ⟨control, hadvance, rfl⟩
  · simp only [setSock_self, setSock_store]
    exact ⟨h.polled_eq, h.partly, h.read_zero, h.read_full⟩
  · have hhead : wc ∈ (s.sock i).control.polled.head? := Control.advance_polled hadvance
    have hmem : wc ∈ (s.sock i).pending :=
      List.mem_append_left _ (List.mem_of_mem_head? hhead)
    have hwc := hleaves wc hhead
    simp only [setSock_self, setSock_store]
    have h' : Sock.Undelivered { s.sock i with control } s.store :=
      ⟨h.polled_eq, h.partly, h.read_zero, h.read_full⟩
    exact h'.of_handleCompletion hhandle hsound.valid hsound.message_le
      (hsound.pending_fresh i wc hmem) hwc.1 hwc.2
  · simp only [setSock_self, setSock_store]
    exact ⟨h.polled_eq, h.partly, fun _ => rfl, fun _ => rfl⟩

/-- Every socket keeps all it polled, with payload left in each chunk. -/
def RxState.Undelivered (s : RxState ι) : Prop := ∀ i, (s.sock i).Undelivered s.store

/-- A step of one socket that leaves payload in its own chunks leaves it in all. -/
theorem RxState.Undelivered.of_sockStep {s t : RxState ι} {i : ι} (h : s.Undelivered)
    (hsound : s.Sound) (hstep : s.SockStep t i) (hown : (t.sock i).Undelivered t.store) :
    t.Undelivered := by
  intro j
  by_cases hj : j = i
  · rw [hj]
    exact hown
  · rw [hstep.others j hj]
    apply (h j).of_readsOnly hstep.reads
    intro c hc
    exact hstep.not_mem_polled hsound hj
      (List.mem_append_left _ ((hsound.rx_sublist j).subset hc))

/-- An arrival leaves the kept chunks alone. -/
theorem RxState.Undelivered.of_arriveStep {s t : RxState ι} {i : ι} {c : ChunkId}
    {payload : List UInt8} (h : s.Undelivered) (hsound : s.Sound)
    (hstep : s.ArriveStep t i c payload) : t.Undelivered := by
  obtain ⟨_, _, hnew⟩ := hstep.chunk_new hsound.distinct
  have hpartly : ∀ j, ∀ d ∈ (s.sock j).rxBuffers,
      t.store.copied d = Finset.range (t.store.chunk d).offset ∧
        (t.store.chunk d).offset < t.store.message d := by
    intro j d hd
    have hne : d ≠ c := by
      rintro rfl
      exact hnew j (List.mem_append_left _ ((hsound.rx_sublist j).subset hd))
    obtain ⟨hchunk, hmessage, hcopied⟩ := s.store.fill_of_ne payload hne
    rw [hstep.store_eq, hchunk, hmessage, hcopied]
    exact (h j).partly d hd
  intro j
  by_cases hj : j = i
  · subst hj
    rw [hstep.sock_eq]
    exact ⟨(h j).polled_eq, hpartly j, (h j).read_zero, (h j).read_full⟩
  · rw [hstep.others j hj]
    exact ⟨(h j).polled_eq, hpartly j, (h j).read_zero, (h j).read_full⟩

/-- A step that leaves payload in every chunk it reads or polls keeps it everywhere. -/
theorem RxState.Undelivered.step {s t : RxState ι} {a : RxAction ι} (h : s.Undelivered)
    (hsound : s.Sound) (hleaves : s.LeavesPayload a) (hstep : s.step a = some t) :
    t.Undelivered := by
  cases a with
  | arrive i k payload =>
    obtain ⟨c, hc⟩ := arrive_cases hstep
    exact h.of_arriveStep hsound hc
  | readEnter i len =>
    exact h.of_sockStep hsound (hsound.readEnter hstep)
      (undelivered_readEnter hsound (h i) hleaves hstep)
  | readAdvance i n =>
    exact h.of_sockStep hsound (hsound.readAdvance hstep)
      (undelivered_readAdvance hsound (h i) hleaves hstep)

variable [Fintype ι]

end RdmaTransport
