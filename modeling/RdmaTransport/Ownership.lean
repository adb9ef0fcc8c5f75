import RdmaTransport.Messenger
import Mathlib.Data.Fintype.Basic

/-!
# Exclusive ownership of chunks

A chunk that is offered to the adapter for receiving, or that holds a message not yet
read to its end, should not be given out for sending at the same time. Nothing in
`get_tx_buffers` prevents it: the free list it allocates from is the one whose chunks
were posted at start-up. No other step brings a chunk into both hands, which makes the
condition on the sends exact.
-/

namespace RdmaTransport

open DrainLoop Runs

variable {ι : Type*}

/-- The receive side needs the chunk: it is posted, its completion is not processed,
or it holds undelivered payload. -/
def RxState.Holds (s : RxState ι) (c : ChunkId) : Prop :=
  c ∈ s.srq ∨ ∃ i, c ∈ (s.sock i).pending.map Wc.wrId ∨
    (c ∈ (s.sock i).polled ∧ ¬s.store.Spent c)

instance [Fintype ι] (s : RxState ι) (c : ChunkId) : Decidable (s.Holds c) :=
  inferInstanceAs (Decidable (_ ∨ ∃ _, _))

/-- The chunk was handed out by `get_tx_buffers` and has not been returned: its work
request is outstanding, has completed unhandled, or was not accepted. -/
def Messenger.HandedOut (s : Messenger ι) (c : ChunkId) : Prop :=
  c ∈ s.inflight.map SendWr.wrId ∨ c ∈ s.worker.pending.map Wc.wrId ∨
    c ∈ s.refused.map SendWr.wrId

/-- No chunk is needed for receiving and handed out for sending. -/
def Messenger.Exclusive (s : Messenger ι) : Prop := ∀ c, ¬(s.rx.Holds c ∧ s.HandedOut c)

/-- The condition on a step: a send finds no chunk at the back of the free list that
the receive side still needs. -/
def Messenger.TakesUnheld (s : Messenger ι) : Action ι → Prop
  | .send bl _ =>
      ∀ c ∈ s.worker.manager.channel.nextChunks (totalLength bl), ¬s.rx.Holds c
  | _ => True

instance [Fintype ι] (s : Messenger ι) : ∀ a, Decidable (s.TakesUnheld a)
  | .send bl _ => inferInstanceAs
      (Decidable (∀ c ∈ s.worker.manager.channel.nextChunks (totalLength bl), ¬s.rx.Holds c))
  | .receive _ | .complete .. | .txMiss | .txEnter | .txAdvance _ =>
      inferInstanceAs (Decidable True)

/-- A step of a `read` call makes the receive side need no further chunk. -/
theorem RxState.SockMove.holds {s t : RxState ι} {i : ι} (hstep : s.SockMove t i) {c : ChunkId}
    (h : t.Holds c) : s.Holds c := by
  obtain ⟨touched, hreads⟩ := hstep.reads_only
  rcases h with h | ⟨j, h⟩
  · exact .inl (hstep.srq_eq ▸ h)
  refine .inr ⟨j, ?_⟩
  by_cases hj : j = i
  · subst hj
    rcases h with h | ⟨hpolled, hspent⟩
    · obtain ⟨wc, hwc, rfl⟩ := List.mem_map.mp h
      exact .inl (List.mem_map_of_mem (hstep.pending_suffix.subset hwc))
    · have hmem : c ∈ (s.sock j).chunks := by
        rw [← hstep.chunks_eq]
        exact List.mem_append_left _ hpolled
      rcases List.mem_append.mp hmem with hmem | hmem
      · exact .inr ⟨hmem, fun hs => hspent (hreads.spent hs)⟩
      · exact .inl hmem
  · rw [hstep.others j hj] at h
    exact h.imp_right fun ⟨hpolled, hspent⟩ => ⟨hpolled, fun hs => hspent (hreads.spent hs)⟩

/-- An arrival only moves a chunk that is needed already. -/
theorem RxState.ArriveStep.holds {s t : RxState ι} {i : ι} {c : ChunkId} {payload : List UInt8}
    (hstep : s.ArriveStep t i c payload) {d : ChunkId} (h : t.Holds d) : s.Holds d := by
  obtain ⟨k, hk, hsrq⟩ := hstep.srq_eq
  by_cases hd : d = c
  · subst hd
    exact .inl (List.mem_of_getElem? hk)
  · have hspent : t.store.Spent d ↔ s.store.Spent d := by
      obtain ⟨_, hmessage, hcopied⟩ := s.store.fill_of_ne payload hd
      rw [ChunkStore.Spent, ChunkStore.Spent, hstep.store_eq, hmessage, hcopied]
    rcases h with h | ⟨j, h⟩
    · rw [hsrq] at h
      exact .inl (List.mem_of_mem_eraseIdx h)
    · refine .inr ⟨j, ?_⟩
      rw [hspent] at h
      by_cases hj : j = i
      · subst hj
        rw [hstep.pending_eq, hstep.sock_eq] at h
        simpa [hd] using h
      · rwa [hstep.others j hj] at h

/-- Replacing the worker by one whose pending completions are among the old ones keeps
ownership exclusive. -/
theorem Messenger.Exclusive.of_worker {s : Messenger ι} (h : s.Exclusive) {worker : TxWorker}
    (hsub : worker.pending ⊆ s.worker.pending) : ({ s with worker } : Messenger ι).Exclusive := by
  rintro c ⟨hholds, hout⟩
  refine h c ⟨hholds, ?_⟩
  rcases hout with hout | hout | hout
  · exact .inl hout
  · exact .inr (.inl (List.map_subset _ hsub hout))
  · exact .inr (.inr hout)

/-- A step of the handler adds nothing to what is pending. -/
theorem TxWorker.pending_subset {w w' : TxWorker} {a : TxAction} (hstep : w.step a = some w')
    (ha : a.arrivals = []) : w'.pending ⊆ w.pending := by
  obtain ⟨handled, _, hpending⟩ := pending_step hstep
  rw [ha, List.append_nil] at hpending
  rw [← hpending]
  exact List.subset_append_right _ _

/-- A send hands out the next chunks of the channel cluster and leaves the needs of the
receive side as they are. -/
theorem Messenger.send_ownership {s t : Messenger ι} {bl : List (List UInt8)} {fails : Option ℕ}
    (hstep : s.send bl fails = some t) (c : ChunkId) :
    (t.rx.Holds c ↔ s.rx.Holds c) ∧
      (t.HandedOut c ↔ s.HandedOut c ∨
        c ∈ s.worker.manager.channel.nextChunks (totalLength bl)) := by
  obtain ⟨out, hout, rfl⟩ := Option.map_eq_some_iff.mp hstep
  obtain ⟨hids, _⟩ := send_cases hout
  refine ⟨Iff.rfl, ?_⟩
  rw [← hids]
  simp only [HandedOut, TxWorker.pending, List.map_append, List.mem_append]
  tauto

/-- A completion moves a chunk from the outstanding requests to the pending ones. -/
theorem Messenger.complete_handedOut {s t : Messenger ι} {k : ℕ} {status : WcStatus}
    (hstep : s.complete k status = some t) {c : ChunkId} (h : t.HandedOut c) : s.HandedOut c := by
  obtain ⟨wr, hwr, hmap⟩ := Option.bind_eq_some_iff.mp hstep
  obtain ⟨worker, hworker, rfl⟩ := Option.map_eq_some_iff.mp hmap
  obtain rfl := Option.some.inj hworker
  have hmem : wr.wrId ∈ s.inflight.map SendWr.wrId :=
    List.mem_map_of_mem (List.mem_of_getElem? hwr)
  rcases h with h | h | h
  · obtain ⟨x, hx, rfl⟩ := List.mem_map.mp h
    exact .inl (List.mem_map_of_mem (List.mem_of_mem_eraseIdx hx))
  · rw [TxWorker.pending, Control.arrive_pending, List.map_append, List.mem_append] at h
    rcases h with h | h
    · exact .inr (.inl h)
    · rw [List.map_singleton, List.mem_singleton] at h
      exact .inl (h ▸ hmem)
  · exact .inr (.inr h)

variable [DecidableEq ι]

/-- No step of the receive side makes it need a further chunk. -/
theorem RxState.holds_of_step {s t : RxState ι} {a : RxAction ι} (hstep : s.step a = some t)
    {c : ChunkId} (h : t.Holds c) : s.Holds c := by
  cases a with
  | arrive i k payload =>
    obtain ⟨d, hd⟩ := arrive_cases hstep
    exact hd.holds h
  | readEnter i len => exact (sockMove_readEnter hstep).holds h
  | readAdvance i n => exact (sockMove_readAdvance hstep).holds h

/-- An action that takes only chunks the receive side does not need keeps ownership
exclusive. -/
theorem Messenger.Exclusive.step {s t : Messenger ι} {a : Action ι} (h : s.Exclusive)
    (hunheld : s.TakesUnheld a) (hstep : s.step a = some t) : t.Exclusive := by
  cases a with
  | receive a =>
    obtain ⟨rx, hrx, rfl⟩ := Option.map_eq_some_iff.mp hstep
    exact fun c hc => h c ⟨RxState.holds_of_step hrx hc.1, hc.2⟩
  | send bl fails =>
    rintro c ⟨hholds, hout⟩
    obtain ⟨hrx, htx⟩ := Messenger.send_ownership hstep c
    rcases htx.mp hout with hout | hnext
    · exact h c ⟨hrx.mp hholds, hout⟩
    · exact hunheld c hnext (hrx.mp hholds)
  | complete k status =>
    rintro c ⟨hholds, hout⟩
    refine h c ⟨?_, Messenger.complete_handedOut hstep hout⟩
    obtain ⟨wr, _, hmap⟩ := Option.bind_eq_some_iff.mp hstep
    obtain ⟨worker, _, rfl⟩ := Option.map_eq_some_iff.mp hmap
    exact hholds
  | txMiss =>
    obtain ⟨worker, hworker, rfl⟩ := Option.map_eq_some_iff.mp hstep
    exact h.of_worker (TxWorker.pending_subset hworker rfl)
  | txEnter =>
    obtain ⟨worker, hworker, rfl⟩ := Option.map_eq_some_iff.mp hstep
    exact h.of_worker (TxWorker.pending_subset hworker rfl)
  | txAdvance n =>
    obtain ⟨worker, hworker, rfl⟩ := Option.map_eq_some_iff.mp hstep
    exact h.of_worker (TxWorker.pending_subset hworker rfl)

/-- Only a send can take a chunk the receive side needs, and then ownership is no longer
exclusive. -/
theorem Messenger.not_exclusive_of_step {s t : Messenger ι} {a : Action ι}
    (hheld : ¬s.TakesUnheld a) (hstep : s.step a = some t) : ¬t.Exclusive := by
  intro hexclusive
  cases a with
  | send bl fails =>
    simp only [Messenger.TakesUnheld, not_forall, not_not] at hheld
    obtain ⟨c, hnext, hholds⟩ := hheld
    obtain ⟨hrx, htx⟩ := Messenger.send_ownership hstep c
    exact hexclusive c ⟨hrx.mpr hholds, htx.mpr (.inr hnext)⟩
  | receive _ | complete _ _ | txMiss | txEnter | txAdvance _ => exact hheld trivial

/-- **Exclusive ownership.** In a run from start-up no state has a chunk both needed
for receiving and handed out for sending exactly when every send found, at the back of
the free list, only chunks the receive side did not need. -/
theorem exclusive_along_iff {host : Host} {size rxNum txNum : UInt32} {accepted : ℕ}
    {start s : Messenger ι} {acts : List (Action ι)}
    (hstart : Messenger.startUp host size rxNum txNum accepted = some start)
    (hrun : exec Messenger.step start acts = some s) :
    Along Messenger.step Messenger.Exclusive start acts ↔
      Meets Messenger.step Messenger.TakesUnheld start acts := by
  obtain ⟨_, hinflight, hrefused, hpending⟩ := Messenger.startUp_spec hstart
  have hinit : start.Exclusive := by
    rintro c ⟨_, hout⟩
    simp [Messenger.HandedOut, hinflight, hrefused, hpending] at hout
  refine along_iff_meets (fun _ => True) (fun _ _ _ _ _ => trivial) ?_ ?_ trivial hinit hrun
  · intro s a t _ hs hunheld hstep
    exact hs.step hunheld hstep
  · intro s a t _ _ hheld hstep
    exact Messenger.not_exclusive_of_step hheld hstep

/-- The condition is satisfiable: the only receive buffer gets a message, the message
is read to its end, and then the buffer is used for sending. -/
def reuseAfterRead : List (Action Unit) :=
  .receive (.arrive () 0 [1]) :: (readOne 1).map .receive ++ [.send [[7]] none]

/-- Ownership stays exclusive in that run. -/
theorem exclusive_along_reuseAfterRead :
    ∃ start s : Messenger Unit, Messenger.startUp plainHost 8192 1 1 1 = some start ∧
      exec Messenger.step start reuseAfterRead = some s ∧
      s.inflight.map SendWr.wrId = [0] ∧
      Along Messenger.step Messenger.Exclusive start reuseAfterRead := by
  have hmeets : ∀ start ∈ Messenger.startUp (ι := Unit) plainHost 8192 1 1 1,
      Meets Messenger.step Messenger.TakesUnheld start reuseAfterRead := by decide +kernel
  have hrun : ((Messenger.startUp (ι := Unit) plainHost 8192 1 1 1).bind fun start =>
      exec Messenger.step start reuseAfterRead).map (fun s => s.inflight.map SendWr.wrId) =
        some [0] := by decide +kernel
  obtain ⟨s, hs, hinflight⟩ := Option.map_eq_some_iff.mp hrun
  obtain ⟨start, hstart, hexec⟩ := Option.bind_eq_some_iff.mp hs
  exact ⟨start, s, hstart, hexec, hinflight,
    (exclusive_along_iff hstart hexec).mpr (hmeets start hstart)⟩

/-- Without the condition ownership is shared: the first send after start-up is given
a chunk that the adapter may fill with a message at any time. -/
theorem first_send_takes_posted_chunk :
    ∃ start s : Messenger Unit, Messenger.startUp plainHost 8192 256 256 256 = some start ∧
      exec Messenger.step start [.send [[7]] none] = some s ∧
      255 ∈ s.rx.srq ∧ s.inflight.map SendWr.wrId = [255] ∧ ¬s.Exclusive := by
  have hrun : ((Messenger.startUp (ι := Unit) plainHost 8192 256 256 256).bind fun start =>
      exec Messenger.step start [.send [[7]] none]).map
        (fun s => (decide (255 ∈ s.rx.srq), s.inflight.map SendWr.wrId)) =
        some (true, [255]) := by decide +kernel
  obtain ⟨s, hs, hobserved⟩ := Option.map_eq_some_iff.mp hrun
  obtain ⟨start, hstart, hexec⟩ := Option.bind_eq_some_iff.mp hs
  obtain ⟨hposted, hinflight⟩ := Prod.mk.inj hobserved
  have hsrq := of_decide_eq_true hposted
  refine ⟨start, s, hstart, hexec, hsrq, hinflight, fun hexclusive => ?_⟩
  exact hexclusive 255 ⟨.inl hsrq, .inl (by simp [hinflight])⟩

end RdmaTransport
