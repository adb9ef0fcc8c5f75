import RdmaTransport.Lib.Progress
import RdmaTransport.Messenger

/-!
# How long a messenger lasts

Nothing posts a chunk to the shared receive queue after start-up, and nothing returns a chunk
to the free list that `get_tx_buffers` allocates from. A completion raises an event only if
the queue was armed, and a `read` takes one event. So the chunks registered at start-up
bound the number of messages a messenger can ever receive, send and read, on all its sockets
together. The equations hold for every run, whatever else happens in it.
-/

namespace RdmaTransport

open DrainLoop Runs

variable {ι : Type*} [DecidableEq ι]

/-- A message arrives. -/
def Action.arrived : Action ι → ℕ
  | .receive (.arrive ..) => 1
  | _ => 0

/-- A message arrives for socket `i`. -/
def Action.arrivedAt (i : ι) : Action ι → ℕ
  | .receive (.arrive j _ _) => if j = i then 1 else 0
  | _ => 0

/-- A `read` on socket `i` takes an event. -/
def Action.enteredAt (i : ι) : Action ι → ℕ
  | .receive (.readEnter j _) => if j = i then 1 else 0
  | _ => 0

/-- The number of chunks that a send takes from a cluster of chunks of the given size. -/
def Action.chunksTaken (size : ℕ) : Action ι → ℕ
  | .send bl _ => if totalLength bl = 0 then 0 else (Cluster.mk size []).chunkCount (totalLength bl)
  | _ => 0

section Steps

variable {s t : Messenger ι} {a : Action ι}

/-- An action that is not a step of the receive side leaves its queue and its sockets. -/
theorem Messenger.rx_of_step (h : s.step a = some t) (hrx : ∀ a', a ≠ .receive a') :
    t.rx.srq = s.rx.srq ∧ t.rx.sock = s.rx.sock := by
  cases a with
  | receive a' => exact absurd rfl (hrx a')
  | send bl fails =>
    obtain ⟨out, _, rfl⟩ := Option.map_eq_some_iff.mp h
    exact ⟨rfl, rfl⟩
  | complete k status =>
    obtain ⟨wr, _, hmap⟩ := Option.bind_eq_some_iff.mp h
    obtain ⟨worker, _, rfl⟩ := Option.map_eq_some_iff.mp hmap
    exact ⟨rfl, rfl⟩
  | txMiss | txEnter | txAdvance _ =>
    obtain ⟨worker, _, rfl⟩ := Option.map_eq_some_iff.mp h
    exact ⟨rfl, rfl⟩

/-- Each message takes one chunk from the receive queue, and nothing posts one. -/
theorem Messenger.srq_step (h : s.step a = some t) :
    a.arrived + t.rx.srq.length = s.rx.srq.length := by
  cases a with
  | receive a =>
    obtain ⟨rx, hrx, rfl⟩ := Option.map_eq_some_iff.mp h
    cases a with
    | arrive i k payload =>
      obtain ⟨c, hc⟩ := RxState.arrive_cases hrx
      obtain ⟨k', hk, hsrq⟩ := hc.srq_eq
      obtain ⟨hlt, _⟩ := List.getElem?_eq_some_iff.mp hk
      simp only [Action.arrived, hsrq, List.length_eraseIdx_of_lt hlt]
      omega
    | readEnter i len => simp [Action.arrived, (RxState.sockMove_readEnter hrx).srq_eq]
    | readAdvance i n => simp [Action.arrived, (RxState.sockMove_readAdvance hrx).srq_eq]
  | send _ _ | complete _ _ | txMiss | txEnter | txAdvance _ =>
    rw [(Messenger.rx_of_step h (by simp)).1]
    exact Nat.zero_add _

/-- Each send takes its chunks from the free list, and nothing returns one. -/
theorem Messenger.pool_step {size : ℕ} (hsize : s.worker.manager.channel.chunkSize = size)
    (h : s.step a = some t) :
    t.worker.manager.channel.chunkSize = size ∧
      a.chunksTaken size + t.txPool.length = s.txPool.length := by
  have hworker : ∀ {worker : TxWorker} {b : TxAction}, s.worker.step b = some worker →
      worker.manager.channel.chunkSize = size ∧
        0 + worker.manager.channel.freeChunks.length = s.txPool.length := by
    intro worker b hb
    rw [TxWorker.channel_step hb, Nat.zero_add]
    exact ⟨hsize, rfl⟩
  cases a with
  | receive a =>
    obtain ⟨rx, _, rfl⟩ := Option.map_eq_some_iff.mp h
    exact ⟨hsize, Nat.zero_add _⟩
  | send bl fails =>
    obtain ⟨out, hout, rfl⟩ := Option.map_eq_some_iff.mp h
    obtain ⟨_, _, ⟨hzero, hchannel⟩ | ⟨hbytes, _, hle, hchannel⟩⟩ := send_cases hout
    · simp only [Messenger.txPool, Action.chunksTaken, if_pos hzero, hchannel]
      exact ⟨hsize, Nat.zero_add _⟩
    · have hcount : s.worker.manager.channel.chunkCount (totalLength bl) =
          (Cluster.mk size []).chunkCount (totalLength bl) := by
        rw [← hsize]
        rfl
      rw [hcount] at hle hchannel
      simp only [Messenger.txPool, Action.chunksTaken, if_neg hbytes, hchannel, List.length_take]
      exact ⟨hsize, by omega⟩
  | complete k status =>
    obtain ⟨wr, _, hmap⟩ := Option.bind_eq_some_iff.mp h
    obtain ⟨worker, hstep, rfl⟩ := Option.map_eq_some_iff.mp hmap
    exact hworker hstep
  | txMiss | txEnter | txAdvance _ =>
    obtain ⟨worker, hstep, rfl⟩ := Option.map_eq_some_iff.mp h
    exact hworker hstep

/-- A step of a running `read` takes no event and raises none. -/
theorem RxState.events_readAdvance {rx rx' : RxState ι} {j : ι} {n : ℕ}
    (h : rx.readAdvance j n = some rx') (i : ι) :
    (rx'.sock i).control.queue.events = (rx.sock i).control.queue.events := by
  by_cases hi : i = j
  · subst hi
    rcases RxState.readAdvance_cases h with ⟨control, hadvance, rfl⟩ |
      ⟨control, wc, store, sock, hadvance, hhandle, rfl⟩ | ⟨control, hadvance, rfl⟩
    · rw [RxState.setSock_self]
      exact Control.advance_events hadvance
    · obtain ⟨_, hcontrol, _⟩ := handleCompletion_move hhandle
      rw [RxState.setSock_self, hcontrol]
      exact Control.advance_events hadvance
    · rw [RxState.setSock_self]
      exact Control.advance_events hadvance
  · rw [(RxState.sockMove_readAdvance h).others i hi]

/-- A `read` takes an event of its socket, and a message raises at most one. -/
theorem Messenger.events_step (i : ι) (h : s.step a = some t) :
    a.enteredAt i + (t.rx.sock i).control.queue.events ≤
      (s.rx.sock i).control.queue.events + a.arrivedAt i := by
  cases a with
  | receive a =>
    obtain ⟨rx, hrx, rfl⟩ := Option.map_eq_some_iff.mp h
    cases a with
    | arrive j k payload =>
      obtain ⟨c, hc⟩ := RxState.arrive_cases hrx
      by_cases hj : j = i
      · subst hj
        have hle := (s.rx.sock j).control.arrive_events_le ⟨c, payload.length, .success⟩
        simpa [Action.enteredAt, Action.arrivedAt, hc.sock_eq] using hle
      · simp [Action.enteredAt, hc.others i fun heq => hj heq.symm]
    | readEnter j len =>
      by_cases hj : j = i
      · subst hj
        obtain ⟨control, hcontrol, rfl⟩ := RxState.readEnter_cases hrx
        obtain ⟨_, hpos, rfl⟩ := Control.enter_cases hcontrol
        simp only [Action.enteredAt, if_true, RxState.setSock_self]
        omega
      · have hother := (RxState.sockMove_readEnter hrx).others i fun heq => hj heq.symm
        simp [Action.enteredAt, hj, hother]
    | readAdvance j n =>
      simp [Action.enteredAt, Action.arrivedAt, RxState.events_readAdvance hrx i]
  | send _ _ | complete _ _ | txMiss | txEnter | txAdvance _ =>
    rw [(Messenger.rx_of_step h (by simp)).2]
    exact (Nat.zero_add _).le

end Steps

/-- **The life of a messenger.** In every run from start-up, with any number of sockets:
every message takes one of the chunks posted at start-up for good; every send takes its
chunks from the free list for good, also when posting it fails; and a socket can enter
`read` at most once for each message it got. -/
theorem messenger_wears_out {host : Host} {size rxNum txNum : UInt32} {accepted : ℕ}
    {start s : Messenger ι} {acts : List (Action ι)}
    (hstart : Messenger.startUp host size rxNum txNum accepted = some start)
    (hrun : exec Messenger.step start acts = some s) :
    (acts.map Action.arrived).sum + s.rx.srq.length = min accepted start.txPool.length ∧
    (acts.map (Action.chunksTaken size.toNat)).sum + s.txPool.length = start.txPool.length ∧
    ∀ i, (acts.map (Action.enteredAt i)).sum ≤ (acts.map (Action.arrivedAt i)).sum := by
  obtain ⟨pool, manager, hreg, _, hsize, _⟩ :=
    MemoryManager.registerRxTx_spec host size rxNum txNum
  rw [Messenger.startUp, hreg, Option.map_some, Option.some.injEq] at hstart
  have hposted : start.rx.srq.length = min accepted start.txPool.length := by
    rw [← hstart]
    simp only [RxState.start, postChannelCluster_eq, List.length_take, Messenger.txPool,
      TxWorker.initialized]
  have hevents : ∀ i, (start.rx.sock i).control.queue.events = 0 := by
    intro i
    rw [← hstart]
    rfl
  have hchannel : start.worker.manager.channel.chunkSize = size.toNat := by
    rw [← hstart]
    exact hsize
  refine ⟨?_, ?_, fun i => ?_⟩
  · have hsum := sum_cost_of_exec (fun _ => True) (fun s : Messenger ι => s.rx.srq.length)
      Action.arrived (fun _ => 0) (fun s a t _ h => ⟨trivial, Messenger.srq_step h⟩) trivial hrun
    simpa [hposted] using hsum
  · have hsum := sum_cost_of_exec
      (fun s : Messenger ι => s.worker.manager.channel.chunkSize = size.toNat)
      (fun s => s.txPool.length) (Action.chunksTaken size.toNat) (fun _ => 0)
      (fun s a t hs h => Messenger.pool_step hs h) hchannel hrun
    simpa using hsum
  · have hsum := sum_cost_le_of_exec (fun s : Messenger ι => (s.rx.sock i).control.queue.events)
      (Action.enteredAt i) (Action.arrivedAt i) (fun s a t h => Messenger.events_step i h) hrun
    rw [hevents i, Nat.zero_add] at hsum
    omega

/-- Two chunks are registered and one of them is posted. After one message and one send of
three bytes nothing can be received or sent any more. -/
def wornOut : List (Action Unit) := [.send [[7, 7], [7]] none, .receive (.arrive () 0 [1])]

/-- The sums in that run. -/
theorem messenger_wears_out_two_chunks :
    ∃ start s : Messenger Unit, Messenger.startUp plainHost 2 2 1 1 = some start ∧
      exec Messenger.step start wornOut = some s ∧ s.rx.srq.length = 0 ∧ s.txPool.length = 0 := by
  have hpool : ((Messenger.startUp (ι := Unit) plainHost 2 2 1 1).bind fun start =>
      (exec Messenger.step start wornOut).map fun _ => start.txPool.length) = some 2 := by
    decide +kernel
  obtain ⟨start, hstart, hmap⟩ := Option.bind_eq_some_iff.mp hpool
  obtain ⟨s, hrun, htwo⟩ := Option.map_eq_some_iff.mp hmap
  obtain ⟨hreceived, hsent, _⟩ := messenger_wears_out hstart hrun
  rw [htwo] at hreceived hsent
  have htaken : (wornOut.map (Action.chunksTaken (2 : UInt32).toNat)).sum = 2 := by decide
  have harrived : (wornOut.map Action.arrived).sum = 1 := by decide
  exact ⟨start, s, hstart, hrun, by omega, by omega⟩

end RdmaTransport
