import RdmaTransport.Receive

/-!
# The send completion handler

`RDMAWorker::handle_tx_event` runs the loop of `Lib.DrainLoop` on the send
completion queue and gives the chunk of every completion to `return_channel`. The
worker is modelled at the granularity of the single calls, so that completions
arrive between any two of them and an event may be left over from completions that
an earlier invocation has already drained.
-/

namespace RdmaTransport

open DrainLoop Runs

/-- The body of the loop of `handle_tx_event`: a failed completion ends the process,
the chunk of any other is returned. -/
def handleTx (manager : MemoryManager) (wc : Wc) : Option MemoryManager :=
  if wc.status = .success then some (manager.returnChannel wc.wrId) else none

/-- The part of `RDMAWorker` that handles send completions. -/
structure TxWorker where
  /-- The send completion queue and the point the handler has reached. -/
  control : Control Wc
  /-- The memory manager the chunks are returned to. -/
  manager : MemoryManager
  deriving DecidableEq

/-- `RDMAWorker::initialize`: `CompletionQueue::init` arms the queue. -/
def TxWorker.initialized (manager : MemoryManager) : TxWorker := ⟨⟨⟨[], true, 0⟩, .idle⟩, manager⟩

/-- What can happen to a worker. -/
inductive TxAction
  /-- A completion arrives. -/
  | arrive (wc : Wc)
  /-- An invocation gets no event from `get_cq_event` and returns. -/
  | miss
  /-- An invocation takes an event. -/
  | enter
  /-- The running invocation makes its next step; a poll returns `n` entries. -/
  | advance (n : ℕ)

/-- The next step of a running invocation of `handle_tx_event`. -/
def TxWorker.advance (w : TxWorker) (n : ℕ) : Option TxWorker :=
  match w.control.advance maxCompletions n with
  | none => none
  | some (control, .handle wc) => (handleTx w.manager wc).map fun manager => ⟨control, manager⟩
  | some (control, _) => some { w with control }

/-- One action of a worker. -/
def TxWorker.step (w : TxWorker) : TxAction → Option TxWorker
  | .arrive wc => some { w with control := w.control.arrive wc }
  | .miss => if w.control.point = .idle then some w else none
  | .enter => w.control.enter.map fun control => { w with control }
  | .advance n => w.advance n

/-- The completions not yet processed: polled or still in the queue. -/
def TxWorker.pending (w : TxWorker) : List Wc := w.control.polled ++ w.control.queue.entries

/-- The completions an action adds to the queue. -/
def TxAction.arrivals : TxAction → List Wc
  | .arrive wc => [wc]
  | _ => []

/-- Completions that are handled are returned one after the other. -/
theorem foldlM_handleTx {wcs : List Wc} {manager manager' : MemoryManager}
    (h : wcs.foldlM handleTx manager = some manager') :
    manager' = (wcs.map Wc.wrId).foldl MemoryManager.returnChannel manager := by
  induction wcs generalizing manager with
  | nil => exact (Option.some.inj h).symm
  | cons wc wcs ih =>
    rw [List.foldlM_cons] at h
    obtain ⟨next, hnext, hrest⟩ := Option.bind_eq_some_iff.mp h
    unfold handleTx at hnext
    split_ifs at hnext
    obtain rfl := Option.some.inj hnext
    exact ih hrest

/-- A step of the worker hands its memory manager to the body of the loop. -/
theorem TxWorker.advance_handles {w w' : TxWorker} {n : ℕ} (h : w.advance n = some w') :
    ∃ e, w.control.advance maxCompletions n = some (w'.control, e) ∧
      e.handled.foldlM handleTx w.manager = some w'.manager := by
  unfold advance at h
  split at h
  case h_1 => cases h
  case h_2 control wc hadvance =>
    obtain ⟨manager, hmanager, rfl⟩ := Option.map_eq_some_iff.mp h
    refine ⟨_, hadvance, ?_⟩
    simpa [Effect.handled] using hmanager
  case h_3 control e hne hadvance =>
    obtain rfl := Option.some.inj h
    refine ⟨e, hadvance, ?_⟩
    cases e with
    | handle wc => exact absurd rfl (hne wc)
    | silent => rfl
    | leave => rfl

/-- All that a step of a running invocation can do to the worker. -/
theorem TxWorker.advance_cases {w w' : TxWorker} {n : ℕ} (h : w.advance n = some w') :
    ∃ e, w.control.advance maxCompletions n = some (w'.control, e) ∧
      w'.manager = (e.handled.map Wc.wrId).foldl MemoryManager.returnChannel w.manager := by
  obtain ⟨e, hadvance, hhandled⟩ := advance_handles h
  exact ⟨e, hadvance, foldlM_handleTx hhandled⟩

/-- Every action keeps the wakeup invariant. -/
theorem TxWorker.notified_step {w w' : TxWorker} {a : TxAction} (h : w.control.Notified)
    (hstep : w.step a = some w') : w'.control.Notified := by
  cases a with
  | arrive wc =>
    obtain rfl := Option.some.inj hstep
    exact h.arrive wc
  | miss =>
    simp only [step] at hstep
    split_ifs at hstep
    rwa [← Option.some.inj hstep]
  | enter =>
    obtain ⟨control, hcontrol, rfl⟩ := Option.map_eq_some_iff.mp hstep
    exact Control.notified_enter hcontrol
  | advance n =>
    obtain ⟨e, hadvance, _⟩ := advance_cases hstep
    exact h.advance hadvance

/-- What an action returns, together with what is then pending, is what was pending
followed by what arrived. -/
theorem TxWorker.pending_step {w w' : TxWorker} {a : TxAction} (hstep : w.step a = some w') :
    ∃ handled : List Wc,
      w'.manager = (handled.map Wc.wrId).foldl MemoryManager.returnChannel w.manager ∧
        handled ++ w'.pending = w.pending ++ a.arrivals := by
  cases a with
  | arrive wc =>
    obtain rfl := Option.some.inj hstep
    exact ⟨[], rfl, w.control.arrive_pending wc⟩
  | miss =>
    simp only [step] at hstep
    split_ifs at hstep
    obtain rfl := Option.some.inj hstep
    exact ⟨[], rfl, by simp [TxAction.arrivals]⟩
  | enter =>
    obtain ⟨control, hcontrol, rfl⟩ := Option.map_eq_some_iff.mp hstep
    refine ⟨[], rfl, ?_⟩
    simpa [TxAction.arrivals, pending] using Control.enter_pending hcontrol
  | advance n =>
    obtain ⟨e, hadvance, hmanager⟩ := advance_cases hstep
    refine ⟨e.handled, hmanager, ?_⟩
    simpa [TxAction.arrivals, pending] using Control.advance_pending hadvance

/-- The same for a whole run: completions are returned exactly once and in order. -/
theorem TxWorker.pending_exec {w w' : TxWorker} {acts : List TxAction}
    (hrun : exec step w acts = some w') :
    ∃ handled : List Wc,
      w'.manager = (handled.map Wc.wrId).foldl MemoryManager.returnChannel w.manager ∧
        handled ++ w'.pending = w.pending ++ acts.flatMap TxAction.arrivals := by
  induction acts generalizing w with
  | nil =>
    obtain rfl : w = w' := by simpa using hrun
    exact ⟨[], rfl, by simp⟩
  | cons a rest ih =>
    obtain ⟨v, hstep, hrest⟩ := exec_cons_eq_some.mp hrun
    obtain ⟨first, hfirst, hpending⟩ := pending_step hstep
    obtain ⟨later, hlater, hpending'⟩ := ih hrest
    refine ⟨first ++ later, ?_, ?_⟩
    · rw [hlater, hfirst, List.map_append, List.foldl_append]
    · rw [List.append_assoc, hpending', ← List.append_assoc, hpending, List.flatMap_cons,
        List.append_assoc]

/-- **No lost wakeup, exactly-once processing.** In every state of every run, if no
invocation is running then the queue is armed or an event is pending, and an event is
pending if the queue is not empty. The chunks given to `return_channel`, followed by
those of the completions polled and of the completions queued, are those of the
completions that arrived, in order. -/
theorem handleTxEvent_notified_and_exactly_once {manager : MemoryManager} {w : TxWorker}
    {acts : List TxAction}
    (hrun : exec TxWorker.step (TxWorker.initialized manager) acts = some w) :
    (w.control.point = .idle →
      (w.control.queue.armed = true ∨ 0 < w.control.queue.events) ∧
        (w.control.queue.entries ≠ [] → 0 < w.control.queue.events)) ∧
      ∃ returned : List ChunkId,
        w.manager = returned.foldl MemoryManager.returnChannel manager ∧
          returned ++ w.control.polled.map Wc.wrId ++ w.control.queue.entries.map Wc.wrId =
            (acts.flatMap TxAction.arrivals).map Wc.wrId := by
  constructor
  · intro hidle
    have hnotified : w.control.Notified :=
      invariant_of_exec (fun w => w.control.Notified)
        (fun _ _ _ h hstep => TxWorker.notified_step h hstep) Control.notified_start hrun
    simpa only [Control.Notified, hidle] using hnotified
  · obtain ⟨handled, hmanager, hpending⟩ := TxWorker.pending_exec hrun
    refine ⟨handled.map Wc.wrId, hmanager, ?_⟩
    have hids := congrArg (List.map Wc.wrId) hpending
    simpa [TxWorker.pending, TxWorker.initialized, Control.polled] using hids

/-- Two completions, of which the second arrives between the rearming and the last
poll of the invocation that the first one caused. -/
def lateArrival : List TxAction :=
  [.arrive ⟨0, 1, .success⟩, .enter, .advance 1, .advance 0, .advance 0, .advance 0, .advance 0,
    .arrive ⟨1, 1, .success⟩, .advance 1, .advance 0, .advance 0, .advance 0]

/-- The late completion is processed at once and leaves an event behind. -/
theorem handleTxEvent_notified_and_exactly_once_late :
    ∃ w : TxWorker,
      exec TxWorker.step (TxWorker.initialized ⟨⟨8192, []⟩, ⟨8192, []⟩⟩) lateArrival = some w ∧
      w.control = ⟨⟨[], false, 1⟩, .idle⟩ ∧ w.manager.send.freeChunks = [0, 1] ∧
      (w.control.queue.armed = true ∨ 0 < w.control.queue.events) := by
  have hrun : exec TxWorker.step (TxWorker.initialized ⟨⟨8192, []⟩, ⟨8192, []⟩⟩) lateArrival =
      some ⟨⟨⟨[], false, 1⟩, .idle⟩, ⟨⟨8192, []⟩, ⟨8192, [0, 1]⟩⟩⟩ := by decide
  exact ⟨_, hrun, rfl, rfl, ((handleTxEvent_notified_and_exactly_once hrun).1 rfl).1⟩

end RdmaTransport
