import Mathlib.Data.List.Basic

/-!
# Draining a queue with one-shot notification

A producer appends entries to a queue. An armed queue raises one event at the next
arrival and disarms itself; an unarmed queue raises none. A consumer takes one
event, polls until the queue is empty, rearms it, polls until it is empty again and
leaves. The control part of that consumer is modelled here at the granularity of
its single calls, for entries of any type. What is done with an entry is left to
the client, which receives each entry as an effect.

Two facts are proved for every interleaving: an idle consumer is always going to be
woken for what is left in the queue, and the entries handed out, in hand and still
queued are together the entries that arrived, in order.
-/

namespace RdmaTransport.DrainLoop

variable {α : Type*}

/-- A queue together with the event counter of the channel it notifies. -/
structure NotifyQueue (α : Type*) where
  /-- The entries not yet polled, oldest first. -/
  entries : List α
  /-- Whether the next arrival raises an event. -/
  armed : Bool
  /-- Events raised and not yet taken. -/
  events : ℕ
  deriving DecidableEq

/-- An entry arrives: an armed queue raises an event and is disarmed. -/
def NotifyQueue.arrive (queue : NotifyQueue α) (a : α) : NotifyQueue α :=
  ⟨queue.entries ++ [a], false, if queue.armed then queue.events + 1 else queue.events⟩

/-- Request a notification for the next arrival. -/
def NotifyQueue.rearm (queue : NotifyQueue α) : NotifyQueue α :=
  { queue with armed := true }

/-- The program points of the consumer between two of its calls. -/
inductive Point (α : Type*)
  /-- No invocation is running. -/
  | idle
  /-- About to poll; the flag tells whether the queue was already rearmed. -/
  | again (rearmed : Bool)
  /-- Inside the loop over the entries the last poll returned. -/
  | batch (rearmed : Bool) (polled : List α)
  /-- A poll returned nothing and the queue is about to be rearmed. -/
  | drained
  deriving DecidableEq

/-- The queue and the program point of its consumer. -/
structure Control (α : Type*) where
  /-- The queue being drained. -/
  queue : NotifyQueue α
  /-- Where its consumer stands. -/
  point : Point α
  deriving DecidableEq

/-- What a step of the consumer asks its client to do. -/
inductive Effect (α : Type*)
  /-- Nothing: the step concerns the queue only. -/
  | silent
  /-- Process one entry. -/
  | handle (a : α)
  /-- The invocation returns. -/
  | leave

/-- The entries polled and not yet handed to the client. -/
def Control.polled (c : Control α) : List α :=
  match c.point with
  | .batch _ polled => polled
  | _ => []

/-- An entry arrives while the consumer stands anywhere. -/
def Control.arrive (c : Control α) (a : α) : Control α :=
  { c with queue := c.queue.arrive a }

/-- An invocation starts by taking one pending event. -/
def Control.enter (c : Control α) : Option (Control α) :=
  match c.point with
  | .idle =>
      if 0 < c.queue.events then
        some ⟨{ c.queue with events := c.queue.events - 1 }, .again false⟩
      else none
  | _ => none

/-- One step of a running invocation. A poll returns `n` of the oldest entries, at
most `limit`, and none of them only when there is none. -/
def Control.advance (limit : ℕ) (c : Control α) (n : ℕ) : Option (Control α × Effect α) :=
  match c.point with
  | .idle => none
  | .again rearmed =>
      if n ≤ limit ∧ n ≤ c.queue.entries.length ∧ (n = 0 → c.queue.entries.length = 0) then
        if n = 0 then
          if rearmed then some (⟨c.queue, .idle⟩, .leave) else some (⟨c.queue, .drained⟩, .silent)
        else
          some (⟨{ c.queue with entries := c.queue.entries.drop n },
            .batch rearmed (c.queue.entries.take n)⟩, .silent)
      else none
  | .batch rearmed [] => some (⟨c.queue, .again rearmed⟩, .silent)
  | .batch rearmed (a :: rest) => some (⟨c.queue, .batch rearmed rest⟩, .handle a)
  | .drained => some (⟨c.queue.rearm, .again true⟩, .silent)

/-- The entries an effect hands to the client. -/
def Effect.handled : Effect α → List α
  | .handle a => [a]
  | _ => []

/-- All that a step of a running invocation can do. -/
theorem Control.advance_cases {limit n : ℕ} {c c' : Control α} {e : Effect α}
    (h : c.advance limit n = some (c', e)) :
    (c.point = .again true ∧ c.queue.entries = [] ∧ c' = ⟨c.queue, .idle⟩ ∧ e = .leave) ∨
    (c.point = .again false ∧ c.queue.entries = [] ∧ c' = ⟨c.queue, .drained⟩ ∧ e = .silent) ∨
    (∃ rearmed, c.point = .again rearmed ∧ 0 < n ∧ n ≤ limit ∧ n ≤ c.queue.entries.length ∧
      c' = ⟨{ c.queue with entries := c.queue.entries.drop n },
        .batch rearmed (c.queue.entries.take n)⟩ ∧ e = .silent) ∨
    (∃ rearmed, c.point = .batch rearmed [] ∧ c' = ⟨c.queue, .again rearmed⟩ ∧ e = .silent) ∨
    (∃ rearmed a rest, c.point = .batch rearmed (a :: rest) ∧
      c' = ⟨c.queue, .batch rearmed rest⟩ ∧ e = .handle a) ∨
    (c.point = .drained ∧ c' = ⟨c.queue.rearm, .again true⟩ ∧ e = .silent) := by
  unfold advance at h
  split at h
  case h_1 => cases h
  case h_2 rearmed hpoint =>
    split_ifs at h with hpoll hzero harm
    · simp only [Option.some.injEq, Prod.mk.injEq] at h
      have hempty := List.length_eq_zero_iff.mp (hpoll.2.2 hzero)
      exact .inl ⟨by rw [hpoint, harm], hempty, h.1.symm, h.2.symm⟩
    · simp only [Option.some.injEq, Prod.mk.injEq] at h
      have hempty := List.length_eq_zero_iff.mp (hpoll.2.2 hzero)
      exact .inr (.inl ⟨by simp [hpoint, harm], hempty, h.1.symm, h.2.symm⟩)
    · simp only [Option.some.injEq, Prod.mk.injEq] at h
      exact .inr (.inr (.inl ⟨rearmed, hpoint, by omega, hpoll.1, hpoll.2.1, h.1.symm, h.2.symm⟩))
  case h_3 rearmed hpoint =>
    simp only [Option.some.injEq, Prod.mk.injEq] at h
    exact .inr (.inr (.inr (.inl ⟨rearmed, hpoint, h.1.symm, h.2.symm⟩)))
  case h_4 rearmed a rest hpoint =>
    simp only [Option.some.injEq, Prod.mk.injEq] at h
    exact .inr (.inr (.inr (.inr (.inl ⟨rearmed, a, rest, hpoint, h.1.symm, h.2.symm⟩))))
  case h_5 hpoint =>
    simp only [Option.some.injEq, Prod.mk.injEq] at h
    exact .inr (.inr (.inr (.inr (.inr ⟨hpoint, h.1.symm, h.2.symm⟩))))

/-- All that the start of an invocation can do. -/
theorem Control.enter_cases {c c' : Control α} (h : c.enter = some c') :
    c.point = .idle ∧ 0 < c.queue.events ∧
      c' = ⟨{ c.queue with events := c.queue.events - 1 }, .again false⟩ := by
  unfold enter at h
  split at h
  case h_1 hpoint =>
    split_ifs at h with hevents
    exact ⟨hpoint, hevents, (Option.some.inj h).symm⟩
  case h_2 => cases h

/-- An arrival joins the end of what is in hand or queued. -/
theorem Control.arrive_pending (c : Control α) (a : α) :
    (c.arrive a).polled ++ (c.arrive a).queue.entries = c.polled ++ c.queue.entries ++ [a] := by
  simp [arrive, NotifyQueue.arrive, polled]

/-- Starting an invocation leaves the pending entries alone. -/
theorem Control.enter_pending {c c' : Control α} (h : c.enter = some c') :
    c'.polled ++ c'.queue.entries = c.polled ++ c.queue.entries := by
  obtain ⟨hpoint, _, rfl⟩ := enter_cases h
  simp [polled, hpoint]

/-- **Exactly once.** A step hands out the oldest pending entry or none, and keeps
the order of the others. -/
theorem Control.advance_pending {limit n : ℕ} {c c' : Control α} {e : Effect α}
    (h : c.advance limit n = some (c', e)) :
    e.handled ++ (c'.polled ++ c'.queue.entries) = c.polled ++ c.queue.entries := by
  rcases advance_cases h with ⟨hp, _, rfl, rfl⟩ | ⟨hp, _, rfl, rfl⟩ | ⟨r, hp, _, _, _, rfl, rfl⟩ |
    ⟨r, hp, rfl, rfl⟩ | ⟨r, a, rest, hp, rfl, rfl⟩ | ⟨hp, rfl, rfl⟩ <;>
  simp [polled, hp, Effect.handled, NotifyQueue.rearm]

/-- An entry is handed out exactly when one is in hand, and it is the oldest. -/
theorem Control.advance_polled {limit n : ℕ} {c c' : Control α} {e : Effect α}
    (h : c.advance limit n = some (c', e)) : c.polled.head? = e.handled.head? := by
  rcases advance_cases h with ⟨hp, _, rfl, rfl⟩ | ⟨hp, _, rfl, rfl⟩ | ⟨r, hp, _, _, _, rfl, rfl⟩ |
    ⟨r, hp, rfl, rfl⟩ | ⟨r, a, rest, hp, rfl, rfl⟩ | ⟨hp, rfl, rfl⟩ <;>
  simp [polled, hp, Effect.handled]

/-- A running invocation takes no event and raises none. -/
theorem Control.advance_events {limit n : ℕ} {c c' : Control α} {e : Effect α}
    (h : c.advance limit n = some (c', e)) : c'.queue.events = c.queue.events := by
  rcases advance_cases h with ⟨_, _, rfl, _⟩ | ⟨_, _, rfl, _⟩ | ⟨_, _, _, _, _, rfl, _⟩ |
    ⟨_, _, rfl, _⟩ | ⟨_, _, _, _, rfl, _⟩ | ⟨_, rfl, _⟩ <;> rfl

/-- An arrival raises at most one event. -/
theorem Control.arrive_events_le (c : Control α) (a : α) :
    (c.arrive a).queue.events ≤ c.queue.events + 1 := by
  simp only [arrive, NotifyQueue.arrive]
  split_ifs <;> omega

/-- Only the last step of an invocation makes the consumer idle. -/
theorem Control.advance_point_ne_idle {limit n : ℕ} {c c' : Control α} {e : Effect α}
    (h : c.advance limit n = some (c', e)) (he : e ≠ .leave) : c'.point ≠ .idle := by
  rcases advance_cases h with ⟨_, _, rfl, rfl⟩ | ⟨_, _, rfl, rfl⟩ | ⟨_, _, _, _, _, rfl, rfl⟩ |
    ⟨_, _, rfl, rfl⟩ | ⟨_, _, _, _, rfl, rfl⟩ | ⟨_, rfl, rfl⟩ <;> simp_all

/-- The wakeup invariant at each program point. An idle consumer has an event to
come or pending, and one pending when entries wait; the same promise without the
last part holds from the rearming on. -/
def Control.Notified (c : Control α) : Prop :=
  match c.point with
  | .idle => (c.queue.armed = true ∨ 0 < c.queue.events) ∧
      (c.queue.entries ≠ [] → 0 < c.queue.events)
  | .again true | .batch true _ => c.queue.armed = true ∨ 0 < c.queue.events
  | _ => True

/-- A freshly armed empty queue with no invocation running is notified. -/
theorem Control.notified_start : (⟨⟨[], true, 0⟩, .idle⟩ : Control α).Notified := by
  simp [Notified]

/-- After an arrival an event is pending whenever one was pending or promised. -/
theorem NotifyQueue.arrive_events_pos {queue : NotifyQueue α}
    (h : queue.armed = true ∨ 0 < queue.events) (a : α) : 0 < (queue.arrive a).events := by
  unfold arrive
  rcases h with h | h
  · simp [h]
  · dsimp only
    split_ifs <;> omega

/-- An arrival at any program point keeps the wakeup invariant. -/
theorem Control.Notified.arrive {c : Control α} (h : c.Notified) (a : α) :
    (c.arrive a).Notified := by
  obtain ⟨queue, point⟩ := c
  cases point with
  | idle =>
    have hpos := queue.arrive_events_pos h.1 a
    exact ⟨Or.inr hpos, fun _ => hpos⟩
  | again rearmed =>
    cases rearmed with
    | true => exact Or.inr (queue.arrive_events_pos h a)
    | false => trivial
  | batch rearmed polled =>
    cases rearmed with
    | true => exact Or.inr (queue.arrive_events_pos h a)
    | false => trivial
  | drained => trivial

/-- The first part of an invocation has no wakeup obligation. -/
theorem Control.notified_enter {c c' : Control α} (h : c.enter = some c') : c'.Notified := by
  obtain ⟨_, _, rfl⟩ := enter_cases h
  trivial

/-- **No lost wakeup.** Every step of an invocation keeps the wakeup invariant; the
invocation leaves only after a poll that found the queue empty. -/
theorem Control.Notified.advance {limit n : ℕ} {c c' : Control α} {e : Effect α}
    (h : c.Notified) (hadv : c.advance limit n = some (c', e)) : c'.Notified := by
  rcases advance_cases hadv with ⟨hp, hempty, rfl, rfl⟩ | ⟨hp, _, rfl, rfl⟩ |
    ⟨r, hp, _, _, _, rfl, rfl⟩ | ⟨r, hp, rfl, rfl⟩ | ⟨r, a, rest, hp, rfl, rfl⟩ | ⟨hp, rfl, rfl⟩
  · have harmed : c.queue.armed = true ∨ 0 < c.queue.events := by
      simpa only [Notified, hp] using h
    exact ⟨harmed, fun hne => absurd hempty hne⟩
  · trivial
  · cases r with
    | true => simpa only [Notified, hp] using h
    | false => trivial
  · cases r with
    | true => simpa only [Notified, hp] using h
    | false => trivial
  · cases r with
    | true => simpa only [Notified, hp] using h
    | false => trivial
  · exact Or.inl rfl

end RdmaTransport.DrainLoop
