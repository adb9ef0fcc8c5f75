import RdmaTransport.Lib.Ledger
import RdmaTransport.Lib.Runs

/-!
# Creating queue pairs

`create_queue_pair` builds three verbs objects: a completion channel, a completion queue
and a queue pair. Each has a wrapper whose `init` creates the object and sets it up, and
whose destructor destroys it. When setting up fails, `init` destroys the object and keeps
the pointer, and the factory deletes the wrapper. This file determines after which calls
the live objects are those of the queue pairs returned, for every outcome of the verbs and
`fcntl` calls.
-/

namespace RdmaTransport

open Resources

/-- The kinds of verbs objects that are created. -/
inductive VerbsKind
  | channel
  | cq
  | qp
  deriving DecidableEq

/-- A verbs object. Objects are numbered in the order of their creation. -/
structure VerbsObject where
  /-- The kind of the object. -/
  kind : VerbsKind
  /-- Its number. -/
  id : ℕ
  deriving DecidableEq

/-- The verbs objects of a process. -/
structure Verbs where
  /-- The objects alive, and those destroyed while not alive. -/
  objects : Ledger VerbsObject
  /-- The number of objects created so far. -/
  created : ℕ
  /-- Whether an object was used whose creation had failed. The process does not survive
  that. -/
  nullUsed : Bool
  deriving DecidableEq

/-- The outcomes of the calls made by the three `init` functions. -/
structure VerbsEnv where
  /-- `ibv_create_comp_channel`. -/
  createChannel : Bool
  /-- `fcntl` with `F_GETFL`. -/
  getFlags : Bool
  /-- `fcntl` with `F_SETFL`. -/
  setFlags : Bool
  /-- `ibv_create_cq`. -/
  createCq : Bool
  /-- `ibv_req_notify_cq`. -/
  reqNotify : Bool
  /-- `ibv_create_qp`. -/
  createQp : Bool
  /-- `ibv_modify_qp`. -/
  modifyQp : Bool
  deriving DecidableEq

/-- A verbs call that creates an object, or returns `NULL`. -/
def Verbs.create (v : Verbs) (kind : VerbsKind) (ok : Bool) : Verbs × Option VerbsObject :=
  if ok then
    ({ v with objects := v.objects.acquire ⟨kind, v.created⟩, created := v.created + 1 },
      some ⟨kind, v.created⟩)
  else (v, none)

/-- A verbs call that destroys an object. -/
def Verbs.destroy (v : Verbs) (object : VerbsObject) : Verbs :=
  { v with objects := v.objects.release object }

/-- The destructors `~CompletionChannel`, `~CompletionQueue` and `~QueuePair`: the object is
destroyed unless the pointer is `NULL`. -/
def Verbs.delete (v : Verbs) : Option VerbsObject → Verbs
  | none => v
  | some object => v.destroy object

/-- The `init` functions: the object is created and set up. When setting up fails it is
destroyed, and the pointer is kept. The result is the pointer and whether `init`
succeeded. -/
def Verbs.initWrapper (v : Verbs) (kind : VerbsKind) (created ready : Bool) :
    Verbs × Option VerbsObject × Bool :=
  match v.create kind created with
  | (v, none) => (v, none, false)
  | (v, some object) =>
      if ready then (v, some object, true) else (v.destroy object, some object, false)

/-- `CompletionChannel::init`, with `set_nonblocking`. -/
def Verbs.initChannel (v : Verbs) (env : VerbsEnv) : Verbs × Option VerbsObject × Bool :=
  v.initWrapper .channel env.createChannel (env.getFlags && env.setFlags)

/-- `CompletionQueue::init`. -/
def Verbs.initQueue (v : Verbs) (env : VerbsEnv) : Verbs × Option VerbsObject × Bool :=
  v.initWrapper .cq env.createCq env.reqNotify

/-- `QueuePair::init` of a queue pair with a receive completion queue. -/
def Verbs.initPair (v : Verbs) (env : VerbsEnv) : Verbs × Option VerbsObject × Bool :=
  v.initWrapper .qp env.createQp env.modifyQp

/-- The factories: a wrapper whose `init` failed is deleted. -/
def Verbs.factory (out : Verbs × Option VerbsObject × Bool) : Verbs × Option VerbsObject :=
  if out.2.2 then (out.1, out.2.1) else (out.1.delete out.2.1, none)

/-- `create_comp_channel`. -/
def Verbs.createCompChannel (v : Verbs) (env : VerbsEnv) : Verbs × Option VerbsObject :=
  factory (v.initChannel env)

/-- `create_comp_queue`. -/
def Verbs.createCompQueue (v : Verbs) (env : VerbsEnv) : Verbs × Option VerbsObject :=
  factory (v.initQueue env)

/-- A queue pair that was returned, with the objects it owns. -/
structure PairObjects where
  /-- The completion channel of the receive completion queue. -/
  channel : VerbsObject
  /-- The receive completion queue. -/
  cq : VerbsObject
  /-- The queue pair. -/
  qp : VerbsObject
  deriving DecidableEq

/-- The objects a returned queue pair owns. -/
def PairObjects.owned (p : PairObjects) : List VerbsObject := [p.channel, p.cq, p.qp]

/-- `create_queue_pair`. When there is no completion queue the channel is destroyed, and
`QueuePair::init` then calls `get_cq` on the null pointer. -/
def Verbs.createQueuePair (v : Verbs) (env : VerbsEnv) : Verbs × Option PairObjects :=
  match v.createCompChannel env with
  | (v, none) => (v, none)
  | (v, some channel) =>
      match v.createCompQueue env with
      | (v, none) => ({ v.destroy channel with nullUsed := true }, none)
      | (v, some cq) =>
          match factory (v.initPair env) with
          | (v, none) => (v, none)
          | (v, some qp) => (v, some ⟨channel, cq, qp⟩)

/-- A process that creates queue pairs. -/
structure PairFactory where
  /-- Its verbs objects. -/
  verbs : Verbs
  /-- The queue pairs returned so far. -/
  returned : List PairObjects
  deriving DecidableEq

/-- A process that has not created anything. -/
def PairFactory.start : PairFactory := ⟨⟨.empty, 0, false⟩, []⟩

/-- A call of `create_queue_pair`. A process that used a null pointer makes no further
call. -/
def PairFactory.step (s : PairFactory) (env : VerbsEnv) : Option PairFactory :=
  if s.verbs.nullUsed then none
  else
    let out := s.verbs.createQueuePair env
    some ⟨out.1, s.returned ++ out.2.toList⟩

/-- No object was destroyed twice, no null pointer was used, and the live objects are
those of the queue pairs returned. -/
def PairFactory.Released (s : PairFactory) : Prop :=
  s.verbs.objects.misused = [] ∧ s.verbs.nullUsed = false ∧
    ∀ object, object ∈ s.verbs.objects.live ↔ ∃ p ∈ s.returned, object ∈ p.owned

/-- The condition on a call: its first verbs call fails, or all its calls succeed. -/
def VerbsEnv.FirstFailsOrAllSucceed (env : VerbsEnv) : Prop :=
  env.createChannel = false ∨ env = ⟨true, true, true, true, true, true, true⟩

/-- Whether a call meets the condition can be evaluated. -/
instance VerbsEnv.FirstFailsOrAllSucceed.decidable (env : VerbsEnv) :
    Decidable env.FirstFailsOrAllSucceed :=
  inferInstanceAs (Decidable (_ ∨ _))

namespace Verbs

variable {v : Verbs}

/-- The live objects have been created. -/
def Numbered (v : Verbs) : Prop := ∀ object ∈ v.objects.live, object.id < v.created

/-- The next object is not alive yet. -/
theorem Numbered.notMem (hv : v.Numbered) (kind : VerbsKind) :
    (⟨kind, v.created⟩ : VerbsObject) ∉ v.objects.live := fun hmem => Nat.lt_irrefl _ (hv _ hmem)

/-- What a factory does: nothing if the object is not created; a live object if it is set
up as well; and otherwise the object is destroyed twice. -/
theorem factory_initWrapper (hv : v.Numbered) (kind : VerbsKind) (created ready : Bool) :
    factory (v.initWrapper kind created ready) =
      match created, ready with
      | false, _ => (v, none)
      | true, true =>
          ({ v with objects := v.objects.acquire ⟨kind, v.created⟩, created := v.created + 1 },
            some ⟨kind, v.created⟩)
      | true, false =>
          ({ v with
              objects := { v.objects with misused := v.objects.misused ++ [⟨kind, v.created⟩] }
              created := v.created + 1 }, none) := by
  cases created with
  | false => rfl
  | true =>
    cases ready with
    | true => rfl
    | false =>
      simp only [factory, initWrapper, create, if_true, Bool.false_eq_true, if_false, delete,
        destroy, Ledger.release_release_acquire (hv.notMem kind)]

/-- Creating an object keeps the live objects numbered. -/
theorem Numbered.acquire (hv : v.Numbered) (kind : VerbsKind) :
    ({ v with objects := v.objects.acquire ⟨kind, v.created⟩, created := v.created + 1 } :
      Verbs).Numbered := by
  intro object hobject
  simp only [Ledger.live_acquire, List.mem_append, List.mem_singleton] at hobject
  rcases hobject with hold | rfl
  · exact Nat.lt_succ_of_lt (hv object hold)
  · exact Nat.lt_succ_self _

/-- A call that goes wrong: it returns `NULL` after an object was destroyed twice or a null
pointer used, or leaves its channel alive. -/
structure Faulty (v w : Verbs) : Prop where
  /-- Objects are still numbered. -/
  numbered : w.Numbered
  /-- Numbers are not used again. -/
  created_le : v.created ≤ w.created
  /-- Something went wrong. -/
  fault : w.objects.misused ≠ [] ∨ w.nullUsed = true ∨
    (⟨.channel, v.created⟩ : VerbsObject) ∈ w.objects.live

/-- Releasing an object keeps the live objects numbered. -/
theorem Numbered.destroy (hv : v.Numbered) (object : VerbsObject) :
    (v.destroy object).Numbered := by
  intro other hother
  apply hv other
  simp only [Verbs.destroy, Ledger.release] at hother
  split at hother
  · exact List.mem_of_mem_erase hother
  · exact hother

/-- Only the numbers used so far grow. -/
theorem Numbered.mono {w : Verbs} (hv : v.Numbered) (hlive : w.objects.live = v.objects.live)
    (hcreated : v.created ≤ w.created) : w.Numbered := by
  intro object hobject
  rw [hlive] at hobject
  exact Nat.lt_of_lt_of_le (hv object hobject) hcreated

/-- What a call does once it has its completion channel. -/
theorem createQueuePair_of_channel (v : Verbs) (cq notify qp modify : Bool) :
    v.createQueuePair ⟨true, true, true, cq, notify, qp, modify⟩ =
      match factory (({ v with
          objects := v.objects.acquire ⟨.channel, v.created⟩
          created := v.created + 1 } : Verbs).initWrapper .cq cq notify) with
      | (w, none) => ({ w.destroy ⟨.channel, v.created⟩ with nullUsed := true }, none)
      | (w, some queue) =>
          match factory (w.initWrapper .qp qp modify) with
          | (w, none) => (w, none)
          | (w, some pair) => (w, some ⟨⟨.channel, v.created⟩, queue, pair⟩) := rfl

/-- Whenever a call gets past its first verbs call and another one fails, it returns `NULL`
and something goes wrong. The cases follow the calls in their order. -/
theorem createQueuePair_faulty (hv : v.Numbered) {env : VerbsEnv}
    (hnot : ¬env.FirstFailsOrAllSucceed) :
    (v.createQueuePair env).2 = none ∧ v.Faulty (v.createQueuePair env).1 := by
  obtain ⟨channel, getFlags, setFlags, cq, notify, qp, modify⟩ := env
  have hv₁ := hv.acquire .channel
  have hv₂ := hv₁.acquire .cq
  cases channel with
  | false => exact absurd (.inl rfl) hnot
  | true =>
    cases hflags : getFlags && setFlags with
    | false =>
      simp only [createQueuePair, createCompChannel, initChannel, hflags, factory_initWrapper hv]
      exact ⟨trivial, hv.mono rfl (Nat.le_succ _), Nat.le_succ _, .inl (by simp)⟩
    | true =>
      obtain ⟨rfl, rfl⟩ : getFlags = true ∧ setFlags = true := by simpa using hflags
      rw [createQueuePair_of_channel, factory_initWrapper hv₁]
      cases cq with
      | false => exact ⟨rfl, hv₁.destroy _, Nat.le_succ v.created, .inr (.inl rfl)⟩
      | true =>
        cases notify with
        | false =>
          refine ⟨rfl, Numbered.destroy ?_ _, Nat.le_add_right v.created 2, .inr (.inl rfl)⟩
          exact hv₁.mono rfl (Nat.le_succ (v.created + 1))
        | true =>
          dsimp only
          rw [factory_initWrapper hv₂]
          cases qp with
          | false => exact ⟨rfl, hv₂, Nat.le_add_right v.created 2, .inr (.inr (by simp))⟩
          | true =>
            cases modify with
            | false =>
              exact ⟨rfl, hv₂.mono rfl (Nat.le_succ (v.created + 2)),
                Nat.le_add_right v.created 3, .inl (by simp)⟩
            | true => exact absurd (.inr rfl) hnot

/-- All that a call of `create_queue_pair` can do: nothing if there is no channel, a queue
pair if everything succeeds, and a fault otherwise. -/
theorem createQueuePair_cases (hv : v.Numbered) (env : VerbsEnv) :
    (env.createChannel = false ∧ v.createQueuePair env = (v, none)) ∨
    (env = ⟨true, true, true, true, true, true, true⟩ ∧
      v.createQueuePair env =
        ({ v with
            objects := ((v.objects.acquire ⟨.channel, v.created⟩).acquire
              ⟨.cq, v.created + 1⟩).acquire ⟨.qp, v.created + 2⟩
            created := v.created + 3 },
          some ⟨⟨.channel, v.created⟩, ⟨.cq, v.created + 1⟩, ⟨.qp, v.created + 2⟩⟩)) ∨
    (¬env.FirstFailsOrAllSucceed ∧ (v.createQueuePair env).2 = none ∧
      v.Faulty (v.createQueuePair env).1) := by
  by_cases hcond : env.FirstFailsOrAllSucceed
  · rcases hcond with hfirst | rfl
    · refine .inl ⟨hfirst, ?_⟩
      simp only [createQueuePair, createCompChannel, initChannel, hfirst, factory_initWrapper hv]
    · exact .inr (.inl ⟨rfl, rfl⟩)
  · exact .inr (.inr ⟨hcond, createQueuePair_faulty hv hcond⟩)

end Verbs

namespace PairFactory

variable {s t : PairFactory}

/-- The objects alive and those owned have been created. -/
structure WellNumbered (s : PairFactory) : Prop where
  /-- The live objects. -/
  live : s.verbs.Numbered
  /-- The objects of the queue pairs returned. -/
  owned : ∀ p ∈ s.returned, ∀ object ∈ p.owned, object.id < s.verbs.created

/-- What a call does to a process. -/
theorem step_cases {env : VerbsEnv} (hs : s.WellNumbered) (h : s.step env = some t) :
    (env.FirstFailsOrAllSucceed ∧ t = s) ∨
    (env.FirstFailsOrAllSucceed ∧ t.verbs.objects.misused = s.verbs.objects.misused ∧
      t.verbs.nullUsed = s.verbs.nullUsed ∧ t.verbs.created = s.verbs.created + 3 ∧
      ∃ p : PairObjects, t.verbs.objects.live = s.verbs.objects.live ++ p.owned ∧
        t.returned = s.returned ++ [p] ∧
        ∀ object ∈ p.owned, object.id < s.verbs.created + 3) ∨
    (¬env.FirstFailsOrAllSucceed ∧ t.returned = s.returned ∧ s.verbs.Faulty t.verbs) := by
  simp only [step, Option.ite_none_left_eq_some, Option.some.injEq] at h
  obtain ⟨_, rfl⟩ := h
  rcases Verbs.createQueuePair_cases hs.live env with
    ⟨hchannel, hout⟩ | ⟨hall, hout⟩ | ⟨hnot, hnone, hfaulty⟩
  · left
    refine ⟨.inl hchannel, ?_⟩
    rw [hout]
    simp
  · right
    left
    refine ⟨.inr hall, ?_⟩
    rw [hout]
    refine ⟨rfl, rfl, rfl, _, ?_, rfl, ?_⟩
    · simp [PairObjects.owned]
    · simp only [PairObjects.owned, List.mem_cons, List.not_mem_nil, or_false]
      rintro object (rfl | rfl | rfl) <;> dsimp only <;> omega
  · right
    right
    refine ⟨hnot, ?_, hfaulty⟩
    rw [hnone]
    simp

/-- Every call keeps the numbering. -/
theorem WellNumbered.step {env : VerbsEnv} (hs : s.WellNumbered) (h : s.step env = some t) :
    t.WellNumbered := by
  rcases step_cases hs h with
    ⟨_, rfl⟩ | ⟨_, _, _, hcreated, p, hlive, hreturned, hnew⟩ | ⟨_, hreturned, hfaulty⟩
  · exact hs
  · constructor
    · intro object hobject
      rw [hlive, List.mem_append] at hobject
      rw [hcreated]
      rcases hobject with hold | hp
      · exact Nat.lt_of_lt_of_le (hs.live object hold) (Nat.le_add_right ..)
      · exact hnew object hp
    · intro q hq object hobject
      rw [hreturned, List.mem_append, List.mem_singleton] at hq
      rw [hcreated]
      rcases hq with hold | rfl
      · exact Nat.lt_of_lt_of_le (hs.owned q hold object hobject) (Nat.le_add_right ..)
      · exact hnew object hobject
  · refine ⟨hfaulty.numbered, ?_⟩
    intro q hq object hobject
    rw [hreturned] at hq
    exact Nat.lt_of_lt_of_le (hs.owned q hq object hobject) hfaulty.created_le

/-- A call keeps the objects released exactly under the condition. -/
theorem released_step_iff {env : VerbsEnv} (hs : s.WellNumbered) (hreleased : s.Released)
    (h : s.step env = some t) : t.Released ↔ env.FirstFailsOrAllSucceed := by
  obtain ⟨hmisused, hnull, hlive⟩ := hreleased
  rcases step_cases hs h with
    ⟨hcond, rfl⟩ | ⟨hcond, hmisused', hnull', _, p, hlive', hreturned, _⟩ |
      ⟨hnot, hreturned, hfaulty⟩
  · exact iff_of_true ⟨hmisused, hnull, hlive⟩ hcond
  · refine iff_of_true ⟨hmisused'.trans hmisused, hnull'.trans hnull, ?_⟩ hcond
    intro object
    rw [hlive', hreturned, List.mem_append, hlive]
    constructor
    · rintro (⟨q, hq, hmem⟩ | hmem)
      · exact ⟨q, List.mem_append_left _ hq, hmem⟩
      · exact ⟨p, List.mem_append_right _ (List.mem_singleton_self p), hmem⟩
    · rintro ⟨q, hq, hmem⟩
      rcases List.mem_append.mp hq with hold | hnew
      · exact .inl ⟨q, hold, hmem⟩
      · rw [List.mem_singleton.mp hnew] at hmem
        exact .inr hmem
  · refine iff_of_false ?_ hnot
    rintro ⟨hmisused', hnull', hlive'⟩
    rcases hfaulty.fault with hfault | hfault | hfault
    · exact hfault hmisused'
    · rw [hnull'] at hfault
      cases hfault
    · obtain ⟨q, hq, hmem⟩ := (hlive' _).mp hfault
      rw [hreturned] at hq
      exact Nat.lt_irrefl _ (hs.owned q hq _ hmem)

end PairFactory

/-- **Verbs objects are released once.** Along a run of `create_queue_pair` calls, with any
outcomes of the calls made by the three `init` functions, no object is destroyed twice, no
null pointer is used and the live objects are those of the queue pairs returned so far,
exactly when in every call `ibv_create_comp_channel` fails or all calls succeed. -/
theorem released_along_iff {calls : List VerbsEnv} {s : PairFactory}
    (hrun : Runs.exec PairFactory.step .start calls = some s) :
    Runs.Along PairFactory.step PairFactory.Released .start calls ↔
      ∀ env ∈ calls, env.FirstFailsOrAllSucceed := by
  have hnumbered : PairFactory.start.WellNumbered := by
    constructor <;> simp [PairFactory.start, Verbs.Numbered, Ledger.empty]
  have hreleased : PairFactory.start.Released := by
    simp [PairFactory.Released, PairFactory.start, Ledger.empty]
  rw [← Runs.meets_iff_forall hrun]
  refine Runs.along_iff_meets PairFactory.WellNumbered (fun s env t hs h => hs.step h) ?_ ?_
    hnumbered hreleased hrun
  · intro s env t hs hreleased hcond h
    exact (PairFactory.released_step_iff hs hreleased h).mpr hcond
  · intro s env t hs hreleased hcond h ht
    exact hcond ((PairFactory.released_step_iff hs hreleased h).mp ht)

/-- A queue pair is created, and in the next call there is no completion channel: both
calls meet the condition. -/
theorem released_along_iff_two :
    ∃ s, Runs.exec PairFactory.step .start
        [⟨true, true, true, true, true, true, true⟩, ⟨false, true, true, true, true, true, true⟩] =
          some s ∧
      Runs.Along PairFactory.step PairFactory.Released .start
        [⟨true, true, true, true, true, true, true⟩,
          ⟨false, true, true, true, true, true, true⟩] :=
  ⟨_, rfl, (released_along_iff rfl).mpr (by decide)⟩

/-- `F_SETFL` fails on the new channel: `CompletionChannel::init` destroys the channel and
its destructor destroys it again. -/
theorem channel_destroyed_twice :
    ∃ s, Runs.exec PairFactory.step .start [⟨true, true, false, true, true, true, true⟩] = some s ∧
      s.verbs.objects.misused = [⟨.channel, 0⟩] ∧ ¬s.Released := by
  refine ⟨_, rfl, by decide, ?_⟩
  rintro ⟨hmisused, _⟩
  revert hmisused
  decide

end RdmaTransport
