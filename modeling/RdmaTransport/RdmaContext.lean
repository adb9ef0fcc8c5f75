import RdmaTransport.Lib.Handles

/-!
# Creating and closing an RDMA context

`init_rdma_context` creates a device context, a completion channel, a protection domain, two
completion queues and a queue pair. When a step fails it jumps to a chain of labels that
releases what was created before, but the failures of `ibv_query_port` return at once, and
the two completion queues are tested together. `rdma_close_ctx` destroys the objects in the
opposite order and gives up at the first failure. `create_context` calls
`init_rdma_context` and has no labels of its own. All outcomes of the calls are parameters.
-/

namespace RdmaTransport

open Resources Runs

/-- What the functions acquire. -/
inductive ContextKind
  /-- The list returned by `ibv_get_device_list`. -/
  | deviceList
  /-- The `struct rdma_context`. -/
  | ctx
  /-- The `struct ibv_context` of an open device. -/
  | device
  | channel
  | pd
  | recvCq
  | sendCq
  | qp
  /-- The memory for remote access. -/
  | buffer
  /-- Its memory region. -/
  | region
  /-- The `struct rdma_mem` of the region. -/
  | mem
  /-- The `struct info_con` of the peer. -/
  | remoteInfo
  deriving DecidableEq

/-- What `ibv_query_port` gives. -/
inductive PortQuery
  | failed
  | active
  | down
  deriving DecidableEq

/-- The outcomes of the calls made by `init_rdma_context`. -/
structure InitEnv where
  /-- `calloc`. -/
  calloc : Bool
  /-- `ibv_open_device`. -/
  openDevice : Bool
  /-- `ibv_query_port` for the first port. -/
  port1 : PortQuery
  /-- `ibv_query_port` for the second port. -/
  port2 : PortQuery
  /-- `ibv_create_comp_channel`. -/
  createChannel : Bool
  /-- `ibv_alloc_pd`. -/
  allocPd : Bool
  /-- `ibv_create_cq` for receiving. -/
  createRecvCq : Bool
  /-- `ibv_create_cq` for sending. -/
  createSendCq : Bool
  /-- `ibv_create_qp`. -/
  createQp : Bool
  /-- `ibv_modify_qp`. -/
  modifyQp : Bool

/-- The pointers of a `struct rdma_context` that may be `NULL`, and its port. -/
structure ContextPtr where
  /-- `ib_port`. -/
  ibPort : ℕ
  /-- Whether `channel` is set. -/
  channel : Bool
  /-- Whether `rw` is set. -/
  rw : Bool
  deriving DecidableEq

/-- The port that is used: the first one if it is active, else the second. -/
def InitEnv.activePort (env : InitEnv) : Option ℕ :=
  match env.port1 with
  | .failed => none
  | .active => some 1
  | .down =>
      match env.port2 with
      | .active => some 2
      | .failed | .down => none

/-- From the label `clean_ctx` on. -/
def cleanCtx (l : Ledger ContextKind) : Ledger ContextKind := l.release .ctx

/-- From the label `clean_device` on. -/
def cleanDevice (l : Ledger ContextKind) : Ledger ContextKind := cleanCtx (l.release .device)

/-- From the label `clean_comp_channel` on. -/
def cleanCompChannel (channel : Bool) (l : Ledger ContextKind) : Ledger ContextKind :=
  cleanDevice (if channel then l.release .channel else l)

/-- From the label `clean_pd` on. -/
def cleanPd (channel : Bool) (l : Ledger ContextKind) : Ledger ContextKind :=
  cleanCompChannel channel (l.release .pd)

/-- From the label `clean_cq` on. -/
def cleanCq (channel : Bool) (l : Ledger ContextKind) : Ledger ContextKind :=
  cleanPd channel ((l.release .sendCq).release .recvCq)

/-- From the label `clean_qp` on. -/
def cleanQp (channel : Bool) (l : Ledger ContextKind) : Ledger ContextKind :=
  cleanCq channel (l.release .qp)

/-- A call that returns an object or `NULL`. -/
def acquireIf (ok : Bool) (kind : ContextKind) (l : Ledger ContextKind) : Ledger ContextKind :=
  if ok then l.acquire kind else l

/-- `init_rdma_context` once the protection domain is there. -/
def initQueues (port : ℕ) (channel : Bool) (env : InitEnv) (l : Ledger ContextKind) :
    Ledger ContextKind × Option ContextPtr :=
  let l := acquireIf env.createSendCq .sendCq (acquireIf env.createRecvCq .recvCq l)
  if env.createRecvCq && env.createSendCq then
    if env.createQp then
      let l := l.acquire .qp
      if env.modifyQp then (l, some ⟨port, channel, false⟩) else (cleanQp channel l, none)
    else (cleanCq channel l, none)
  else (cleanPd channel l, none)

/-- `init_rdma_context` once a port is chosen. -/
def initDomain (useEvent : Bool) (port : ℕ) (env : InitEnv) (l : Ledger ContextKind) :
    Ledger ContextKind × Option ContextPtr :=
  if useEvent && !env.createChannel then (cleanDevice l, none)
  else
    let l := acquireIf useEvent .channel l
    if env.allocPd then initQueues port useEvent env (l.acquire .pd)
    else (cleanCompChannel useEvent l, none)

/-- `init_rdma_context`. -/
def initRdmaContext (useEvent : Bool) (env : InitEnv) (l : Ledger ContextKind) :
    Ledger ContextKind × Option ContextPtr :=
  if env.calloc then
    let l := l.acquire .ctx
    if env.openDevice then
      let l := l.acquire .device
      match env.activePort with
      | none => (l, none)
      | some port => initDomain useEvent port env l
    else (cleanCtx l, none)
  else (l, none)

/-- The outcomes of the calls made when a context is closed. -/
structure CloseEnv where
  /-- `ibv_destroy_qp`. -/
  destroyQp : Bool
  /-- `ibv_destroy_cq` for sending. -/
  destroySendCq : Bool
  /-- `ibv_destroy_cq` for receiving. -/
  destroyRecvCq : Bool
  /-- `ibv_dealloc_pd`. -/
  deallocPd : Bool
  /-- `ibv_destroy_comp_channel`. -/
  destroyChannel : Bool
  /-- `ibv_close_device`. -/
  closeDevice : Bool
  deriving DecidableEq

/-- The calls of `rdma_close_ctx` with their objects, in order. -/
def CloseEnv.calls (env : CloseEnv) (channel : Bool) : List (ContextKind × Bool) :=
  [(.qp, env.destroyQp), (.sendCq, env.destroySendCq), (.recvCq, env.destroyRecvCq),
    (.pd, env.deallocPd)] ++ (if channel then [(.channel, env.destroyChannel)] else []) ++
    [(.device, env.closeDevice)]

/-- The calls are made until one of them fails, which leaves its object alive. -/
def destroyAll : List (ContextKind × Bool) → Ledger ContextKind → Ledger ContextKind × Bool
  | [], l => (l, true)
  | (kind, ok) :: calls, l => if ok then destroyAll calls (l.release kind) else (l, false)

/-- `rdma_close_ctx`. -/
def rdmaCloseCtx (ctx : ContextPtr) (env : CloseEnv) (l : Ledger ContextKind) :
    Ledger ContextKind × ℤ :=
  let (l, ok) := destroyAll (env.calls ctx.channel) l
  if ok then (l.release .ctx, 0) else (l, 1)

/-- What `init_rdma_context` holds when the protection domain is there. -/
def domainObjects (channel : Bool) : List ContextKind :=
  [.ctx, .device] ++ (if channel then [.channel] else []) ++ [.pd]

/-- The objects of a context that `init_rdma_context` returned. -/
def ContextPtr.owned (ctx : ContextPtr) : List ContextKind :=
  domainObjects ctx.channel ++ [.recvCq, .sendCq, .qp]

/-- The condition on `init_rdma_context`: once the device is open a port is active, and once
the protection domain is there both completion queues are created or none is. -/
def InitEnv.Tidy (env : InitEnv) (useEvent : Bool) : Prop :=
  env.calloc = true → env.openDevice = true → env.activePort ≠ none ∧
    ((useEvent = true → env.createChannel = true) → env.allocPd = true →
      env.createRecvCq = env.createSendCq)

instance (env : InitEnv) (useEvent : Bool) : Decidable (env.Tidy useEvent) :=
  inferInstanceAs (Decidable (_ → _ → _ ∧ _))

/-- The condition on `rdma_close_ctx`: no call fails, or the first one does. -/
def CloseEnv.Tidy (env : CloseEnv) (ctx : ContextPtr) : Prop :=
  env.destroyQp = false ∨ ∀ call ∈ env.calls ctx.channel, call.2 = true

instance (env : CloseEnv) (ctx : ContextPtr) : Decidable (env.Tidy ctx) :=
  inferInstanceAs (Decidable (_ ∨ _))

/-- From `clean_pd` on everything is released but the completion queues. -/
theorem cleanPd_domainObjects (channel recvCq sendCq : Bool) :
    cleanPd channel (acquireIf sendCq .sendCq (acquireIf recvCq .recvCq
      ⟨domainObjects channel, []⟩)) =
      acquireIf sendCq .sendCq (acquireIf recvCq .recvCq .empty) := by
  cases channel <;> cases recvCq <;> cases sendCq <;> decide

/-- From `clean_cq` and from `clean_qp` on everything is released. -/
theorem cleanCq_domainObjects (channel : Bool) :
    cleanCq channel ⟨domainObjects channel ++ [.recvCq, .sendCq], []⟩ = .empty ∧
      cleanQp channel ⟨domainObjects channel ++ [.recvCq, .sendCq, .qp], []⟩ = .empty := by
  cases channel <;> decide

/-- The last part of `init_rdma_context`: a completion queue is left over when only the other
one could not be created. -/
theorem initQueues_eq (port : ℕ) (channel : Bool) (env : InitEnv) :
    initQueues port channel env ⟨domainObjects channel, []⟩ =
      if env.createRecvCq = true ∧ env.createSendCq = true then
        if env.createQp = true ∧ env.modifyQp = true then
          (⟨domainObjects channel ++ [.recvCq, .sendCq, .qp], []⟩, some ⟨port, channel, false⟩)
        else (.empty, none)
      else (acquireIf env.createSendCq .sendCq (acquireIf env.createRecvCq .recvCq .empty),
        none) := by
  obtain ⟨hcq, hqp⟩ := cleanCq_domainObjects channel
  obtain ⟨_, _, _, _, _, _, recvCq, sendCq, qp, modify⟩ := env
  unfold initQueues
  cases hboth : recvCq && sendCq with
  | false => simp [hboth, cleanPd_domainObjects, ← Bool.and_eq_true]
  | true =>
    obtain ⟨rfl, rfl⟩ : recvCq = true ∧ sendCq = true := by simpa using hboth
    have hqueues : acquireIf true .sendCq (acquireIf true .recvCq ⟨domainObjects channel, []⟩) =
        ⟨domainObjects channel ++ [.recvCq, .sendCq], []⟩ := by
      simp [acquireIf, Ledger.acquire]
    cases qp with
    | false => simp [hqueues, hcq]
    | true =>
      have hpair : Ledger.acquire ⟨domainObjects channel ++ [.recvCq, .sendCq], []⟩ .qp =
          ⟨domainObjects channel ++ [.recvCq, .sendCq, .qp], []⟩ := by
        simp [Ledger.acquire]
      cases modify <;> simp [hqueues, hpair, hqp]

/-- The calls make nothing alive, and leave the objects alone that are not theirs. -/
theorem destroyAll_live (calls : List (ContextKind × Bool)) (l : Ledger ContextKind) :
    (destroyAll calls l).1.live ⊆ l.live ∧
      ∀ kind ∈ l.live, (∀ call ∈ calls, kind ≠ call.1) → kind ∈ (destroyAll calls l).1.live := by
  induction calls generalizing l with
  | nil => exact ⟨List.Subset.refl _, fun _ h _ => h⟩
  | cons call calls ih =>
    obtain ⟨kind, ok⟩ := call
    cases ok with
    | false => exact ⟨List.Subset.refl _, fun _ h _ => h⟩
    | true =>
      obtain ⟨hsub, hkeep⟩ := ih (l.release kind)
      refine ⟨List.Subset.trans hsub (l.live_release_subset kind), fun other hother hne => ?_⟩
      apply hkeep other
      · exact Ledger.mem_live_release hother (hne _ List.mem_cons_self)
      · exact fun call hcall => hne call (List.mem_cons_of_mem _ hcall)

/-- The parameters of `create_context` that its control flow depends on. -/
structure ContextParams where
  /-- `use_event`. -/
  useEvent : Bool
  /-- `gidx`. -/
  gidx : ℤ
  /-- `mem_size`. -/
  memSize : ℕ
  /-- The argument `is_server`. -/
  isServer : Bool

/-- The outcomes of the calls made by `create_context`. -/
structure CreateEnv where
  /-- `ibv_get_device_list`. -/
  deviceList : Bool
  /-- Whether the device asked for is in the list. -/
  found : Bool
  /-- The calls of `init_rdma_context`. -/
  init : InitEnv
  /-- `ibv_req_notify_cq`. -/
  reqNotify : Bool
  /-- Whether the port has a LID, or needs none. -/
  hasLid : Bool
  /-- `ibv_query_gid`. -/
  queryGid : Bool
  /-- `memalign`. -/
  alloc : Bool
  /-- `rdma_reg_mr`. -/
  register : Bool
  /-- `rdma_client_exch_dest` or `rdma_server_exch_dest`. -/
  exchange : Bool
  /-- `rdma_connect_ctx`. -/
  connect : Bool

/-- `create_context` from the exchange of the connection data on. -/
def createConnected (p : ContextParams) (env : CreateEnv) (ctx : ContextPtr)
    (l : Ledger ContextKind) : Ledger ContextKind × Option ContextPtr :=
  if env.exchange then
    let l := l.acquire .remoteInfo
    if !p.isServer && !env.connect then (l, none) else (l.release .deviceList, some ctx)
  else (l, none)

/-- `create_context` once `init_rdma_context` has returned a context. -/
def createPrepared (p : ContextParams) (env : CreateEnv) (ctx : ContextPtr)
    (l : Ledger ContextKind) : Ledger ContextKind × Option ContextPtr :=
  if p.useEvent && !env.reqNotify then (l, none)
  else if !env.hasLid then (l, none)
  else if decide (0 ≤ p.gidx) && !env.queryGid then (l, none)
  else if p.memSize ≠ 0 then
    if env.alloc then
      let l := l.acquire .buffer
      if env.register then
        createConnected p env { ctx with rw := true } ((l.acquire .region).acquire .mem)
      else (l.release .buffer, none)
    else (l, none)
  else createConnected p env ctx l

/-- `create_context`. -/
def createContext (p : ContextParams) (env : CreateEnv) :
    Ledger ContextKind × Option ContextPtr :=
  if env.deviceList then
    let l := Ledger.empty.acquire .deviceList
    if env.found then
      match initRdmaContext p.useEvent env.init l with
      | (l, none) => (l, none)
      | (l, some ctx) => createPrepared p env ctx l
    else (l, none)
  else (.empty, none)

/-- What `rdma_session::close` does to the context: the memory for remote access is
deregistered, and the context is closed. The regions of the session itself are deregistered
before that, and a failure there ends the call before it has touched the context. -/
def closeContext (ctx : ContextPtr) (dereg : Bool) (env : CloseEnv) (l : Ledger ContextKind) :
    Ledger ContextKind × ℤ :=
  if ctx.rw then
    if dereg then rdmaCloseCtx ctx env ((l.release .region).release .mem) else (l, -1)
  else rdmaCloseCtx ctx env l

/-- The objects of a context that `create_context` returned. -/
def ContextPtr.held (ctx : ContextPtr) : List ContextKind :=
  ctx.owned ++ (if ctx.rw then [.buffer, .region, .mem] else []) ++ [.remoteInfo]

/-- Contexts as `create_context` and `rdma_session::close` make and end them. -/
def createdContexts :
    HandleKind ContextKind ContextPtr (ContextParams × CreateEnv) (Bool × CloseEnv) where
  opening o := createContext o.1 o.2
  closing ctx c l := ((closeContext ctx c.1 c.2 l).1, (closeContext ctx c.1 c.2 l).2 == 0)
  owned := ContextPtr.held

/-- `init_rdma_context` does not touch the device list of its caller. -/
theorem initRdmaContext_within (useEvent : Bool) (env : InitEnv) (l : Ledger ContextKind) :
    initRdmaContext useEvent env (l.within [.deviceList]) =
      ((initRdmaContext useEvent env l).1.within [.deviceList],
        (initRdmaContext useEvent env l).2) := by
  have hacquire : ∀ (ok : Bool) (kind : ContextKind) (l : Ledger ContextKind),
      acquireIf ok kind (l.within [.deviceList]) = (acquireIf ok kind l).within [.deviceList] := by
    intro ok kind l
    cases ok
    · rfl
    · exact l.acquire_within _ kind
  have hchannel : ∀ (channel : Bool) (l : Ledger ContextKind),
      cleanCompChannel channel (l.within [.deviceList]) =
        (cleanCompChannel channel l).within [.deviceList] := by
    intro channel l
    cases channel <;> simp [cleanCompChannel, cleanDevice, cleanCtx, Ledger.release_within]
  have hqueues : ∀ (port : ℕ) (l : Ledger ContextKind),
      initQueues port useEvent env (l.within [.deviceList]) =
        ((initQueues port useEvent env l).1.within [.deviceList],
          (initQueues port useEvent env l).2) := by
    intro port l
    unfold initQueues
    split_ifs <;> simp [hacquire, hchannel, cleanQp, cleanCq, cleanPd, Ledger.acquire_within,
      Ledger.release_within]
  unfold initRdmaContext
  split_ifs
  · cases env.activePort with
    | none => simp [Ledger.acquire_within]
    | some port =>
      unfold initDomain
      simp only [Ledger.acquire_within, hacquire]
      split_ifs <;> simp [hqueues, hchannel, cleanDevice, cleanCtx, Ledger.release_within]
  · simp [cleanCtx, Ledger.acquire_within, Ledger.release_within]
  · rfl

/-- What `init_rdma_context` holds when it returns a context. -/
theorem initRdmaContext_some {useEvent : Bool} {env : InitEnv} {ctx : ContextPtr}
    (h : (initRdmaContext useEvent env .empty).2 = some ctx) :
    (initRdmaContext useEvent env .empty).1 = ⟨ctx.owned, []⟩ ∧ ctx.rw = false := by
  have hdomain : (acquireIf useEvent .channel ((Ledger.empty.acquire .ctx).acquire .device)).acquire
      .pd = ⟨domainObjects useEvent, []⟩ := by
    cases useEvent <;> rfl
  unfold initRdmaContext at h ⊢
  split_ifs at h ⊢
  cases hport : env.activePort with
  | none => simp [hport] at h
  | some port =>
    simp only [hport] at h ⊢
    unfold initDomain at h ⊢
    split_ifs at h ⊢
    simp only [hdomain, initQueues_eq] at h ⊢
    split_ifs at h ⊢
    obtain rfl := Option.some.inj h
    exact ⟨rfl, rfl⟩

/-- From the exchange on: `create_context` holds the device list until it succeeds. -/
theorem createConnected_spec (p : ContextParams) (env : CreateEnv) (ctx : ContextPtr)
    (rest : List ContextKind) :
    ((createConnected p env ctx ⟨.deviceList :: rest, []⟩).2 = none ∧
      ContextKind.deviceList ∈ (createConnected p env ctx ⟨.deviceList :: rest, []⟩).1.live) ∨
    createConnected p env ctx ⟨.deviceList :: rest, []⟩ =
      (⟨rest ++ [.remoteInfo], []⟩, some ctx) := by
  unfold createConnected
  split_ifs
  · exact .inl ⟨rfl, by simp⟩
  · refine .inr ?_
    simp [Ledger.release, Ledger.acquire]
  · exact .inl ⟨rfl, by simp⟩

/-- The same from the return of `init_rdma_context` on. -/
theorem createPrepared_spec (p : ContextParams) (env : CreateEnv) {ctx : ContextPtr}
    (hctx : ctx.rw = false) :
    ((createPrepared p env ctx ⟨.deviceList :: ctx.owned, []⟩).2 = none ∧
      ContextKind.deviceList ∈
        (createPrepared p env ctx ⟨.deviceList :: ctx.owned, []⟩).1.live) ∨
    ∃ ctx' : ContextPtr, createPrepared p env ctx ⟨.deviceList :: ctx.owned, []⟩ =
      (⟨ctx'.held, []⟩, some ctx') := by
  have hwith : ((Ledger.acquire ⟨.deviceList :: ctx.owned, []⟩ .buffer).acquire .region).acquire
      .mem = ⟨.deviceList :: (ctx.owned ++ [.buffer, .region, .mem]), []⟩ := by
    simp [Ledger.acquire]
  unfold createPrepared
  split_ifs
  · exact .inl ⟨rfl, by simp⟩
  · exact .inl ⟨rfl, by simp⟩
  · exact .inl ⟨rfl, by simp⟩
  · dsimp only
    rw [hwith]
    refine (createConnected_spec p env { ctx with rw := true } _).imp_right fun h =>
      ⟨{ ctx with rw := true }, ?_⟩
    rw [h, ContextPtr.held]
    rfl
  · refine .inl ⟨rfl, ?_⟩
    simp [Ledger.release, Ledger.acquire]
  · exact .inl ⟨rfl, by simp⟩
  · refine (createConnected_spec p env ctx _).imp_right fun h => ⟨ctx, ?_⟩
    rw [h, ContextPtr.held, hctx]
    simp

/-- `create_context` leaves nothing behind exactly if it returns a context or had no device
list. -/
theorem create_balanced_iff (p : ContextParams) (env : CreateEnv) :
    createdContexts.Balanced ⟨(createContext p env).1, (createContext p env).2⟩ ↔
      env.deviceList = false ∨ (createContext p env).2 ≠ none := by
  have hleft : ∀ {out : Ledger ContextKind × Option ContextPtr}, out.2 = none →
      ContextKind.deviceList ∈ out.1.live → env.deviceList = true →
      (createdContexts.Balanced ⟨out.1, out.2⟩ ↔ env.deviceList = false ∨ out.2 ≠ none) := by
    intro out hnone hmem hlist
    refine iff_of_false (fun h => ?_) (by simp [hlist, hnone])
    rw [HandleKind.Balanced, hnone] at h
    simp only at h
    rw [h] at hmem
    cases hmem
  have hwithin := initRdmaContext_within p.useEvent env.init .empty
  have hstart : Ledger.within .empty [ContextKind.deviceList] = Ledger.empty.acquire .deviceList :=
    rfl
  rw [hstart] at hwithin
  unfold createContext
  by_cases hlist : env.deviceList = true
  · by_cases hfound : env.found = true
    · simp only [if_pos hlist, if_pos hfound, hwithin]
      cases hctx : (initRdmaContext p.useEvent env.init .empty).2 with
      | none => exact @hleft (_, none) rfl (by simp [Ledger.within]) hlist
      | some ctx =>
        obtain ⟨hobjects, hrw⟩ := initRdmaContext_some hctx
        rw [hobjects]
        rcases createPrepared_spec p env hrw with ⟨hnone, hmem⟩ | ⟨ctx', hout⟩
        · exact hleft hnone hmem hlist
        · simp only [Ledger.within, List.singleton_append, hout]
          exact iff_of_true rfl (.inr (by simp))
    · simp only [if_pos hlist, if_neg hfound]
      exact @hleft (_, none) rfl (by simp) hlist
  · simp only [if_neg hlist]
    exact iff_of_true rfl (.inl (by simpa using hlist))

/-- `rdma_close_ctx` makes nothing alive, does not release the data of the peer, and destroys the
queue pair first. -/
theorem rdmaCloseCtx_live (ctx : ContextPtr) (env : CloseEnv) {l : Ledger ContextKind}
    (hinfo : ContextKind.remoteInfo ∈ l.live) :
    (rdmaCloseCtx ctx env l).1.live ⊆ l.live ∧
      ContextKind.remoteInfo ∈ (rdmaCloseCtx ctx env l).1.live ∧
      (env.destroyQp = true → (rdmaCloseCtx ctx env l).1.live ⊆ (l.release .qp).live) := by
  have hcalls : ∀ call ∈ env.calls ctx.channel, ContextKind.remoteInfo ≠ call.1 := by
    cases ctx.channel <;> simp [CloseEnv.calls]
  obtain ⟨hsub, hkeep⟩ := destroyAll_live (env.calls ctx.channel) l
  have hmem := hkeep _ hinfo hcalls
  have hqp : env.destroyQp = true →
      (destroyAll (env.calls ctx.channel) l).1.live ⊆ (l.release .qp).live := by
    intro hqp
    have hfirst : destroyAll (env.calls ctx.channel) l =
        destroyAll (env.calls ctx.channel).tail (l.release .qp) := by
      simp [CloseEnv.calls, hqp, destroyAll]
    rw [hfirst]
    exact (destroyAll_live _ _).1
  have hout : rdmaCloseCtx ctx env l = if (destroyAll (env.calls ctx.channel) l).2 then
      ((destroyAll (env.calls ctx.channel) l).1.release .ctx, 0)
      else ((destroyAll (env.calls ctx.channel) l).1, 1) := rfl
  rw [hout]
  split_ifs
  · have hctx := (destroyAll (env.calls ctx.channel) l).1.live_release_subset .ctx
    exact ⟨List.Subset.trans hctx hsub, Ledger.mem_live_release hmem (by decide),
      fun h => List.Subset.trans hctx (hqp h)⟩
  · exact ⟨hsub, hmem, hqp⟩

/-- A context that is closed further than its first call is not balanced: it is gone and the data
of the peer is left, or it is still there and an object of it is missing. -/
theorem not_balanced_of_closed {ctx : ContextPtr} {env : CloseEnv} {l : Ledger ContextKind}
    (kind : ContextKind) (hinfo : ContextKind.remoteInfo ∈ l.live) (hheld : kind ∈ ctx.held)
    (hgone : kind ∉ (rdmaCloseCtx ctx env l).1.live) :
    ¬createdContexts.Balanced ⟨(rdmaCloseCtx ctx env l).1,
      if (rdmaCloseCtx ctx env l).2 == 0 then none else some ctx⟩ := by
  intro hbalanced
  obtain ⟨_, hmem, _⟩ := rdmaCloseCtx_live ctx env hinfo
  have hlive := congrArg Ledger.live hbalanced
  dsimp only at hlive
  split_ifs at hlive
  · rw [hlive] at hmem
    cases hmem
  · rw [hlive] at hgone
    exact hgone hheld

/-- `rdma_session::close` leaves a context as it is if its first call on the context fails, and
otherwise leaves something behind. -/
theorem closeContext_balanced_iff (ctx : ContextPtr) (dereg : Bool) (env : CloseEnv) :
    createdContexts.Balanced (createdContexts.close ctx (dereg, env) ⟨ctx.held, []⟩) ↔
      if ctx.rw then dereg = false else env.destroyQp = false := by
  have hclose : createdContexts.close ctx (dereg, env) ⟨ctx.held, []⟩ =
      ⟨(closeContext ctx dereg env ⟨ctx.held, []⟩).1,
        if (closeContext ctx dereg env ⟨ctx.held, []⟩).2 == 0 then none else some ctx⟩ := rfl
  rw [hclose, closeContext]
  cases hrw : ctx.rw with
  | true =>
    simp only [if_true]
    cases dereg with
    | false => exact iff_of_true rfl rfl
    | true =>
      simp only [if_true]
      refine iff_of_false ?_ (by decide)
      have hfreed : ContextKind.remoteInfo ∈
          ((Ledger.release ⟨ctx.held, []⟩ .region).release .mem).live ∧
          ContextKind.region ∉ ((Ledger.release ⟨ctx.held, []⟩ .region).release .mem).live := by
        rw [ContextPtr.held, ContextPtr.owned, hrw]
        cases ctx.channel <;> decide
      refine not_balanced_of_closed .region hfreed.1 ?_ fun hmem => hfreed.2 ?_
      · simp [ContextPtr.held, hrw]
      · exact (rdmaCloseCtx_live ctx env hfreed.1).1 hmem
  | false =>
    simp only [Bool.false_eq_true, if_false]
    have hinfo : ContextKind.remoteInfo ∈ (Ledger.mk ctx.held []).live := by
      simp [ContextPtr.held]
    cases hqp : env.destroyQp with
    | false =>
      refine iff_of_true ?_ rfl
      simp [rdmaCloseCtx, CloseEnv.calls, hqp, destroyAll, HandleKind.Balanced, createdContexts]
    | true =>
      refine iff_of_false ?_ (by decide)
      have hdestroyed : ContextKind.qp ∉ (Ledger.release ⟨ctx.held, []⟩ .qp).live := by
        rw [ContextPtr.held, ContextPtr.owned, hrw]
        cases ctx.channel <;> decide
      refine not_balanced_of_closed .qp hinfo ?_ fun hmem => hdestroyed ?_
      · simp [ContextPtr.held, ContextPtr.owned]
      · exact (rdmaCloseCtx_live ctx env hinfo).2.2 hqp hmem

/-- **Connections leak.** In a run of `create_context` calls and of closings by
`rdma_session::close`, with any outcomes of the calls they make, in every state nothing is
alive but what belongs to the open contexts exactly when every `create_context` returns a
context or gets no device list, and every closing fails at its first call on the context. So
every failure after the device list leaves something behind, and so does every closing that
succeeds. -/
theorem created_balanced_along_iff
    {acts : List (HandleAction (ContextParams × CreateEnv) (Bool × CloseEnv))}
    {s : List (Opened ContextKind ContextPtr)} (hrun : exec createdContexts.step [] acts = some s) :
    Along createdContexts.step (fun s => ∀ opened ∈ s, createdContexts.Balanced opened) [] acts ↔
      Meets createdContexts.step
        (HandleKind.Tidy (fun o => o.2.deviceList = false ∨ (createContext o.1 o.2).2 ≠ none)
          fun ctx c => if ctx.rw then c.1 = false else c.2.destroyQp = false) [] acts :=
  HandleKind.balanced_along_iff (fun o => create_balanced_iff o.1 o.2)
    (fun ctx c => closeContext_balanced_iff ctx c.1 c.2) hrun

/-- The outcomes of a successful `create_context`, up to the first call. -/
def createEnvOf (deviceList : Bool) : CreateEnv :=
  ⟨deviceList, true, ⟨true, true, .active, .down, true, true, true, true, true, true⟩, true, true,
    true, true, true, true, true⟩

/-- A call without a device list, one that succeeds, and a closing that fails at once. -/
def tidyConnections : List (HandleAction (ContextParams × CreateEnv) (Bool × CloseEnv)) :=
  [.opens (⟨false, 0, 4096, false⟩, createEnvOf false),
    .opens (⟨false, 0, 4096, false⟩, createEnvOf true),
    .closes 1 (false, ⟨true, true, true, true, true, true⟩)]

/-- These calls meet the condition. -/
theorem created_balanced_along_tidyConnections :
    ∃ s, exec createdContexts.step [] tidyConnections = some s ∧
      Along createdContexts.step (fun s => ∀ opened ∈ s, createdContexts.Balanced opened) []
        tidyConnections :=
  ⟨_, rfl, (created_balanced_along_iff rfl).mpr (by decide)⟩

end RdmaTransport
