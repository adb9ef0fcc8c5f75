import RdmaTransport.Accept
import RdmaTransport.InfoCon

/-!
# The attributes of a queue pair

A queue pair is connected by two calls of `ibv_modify_qp`, one to the state RTR and one to
RTS. Each call hands over a whole `ibv_qp_attr` together with a mask, and only the
attributes named by the mask are changed. `rdma_connect_ctx` does this for the sessions and
`RDMAConnectedSocketImpl::activate` for the messenger. This file gives both with all their
attributes and shows which peer the queue pair is wired to afterwards.
-/

namespace RdmaTransport

/-- The states of a queue pair, `enum ibv_qp_state`, as far as they are used. -/
inductive QpState
  /-- The queue pair has just been created. -/
  | reset
  /-- Receive work requests can be posted. -/
  | init
  /-- The queue pair is ready to receive. -/
  | rtr
  /-- The queue pair is ready to send. -/
  | rts
  deriving DecidableEq

/-- A global identifier, `union ibv_gid`. -/
abbrev Gid := Fin 16 → UInt8

/-- `struct ibv_ah_attr` with its `grh`. -/
structure AhAttr where
  /-- The identifier of the destination. -/
  dgid : Gid
  /-- The index of the own identifier. -/
  sgidIndex : UInt8
  /-- The hop limit. -/
  hopLimit : UInt8
  /-- The local identifier of the destination. -/
  dlid : UInt16
  /-- The service level. -/
  sl : UInt8
  /-- The path bits of the source. -/
  srcPathBits : UInt8
  /-- Whether the `grh` is used. -/
  isGlobal : UInt8
  /-- The physical port. -/
  portNum : UInt8
  deriving DecidableEq

/-- `struct ibv_qp_attr`, as far as it is used. -/
structure QpAttr where
  /-- The state. -/
  qpState : QpState
  /-- The maximal size of a packet, `enum ibv_mtu`, in bytes. -/
  pathMtu : ℕ
  /-- The first packet number expected. -/
  rqPsn : UInt32
  /-- The first packet number sent. -/
  sqPsn : UInt32
  /-- The number of the peer's queue pair. -/
  destQpNum : UInt32
  /-- The path to the peer. -/
  ahAttr : AhAttr
  /-- The number of atomic operations sent at a time. -/
  maxRdAtomic : UInt8
  /-- The number of atomic operations accepted at a time. -/
  maxDestRdAtomic : UInt8
  /-- The timer of a receiver that is not ready. -/
  minRnrTimer : UInt8
  /-- The local acknowledgement timeout. -/
  timeout : UInt8
  /-- The number of retries. -/
  retryCnt : UInt8
  /-- The number of retries towards a receiver that is not ready. -/
  rnrRetry : UInt8
  deriving DecidableEq

/-- The bits of `enum ibv_qp_attr_mask` for these attributes. -/
inductive QpMask
  /-- `IBV_QP_STATE`. -/
  | state
  /-- `IBV_QP_AV`. -/
  | av
  /-- `IBV_QP_PATH_MTU`. -/
  | pathMtu
  /-- `IBV_QP_DEST_QPN`. -/
  | destQpn
  /-- `IBV_QP_RQ_PSN`. -/
  | rqPsn
  /-- `IBV_QP_MAX_DEST_RD_ATOMIC`. -/
  | maxDestRdAtomic
  /-- `IBV_QP_MIN_RNR_TIMER`. -/
  | minRnrTimer
  /-- `IBV_QP_TIMEOUT`. -/
  | timeout
  /-- `IBV_QP_RETRY_CNT`. -/
  | retryCnt
  /-- `IBV_QP_RNR_RETRY`. -/
  | rnrRetry
  /-- `IBV_QP_SQ_PSN`. -/
  | sqPsn
  /-- `IBV_QP_MAX_QP_RD_ATOMIC`. -/
  | maxQpRdAtomic

/-- The attribute named by a bit is taken over. -/
def QpAttr.take (attr qp : QpAttr) : QpMask → QpAttr
  | .state => { qp with qpState := attr.qpState }
  | .av => { qp with ahAttr := attr.ahAttr }
  | .pathMtu => { qp with pathMtu := attr.pathMtu }
  | .destQpn => { qp with destQpNum := attr.destQpNum }
  | .rqPsn => { qp with rqPsn := attr.rqPsn }
  | .maxDestRdAtomic => { qp with maxDestRdAtomic := attr.maxDestRdAtomic }
  | .minRnrTimer => { qp with minRnrTimer := attr.minRnrTimer }
  | .timeout => { qp with timeout := attr.timeout }
  | .retryCnt => { qp with retryCnt := attr.retryCnt }
  | .rnrRetry => { qp with rnrRetry := attr.rnrRetry }
  | .sqPsn => { qp with sqPsn := attr.sqPsn }
  | .maxQpRdAtomic => { qp with maxRdAtomic := attr.maxRdAtomic }

/-- `ibv_modify_qp` on a queue pair with these attributes. -/
def modifyQp (qp attr : QpAttr) (mask : List QpMask) : QpAttr := mask.foldl attr.take qp

/-- Attributes that are all zero. -/
def QpAttr.zero : QpAttr :=
  ⟨.reset, 0, 0, 0, 0, ⟨fun _ => 0, 0, 0, 0, 0, 0, 0, 0⟩, 0, 0, 0, 0, 0, 0⟩

/-- The mask of the call that moves a queue pair to RTR. -/
def rtrMask : List QpMask :=
  [.state, .av, .pathMtu, .destQpn, .rqPsn, .maxDestRdAtomic, .minRnrTimer]

/-- The mask of the call that moves a queue pair to RTS. -/
def rtsMask : List QpMask := [.state, .timeout, .retryCnt, .rnrRetry, .sqPsn, .maxQpRdAtomic]

/-- The attributes of the second call, set on top of those of the first one. -/
def QpAttr.toRts (attr : QpAttr) (myPsn : UInt32) : QpAttr :=
  { attr with
    qpState := .rts
    timeout := 14
    retryCnt := 7
    rnrRetry := 7
    sqPsn := myPsn
    maxRdAtomic := 1 }

/-- The two calls of `ibv_modify_qp`. The first one or the second one may fail. -/
def moveToRts (qp attr : QpAttr) (myPsn : UInt32) (rtr rts : Bool) : QpAttr × Bool :=
  if rtr = false then (qp, false)
  else
    let qp := modifyQp qp attr rtrMask
    if rts = false then (qp, false) else (modifyQp qp (attr.toRts myPsn) rtsMask, true)

/-- Whether `gid.global.interface_id`, the second half of the identifier, is not zero. -/
def Gid.hasInterfaceId (gid : Gid) : Bool :=
  (List.range 8).any fun k => gid (Fin.ofNat 16 (8 + k)) ≠ 0

/-- The path `rdma_connect_ctx` sets. -/
def connectAh (port sl : UInt8) (dest : InfoCon) (sgidIdx : UInt8) : AhAttr :=
  let ah : AhAttr :=
    { QpAttr.zero.ahAttr with
      isGlobal := 0
      dlid := dest.lid.toUInt16
      sl := sl
      srcPathBits := 0
      portNum := port }
  if Gid.hasInterfaceId dest.gid then
    { ah with isGlobal := 1, hopLimit := 1, dgid := dest.gid, sgidIndex := sgidIdx }
  else ah

/-- The parameters of `rdma_connect_ctx` other than the two sides' numbers. -/
structure ConnectParams where
  /-- The physical port. -/
  port : UInt8
  /-- The maximal size of a packet. -/
  mtu : ℕ
  /-- The service level. -/
  sl : UInt8
  /-- The index of the own global identifier. -/
  sgidIdx : UInt8

/-- `rdma_connect_ctx`: the queue pair after the call and the returned value. -/
def rdmaConnectCtx (qp : QpAttr) (p : ConnectParams) (myPsn : UInt32) (dest : InfoCon)
    (rtr rts : Bool) : QpAttr × ℤ :=
  let attr : QpAttr :=
    { QpAttr.zero with
      qpState := .rtr
      pathMtu := p.mtu
      destQpNum := dest.qpn
      rqPsn := dest.psn
      maxDestRdAtomic := 1
      minRnrTimer := 12
      ahAttr := connectAh p.port p.sl dest p.sgidIdx }
  let (qp, ok) := moveToRts qp attr myPsn rtr rts
  (qp, if ok then 0 else 1)

/-- The queue pair and the returned value of `activate` on a socket with the given
messages. -/
def activateQp (qp : QpAttr) (port : UInt8) (my peer : IBSYNMsg) (rtr rts : Bool) : QpAttr × ℤ :=
  let attr : QpAttr :=
    { QpAttr.zero with
      qpState := .rtr
      pathMtu := 1024
      destQpNum := peer.qpn
      rqPsn := peer.psn
      maxDestRdAtomic := 1
      minRnrTimer := 12
      ahAttr :=
        { isGlobal := 1
          hopLimit := 6
          dgid := peer.gid
          sgidIndex := 0
          dlid := peer.lid
          sl := 0
          srcPathBits := 0
          portNum := port } }
  let (qp, ok) := moveToRts qp attr my.psn rtr rts
  (qp, if ok then 0 else -1)

/-- The queue pair is ready to send to, and to receive from, the queue pair `qpn` behind the
port `lid`: it expects the packet number `psn` and starts from its own. -/
structure QpAttr.WiredTo (qp : QpAttr) (myPsn : UInt32) (lid : UInt16) (qpn psn : UInt32) :
    Prop where
  /-- The queue pair is in the state RTS. -/
  rts : qp.qpState = .rts
  /-- Packets are sent to the peer's queue pair. -/
  dest : qp.destQpNum = qpn
  /-- Packets are sent to the peer's port. -/
  dlid : qp.ahAttr.dlid = lid
  /-- The first packet expected is the first one the peer sends. -/
  receives : qp.rqPsn = psn
  /-- The first packet sent has the announced number. -/
  sends : qp.sqPsn = myPsn

/-- If both calls succeed the queue pair has the path of the first one and the numbers of
both, whatever it had before. -/
theorem moveToRts_eq (qp attr : QpAttr) (myPsn : UInt32) (rtr rts : Bool) :
    (moveToRts qp attr myPsn rtr rts).2 = (rtr && rts) ∧
      (rtr = true → rts = true →
        (moveToRts qp attr myPsn rtr rts).1.WiredTo myPsn attr.ahAttr.dlid attr.destQpNum
          attr.rqPsn ∧
        (moveToRts qp attr myPsn rtr rts).1.ahAttr = attr.ahAttr) := by
  cases rtr <;> cases rts <;>
    simp [moveToRts, modifyQp, rtrMask, rtsMask, QpAttr.take, QpAttr.toRts]
  exact ⟨rfl, rfl, rfl, rfl, rfl⟩

/-- `rdma_connect_ctx` returns 0 exactly if both calls succeed, and then the queue pair is
wired to the destination. -/
theorem rdmaConnectCtx_spec (qp : QpAttr) (p : ConnectParams) (myPsn : UInt32) (dest : InfoCon)
    (rtr rts : Bool) :
    ((rdmaConnectCtx qp p myPsn dest rtr rts).2 = 0 ↔ rtr = true ∧ rts = true) ∧
      ((rdmaConnectCtx qp p myPsn dest rtr rts).2 = 0 →
        (rdmaConnectCtx qp p myPsn dest rtr rts).1.WiredTo myPsn dest.lid.toUInt16 dest.qpn
          dest.psn ∧
        (rdmaConnectCtx qp p myPsn dest rtr rts).1.ahAttr =
          connectAh p.port p.sl dest p.sgidIdx) := by
  have hdlid : (connectAh p.port p.sl dest p.sgidIdx).dlid = dest.lid.toUInt16 := by
    unfold connectAh
    split_ifs <;> rfl
  have hcode : (rdmaConnectCtx qp p myPsn dest rtr rts).2 = 0 ↔ rtr = true ∧ rts = true := by
    simp [rdmaConnectCtx, (moveToRts_eq qp _ myPsn rtr rts).1]
  refine ⟨hcode, fun hzero => ?_⟩
  obtain ⟨hrtr, hrts⟩ := hcode.mp hzero
  obtain ⟨hwired, hah⟩ := (moveToRts_eq qp _ myPsn rtr rts).2 hrtr hrts
  exact ⟨hdlid ▸ hwired, hah⟩

/-- `activate` returns 0 exactly if both calls succeed, and then the queue pair is wired to
the peer of the socket. -/
theorem activateQp_spec (qp : QpAttr) (port : UInt8) (my peer : IBSYNMsg) (rtr rts : Bool) :
    ((activateQp qp port my peer rtr rts).2 = 0 ↔ rtr = true ∧ rts = true) ∧
      ((activateQp qp port my peer rtr rts).2 = 0 →
        (activateQp qp port my peer rtr rts).1.WiredTo my.psn peer.lid peer.qpn peer.psn ∧
        (activateQp qp port my peer rtr rts).1.ahAttr.dgid = peer.gid) := by
  have hcode : (activateQp qp port my peer rtr rts).2 = 0 ↔ rtr = true ∧ rts = true := by
    simp [activateQp, (moveToRts_eq qp _ my.psn rtr rts).1]
  refine ⟨hcode, fun hzero => ?_⟩
  obtain ⟨hrtr, hrts⟩ := hcode.mp hzero
  obtain ⟨hwired, hah⟩ := (moveToRts_eq qp _ my.psn rtr rts).2 hrtr hrts
  exact ⟨hwired, congrArg AhAttr.dgid hah⟩

end RdmaTransport
