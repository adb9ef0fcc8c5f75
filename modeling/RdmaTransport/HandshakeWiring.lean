import RdmaTransport.QpAttributes

/-!
# The handshake pairs queue pairs

Requests are repeated and datagrams duplicated, so that `accept` may create several sockets
for one connection attempt, and nothing is ever taken back. This file shows that a
successful attempt still has exactly one partner: the number its queue pair sends to leads
to one socket of the server, the number that socket's queue pair sends to leads back, and
no other attempt sends there.
-/

namespace RdmaTransport

open Runs

variable {ι : Type*} [DecidableEq ι]

/-- Two queue pairs send to each other, and each expects the packet number from which the
other one starts. -/
def PairedQps (my peer : IBSYNMsg) (a b : QpAttr) : Prop :=
  a.WiredTo my.psn peer.lid peer.qpn peer.psn ∧ b.WiredTo peer.psn my.lid my.qpn my.psn ∧
    a.ahAttr.dgid = peer.gid ∧ b.ahAttr.dgid = my.gid ∧ a.rqPsn = b.sqPsn ∧ b.rqPsn = a.sqPsn

/-- Activation on both sides pairs the queue pairs of two sockets that have each other's
message, whatever attributes they had before. -/
theorem pairedQps_activateQp (my peer : IBSYNMsg) (qp qp' : QpAttr) (port port' : UInt8) :
    PairedQps my peer (activateQp qp port my peer true true).1
      (activateQp qp' port' peer my true true).1 := by
  have hzero := (activateQp_spec qp port my peer true true).1.mpr ⟨rfl, rfl⟩
  have hzero' := (activateQp_spec qp' port' peer my true true).1.mpr ⟨rfl, rfl⟩
  obtain ⟨hwired, hgid⟩ := (activateQp_spec qp port my peer true true).2 hzero
  obtain ⟨hwired', hgid'⟩ := (activateQp_spec qp' port' peer my true true).2 hzero'
  exact ⟨hwired, hwired', hgid, hgid', hwired.receives.trans hwired'.sends.symm,
    hwired'.receives.trans hwired.sends.symm⟩

/-- **Pairing of queue pairs.** Take any run in which the receptions of `connect` are
conclusive and no two queue pairs of a machine have the same number. Let attempt `i` have
returned 0 with the peer message `m`. Then exactly one socket of the server has the queue
pair number that the attempt sends to; it has the message `m` and the attempt's message as
its peer, so that after `activate` on either side the two queue pairs are wired to each
other; and no other successful attempt sends to it. -/
theorem connect_pairs_queue_pairs {my : ι → IBSYNMsg} (hmy : Function.Injective fun i => (my i).qpn)
    {s : Handshake ι} {acts : List (HandshakeAction ι)}
    (hrun : exec (Handshake.step my) Handshake.start acts = some s)
    (hconclusive : ∀ a ∈ acts, a.Conclusive)
    (hfresh : (s.sockets.map fun socket => socket.1.qpn).Nodup) {i : ι} {m : IBSYNMsg}
    (hi : s.client i = .returned 0 (some m)) :
    (∀ socket, socket ∈ s.sockets ∧ socket.1.qpn = m.qpn ↔ socket = (m, my i)) ∧
    (∀ qp qp' port port', PairedQps (my i) m (activateQp qp port (my i) m true true).1
      (activateQp qp' port' m (my i) true true).1) ∧
    ∀ j m', s.client j = .returned 0 (some m') → m'.qpn = m.qpn → j = i := by
  have hagrees := Handshake.agrees_of_exec hconclusive hrun
  have hsocket := hagrees.agreed i m hi
  have honly : ∀ socket ∈ s.sockets, socket.1.qpn = m.qpn → socket = (m, my i) :=
    fun socket hmem hqpn => List.inj_on_of_nodup_map hfresh hmem hsocket hqpn
  refine ⟨fun socket => ⟨fun h => honly socket h.1 h.2, ?_⟩, pairedQps_activateQp (my i) m, ?_⟩
  · rintro rfl
    exact ⟨hsocket, rfl⟩
  · intro j m' hj hqpn
    have hpair := honly (m', my j) (hagrees.agreed j m' hj) hqpn
    exact hmy (congrArg (fun socket => socket.2.qpn) hpair)

/-- The condition is met by a handshake of two attempts without trouble. -/
theorem connect_pairs_queue_pairs_clean :
    ∃ s : Handshake Bool,
      exec (Handshake.step clientMsg) Handshake.start cleanHandshake = some s ∧
      ∀ i, s.client i = .returned 0 (some (serverMsg i)) ∧
        (∀ socket, socket ∈ s.sockets ∧ socket.1.qpn = (serverMsg i).qpn ↔
          socket = (serverMsg i, clientMsg i)) ∧
        ∀ j m', s.client j = .returned 0 (some m') → m'.qpn = (serverMsg i).qpn → j = i := by
  have hmy : Function.Injective fun i => (clientMsg i).qpn := by decide
  obtain ⟨s, hrun, hreturned, hsockets⟩ := exec_cleanHandshake
  have hfresh : (s.sockets.map fun socket => socket.1.qpn).Nodup := by
    rw [hsockets]
    decide
  refine ⟨s, hrun, fun i => ⟨hreturned i, ?_⟩⟩
  obtain ⟨honly, _, hone⟩ :=
    connect_pairs_queue_pairs hmy hrun cleanHandshake_conclusive hfresh (hreturned i)
  exact ⟨honly, hone⟩

end RdmaTransport
