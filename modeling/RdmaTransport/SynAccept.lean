import RdmaTransport.SynMsg

/-!
# Which datagrams `recv_udp_msg` accepts

`recv_udp_msg` scans whatever it received and then decides by the length alone: a datagram
that fills `msg` is a valid message, everything shorter is rejected. This file determines
for which datagrams that decision is the right one.
-/

namespace RdmaTransport

open Format Memory

/-- A datagram that `send_udp_msg` can produce for a message. -/
def Encodes (data : List UInt8) (m : IBSYNMsg) : Prop :=
  ∃ (sender : Endian) (frame : Frame), data = synDatagram sender frame m

/-- What `recv_udp_msg` ought to do with a datagram: the encoding of a message is accepted
and `im` becomes that message, everything else is rejected by a result other than zero. -/
def AcceptsExactly {α : Type*} (e : Endian) (frame : Frame) (im : IBSYNMsg) (source : α)
    (errno : Errno) (data : List UInt8) : Prop :=
  (∀ m, Encodes data m →
    recvUdpMsg e frame im ⟨some (source, data), errno, false⟩ = some ⟨0, m, some source⟩) ∧
  ((∀ m, ¬Encodes data m) → ∃ r,
    recvUdpMsg e frame im ⟨some (source, data), errno, false⟩ = some r ∧ r.code ≠ 0)

/-- The word that the last conversion of the format stores to `gid`, if it is reached. -/
def gidWord (text : List UInt8) : Option (List UInt8) :=
  match (scan synFormat text).drop 3 with
  | .string word :: _ => some word
  | _ => none

/-- `sscanf` stays inside its arrays: `msg`, which holds the datagram and behind it what
the stack held, has an end, and the word stored to `gid` fits it. -/
def ScansInside (frame : Frame) (data : List UInt8) : Prop :=
  ∃ text, cString (overwrite frame.msg 0 (data.take msgSize)) = some text ∧
    ∀ word ∈ gidWord text, word.length < 33

/-- The datagrams of a message are its text with the terminating NUL. -/
theorem encodes_iff {data : List UInt8} {m : IBSYNMsg} :
    Encodes data m ↔ data = synBody m ++ [0] := by
  constructor
  · rintro ⟨sender, frame, rfl⟩
    exact synDatagram_eq sender frame m
  · rintro rfl
    exact ⟨.little, blankFrame, (synDatagram_eq .little blankFrame m).symm⟩

/-- A datagram encodes at most one message. -/
theorem Encodes.unique {data : List UInt8} {m m' : IBSYNMsg} (h : Encodes data m)
    (h' : Encodes data m') : m = m' := by
  rw [encodes_iff] at h h'
  have hm := parseSyn_synBody blankFrame m m
  rw [← h, h', parseSyn_synBody] at hm
  exact (Option.some.inj hm).symm

/-- The parser is defined exactly when `sscanf` stays inside its arrays. -/
theorem exists_parseSyn_iff (e : Endian) (frame : Frame) (im : IBSYNMsg) (data : List UInt8) :
    (∃ im', parseSyn e frame (overwrite frame.msg 0 (data.take msgSize)) im = some im') ↔
      ScansInside frame data := by
  have hword : ∀ items : List Item, (∃ gid, storeWord frame.gid items = some gid) ↔
      ∀ word, (match items.drop 3 with
        | .string word :: _ => some word
        | _ => none) = some word → word.length < 33 := by
    intro items
    rw [storeWord]
    rcases items.drop 3 with - | ⟨_ | word, _⟩
    · simp
    · simp
    · by_cases h : word.length < 33 <;> simp [h]
  simp only [parseSyn, Option.bind_eq_some_iff, Option.map_eq_some_iff, ScansInside, gidWord,
    Option.mem_def]
  constructor
  · rintro ⟨im', text, htext, gid, hgid, _⟩
    exact ⟨text, htext, (hword _).mp ⟨gid, hgid⟩⟩
  · rintro ⟨text, htext, hfits⟩
    obtain ⟨gid, hgid⟩ := (hword _).mpr hfits
    exact ⟨_, text, htext, gid, hgid, rfl⟩

/-- A received datagram is accepted or rejected by its length, once it has been parsed. -/
theorem recvUdpMsg_eq_some_iff {α : Type*} {e : Endian} {frame : Frame} {im : IBSYNMsg}
    {source : α} {errno : Errno} {data : List UInt8} {r : RecvResult α} :
    recvUdpMsg e frame im ⟨some (source, data), errno, false⟩ = some r ↔
      ∃ im', parseSyn e frame (overwrite frame.msg 0 (data.take msgSize)) im = some im' ∧
        r = if msgSize ≤ data.length then ⟨0, im', some source⟩ else ⟨1, im', none⟩ := by
  have hlength : min data.length msgSize = msgSize ↔ msgSize ≤ data.length := min_eq_right_iff
  simp only [recvUdpMsg, Option.map_eq_some_iff, hlength]
  constructor
  · rintro ⟨im', him, rfl⟩
    exact ⟨im', him, rfl⟩
  · rintro ⟨im', him, rfl⟩
    exact ⟨im', him, rfl⟩

/-- **Accepted datagrams.** `recv_udp_msg` does what it ought to exactly for the encodings
of messages, on a big-endian machine only of those without a `lid`, and for the datagrams
that are too short for `msg` and can be scanned inside the arrays. Every other datagram
that fills `msg`, in particular every longer one, is accepted as well. -/
theorem acceptsExactly_iff {α : Type*} (e : Endian) (frame : Frame) (im : IBSYNMsg) (source : α)
    (errno : Errno) (data : List UInt8) :
    AcceptsExactly e frame im source errno data ↔
      (∃ m, Encodes data m ∧ (e = .little ∨ m.lid = 0)) ∨
        (data.length < msgSize ∧ ScansInside frame data) := by
  by_cases hencodes : ∃ m, Encodes data m
  · obtain ⟨m, hm⟩ := hencodes
    have hdata := encodes_iff.mp hm
    have hresult := recvUdpMsg_received e frame m im source errno
    rw [← hdata] at hresult
    have hlength : data.length = msgSize := by
      rw [hdata, synBody_nul_length]
    have hkept : m.received e = m ↔ e = .little ∨ m.lid = 0 := by
      cases e with
      | little => simp [IBSYNMsg.received]
      | big => simp [IBSYNMsg.received, IBSYNMsg.ext_iff, eq_comm]
    constructor
    · intro h
      have hsame := (hresult.symm.trans (h.1 m hm))
      simp only [Option.some.injEq, RecvResult.mk.injEq, true_and, and_true] at hsame
      exact .inl ⟨m, hm, hkept.mp hsame⟩
    · rintro (⟨m', hm', hbyte⟩ | ⟨hshort, _⟩)
      · obtain rfl := hm.unique hm'
        refine ⟨?_, fun hnone => absurd hm (hnone m)⟩
        intro m' hm'
        obtain rfl := hm.unique hm'
        rw [hresult, hkept.mpr hbyte]
      · omega
  · push Not at hencodes
    constructor
    · intro h
      obtain ⟨r, hr, hcode⟩ := h.2 hencodes
      obtain ⟨im', him, rfl⟩ := recvUdpMsg_eq_some_iff.mp hr
      have hshort : ¬msgSize ≤ data.length := by
        intro hlong
        rw [if_pos hlong] at hcode
        exact hcode rfl
      exact .inr ⟨by omega, (exists_parseSyn_iff e frame im data).mp ⟨im', him⟩⟩
    · rintro (⟨m, hm, _⟩ | ⟨hshort, hinside⟩)
      · exact absurd hm (hencodes m)
      · obtain ⟨im', him⟩ := (exists_parseSyn_iff e frame im data).mpr hinside
        refine ⟨fun m hm => absurd hm (hencodes m), fun _ => ?_⟩
        refine ⟨⟨1, im', none⟩, recvUdpMsg_eq_some_iff.mpr ⟨im', him, ?_⟩, one_ne_zero⟩
        rw [if_neg (by omega)]

/-- A datagram of 56 zero bytes is no message, and `recv_udp_msg` returns zero for it. -/
theorem zero_datagram_accepted :
    ¬AcceptsExactly .little blankFrame ⟨0, 0, 0, fun _ => 0⟩ () .other (List.replicate 56 0) ∧
      ∃ im', recvUdpMsg .little blankFrame ⟨0, 0, 0, fun _ => 0⟩
        ⟨some ((), List.replicate 56 0), .other, false⟩ = some ⟨0, im', some ()⟩ := by
  have hinside : ScansInside blankFrame (List.replicate 56 0) := ⟨[], rfl, by decide⟩
  obtain ⟨im', him⟩ :=
    (exists_parseSyn_iff .little blankFrame ⟨0, 0, 0, fun _ => 0⟩ _).mpr hinside
  have hresult : recvUdpMsg .little blankFrame ⟨0, 0, 0, fun _ => 0⟩
      ⟨some ((), List.replicate 56 0), .other, false⟩ = some ⟨0, im', some ()⟩ :=
    recvUdpMsg_eq_some_iff.mpr ⟨im', him, rfl⟩
  refine ⟨?_, im', hresult⟩
  intro h
  obtain ⟨r, hr, hcode⟩ := h.2 fun m hm => by
    have hhead := congrArg List.head? (encodes_iff.mp hm)
    obtain ⟨hlength, hplain⟩ := synBody_plain m
    cases htext : synBody m with
    | nil => simp [htext] at hlength
    | cons c rest =>
      have hc : c = 0 := by simpa [htext, List.replicate_succ] using hhead.symm
      exact hplain c (by simp [htext]) hc
  rw [hresult] at hr
  obtain rfl := Option.some.inj hr
  exact hcode rfl

end RdmaTransport
