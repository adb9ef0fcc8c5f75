import RdmaTransport.SynMsg

/-!
# The connection data exchanged by two sessions

Before two queue pairs are connected, `rdma_client_exch_dest` and
`rdma_server_exch_dest` exchange a `struct info_con` as text over a stream socket. Both
print their own data into an array of 86 characters, and scan what they read. The address
is printed in decimal and padded to sixteen digits, although a 64-bit number may need
twenty. This file shows that the text fits the array exactly when the address has at most
sixteen digits, and that it is then restored by the peer.

Uninitialised stack and heap memory is a parameter. A store behind the end of an array is
`none`.
-/

namespace RdmaTransport

open Format Memory

/-- `struct info_con`. -/
@[ext] structure InfoCon where
  /-- The local identifier of the port. -/
  lid : UInt32
  /-- The queue pair number. -/
  qpn : UInt32
  /-- The initial packet sequence number. -/
  psn : UInt32
  /-- The remote key of the buffer. -/
  rkey : UInt32
  /-- The address of the buffer. -/
  addr : UInt64
  /-- The bytes of the port's global identifier. -/
  gid : Fin 16 → UInt8
  deriving DecidableEq

/-- The size of `msg`: the format's sample text with its NUL. -/
def infoSize : ℕ := 86

/-- The local arrays of the two exchange functions. -/
structure ExchFrame where
  /-- The array `msg`. -/
  msg : List UInt8
  /-- The array `gid`. -/
  gid : List UInt8
  /-- The size of `msg`. -/
  msg_length : msg.length = infoSize
  /-- The size of `gid`. -/
  gid_length : gid.length = 33

/-- The text printed by the format `"%08x:%08x:%08x:%016lu:%08x:%s"`, with the
terminating NUL. -/
def infoText (info : InfoCon) (wgid : List UInt8) : List UInt8 :=
  printNumber 16 8 info.lid.toNat ++ (58 :: (printNumber 16 8 info.qpn.toNat ++ (58 ::
    (printNumber 16 8 info.psn.toNat ++ (58 :: (printNumber 10 16 info.addr.toNat ++ (58 ::
      (printNumber 16 8 info.rkey.toNat ++ (58 :: ((cString wgid).getD [] ++ [0]))))))))))

/-- The format `"%x:%x:%x:%lu:%x:%s"`. -/
def infoFormat : List Directive :=
  [.number 16 32, .literal 58, .number 16 32, .literal 58, .number 16 32, .literal 58,
    .number 10 64, .literal 58, .number 16 32, .literal 58, .string]

/-- The fields that the conversions of numbers store to, in the order of the format. -/
def infoStores : List (InfoCon → ℕ → InfoCon) :=
  [fun info n => { info with lid := UInt32.ofNat n },
    fun info n => { info with qpn := UInt32.ofNat n },
    fun info n => { info with psn := UInt32.ofNat n },
    fun info n => { info with addr := UInt64.ofNat n },
    fun info n => { info with rkey := UInt32.ofNat n }]

/-- The stores of `sscanf` to the structure. -/
def InfoCon.storeNumbers (info : InfoCon) (items : List Item) : InfoCon :=
  (items.zip infoStores).foldl (fun info (item, store) =>
    match item with
    | .number n => store info n
    | .string _ => info) info

/-- The contents of an array `char gid[33]`. -/
abbrev GidArray := {l : List UInt8 // l.length = 33}

/-- The store of `sscanf` to `gid`, which must fit the array with its NUL. -/
def storeGid (gid : GidArray) (items : List Item) : Option GidArray :=
  match items.drop 5 with
  | .string word :: _ =>
      if h : word.length < 33 then
        some ⟨overwrite gid.1 0 (word ++ [0]), by
          rw [overwrite_length (by simp [gid.2]; omega), gid.2]⟩
      else none
  | _ => some gid

/-- A wire gid takes the whole array. -/
theorem gidToWireGid_length (e : Endian) (raw : List UInt8) {wgid : List UInt8}
    (hlength : wgid.length = 33) : (gidToWireGid e raw wgid).length = 33 := by
  rw [gidToWireGid_eq e raw hlength, List.length_append, (wireText_digits e raw).1]
  rfl

/-- `gid_to_wire_gid` and `sprintf`: the own data is printed into `msg`. -/
def printInfo (e : Endian) (frame : ExchFrame) (my : InfoCon) : Option ExchFrame :=
  let gid := gidToWireGid e (List.ofFn my.gid) frame.gid
  if h : (infoText my gid).length ≤ infoSize then
    some
      { msg := overwrite frame.msg 0 (infoText my gid)
        gid := gid
        msg_length := by
          rw [overwrite_length (by rw [frame.msg_length]; omega), frame.msg_length]
        gid_length := gidToWireGid_length e _ frame.gid_length }
  else none

/-- `sscanf` and `wire_gid_to_gid`: the data of the peer is scanned from `msg` into the
allocated structure, by way of `gid`. `v32` is the uninitialised variable of
`wire_gid_to_gid`. -/
def scanInfo (e : Endian) (v32 : UInt32) (frame : ExchFrame) (remote : InfoCon) :
    Option (InfoCon × ExchFrame) :=
  (cString frame.msg).bind fun text =>
    let items := scan infoFormat text
    (storeGid ⟨frame.gid, frame.gid_length⟩ items).map fun (gid : GidArray) =>
      ({ remote.storeNumbers items with
          gid := fun k => (wireGidToGid e v32.toNat gid.1 (List.ofFn remote.gid)).getD k 0 },
        { frame with gid := gid.1, gid_length := gid.2 })

/-- What the environment decides in an exchange. -/
structure ExchEnv where
  /-- Whether `write` takes the whole message. -/
  writes : Bool
  /-- Whether `malloc` succeeds. -/
  allocates : Bool
  /-- Whether `rdma_connect_ctx` succeeds. -/
  connects : Bool
  /-- What the allocated memory holds. -/
  heap : InfoCon
  /-- The uninitialised variable of `wire_gid_to_gid`. -/
  v32 : UInt32

/-- What an exchange leaves. -/
structure Exchanged where
  /-- The message written to the socket, if any. -/
  written : Option (List UInt8)
  /-- The returned structure, or `none` for `NULL`. -/
  remote : Option InfoCon
  deriving DecidableEq

/-- The array `msg` after `sizeof msg` bytes were read. -/
def ExchFrame.read (frame : ExchFrame) (data : List UInt8) (h : data.length = infoSize) :
    ExchFrame :=
  { frame with msg := data, msg_length := h }

/-- `rdma_client_exch_dest` once the socket is connected, for the bytes that `read`
returns. -/
def rdmaClientExchDest (e : Endian) (frame : ExchFrame) (my : InfoCon) (env : ExchEnv)
    (reply : List UInt8) : Option Exchanged :=
  (printInfo e frame my).bind fun frame =>
    if !env.writes then some ⟨none, none⟩
    else if h : reply.length = infoSize then
      if !env.allocates then some ⟨some frame.msg, none⟩
      else
        (scanInfo e env.v32 (frame.read reply h) env.heap).map fun scanned =>
          ⟨some frame.msg, some scanned.1⟩
    else some ⟨some frame.msg, none⟩

/-- `rdma_server_exch_dest` once a connection is accepted, for the bytes that `read`
returns. -/
def rdmaServerExchDest (e : Endian) (frame : ExchFrame) (my : InfoCon) (env : ExchEnv)
    (request : List UInt8) : Option Exchanged :=
  if h : request.length = infoSize then
    if !env.allocates then some ⟨none, none⟩
    else
      (scanInfo e env.v32 (frame.read request h) env.heap).bind fun scanned =>
        if !env.connects then some ⟨none, none⟩
        else
          (printInfo e scanned.2 my).map fun frame =>
            if env.writes then ⟨some frame.msg, some scanned.1⟩ else ⟨none, none⟩
  else some ⟨none, none⟩

/-- The printed text without the terminating NUL. -/
def infoBody (info : InfoCon) : List UInt8 :=
  printNumber 16 8 info.lid.toNat ++ (58 :: (printNumber 16 8 info.qpn.toNat ++ (58 ::
    (printNumber 16 8 info.psn.toNat ++ (58 :: (printNumber 10 16 info.addr.toNat ++ (58 ::
      (printNumber 16 8 info.rkey.toNat ++ (58 :: wireText .little (List.ofFn info.gid))))))))))

/-- The text printed on a machine of either byte order. -/
theorem infoText_eq (e : Endian) (info : InfoCon) {wgid : List UInt8}
    (hlength : wgid.length = 33) :
    infoText info (gidToWireGid e (List.ofFn info.gid) wgid) = infoBody info ++ [0] := by
  obtain ⟨_, hdigits⟩ := wireText_digits .little (List.ofFn info.gid)
  have hplain : ∀ c ∈ wireText .little (List.ofFn info.gid), c ≠ 0 := by
    intro c hc
    obtain ⟨d, hd, rfl⟩ := hdigits c hc
    exact (digitChar_plain hd).2.2.2.1
  rw [gidToWireGid_eq e _ hlength, wireText_endian e List.length_ofFn, infoText,
    cString_append hplain, Option.getD_some]
  simp only [infoBody, List.append_assoc, List.cons_append]

/-- A 32-bit field is printed with eight digits. -/
theorem printNumber_word (n : UInt32) :
    (printNumber 16 8 n.toNat).length = 8 ∧
      ∀ c ∈ printNumber 16 8 n.toNat, ∃ d < 16, c = digitChar d :=
  printNumber_digits (by decide) le_rfl (by decide) n.toNat_lt

/-- The length of the text depends on the digits of the address alone. -/
theorem infoBody_length (info : InfoCon) :
    (infoBody info).length = 69 + (printNumber 10 16 info.addr.toNat).length := by
  have hword := fun n => (printNumber_word n).1
  simp only [infoBody, List.length_append, List.length_cons, hword,
    (wireText_digits .little (List.ofFn info.gid)).1]
  omega

/-- The text and its NUL fit the array exactly when the address has at most sixteen
decimal digits. -/
theorem infoBody_fits_iff (info : InfoCon) :
    (infoBody info ++ [0]).length ≤ infoSize ↔ info.addr.toNat < 10 ^ 16 := by
  rw [← printNumber_length_le_iff (by decide) (by decide), List.length_append, infoBody_length,
    infoSize, List.length_singleton]
  omega

/-- A text that fits fills the array. -/
theorem infoBody_fills {info : InfoCon} (h : info.addr.toNat < 10 ^ 16) :
    (infoBody info ++ [0]).length = infoSize := by
  have haddr := (printNumber_digits (by decide : 0 < 10) (by decide) (by decide : 0 < 16) h).1
  rw [List.length_append, infoBody_length, haddr]
  rfl

/-- The text has no NUL inside. -/
theorem infoBody_plain {info : InfoCon} (h : info.addr.toNat < 10 ^ 16) :
    ∀ c ∈ infoBody info, c ≠ 0 := by
  have hdigit : ∀ c : UInt8, (∃ d < 16, c = digitChar d) → c ≠ 0 := by
    rintro c ⟨d, hd, rfl⟩
    exact (digitChar_plain hd).2.2.2.1
  have haddr := (printNumber_digits (by decide : 0 < 10) (by decide) (by decide : 0 < 16) h).2
  intro c hc
  simp only [infoBody, List.mem_append, List.mem_cons] at hc
  rcases hc with hc | rfl | hc | rfl | hc | rfl | hc | rfl | hc | rfl | hc
  · exact hdigit c ((printNumber_word _).2 c hc)
  · decide
  · exact hdigit c ((printNumber_word _).2 c hc)
  · decide
  · exact hdigit c ((printNumber_word _).2 c hc)
  · decide
  · exact hdigit c (haddr c hc)
  · decide
  · exact hdigit c ((printNumber_word _).2 c hc)
  · decide
  · exact hdigit c ((wireText_digits _ _).2 c hc)

/-- Scanning the text yields the five numbers and the wire gid. -/
theorem scan_infoBody {info : InfoCon} (h : info.addr.toNat < 10 ^ 16) :
    scan infoFormat (infoBody info) = [.number info.lid.toNat, .number info.qpn.toNat,
      .number info.psn.toNat, .number info.addr.toNat, .number info.rkey.toNat,
      .string (wireText .little (List.ofFn info.gid))] := by
  obtain ⟨hlength, hdigits⟩ := wireText_digits .little (List.ofFn info.gid)
  have hspace : ∀ c ∈ wireText .little (List.ofFn info.gid), isSpace c = false := by
    intro c hc
    obtain ⟨d, hd, rfl⟩ := hdigits c hc
    exact (digitChar_plain hd).1
  have hne : wireText .little (List.ofFn info.gid) ≠ [] := by
    intro h
    rw [h, List.length_nil] at hlength
    omega
  have hword : ∀ (n : UInt32) (rest : List UInt8),
      scanNumber 16 32 (printNumber 16 8 n.toNat ++ (58 :: rest)) = some (n.toNat, 58 :: rest) := by
    intro n rest
    exact scanNumber_printNumber 16 32 8 _ (by decide) (by decide) (by decide) n.toNat_lt n.toNat_lt
      (n.toNat_lt.trans (by decide)) (by simp; decide)
  have haddr : ∀ rest : List UInt8,
      scanNumber 10 64 (printNumber 10 16 info.addr.toNat ++ (58 :: rest)) =
        some (info.addr.toNat, 58 :: rest) := by
    intro rest
    exact scanNumber_printNumber 10 64 16 _ (by decide) (by decide) (by decide) h
      info.addr.toNat_lt info.addr.toNat_lt (by simp; decide)
  simp only [infoBody, infoFormat, scan, hword, haddr, scanString_word hne hspace,
    List.head?_cons, List.tail_cons, if_true]

/-- The text is printed into the array when it fits. -/
theorem printInfo_eq (e : Endian) (frame : ExchFrame) {my : InfoCon}
    (h : my.addr.toNat < 10 ^ 16) :
    ∃ frame', printInfo e frame my = some frame' ∧ frame'.msg = infoBody my ++ [0] := by
  have htext := infoText_eq e my frame.gid_length
  have hfits : (infoText my (gidToWireGid e (List.ofFn my.gid) frame.gid)).length ≤ infoSize := by
    rw [htext]
    exact (infoBody_fits_iff my).mpr h
  refine ⟨_, dif_pos hfits, ?_⟩
  dsimp only
  rw [htext, overwrite_all]
  rw [infoBody_fills h, frame.msg_length]

/-- The numbers are stored to the fields they were printed from. -/
theorem InfoCon.storeNumbers_eq (info remote : InfoCon) (wire : List UInt8) :
    remote.storeNumbers [.number info.lid.toNat, .number info.qpn.toNat, .number info.psn.toNat,
      .number info.addr.toNat, .number info.rkey.toNat, .string wire] =
        { info with gid := remote.gid } := by
  simp [InfoCon.storeNumbers, infoStores]

/-- The peer restores the data from the text, whatever its memory held before. -/
theorem scanInfo_eq (e : Endian) (v32 : UInt32) (remote : InfoCon) {frame : ExchFrame}
    {info : InfoCon} (h : info.addr.toNat < 10 ^ 16) (hmsg : frame.msg = infoBody info ++ [0]) :
    ∃ frame', scanInfo e v32 frame remote = some (info, frame') := by
  obtain ⟨hwire, _⟩ := wireText_digits .little (List.ofFn info.gid)
  have hgid : overwrite frame.gid 0 (wireText .little (List.ofFn info.gid) ++ [0]) =
      wireText e (List.ofFn info.gid) ++ [0] := by
    rw [wireText_endian e List.length_ofFn]
    apply overwrite_all
    rw [frame.gid_length, List.length_append, hwire, List.length_singleton]
  have htext : cString frame.msg = some (infoBody info) := by
    rw [hmsg, cString_append (infoBody_plain h)]
  rw [scanInfo, htext, Option.bind_some]
  simp only [scan_infoBody h, storeGid, List.drop_succ_cons, List.drop_zero, hwire,
    dif_pos (by decide : 32 < 33), Option.map_some, hgid,
    wireGidToGid_wireText e _ _ List.length_ofFn List.length_ofFn, InfoCon.storeNumbers_eq]
  refine ⟨_, congrArg some (Prod.ext (InfoCon.ext rfl rfl rfl rfl rfl ?_) rfl)⟩
  funext k
  dsimp only
  rw [List.getD_eq_getElem?_getD, List.getElem?_ofFn, dif_pos k.isLt]
  rfl

/-- The server answers the text of a client with its own text and returns the client's
data. -/
theorem rdmaServerExchDest_eq (e : Endian) (frame : ExchFrame) {client server : InfoCon}
    {env : ExchEnv} (hclient : client.addr.toNat < 10 ^ 16) (hserver : server.addr.toNat < 10 ^ 16)
    (hallocates : env.allocates = true) (hconnects : env.connects = true)
    (hwrites : env.writes = true) :
    rdmaServerExchDest e frame server env (infoBody client ++ [0]) =
      some ⟨some (infoBody server ++ [0]), some client⟩ := by
  have hlength := infoBody_fills hclient
  obtain ⟨scanned, hscan⟩ := scanInfo_eq e env.v32 env.heap hclient
    (show (frame.read _ hlength).msg = infoBody client ++ [0] from rfl)
  obtain ⟨sent, hprint, hmsg⟩ := printInfo_eq e scanned hserver
  rw [rdmaServerExchDest, dif_pos hlength]
  simp [hallocates, hconnects, hwrites, hscan, hprint, hmsg]

/-- The client sends its own text and returns the data of the server that answered. -/
theorem rdmaClientExchDest_eq (e : Endian) (frame : ExchFrame) {client server : InfoCon}
    {env : ExchEnv} (hclient : client.addr.toNat < 10 ^ 16) (hserver : server.addr.toNat < 10 ^ 16)
    (hallocates : env.allocates = true) (hwrites : env.writes = true) :
    rdmaClientExchDest e frame client env (infoBody server ++ [0]) =
      some ⟨some (infoBody client ++ [0]), some server⟩ := by
  have hlength := infoBody_fills hserver
  obtain ⟨sent, hprint, hmsg⟩ := printInfo_eq e frame hclient
  obtain ⟨scanned, hscan⟩ := scanInfo_eq e env.v32 env.heap hserver
    (show (sent.read _ hlength).msg = infoBody server ++ [0] from rfl)
  rw [rdmaClientExchDest, hprint, Option.bind_some]
  simp [hallocates, hwrites, hlength, hscan, hmsg]

/-- **The codec of the connection data.** The text of any `info_con` fits `msg` with its
NUL exactly when the address is below `10 ^ 16`, and then fills it. In that case the
text is printed into `msg`, and scanning it restores the data on a peer of either byte
order and whatever its memory held. Between a client and a server whose texts both fit,
the exchange gives each the data of the other. -/
theorem infoCon_codec (client server : InfoCon) (e e' : Endian) (frame frame' : ExchFrame) :
    let request := infoText client (gidToWireGid e (List.ofFn client.gid) frame.gid)
    let reply := infoText server (gidToWireGid e' (List.ofFn server.gid) frame'.gid)
    (request.length ≤ infoSize ↔ client.addr.toNat < 10 ^ 16) ∧
    (reply.length ≤ infoSize ↔ server.addr.toNat < 10 ^ 16) ∧
    (client.addr.toNat < 10 ^ 16 → request.length = infoSize ∧
      (printInfo e frame client).map ExchFrame.msg = some request ∧
      ∀ v32 remote h, (scanInfo e' v32 (frame'.read request h) remote).map Prod.fst =
        some client) ∧
    (server.addr.toNat < 10 ^ 16 → reply.length = infoSize ∧
      (printInfo e' frame' server).map ExchFrame.msg = some reply ∧
      ∀ v32 remote h, (scanInfo e v32 (frame.read reply h) remote).map Prod.fst = some server) ∧
    (client.addr.toNat < 10 ^ 16 → server.addr.toNat < 10 ^ 16 → ∀ env env' : ExchEnv,
      env.writes = true → env.allocates = true →
      env'.allocates = true → env'.connects = true → env'.writes = true →
        rdmaServerExchDest e' frame' server env' request = some ⟨some reply, some client⟩ ∧
        rdmaClientExchDest e frame client env reply = some ⟨some request, some server⟩) := by
  have hone : ∀ (info : InfoCon) (e e' : Endian) (frame frame' : ExchFrame),
      info.addr.toNat < 10 ^ 16 → (infoBody info ++ [0]).length = infoSize ∧
        (printInfo e frame info).map ExchFrame.msg = some (infoBody info ++ [0]) ∧
        ∀ v32 remote h, (scanInfo e' v32 (frame'.read (infoBody info ++ [0]) h) remote).map
          Prod.fst = some info := by
    intro info e e' frame frame' h
    obtain ⟨sent, hprint, hmsg⟩ := printInfo_eq e frame h
    refine ⟨infoBody_fills h, ?_, ?_⟩
    · rw [hprint, Option.map_some, hmsg]
    · intro v32 remote hlength
      obtain ⟨scanned, hscan⟩ := scanInfo_eq e' v32 remote h
        (show (frame'.read _ hlength).msg = infoBody info ++ [0] from rfl)
      rw [hscan, Option.map_some]
  simp only [infoText_eq e client frame.gid_length, infoText_eq e' server frame'.gid_length]
  refine ⟨infoBody_fits_iff client, infoBody_fits_iff server, hone client e e' frame frame',
    hone server e' e frame' frame, ?_⟩
  intro hclient hserver env env' hwrites hallocates hallocates' hconnects' hwrites'
  exact ⟨rdmaServerExchDest_eq e' frame' hclient hserver hallocates' hconnects' hwrites',
    rdmaClientExchDest_eq e frame hclient hserver hallocates hwrites⟩

end RdmaTransport
