import VpnP2p.Foundation.CString

/-!
# The punching client

Two clients of `udp_client.c` send each other their strings until one arrives. A client has a
thread that sends to the ports of the peer, one that receives, and one that answers once
something was received. A datagram has always six bytes, so a string of more than six
characters arrives cut, and the peer that waits for it does not recognise it.
-/

namespace VpnP2p.Punch

open Foundation

/-! ## The state -/

/-- `htons` and `ntohs` on a machine that stores the low byte first. -/
def htons (x : UInt16) : UInt16 := .ofNat (x.toNat % 256 * 256 + x.toNat / 256)

/-- `struct sockaddr_in`; the port is in network order. -/
structure SockAddr where
  sinPort : UInt16
  sinAddr : UInt32
deriving DecidableEq

/-- `PORT`. -/
def portMax : Nat := 65535

/-- The variables of the client, those of its threads included. -/
structure Client where
  type : Int32
  threadflag : UInt8
  heartbeat : Int32
  sendString : CArray 100
  recvString : CArray 100
  siOther : SockAddr
  testOther : SockAddr
  buf : CArray 512
  tempbuf : CArray 128
  cnt : UInt16
  /-- `thread_punching` has not called `pthread_exit`. -/
  punching : Bool

structure Datagram where
  target : SockAddr
  payload : Buf
deriving DecidableEq

/-- `init_program()`, for the address that `inet_aton` reads from `SRV_IP`. -/
def initProgram (srv_ip : UInt32) (c : Client) : Client :=
  { c with
    threadflag := 0
    siOther := ⟨htons (.ofNat portMax), srv_ip⟩
    testOther := ⟨htons (.ofNat portMax), srv_ip⟩ }

/-- `main` up to the threads, for arguments that fit their arrays; type 1 has no argument for
`recv_string`, which stays zero. -/
def main (type : Int32) (srv_ip : UInt32) (send_string recv_string : CStr 100) : Client :=
  initProgram srv_ip {
    type := type
    threadflag := 0
    heartbeat := 0
    sendString := .ofString send_string
    recvString := if type = 1 then .zero 100 else .ofString recv_string
    siOther := ⟨0, 0⟩
    testOther := ⟨0, 0⟩
    buf := .zero 512
    tempbuf := .raw 128
    cnt := 0
    punching := true }

/-! ## The threads -/

/-- `sendto(s, send_string, 6, 0, target, slen)`. -/
def Client.send (c : Client) (target : SockAddr) : Datagram :=
  ⟨target, slice 0 6 c.sendString.bytes⟩

/-- A round of `thread_heartbeat`. -/
def threadHeartbeat (c : Client) : List Datagram :=
  if c.heartbeat = 1 then [c.send c.siOther] else []

/-- Where the next round of `thread_punching` sends to. -/
def Client.retarget (c : Client) : Client :=
  if c.type = 1 then { c with testOther := { c.testOther with sinPort := htons 9930 } }
  else { c with
    testOther := { c.testOther with sinPort := htons (.ofInt (portMax - c.cnt.toNat)) }
    cnt := .ofNat ((c.cnt.toNat + 1) % 65535) }

/-- A round of `thread_punching`, as long as there are rounds. -/
def threadPunching (c : Client) : Client × List Datagram :=
  if c.punching then
    let out := c.send c.testOther
    let c := c.retarget
    ({ c with punching := c.threadflag ≠ 1 }, [out])
  else (c, [])

/-- A round of `thread_receive_pack`, for what `recvfrom` returns: an error or a datagram with
the address it is from. -/
def threadReceivePack (c : Client) : Option (SockAddr × Buf) → Result Client
  | none => .ok c
  | some (sender, payload) => do
    let received := payload.take 512
    let buf ← c.buf.write received
    let tempbuf ← c.tempbuf.write (received ++ [some 0])
    let c := { c with siOther := sender, buf := buf, tempbuf := tempbuf }
    let recv_string ← readString c.recvString.bytes
    if ← strcmpEq tempbuf.bytes recv_string then .ok { c with threadflag := 1, heartbeat := 1 }
    else .ok c

/-! ## Runs -/

/-- A round of a thread; those of `thread_heartbeat` leave the state as it is. -/
inductive Event where
  | punch
  | receive (m : Option (SockAddr × Buf))

/-- A round, with what `thread_punching` sends in it. -/
def Client.step (c : Client) : Event → Result (Client × List Datagram)
  | .punch => .ok (threadPunching c)
  | .receive m => do
    let c ← threadReceivePack c m
    .ok (c, [])

def Client.run : List Event → Client → Result (Client × List Datagram)
  | [], c => .ok (c, [])
  | event :: events, c => do
    let (c, out) ← c.step event
    let (c, sent) ← run events c
    .ok (c, out ++ sent)

/-! ## What the rounds leave alone -/

/-- What `thread_receive_pack` never writes. -/
structure Client.Untouched (c c' : Client) : Prop where
  type : c'.type = c.type
  sendString : c'.sendString = c.sendString
  recvString : c'.recvString = c.recvString
  testOther : c'.testOther = c.testOther
  cnt : c'.cnt = c.cnt
  punching : c'.punching = c.punching

theorem threadReceivePack_untouched {c c' : Client} {m : Option (SockAddr × Buf)}
    (hrun : threadReceivePack c m = .ok c') : c.Untouched c' := by
  cases m with
  | none =>
    cases hrun
    exact ⟨rfl, rfl, rfl, rfl, rfl, rfl⟩
  | some m =>
    obtain ⟨buf, -, hrun⟩ := bind_eq_ok.mp hrun
    obtain ⟨tempbuf, -, hrun⟩ := bind_eq_ok.mp hrun
    obtain ⟨recv_string, -, hrun⟩ := bind_eq_ok.mp hrun
    obtain ⟨same, -, hrun⟩ := bind_eq_ok.mp hrun
    cases same with
    | false =>
      cases hrun
      exact ⟨rfl, rfl, rfl, rfl, rfl, rfl⟩
    | true =>
      cases hrun
      exact ⟨rfl, rfl, rfl, rfl, rfl, rfl⟩

/-- The arguments of `main` that the threads read. -/
structure Client.SameArgs (c c' : Client) : Prop where
  type : c'.type = c.type
  sendString : c'.sendString = c.sendString
  recvString : c'.recvString = c.recvString

theorem threadPunching_sameArgs (c : Client) : c.SameArgs (threadPunching c).1 := by
  unfold threadPunching Client.retarget
  by_cases halive : c.punching
  · by_cases htype : c.type = 1
    · simp only [halive, htype, if_true]
      exact ⟨htype.symm, rfl, rfl⟩
    · simp only [halive, htype, if_true, if_false]
      exact ⟨rfl, rfl, rfl⟩
  · rw [if_neg halive]
    exact ⟨rfl, rfl, rfl⟩

theorem Client.step_sameArgs {c c' : Client} {event : Event} {out : List Datagram}
    (hrun : c.step event = .ok (c', out)) : c.SameArgs c' := by
  cases event with
  | punch =>
    obtain rfl : (threadPunching c).1 = c' := congrArg Prod.fst (Except.ok.inj hrun)
    exact threadPunching_sameArgs c
  | receive m =>
    obtain ⟨c'', hreceive, heq⟩ := bind_eq_ok.mp hrun
    cases heq
    have hkeep := threadReceivePack_untouched hreceive
    exact ⟨hkeep.type, hkeep.sendString, hkeep.recvString⟩

theorem Client.run_cons_eq_ok {c c' : Client} {event : Event} {events : List Event}
    {sent : List Datagram} : Client.run (event :: events) c = .ok (c', sent) ↔
      ∃ c₁ out rest, c.step event = .ok (c₁, out) ∧ Client.run events c₁ = .ok (c', rest) ∧
        sent = out ++ rest := by
  rw [Client.run]
  constructor
  · intro hrun
    obtain ⟨⟨c₁, out⟩, hstep, hrun⟩ := bind_eq_ok.mp hrun
    obtain ⟨⟨c₂, rest⟩, hrest, heq⟩ := bind_eq_ok.mp hrun
    cases heq
    exact ⟨c₁, out, rest, hstep, hrest, rfl⟩
  · rintro ⟨c₁, out, rest, hstep, hrest, rfl⟩
    simp only [hstep, hrest, ok_bind]

theorem Client.run_sameArgs {c c' : Client} {events : List Event} {sent : List Datagram}
    (hrun : Client.run events c = .ok (c', sent)) : c.SameArgs c' := by
  induction events generalizing c sent with
  | nil =>
    cases hrun
    exact ⟨rfl, rfl, rfl⟩
  | cons event events ih =>
    obtain ⟨c₁, out, rest, hstep, hrest, -⟩ := Client.run_cons_eq_ok.mp hrun
    have hhead := Client.step_sameArgs hstep
    have htail := ih hrest
    exact ⟨htail.type.trans hhead.type, htail.sendString.trans hhead.sendString,
      htail.recvString.trans hhead.recvString⟩

def sampleString : CStr 100 := ⟨lit "client1", by decide, by decide⟩

end VpnP2p.Punch
