import VpnP2p.Server.Register

/-!
# Requests and replies

`thread_receive_pack` takes one message from a connection and compares its type with three
names. Of the three requests that the clients send, one is spelled differently, and one
arrives under a type that `recv_msg_over_socket` has put in place of its own. The regular
update gets a reply, as long as the size that nobody assigned happens to fit; but the name
of that reply is longer than the field it is sent in.
-/

namespace VpnP2p.Server

open Foundation NodeInfo Util

/-! ## The server -/

/-- `handle_regular_update`, with the message it sends. -/
def handleRegularUpdate : Result Message := do
  let reply_msg := Message.echo regularUpdateReturn (by decide) (by decide)
  let _ ← sendMsgOverSocket reply_msg
  .ok reply_msg

/-- `handle_width_test`, with the message it sends. -/
def handleWidthTest : Result Message := do
  let reply_msg := Message.echo widthTestReturn (by decide) (by decide)
  let _ ← sendMsgOverSocket reply_msg
  .ok reply_msg

/-- The branches of `thread_receive_pack`, with the messages sent. -/
def dispatch (s : ServerState) (msg : Message) : Result (ServerState × List Message) := do
  if ← strcmpEq msg.type.bytes register then
    let (s, reply_msg) ← handleRegister s msg
    .ok (s, [reply_msg])
  else if ← strcmpEq msg.type.bytes regularUpdate then
    let reply_msg ← handleRegularUpdate
    .ok (s, [reply_msg])
  else if ← strcmpEq msg.type.bytes regularUpdateReturn then
    let reply_msg ← handleWidthTest
    .ok (s, [reply_msg])
  else .ok (s, [])

/-- The body of the loop in `thread_receive_pack`, for one connection. -/
def receivePack (s : ServerState) (new_server_socket_fd : Socket) :
    Result (ServerState × List Message) := do
  let (ret, msg) ← recvMsgOverSocket (.raw 0) new_server_socket_fd
  if ret < 0 then .ok (s, []) else dispatch s msg

/-! ## The clients -/

/-- What a client sends, with what its memory holds where it assigned nothing. -/
inductive Request where
  | register (infofile : Text)
  | regularUpdate (size : Int32)
  | widthTest (bigBuf : CArray fileSize) (behind : CArray 9)

/-- The sends of `register_node`, and of the two halves of `router_refresh`. -/
def Request.sends : Request → Result (List Buf)
  | .register infofile => do
    let message := Message.raw 0
    let type ← message.type.store (lit "Register")
    let message ← readFileToBuf { message with type := type } (some infofile)
    sendMsgOverSocket message
  | .regularUpdate size => do
    let msg := Message.raw size
    let type ← msg.type.store Util.regularUpdate
    let buf ← msg.buf.store Util.regularUpdate
    sendMsgOverSocket { msg with type := type, buf := buf }
  | .widthTest bigBuf behind => .ok (sendFileOverSocket bigBuf behind)

/-- The type of the reply that a client waits for. -/
def Request.replyType : Request → Text
  | .register _ => rRegister
  | .regularUpdate _ => regularUpdateReturn
  | .widthTest _ _ => widthTestReturn

/-- The request, delivered whole, gets one reply, whose type on the wire is the right one, and
takes the server from `s` to `s'`; a register request runs `handle_register`, another changes
nothing. -/
def Answered (s : ServerState) (r : Request) (s' : ServerState) : Prop :=
  ∃ sends reply_msg length type body, r.sends = .ok sends ∧
    receivePack s (.whole sends) = .ok (s', [reply_msg]) ∧
    sendMsgOverSocket reply_msg = .ok [length, type, body] ∧ readString type = .ok r.replyType ∧
    match r with
    | .register _ => ∃ msg, recvMsgOverSocket (.raw 0) (.whole sends) = .ok (0, msg) ∧
        handleRegister s msg = .ok (s', reply_msg)
    | _ => s'.file = s.file ∧ s'.localNode = s.localNode

/-- The requests come one after the other, each on its own connection. -/
def AllAnswered : ServerState → List Request → Prop
  | _, [] => True
  | s, r :: rs => ∃ s', Answered s r s' ∧ AllAnswered s' rs

/-! ## One connection -/

section Connection

variable {s s' : ServerState} {replies : List Message}

theorem dispatch_regularUpdate {msg : Message}
    (h : readString msg.type.bytes = .ok Util.regularUpdate) :
    dispatch s msg = .ok (s, [.echo regularUpdateReturn (by decide) (by decide)]) := by
  have hsend := (carries_echo (t := regularUpdateReturn) (by decide) (by decide)).send_eq
  have h1 : Util.regularUpdate ≠ Util.register := by decide
  rw [dispatch, strcmpEq_of_readString h (by decide), strcmpEq_of_readString h (by decide),
    decide_eq_false h1, decide_eq_true rfl]
  simp only [ok_bind, Bool.false_eq_true, if_false, if_true, handleRegularUpdate, hsend]

/-- A type that the server does not know gets no reply. -/
theorem dispatch_unknown {msg : Message} {t : Text} (h : readString msg.type.bytes = .ok t)
    (ht : t ∉ [Util.register, Util.regularUpdate, regularUpdateReturn]) :
    dispatch s msg = .ok (s, []) := by
  simp only [List.mem_cons, List.not_mem_nil, or_false, not_or] at ht
  rw [dispatch, strcmpEq_of_readString h (by decide), strcmpEq_of_readString h (by decide),
    strcmpEq_of_readString h (by decide), decide_eq_false ht.1, decide_eq_false ht.2.1,
    decide_eq_false ht.2.2]
  rfl

/-- What the server dispatches on when a frame came whole. -/
theorem receivePack_inv {length type body : Buf} {t : Text} (hlength : length.length = 4)
    (htype : type.length = 20) (ht : readString type = .ok t)
    (hrun : receivePack s (.whole [length, type, body]) = .ok (s', replies)) :
    ∃ msg, recvMsgOverSocket (.raw 0) (.whole [length, type, body]) = .ok (0, msg) ∧
      dispatch s msg = .ok (s', replies) ∧
      readString msg.type.bytes = .ok (if t = widthTest then widthTestReturn else t) := by
  have hrecv₁ := Foundation.recv_whole length [type, body]
  have hrecv₂ := Foundation.recv_whole type [body]
  rw [hlength] at hrecv₁
  rw [htype] at hrecv₂
  obtain ⟨⟨ret, msg⟩, hrecv, hrun⟩ := bind_eq_ok.mp hrun
  obtain ⟨rfl, hread⟩ := recvMsgOverSocket_inv hrecv₁ hrecv₂ (by simp [recv, Socket.whole]) hrecv
  refine ⟨msg, hrecv, hrun, ?_⟩
  rw [received_full htype.symm, strcmpEq_of_readString ht (by decide)] at hread
  rcases hread with ⟨hcmp, hstore, -⟩ | ⟨hcmp, -, name, -, -, -, -, -, -, hname, hstore⟩
  · have hwidth : t = widthTest := by simpa using hcmp
    rw [if_pos hwidth]
    exact CArray.readString_store (by decide) hstore
  · have hother : t ≠ widthTest := by simpa using hcmp
    rw [ht] at hname
    cases hname
    rw [if_neg hother]
    exact CArray.readString_store (readString_ok ht).1 hstore

theorem not_answered_unknown {length type body : Buf} {t : Text} (hlength : length.length = 4)
    (htype : type.length = 20) (ht : readString type = .ok t)
    (hunknown : (if t = widthTest then widthTestReturn else t) ∉
      [Util.register, Util.regularUpdate, regularUpdateReturn]) {reply_msg : Message} :
    receivePack s (.whole [length, type, body]) ≠ .ok (s', [reply_msg]) := by
  intro hrun
  obtain ⟨msg, -, hdispatch, hname⟩ := receivePack_inv hlength htype ht hrun
  rw [dispatch_unknown hname hunknown] at hdispatch
  cases hdispatch

/-- The server's name for a register request is not the client's. -/
theorem not_answered_register (infofile : Text) : ¬ Answered s (.register infofile) s' := by
  rintro ⟨sends, reply_msg, -, -, -, hsends, hrun, -⟩
  obtain ⟨type, htype, hsends⟩ := bind_eq_ok.mp hsends
  obtain ⟨message, hread, hsends⟩ := bind_eq_ok.mp hsends
  obtain ⟨buf, -, hmessage⟩ := bind_eq_ok.mp hread
  cases hmessage
  obtain ⟨-, rfl⟩ := sendMsgOverSocket_eq_ok.mp hsends
  have hname : readString (type.bytes.take 20) = .ok (lit "Register") :=
    readString_take (CArray.readString_store (by decide) htype) (by decide)
  exact not_answered_unknown rfl (by rw [List.length_take, type.length]; rfl) hname (by decide) hrun

/-- The receiver has put the name of the reply in place of the request's. -/
theorem not_answered_widthTest (bigBuf : CArray fileSize) (behind : CArray 9) :
    ¬ Answered s (.widthTest bigBuf behind) s' := by
  rintro ⟨sends, reply_msg, -, -, -, hsends, hrun, -⟩
  cases hsends
  have hname : readString (cbuf widthTest ++ behind.bytes) = .ok widthTest := by
    rw [cbuf, List.append_assoc]
    exact readString_append (by decide) _
  exact not_answered_unknown rfl (by rw [List.length_append, behind.length]; rfl) hname (by decide)
    hrun

/-- The message of a regular update on the wire. -/
theorem recv_regularUpdate {size : Int32} {sends : List Buf}
    (hsends : (Request.regularUpdate size).sends = .ok sends) (message : Message) :
    (0 ≤ size.toInt ∧ size.toInt ≤ bufSize) ∧ recvMsgOverSocket message (.whole sends) =
      if size.toInt < 15 then .error .outOfBounds
      else (do
        let buf ← message.buf.store Util.regularUpdate
        let type ← message.type.store Util.regularUpdate
        .ok (0, ⟨type, buf, size⟩)) := by
  obtain ⟨type, htype, hsends⟩ := bind_eq_ok.mp hsends
  obtain ⟨buf, hbuf, hsends⟩ := bind_eq_ok.mp hsends
  have hsent : sendMsgOverSocket ⟨type, buf, size⟩ = .ok sends := hsends
  have hname : readString (type.bytes.take 20) = .ok Util.regularUpdate :=
    readString_take (CArray.readString_store (by decide) htype) (by decide)
  have hbody := CArray.readString_store (by decide) hbuf
  have hlen : Util.regularUpdate.length = 14 := rfl
  have hcmp : strcmpEq (type.bytes.take 20) widthTest = .ok false :=
    (strcmpEq_of_readString hname (by decide)).trans rfl
  have hsize : 0 ≤ size.toInt ∧ size.toInt ≤ bufSize := (sendMsgOverSocket_eq_ok.mp hsent).1
  refine ⟨hsize, (recvMsgOverSocket_whole hsent hcmp).trans ?_⟩
  show (if size.toInt ≤ 0 then _ else _) = _
  by_cases hshort : size.toInt < 15
  · have hle : size.toInt.toNat ≤ Util.regularUpdate.length := by omega
    rw [if_pos hshort]
    split
    · rfl
    · rw [readString_take_short hbody hle]
      rfl
  · have hlt : Util.regularUpdate.length < size.toInt.toNat := by omega
    have hpos : ¬ size.toInt ≤ 0 := by omega
    rw [if_neg hshort, if_neg hpos, readString_take hbody hlt, hname]
    rfl

/-- A regular update whose unassigned size covers the string and stays inside the buffer is
replied to, and no other is. -/
theorem replies_regularUpdate (size : Int32) :
    (∃ sends, (Request.regularUpdate size).sends = .ok sends ∧
      receivePack s (.whole sends) = .ok (s', replies)) ↔
      (15 ≤ size.toInt ∧ size.toInt ≤ bufSize) ∧ s' = s ∧
        replies = [.echo regularUpdateReturn (by decide) (by decide)] := by
  constructor
  · rintro ⟨sends, hsends, hrun⟩
    obtain ⟨hsize, hrecv⟩ := recv_regularUpdate hsends (.raw 0)
    obtain ⟨⟨ret, msg⟩, hmsg, hrun⟩ := bind_eq_ok.mp hrun
    rw [hrecv] at hmsg
    split at hmsg
    · cases hmsg
    · rename_i hlong
      obtain ⟨buf, -, hmsg⟩ := bind_eq_ok.mp hmsg
      obtain ⟨type, htype, hmsg⟩ := bind_eq_ok.mp hmsg
      cases hmsg
      have hdispatch : dispatch s ⟨type, buf, size⟩ = .ok (s', replies) := hrun
      rw [dispatch_regularUpdate (CArray.readString_store (by decide) htype)] at hdispatch
      cases hdispatch
      exact ⟨⟨by omega, hsize.2⟩, rfl, rfl⟩
  · rintro ⟨⟨hlong, hfits⟩, rfl, rfl⟩
    obtain ⟨type, htype, -⟩ :=
      (CArray.raw typeSize).store_fits (s := Util.regularUpdate) (by decide)
    obtain ⟨buf, hbuf, -⟩ := (CArray.raw bufSize).store_fits (s := Util.regularUpdate) (by decide)
    have h0 : 0 ≤ size.toInt := by omega
    have hsends : (Request.regularUpdate size).sends = sendMsgOverSocket ⟨type, buf, size⟩ := by
      simp only [Request.sends, Message.raw, htype, hbuf, ok_bind]
    have hsent : sendMsgOverSocket ⟨type, buf, size⟩ = .ok _ :=
      sendMsgOverSocket_eq_ok.mpr ⟨⟨h0, hfits⟩, rfl⟩
    obtain ⟨-, hrecv⟩ := recv_regularUpdate (hsends.trans hsent) (.raw 0)
    rw [if_neg (by omega)] at hrecv
    simp only [Message.raw, htype, hbuf, ok_bind] at hrecv
    have hdispatch : dispatch s' ⟨type, buf, size⟩ = .ok _ :=
      dispatch_regularUpdate (CArray.readString_store (by decide) htype)
    refine ⟨_, hsends.trans hsent, ?_⟩
    rw [receivePack, Message.raw, hrecv]
    exact hdispatch

/-- The reply has the name in its own field of forty bytes, and twenty of them are sent. -/
theorem not_answered_regularUpdate (size : Int32) : ¬ Answered s (.regularUpdate size) s' := by
  rintro ⟨sends, reply_msg, length, type, body, hsends, hrun, hreply, htype, -⟩
  obtain ⟨-, -, hreplies⟩ := (replies_regularUpdate size).mp ⟨sends, hsends, hrun⟩
  obtain rfl : reply_msg = .echo regularUpdateReturn (by decide) (by decide) :=
    List.singleton_inj.mp hreplies
  have hcarries := carries_echo (t := regularUpdateReturn) (by decide) (by decide)
  obtain ⟨-, hframe⟩ := sendMsgOverSocket_eq_ok.mp hreply
  obtain ⟨-, rfl, -⟩ : length = _ ∧ type = _ ∧ body = _ := by simpa using hframe
  rw [readString_take_short hcarries.type (by decide)] at htype
  cases htype

end Connection

/-! ## Sequences of requests -/

theorem not_answered {s s' : ServerState} (r : Request) : ¬ Answered s r s' := by
  cases r with
  | register infofile => exact not_answered_register infofile
  | regularUpdate size => exact not_answered_regularUpdate size
  | widthTest bigBuf behind => exact not_answered_widthTest bigBuf behind

/-- No request gets its reply, so only the empty sequence has all of its replies. -/
theorem allAnswered_iff (s : ServerState) (rs : List Request) : AllAnswered s rs ↔ rs = [] := by
  cases rs with
  | nil => simp [AllAnswered]
  | cons r rs =>
    constructor
    · rintro ⟨s', hr, -⟩
      exact absurd hr (not_answered r)
    · intro h
      cases h

/-- A node that registers with the sample infofile waits for a reply that never comes. -/
theorem not_allAnswered_register : ¬ AllAnswered sampleServer [.register (encode sampleA)] := by
  rintro ⟨s', hanswered, -⟩
  exact not_answered_register (encode sampleA) hanswered

end VpnP2p.Server
