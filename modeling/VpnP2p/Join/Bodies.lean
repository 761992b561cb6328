import VpnP2p.Join.Recheck
import VpnP2p.Server.Dispatch
import VpnP2p.Util.Transfer

/-!
# The sizes of the bodies that are sent

`recv_msg_over_socket` receives `size` bytes into an array of that size and takes them for
a string, so the size has to count the NUL. Of the six functions that send a message, two
take it from `sizeof` of a literal and one from the length of a file; the reply to a
register message leaves the NUL out, a recheck is sent with 0, and a regular update with
whatever is there.
-/

namespace VpnP2p.Join

open Foundation NodeInfo Util Server

/-- A function that sends a message, with what the message is made of; `handle_register`
replies once its merge has led to `s`. -/
inductive Sender where
  | registerNode (infofile : Text)
  | sendRecheckMsg
  | routerRefresh
  | handleRegister (s : ServerState)
  | handleRegularUpdate
  | handleWidthTest

/-- What is passed to `send_msg_over_socket`; `stale` is what the memory of the message
had in the place of the size. -/
def Sender.message (stale : Int32) : Sender → Result Message
  | .registerNode infofile => do
    let message := Message.raw stale
    let type ← message.type.store (lit "Register")
    readFileToBuf { message with type := type } (some infofile)
  | .sendRecheckMsg => do
    let type ← (CArray.zero typeSize).store (lit "Recheck")
    .ok ⟨type, .zero bufSize, 0⟩
  | .routerRefresh => do
    let msg := Message.raw stale
    let type ← msg.type.store Util.regularUpdate
    let buf ← msg.buf.store Util.regularUpdate
    .ok { msg with type := type, buf := buf }
  | .handleRegister s => registerReply s
  | .handleRegularUpdate => Server.handleRegularUpdate
  | .handleWidthTest => Server.handleWidthTest

/-- The size counts `body` and its NUL: a copy of as many bytes ends inside them, and one
byte less is the text. -/
structure Complete (m : Message) (body : Text) : Prop where
  buf : readString m.buf.bytes = .ok body
  size : m.size.toInt = body.length + 1
  received : readString (m.buf.bytes.take m.size.toInt.toNat) = .ok body
  stored : ∀ unwritten, writeBufToFile unwritten m (sizeT (m.size - 1)) = .ok body

/-- Whatever was in memory, the function sends a complete string. -/
def CompleteBody (sender : Sender) : Prop :=
  ∃ body, ∀ stale, ∃ m, sender.message stale = .ok m ∧ Complete m body

/-! ## What the functions send -/

theorem sends_registerNode (infofile : Text) : (Request.register infofile).sends =
    (Sender.registerNode infofile).message 0 >>= sendMsgOverSocket := rfl

theorem sends_routerRefresh (stale : Int32) : (Request.regularUpdate stale).sends =
    Sender.routerRefresh.message stale >>= sendMsgOverSocket := rfl

theorem sends_sendRecheckMsg (stale : Int32) :
    sendRecheckMsg = Sender.sendRecheckMsg.message stale >>= sendMsgOverSocket := rfl

theorem sends_handleRegister {s s' : ServerState} {msg reply_msg : Message}
    (h : Server.handleRegister s msg = .ok (s', reply_msg)) (stale : Int32) :
    (Sender.handleRegister s').message stale = .ok reply_msg := by
  obtain ⟨t, -, h⟩ := bind_eq_ok.mp h
  obtain ⟨m, hm, h⟩ := bind_eq_ok.mp h
  obtain ⟨sends, -, h⟩ := bind_eq_ok.mp h
  cases h
  exact hm

/-! ## Which of them are complete -/

/-- The senders that count the NUL. -/
def Sender.CountsNul : Sender → Prop
  | .registerNode infofile => infofile.length < bufSize ∧ 0 ∉ infofile
  | .sendRecheckMsg => False
  | .routerRefresh => False
  | .handleRegister _ => False
  | .handleRegularUpdate => True
  | .handleWidthTest => True

theorem complete_of_size {m : Message} {body : Text} (hbuf : readString m.buf.bytes = .ok body)
    (hsize : m.size.toInt = body.length + 1) : Complete m body where
  buf := hbuf
  size := hsize
  received := by
    apply readString_take hbuf
    rw [hsize]
    omega
  stored := by
    intro unwritten
    obtain ⟨rest, hrest⟩ := (readString_ok hbuf).2
    rw [sizeT_pred hsize]
    exact writeBufToFile_prefix (CArray.length_lt_of_readString hbuf) hrest

/-- A reply that repeats its type is sent as it is, and it is complete. -/
theorem completeBody_of_echo {t : Text} {sender : Sender} (hnul : 0 ∉ t)
    (hlen : t.length < typeSize)
    (hm : ∀ stale, sender.message stale =
      (sendMsgOverSocket (.echo t hnul hlen) >>= fun _ => .ok (.echo t hnul hlen))) :
    CompleteBody sender := by
  have hcarries := carries_echo hnul hlen
  refine ⟨t, fun stale => ⟨_, ?_, complete_of_size hcarries.buf hcarries.size⟩⟩
  rw [hm, hcarries.send_eq, ok_bind]

/-- The size of a file that was read counts its NULs. -/
theorem not_mem_of_complete {message m : Message} {infofile body : Text}
    (hread : readFileToBuf message (some infofile) = .ok m) (h : Complete m body) :
    0 ∉ infofile := by
  obtain ⟨-, hbytes, hsize⟩ := readFileToBuf_eq_ok hread
  obtain ⟨hnul, rest, hrest⟩ := readString_ok h.buf
  have hlen : body.length = infofile.length := by
    have := h.size
    omega
  have htext : body = infofile := by
    rw [hbytes, cbuf, List.append_assoc] at hrest
    have hmap := (List.append_inj hrest (by simp [hlen])).1
    exact (List.map_injective_iff.mpr (Option.some_injective _) hmap).symm
  exact htext ▸ hnul

theorem completeBody_registerNode {infofile : Text} :
    CompleteBody (.registerNode infofile) ↔ infofile.length < bufSize ∧ 0 ∉ infofile := by
  constructor
  · rintro ⟨body, h⟩
    obtain ⟨m, hm, hcomplete⟩ := h 0
    obtain ⟨type, -, hread⟩ := bind_eq_ok.mp hm
    exact ⟨(readFileToBuf_eq_ok hread).1, not_mem_of_complete hread hcomplete⟩
  · rintro ⟨hlen, hnul⟩
    refine ⟨infofile, fun stale => ?_⟩
    obtain ⟨type, htype, -⟩ := (CArray.raw typeSize).store_fits (s := lit "Register") (by decide)
    obtain ⟨buf, hbuf, -⟩ := (CArray.raw bufSize).store_fits hlen
    have hm : (Sender.registerNode infofile).message stale =
        .ok ⟨type, buf, .ofNat (infofile.length + 1)⟩ := by
      simp only [Sender.message, Message.raw, htype, ok_bind, readFileToBuf, hbuf]
    have hsize : (Int32.ofNat (infofile.length + 1)).toInt = infofile.length + 1 :=
      Int32.toInt_ofNat_of_lt (by unfold bufSize at hlen; omega)
    exact ⟨_, hm, complete_of_size (CArray.readString_store hnul hbuf) hsize⟩

theorem not_completeBody_sendRecheckMsg : ¬ CompleteBody .sendRecheckMsg := by
  rintro ⟨body, h⟩
  obtain ⟨m, hm, hcomplete⟩ := h 0
  obtain ⟨type, -, hm⟩ := bind_eq_ok.mp hm
  cases hm
  have hsize : (0 : Int32).toInt = body.length + 1 := hcomplete.size
  have hzero : (0 : Int32).toInt = 0 := rfl
  omega

/-- The size of a regular update is whatever was there. -/
theorem not_completeBody_routerRefresh : ¬ CompleteBody .routerRefresh := by
  rintro ⟨body, h⟩
  obtain ⟨m, hm, hcomplete⟩ := h 0
  obtain ⟨type, -, hm⟩ := bind_eq_ok.mp hm
  obtain ⟨buf, -, hm⟩ := bind_eq_ok.mp hm
  cases hm
  have hsize : (0 : Int32).toInt = body.length + 1 := hcomplete.size
  have hzero : (0 : Int32).toInt = 0 := rfl
  omega

/-- `convert_node_to_buf` returns the length without the NUL. -/
theorem not_completeBody_handleRegister (s : ServerState) : ¬ CompleteBody (.handleRegister s) := by
  rintro ⟨body, h⟩
  obtain ⟨m, hm, hcomplete⟩ := h 0
  obtain ⟨⟨text, len⟩, hconv, hm⟩ := bind_eq_ok.mp hm
  obtain ⟨buf, hbuf, hm⟩ := bind_eq_ok.mp hm
  obtain ⟨type, -, hm⟩ := bind_eq_ok.mp hm
  cases hm
  obtain ⟨l, -, rfl, hlen, rfl⟩ := (convertNodeToBuf_eq_ok (by decide)).mp hconv
  have hread := CArray.readString_store (noNul_encode l) hbuf
  have hbody : body = encode l := Except.ok.inj (hcomplete.buf.symm.trans hread)
  have hsize : (Int32.ofNat (encode l).length).toInt = body.length + 1 := hcomplete.size
  rw [Int32.toInt_ofNat_of_lt (by unfold bufSize at hlen; omega), hbody] at hsize
  omega

/-- The size is right where it is a `sizeof`, and in a request whose infofile fits and has
no NUL; elsewhere it is wrong whatever is sent. -/
theorem completeBody_iff (sender : Sender) : CompleteBody sender ↔ sender.CountsNul := by
  cases sender with
  | registerNode infofile => exact completeBody_registerNode
  | sendRecheckMsg => exact iff_of_false not_completeBody_sendRecheckMsg id
  | routerRefresh => exact iff_of_false not_completeBody_routerRefresh id
  | handleRegister s => exact iff_of_false (not_completeBody_handleRegister s) id
  | handleRegularUpdate =>
    exact iff_of_true (completeBody_of_echo _ _ (fun _ => rfl)) trivial
  | handleWidthTest =>
    exact iff_of_true (completeBody_of_echo _ _ (fun _ => rfl)) trivial

/-- A server that knows one node. -/
def sampleKnown : ServerState where
  heap := (Heap.empty.alloc [sampleNode]).1
  file := none
  localNode := (Heap.empty.alloc [sampleNode]).2

/-- The reply to a register message, with one node to tell of. -/
theorem not_completeBody_oneNode :
    NodesAt sampleKnown.heap sampleKnown.localNode [sampleNode] ∧
      (∃ m, registerReply sampleKnown = .ok m ∧
        readString m.buf.bytes = .ok (encode [sampleNode]) ∧
        m.size.toInt = (encode [sampleNode]).length) ∧
      ¬ CompleteBody (.handleRegister sampleKnown) := by
  have hlocal : NodesAt sampleKnown.heap sampleKnown.localNode [sampleNode] :=
    Heap.empty.alloc_nodesAt [sampleNode]
  refine ⟨hlocal, ?_, not_completeBody_handleRegister sampleKnown⟩
  have hlen : (encode [sampleNode]).length < bufSize := by
    have hle := length_encode_le (l := [sampleNode]) (by simpa using sampleNode_plain.toOneLine)
    have hlines := sampleNode_fits.lines
    unfold bufSize
    omega
  have hconv := convertNodeToBuf_encode hlocal hlen
  obtain ⟨buf, hbuf, -⟩ := (CArray.zero bufSize).store_fits hlen
  obtain ⟨type, htype, -⟩ := (CArray.zero typeSize).store_fits (s := rRegister) (by decide)
  have hreply : registerReply sampleKnown =
      .ok ⟨type, buf, .ofNat (encode [sampleNode]).length⟩ := by
    simp only [registerReply, hconv, hbuf, htype, ok_bind]
  refine ⟨_, hreply, CArray.readString_store (noNul_encode _) hbuf, ?_⟩
  exact Int32.toInt_ofNat_of_lt (hlen.trans (by decide))

end VpnP2p.Join
