import VpnP2p.CronJob.ThreadRuns
import VpnP2p.Util.Transfer

/-!
# What comes of a reply

Both servers leave the NUL out of the size of their reply, and the client takes what it
received for a string. If the reply comes whole, its end is up to the memory behind the
client's array: with a NUL there the client has the nodes that the server has. If its type
comes in two pieces, the body begins with a zero of the type field, and the client has none.
Either way `register_node` writes all but the last byte of the body over the infofile.
-/

namespace VpnP2p.Join

open Foundation NodeInfo Util Server

/-! ## One `recv` -/

/-- How many of `n` bytes the next `recv` gets when there are as many. -/
def reach (arrivals : List Arrival) (n : Nat) : Option Nat :=
  match arrivals with
  | [] => some n
  | .atMost k :: _ => some (min n k)
  | .failure :: _ => none

theorem recv_reach {arrivals : List Arrival} {n k : Nat} (h : reach arrivals n = some k)
    (flight : Buf) : recv ⟨flight, arrivals⟩ n =
      (some (flight.take k), ⟨flight.drop k, arrivals.tail⟩) := by
  cases arrivals with
  | nil =>
    cases h
    rfl
  | cons arrival rest =>
    cases arrival with
    | atMost j =>
      cases h
      rfl
    | failure => cases h

theorem reach_le {arrivals : List Arrival} {n k : Nat} (h : reach arrivals n = some k) :
    k ≤ n ∧ (0 < n → 0 < k) := by
  cases arrivals with
  | nil =>
    cases h
    exact ⟨Nat.le_refl _, id⟩
  | cons arrival rest =>
    cases arrival with
    | atMost j =>
      cases h
      have := j.pos
      exact ⟨Nat.min_le_left _ _, fun hn => by omega⟩
    | failure => cases h

/-- Whether a `recv` fails is not up to how much is asked for. -/
theorem reach_of_reach {arrivals : List Arrival} {n : Nat} (h : reach arrivals n ≠ none) (m : Nat) :
    ∃ k, reach arrivals m = some k := by
  cases arrivals with
  | nil => exact ⟨m, rfl⟩
  | cons arrival rest =>
    cases arrival with
    | atMost j => exact ⟨_, rfl⟩
    | failure => exact absurd rfl h

/-! ## A reply in pieces -/

/-- The length comes in one piece, a name of `n` bytes with its NUL but without the rest of
the type field, and then something. -/
structure SplitType (n : Nat) (arrivals : List Arrival) : Prop where
  length : reach arrivals 4 = some 4
  type : ∃ k, reach arrivals.tail 20 = some k ∧ n < k ∧ k < 20
  body : reach arrivals.tail.tail 1 ≠ none

/-- Length, type and a body of `n` bytes come in one piece each. -/
structure WholeParts (n : Nat) (arrivals : List Arrival) : Prop where
  length : reach arrivals 4 = some 4
  type : reach arrivals.tail 20 = some 20
  body : reach arrivals.tail.tail n = some n

theorem wholeParts_nil (n : Nat) : WholeParts n [] := ⟨rfl, rfl, rfl⟩

/-- A name for a type that cannot be taken for a width test. -/
structure ReplyName (type : Text) : Prop where
  noNul : 0 ∉ type
  length : type.length < 20
  head : ∃ c rest, type = c :: rest ∧ c ∉ widthTest

section Pieces

variable {type text : Text} (htype : ReplyName type)

include htype

theorem typeField_eq :
    (cbuf type ++ List.replicate (typeSize - (type.length + 1)) (some 0)).take 20 =
      cbuf type ++ List.replicate (19 - type.length) (some (0 : Byte)) := by
  have hlen := htype.length
  have hcbuf : (cbuf type).length = type.length + 1 := by simp [cbuf]
  rw [List.take_append, List.take_of_length_le (by omega), List.take_replicate, hcbuf]
  congr 2
  unfold typeSize
  omega

omit htype in
/-- Behind the name and its NUL, the rest of the type field is zeros. -/
theorem drop_typeField {k : Nat} (hk : type.length < k) (hk20 : k < 20) :
    (cbuf type ++ List.replicate (19 - type.length) (some (0 : Byte))).drop k =
      some 0 :: List.replicate (19 - k) (some 0) := by
  have hcbuf : (cbuf type).length = type.length + 1 := by simp [cbuf]
  have hleft : 19 - type.length - (k - (type.length + 1)) = 19 - k + 1 := by omega
  rw [List.drop_append, List.drop_eq_nil_of_le (by omega), List.nil_append, List.drop_replicate,
    hcbuf, hleft, List.replicate_succ]

/-- Behind a length and a name that came, the body is a string if its array and what lies
behind it begin with one. -/
theorem reply_headed (hne : text ≠ []) (hlen : text.length < bufSize) (behind : Buf)
    (message : Message) {arrivals : List Arrival} {k₂ k₃ : Nat} {body : Text}
    (h₁ : reach arrivals 4 = some 4) (h₂ : reach arrivals.tail 20 = some k₂)
    (hk₂ : type.length < k₂) (h₃ : reach arrivals.tail.tail text.length = some k₃)
    (hbody : readString (received text.length
      ((((cbuf type ++ List.replicate (19 - type.length) (some 0)) ++ text.map some).drop k₂).take
        k₃) ++ behind) = .ok body)
    (hfits : body.length < bufSize) : ∃ m,
    recvMsgOverSocketOn behind message ⟨(JoinServer.frame type text).flatten, arrivals⟩ =
      .ok (0, m) ∧ readString m.buf.bytes = .ok body ∧ m.size.toInt = text.length := by
  have hpos : 0 < text.length := List.length_pos_iff.mpr hne
  have hint : (Int32.ofNat text.length).toInt = text.length :=
    Int32.toInt_ofNat_of_lt (by unfold bufSize at hlen; omega)
  let header : Buf := (htonl (.ofNat text.length)).map some
  let field := cbuf type ++ List.replicate (19 - type.length) (some (0 : Byte))
  have hflat : (JoinServer.frame type text).flatten = header ++ (field ++ text.map some) := by
    simp [JoinServer.frame, typeField_eq htype, header, field]
  have hheader : (header ++ (field ++ text.map some)).take 4 = header := List.take_left' rfl
  have hrest : (header ++ (field ++ text.map some)).drop 4 = field ++ text.map some :=
    List.drop_left' rfl
  have hlength : ntohl (received 4 ((header ++ (field ++ text.map some)).take 4)) =
      .ok (.ofNat text.length) := by
    rw [hheader, received_full (show 4 = header.length from rfl)]
    exact ntohl_htonl _
  have hname : readString (received 20 (((header ++ (field ++ text.map some)).drop 4).take k₂)) =
      .ok type := by
    rw [hrest]
    refine (readString_received htype.noNul).mpr (List.prefix_take_iff.mpr ⟨?_, ?_⟩)
    · exact (List.prefix_append _ _).trans (List.prefix_append _ _)
    · simpa [cbuf] using hk₂
  have hcmp : strcmpEq (received 20 (((header ++ (field ++ text.map some)).drop 4).take k₂))
      widthTest = .ok false := by
    obtain ⟨c, name, rfl, hc⟩ := htype.head
    rw [strcmpEq_of_readString hname (by decide), decide_eq_false]
    intro heq
    exact hc (heq ▸ List.mem_cons_self)
  have hsize : (Int32.ofNat text.length).toInt.toNat = text.length := by omega
  rw [← hsize] at h₃
  obtain ⟨buf, hbuf, -⟩ := message.buf.store_fits hfits
  obtain ⟨name, hstore, -⟩ :=
    message.type.store_fits (htype.length.trans (by decide : 20 < typeSize))
  refine ⟨⟨name, buf, .ofNat text.length⟩, ?_,
    CArray.readString_store (readString_ok hbody).1 hbuf, hint⟩
  rw [hrest] at hname
  rw [hflat, recvMsgOverSocketOn_body behind (recv_reach h₁ _) (recv_reach h₂ _) hcmp hlength
    (recv_reach h₃ _), if_neg (by omega), hsize, hrest, hbody, ok_bind, hbuf, ok_bind, hname,
    ok_bind, hstore]
  rfl

/-- A split type leaves an empty string, whatever lies behind the array. -/
theorem reply_split (hne : text ≠ []) (hlen : text.length < bufSize) (behind : Buf)
    (message : Message) {arrivals : List Arrival} (hsplit : SplitType type.length arrivals) : ∃ m,
    recvMsgOverSocketOn behind message ⟨(JoinServer.frame type text).flatten, arrivals⟩ =
      .ok (0, m) ∧ readString m.buf.bytes = .ok [] ∧ m.size.toInt = text.length := by
  obtain ⟨h₁, ⟨k₂, h₂, htype₂, hk₂⟩, h₃⟩ := hsplit
  obtain ⟨k₃, hk₃⟩ := reach_of_reach h₃ text.length
  refine reply_headed htype hne hlen behind message h₁ h₂ htype₂ hk₃ ?_ (by decide)
  have hpos₃ := (reach_le hk₃).2 (List.length_pos_iff.mpr hne)
  obtain ⟨k, rfl⟩ := Nat.exists_eq_succ_of_ne_zero (Nat.pos_iff_ne_zero.mp hpos₃)
  have hfield : k₂ ≤ (cbuf type ++ List.replicate (19 - type.length) (some (0 : Byte))).length := by
    simp only [cbuf, List.length_append, List.length_map, List.length_replicate,
      List.length_singleton]
    omega
  rw [List.drop_append_of_le_length hfield, drop_typeField htype₂ hk₂]
  rfl

/-- A whole reply is the text, if the memory behind the array begins with a NUL. -/
theorem reply_whole (hne : text ≠ []) (hlen : text.length < bufSize) (hnul : 0 ∉ text)
    (rest : Buf) (message : Message) {arrivals : List Arrival}
    (hwhole : WholeParts text.length arrivals) : ∃ m,
    recvMsgOverSocketOn (some 0 :: rest) message
        ⟨(JoinServer.frame type text).flatten, arrivals⟩ = .ok (0, m) ∧
      readString m.buf.bytes = .ok text ∧ m.size.toInt = text.length := by
  obtain ⟨h₁, h₂, h₃⟩ := hwhole
  refine reply_headed htype hne hlen _ message h₁ h₂ htype.length h₃ ?_ hlen
  have hfield : (cbuf type ++ List.replicate (19 - type.length) (some (0 : Byte))).length = 20 := by
    have := htype.length
    simp [cbuf]
    omega
  have hbody : ((cbuf type ++ List.replicate (19 - type.length) (some (0 : Byte))) ++
      text.map some).drop 20 = text.map some := List.drop_left' hfield
  have hmap : text.length = (text.map (some : Byte → Option Byte)).length := by simp
  rw [hbody, hmap, List.take_length, received_full rfl]
  exact readString_append hnul rest

end Pieces

/-! ## The replies of the servers -/

/-- What one of the two servers replied to a register message: `L` is what it then has. -/
inductive Replied : List Buf → List Node → Prop
  | server {s s' : ServerState} {msg reply_msg : Message} {R m : List Node} {sends : List Buf} :
      Readable s R → R ≠ [] → Decodes s msg.buf.bytes m →
      handleRegister s msg = .ok (s', reply_msg) → sendMsgOverSocket reply_msg = .ok sends →
      Replied sends (mergeNodes R m)
  | joinServer {s s' : ServerState} {fd : Socket} {R m : List Node} {sends : List Buf} :
      Readable s R → R ≠ [] → JoinServer.Brings fd (some m) →
      JoinServer.receivePack s fd = .ok (s', sends) → Replied sends (mergeNodes R m)

theorem replyName_server : ReplyName rRegister where
  noNul := by decide
  length := by decide
  head := ⟨_, _, rfl, by decide⟩

theorem replyName_joinServer : ReplyName (lit "R_Register") where
  noNul := by decide
  length := by decide
  head := ⟨_, _, rfl, by decide⟩

/-- A reply as it is sent: some nodes without their NUL, under a name of ten bytes. -/
structure Framed (sends : List Buf) (L : List Node) : Prop where
  oneLine : ∀ n ∈ L, n.OneLine
  ne : L ≠ []
  length : (encode L).length < bufSize
  sends : ∃ type, ReplyName type ∧ type.length = 10 ∧ sends = JoinServer.frame type (encode L)

theorem Replied.framed {sends : List Buf} {L : List Node} (h : Replied sends L) :
    Framed sends L := by
  cases h with
  | @server s s' msg reply_msg R m _ hread hne hbuf hrun hsend =>
    obtain ⟨t, hmerge, hrun⟩ := bind_eq_ok.mp hrun
    obtain ⟨reply, hreply, hrun⟩ := bind_eq_ok.mp hrun
    obtain ⟨_, -, hrun⟩ := bind_eq_ok.mp hrun
    cases hrun
    obtain ⟨hstored, hlocal⟩ := hread.handled hne hbuf hmerge
    obtain ⟨hlen, -, hframe⟩ := CronJob.registerReply_inv hlocal hreply
    rw [hframe] at hsend
    exact ⟨hstored.oneLine, hstored.ne, hlen, rRegister, replyName_server, rfl,
      (Except.ok.inj hsend).symm⟩
  | @joinServer s s' fd R m _ hread hne hfd hrun =>
    obtain ⟨-, hanswer, hstored, hsends⟩ := JoinServer.receivePack_inv hread hne hfd hrun
    exact ⟨hstored.oneLine, hstored.ne, hanswer.length, lit "R_Register", replyName_joinServer,
      rfl, hsends⟩

theorem length_encode_pos {L : List Node} (hne : L ≠ []) : 1 < (encode L).length := by
  cases L with
  | nil => exact absurd rfl hne
  | cons n L => simp [encode, nodeLines, headLines, lit]

/-! ## What is received -/

/-- What comes over a connection, and what lies behind the array that it comes into. -/
structure Connection where
  reply : Socket
  behind : Buf

/-- Nothing is known of what lies there. -/
def Connection.bare (reply : Socket) : Connection := ⟨reply, []⟩

/-- What `register_node` makes of a connection: nothing if there is none or a `recv` fails, no
node if the type of a reply is split, and the nodes of a reply that comes whole in front of a
NUL, as long as they fit the decoder. -/
inductive Comes : Option Connection → Option (List Node) → Prop
  | unconnected : Comes none none
  | failed {c : Connection} {ret : Int32} {m : Message} :
      recvMsgOverSocketOn c.behind (.raw 0) c.reply = .ok (ret, m) → ret < 0 → Comes (some c) none
  | split {sends : List Buf} {L : List Node} {arrivals : List Arrival} (behind : Buf) :
      Replied sends L → SplitType 10 arrivals →
      Comes (some ⟨⟨sends.flatten, arrivals⟩, behind⟩) (some [])
  | whole {sends : List Buf} {L : List Node} {arrivals : List Arrival} (rest : Buf) :
      Replied sends L → WholeParts (encode L).length arrivals → FitsDecoder L →
      Comes (some ⟨⟨sends.flatten, arrivals⟩, some 0 :: rest⟩) (some L)

/-- The message brings the list `R`, and its size that of the body. -/
structure Received (m : Message) (R : List Node) : Prop where
  oneLine : ∀ n ∈ R, n.OneLine
  buf : readString m.buf.bytes = .ok (encode R)
  pos : 1 < m.size.toInt
  size : m.size.toInt < bufSize
  body : R ≠ [] → m.size.toInt = (encode R).length

section Replied

variable {sends : List Buf} {L : List Node} {arrivals : List Arrival} (h : Replied sends L)

include h

theorem Replied.split (behind : Buf) (hsplit : SplitType 10 arrivals) : ∃ m,
    recvMsgOverSocketOn behind (.raw 0) ⟨sends.flatten, arrivals⟩ = .ok (0, m) ∧
      Received m [] := by
  obtain ⟨hlines, hne, hlen, type, htype, hname, rfl⟩ := h.framed
  have hpos := length_encode_pos hne
  rw [← hname] at hsplit
  obtain ⟨m, hrecv, hbuf, hsize⟩ := reply_split htype (List.ne_nil_of_length_pos (by omega)) hlen
    behind (.raw 0) hsplit
  exact ⟨m, hrecv, by simp, hbuf, by omega, by omega, fun hne => absurd rfl hne⟩

theorem Replied.whole (rest : Buf) (hwhole : WholeParts (encode L).length arrivals) : ∃ m,
    recvMsgOverSocketOn (some 0 :: rest) (.raw 0) ⟨sends.flatten, arrivals⟩ = .ok (0, m) ∧
      Received m L := by
  obtain ⟨hlines, hne, hlen, type, htype, -, rfl⟩ := h.framed
  have hpos := length_encode_pos hne
  obtain ⟨m, hrecv, hbuf, hsize⟩ := reply_whole htype (List.ne_nil_of_length_pos (by omega)) hlen
    (noNul_encode L) rest (.raw 0) hwhole
  exact ⟨m, hrecv, hlines, hbuf, by omega, by omega, fun _ => hsize⟩

end Replied

theorem Comes.received {c : Connection} {R : List Node} (h : Comes (some c) (some R)) : ∃ m,
    recvMsgOverSocketOn c.behind (.raw 0) c.reply = .ok (0, m) ∧ Received m R ∧ FitsDecoder R := by
  cases h with
  | split behind hreplied hsplit =>
    obtain ⟨m, hrecv, hm⟩ := hreplied.split behind hsplit
    exact ⟨m, hrecv, hm, by decide, by simp⟩
  | whole rest hreplied hwhole hfits =>
    obtain ⟨m, hrecv, hm⟩ := hreplied.whole rest hwhole
    exact ⟨m, hrecv, hm, hfits⟩

theorem Comes.oneLine {target : Option Connection} {R : List Node} (h : Comes target (some R)) :
    ∀ n ∈ R, n.OneLine := by
  cases target with
  | none => cases h
  | some c =>
    obtain ⟨m, -, hm, -⟩ := h.received
    exact hm.oneLine

/-! ## What is written -/

/-- The text begins with a NUL, and fits a message. -/
structure Spoilt (text : Text) : Prop where
  nul : ∃ rest, text = 0 :: rest
  fits : text.length < bufSize

/-- What `register_node` leaves of the infofile: the nodes of a reply without their last
newline, or the NUL of an empty body and what nobody wrote. -/
def Overwritten (R : List Node) (text : Text) : Prop :=
  if R = [] then Spoilt text else text = (encode R).dropLast ∧ (encode R).length < bufSize

theorem Overwritten.length_lt {R : List Node} {text : Text} (h : Overwritten R text) :
    text.length < bufSize := by
  unfold Overwritten at h
  split at h
  · exact h.fits
  · rw [h.1, List.length_dropLast]
    omega

theorem Received.write {m : Message} {R : List Node} (h : Received m R) (stale : Nat → Byte) :
    ∃ text, writeBufToFile stale m (sizeT (m.size - 1)) = .ok text ∧ Overwritten R text := by
  have hpos := h.pos
  have hsize := h.size
  obtain ⟨n, hn⟩ : ∃ n : Nat, m.size.toInt = n + 1 + 1 := ⟨m.size.toInt.toNat - 2, by omega⟩
  have hwritten : sizeT (m.size - 1) = n + 1 := sizeT_pred hn
  rw [hwritten]
  obtain ⟨-, rest, hrest⟩ := readString_ok h.buf
  by_cases hR : R = []
  · subst hR
    refine ⟨_, if_pos (by omega), ?_⟩
    rw [Overwritten, if_pos rfl]
    refine ⟨?_, ?_⟩
    · have hempty : encode [] = [] := rfl
      rw [hrest, hempty, List.map_nil, List.nil_append, List.take_succ_cons, List.mapIdx_cons]
      exact ⟨_, rfl⟩
    · rw [List.length_mapIdx, List.length_take]
      omega
  · have hbody := h.body hR
    have hlen : n + 1 = (encode R).dropLast.length := by
      rw [List.length_dropLast]
      omega
    have hne : encode R ≠ [] := List.ne_nil_of_length_pos (by omega)
    have hbytes : m.buf.bytes = (encode R).dropLast.map some ++
        (some ((encode R).getLast hne) :: some 0 :: rest) := by
      rw [hrest]
      conv_lhs => rw [← List.dropLast_append_getLast hne]
      simp
    refine ⟨(encode R).dropLast, ?_, ?_⟩
    · rw [hlen]
      exact writeBufToFile_prefix (by omega) hbytes
    · rw [Overwritten, if_neg hR]
      exact ⟨rfl, by omega⟩

/-! ## Sending -/

theorem length_lt_of_sendInfofile {text : Text} {sends : List Buf}
    (h : sendInfofile (some text) = .ok sends) : text.length < bufSize := by
  obtain ⟨type, -, h⟩ := bind_eq_ok.mp h
  obtain ⟨m, hread, -⟩ := bind_eq_ok.mp h
  exact (readFileToBuf_eq_ok hread).1

/-- The reply of the sample server to a second node. -/
theorem sample_replied : ∃ sends, Replied sends (sampleNodes [123, 124]) := by
  have hlines : ∀ n ∈ sampleNodes [124], n.OneLine :=
    fun n hn => (sampleNodes_plain [124] n hn).toOneLine
  obtain ⟨request, -, hfd⟩ := JoinServer.brings_register hlines (.encode _)
    (JoinServer.length_encode_lt hlines (by decide))
  have hmerged : mergeNodes (sampleA.map Node.stripped) (sampleNodes [124]) =
      sampleNodes [123, 124] := by
    rw [map_stripped_of_plain sound_sampleA.plain]
    decide
  have hmergedLines : ∀ n ∈ sampleNodes [123, 124], n.OneLine :=
    fun n hn => (sampleNodes_plain [123, 124] n hn).toOneLine
  have hanswer : JoinServer.Answerable (mergeNodes (sampleA.map Node.stripped)
      (sampleNodes [124])) := by
    rw [hmerged]
    exact ⟨JoinServer.length_encode_lt hmergedLines (by decide), sampleNodes_printable _⟩
  have hread := sampleServer_stored.readable
  have hne := sampleServer_stored.stripped_ne
  obtain ⟨s, sends, hrun⟩ := JoinServer.receivePack_total hread hne hfd
    (sampleNodes_fits (by decide) (by decide)) hanswer
  have hreplied := Replied.joinServer hread hne hfd hrun
  rw [hmerged] at hreplied
  exact ⟨sends, hreplied⟩

/-- It comes whole, in front of a NUL. -/
theorem sample_comes : ∃ c : Connection, Comes (some c) (some (sampleNodes [123, 124])) := by
  obtain ⟨sends, hreplied⟩ := sample_replied
  exact ⟨_, .whole [] hreplied (wholeParts_nil _) (sampleNodes_fits (by decide) (by decide))⟩

end VpnP2p.Join
