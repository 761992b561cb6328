import VpnP2p.Server.Dispatch

/-!
# Frames in pieces

TCP hands a frame over in pieces of its own choosing, and `recv_msg_over_socket` asks for
each part once and looks only for a negative return value. A part that comes in two
pieces, or not at all, therefore leaves an array half written and the next part out of
step; the function has no way to notice that the peer has closed.
-/

namespace VpnP2p.Server

open Foundation Util

/-! ## Three reads -/

/-- The connection still has `flight` to deliver; then the peer has closed. The three
calls of `recv` get at most `k₁`, `k₂` and `k₃` bytes. -/
def segmented (flight : Buf) (k₁ k₂ k₃ : ℕ+) : Socket :=
  ⟨flight, [.atMost k₁, .atMost k₂, .atMost k₃]⟩

/-- What framing promises: with all bytes of the frame, the message; with only the first
`n` of them, -1, and the server as it was. -/
def FrameKept (m message : Message) (t body : Text) (s : ServerState) (n : Nat) (k₁ k₂ k₃ : ℕ+) :
    Prop :=
  ∃ sends, sendMsgOverSocket m = .ok sends ∧
    (sends.flatten.length ≤ n →
      ∃ m', recvMsgOverSocket message (segmented sends.flatten k₁ k₂ k₃) = .ok (0, m') ∧
        m'.Carries t body ∧ m'.size = m.size) ∧
    (n < sends.flatten.length →
      (∃ m', recvMsgOverSocket message (segmented (sends.flatten.take n) k₁ k₂ k₃) =
        .ok (-1, m')) ∧
      ∃ s' replies, receivePack s (segmented (sends.flatten.take n) k₁ k₂ k₃) = .ok (s', replies) ∧
        s'.file = s.file ∧ s'.localNode = s.localNode)

/-- The first read gets the length, the second the name of the type with its NUL, and the
third the body with its NUL: the second stops in front of it, or else in front of bytes of
the type field that happen to be the same. -/
structure InStep (m : Message) (t body : Text) (k₁ k₂ k₃ : ℕ+) : Prop where
  length : 4 ≤ (k₁ : Nat)
  type : t.length < k₂
  between : cbuf body <+: (m.type.bytes.take 20).drop k₂ ++ cbuf body
  body : body.length < k₃

section Segments

variable {m message : Message} {t body : Text} {k₁ k₂ k₃ : ℕ+}

/-- What the three reads get of a frame whose length comes in one piece. -/
theorem recv_frame (k₂ k₃ : ℕ+) (length type body : Buf) (hlength : length.length = 4)
    (htype : type.length = 20) (hk : 4 ≤ (k₁ : Nat)) :
    recv (segmented (length ++ (type ++ body)) k₁ k₂ k₃) 4 =
      (some length, ⟨type ++ body, [.atMost k₂, .atMost k₃]⟩) ∧
    ∀ n, recv ⟨type ++ body, [.atMost k₂, .atMost k₃]⟩ 20 =
        (some ((type ++ body).take (min 20 k₂)), ⟨type.drop k₂ ++ body, [.atMost k₃]⟩) ∧
      recv ⟨type.drop k₂ ++ body, [.atMost k₃]⟩ n =
        (some ((type.drop k₂ ++ body).take (min n k₃)),
          ⟨(type.drop k₂ ++ body).drop (min n k₃), []⟩) := by
  have hdrop : (type ++ body).drop (min 20 k₂) = type.drop k₂ ++ body := by
    have hle : min 20 (k₂ : Nat) ≤ type.length := by omega
    rw [List.drop_append_of_le_length hle]
    rcases Nat.le_total k₂ 20 with h | h
    · rw [Nat.min_eq_right h]
    · rw [Nat.min_eq_left h, List.drop_eq_nil_of_le (Nat.le_of_eq htype),
        List.drop_eq_nil_of_le (htype ▸ h)]
  refine ⟨recv_atMost _ ?_, fun n => ⟨?_, rfl⟩⟩
  · rw [Nat.min_eq_left hk, hlength]
  · rw [← hdrop]
    rfl

/-- Where no call of `recv` fails, the function returns 0 if it returns, however little
arrived. -/
theorem ret_eq_zero {flight : Buf} {ret : Int32} {m' : Message}
    (hrun : recvMsgOverSocket message (segmented flight k₁ k₂ k₃) = .ok (ret, m')) : ret = 0 := by
  have hrecv : recv (segmented flight k₁ k₂ k₃) 4 = (some (flight.take (min 4 k₁)),
      ⟨flight.drop (min 4 k₁), [.atMost k₂, .atMost k₃]⟩) := rfl
  exact (recvMsgOverSocket_inv hrecv rfl (fun _ => by simp [recv]) hrun).1

theorem frame_length (m : Message) (body : Text) :
    [(htonl m.size).map some, m.type.bytes.take 20, cbuf body].flatten.length =
      body.length + 25 := by
  simp only [List.flatten_cons, List.flatten_nil, List.append_nil, List.length_append,
    List.length_map, htonl_length, length_take_type, cbuf, List.length_singleton]
  omega

/-- A closed connection is never reported. -/
theorem not_frameKept_closed (h : m.Carries t body) {n : Nat} (hn : n < body.length + 25)
    (s : ServerState) : ¬ FrameKept m message t body s n k₁ k₂ k₃ := by
  rintro ⟨sends, hsend, -, hearly⟩
  rw [h.send_eq] at hsend
  cases hsend
  rw [frame_length] at hearly
  obtain ⟨⟨m', hrun⟩, -⟩ := hearly hn
  exact absurd (ret_eq_zero hrun) (by decide)

/-- A whole frame whose reads are in step comes through. -/
theorem recv_inStep (h : m.Carries t body) (hne : t ≠ widthTest) (ht : t.length < 20)
    (hstep : InStep m t body k₁ k₂ k₃) (message : Message) :
    ∃ m', recvMsgOverSocket message (segmented
        ((htonl m.size).map some ++ (m.type.bytes.take 20 ++ cbuf body)) k₁ k₂ k₃) = .ok (0, m') ∧
      m'.Carries t body ∧ m'.size = m.size := by
  have hnul := (readString_ok h.type).1
  have hbody := (readString_ok h.buf).1
  obtain ⟨hrecv₁, hrest⟩ := recv_frame k₂ k₃ ((htonl m.size).map some)
    (m.type.bytes.take 20) (cbuf body) rfl (length_take_type m) hstep.length
  obtain ⟨hrecv₂, hrecv₃⟩ := hrest m.size.toInt.toNat
  have hname : readString (received 20 ((m.type.bytes.take 20 ++ cbuf body).take (min 20 k₂))) =
      .ok t := by
    refine (readString_received hnul).mpr (List.prefix_take_iff.mpr ⟨?_, ?_⟩)
    · obtain ⟨rest, hrest⟩ := (readString_ok (readString_take h.type ht)).2
      refine List.IsPrefix.trans ⟨rest, ?_⟩ (List.prefix_append _ _)
      rw [hrest, cbuf, List.append_assoc]
      rfl
    · have := hstep.type
      simp only [cbuf, List.length_append, List.length_map, List.length_singleton]
      omega
  have hread : readString (received m.size.toInt.toNat
      (((m.type.bytes.take 20).drop k₂ ++ cbuf body).take (min m.size.toInt.toNat k₃))) =
      .ok body := by
    refine (readString_received hbody).mpr (List.prefix_take_iff.mpr ⟨hstep.between, ?_⟩)
    have := hstep.body
    rw [h.toNat_size]
    simp only [cbuf, List.length_append, List.length_map, List.length_singleton]
    omega
  have hcmp := strcmpEq_of_readString hname (t := widthTest) (by decide)
  rw [decide_eq_false hne] at hcmp
  have hpos : ¬ m.size.toInt ≤ 0 := by
    rw [h.size]
    omega
  obtain ⟨buf, hbuf, -⟩ := message.buf.store_fits (CArray.length_lt_of_readString h.buf)
  obtain ⟨type, htype, -⟩ := message.type.store_fits (CArray.length_lt_of_readString h.type)
  refine ⟨⟨type, buf, m.size⟩, ?_, ⟨CArray.readString_store hnul htype,
    CArray.readString_store hbody hbuf, h.size⟩, rfl⟩
  rw [recvMsgOverSocket_body hrecv₁ hrecv₂ hcmp (ntohl_htonl m.size) hrecv₃, if_neg hpos, hread,
    ok_bind, hbuf, ok_bind, hname, ok_bind, htype]
  rfl

/-- And only then. -/
theorem inStep_of_recv {m' : Message} (hrun : recvMsgOverSocket message (segmented
      ((htonl m.size).map some ++ (m.type.bytes.take 20 ++ cbuf body)) k₁ k₂ k₃) = .ok (0, m'))
    (h' : m'.Carries t body) : InStep m t body k₁ k₂ k₃ := by
  let frame := (htonl m.size).map some ++ (m.type.bytes.take 20 ++ cbuf body)
  have hrecv : recv (segmented frame k₁ k₂ k₃) 4 = (some (frame.take (min 4 k₁)),
      ⟨frame.drop (min 4 k₁), [.atMost k₂, .atMost k₃]⟩) := rfl
  have hframe : m'.size ≠ .ofNat fileSize := by
    intro hwidth
    have hle := h'.size_le
    rw [hwidth] at hle
    exact absurd hle (by decide)
  have hlength : 4 ≤ (k₁ : Nat) := by
    by_contra hshort
    obtain ⟨-, ⟨-, -, hwidth⟩ | ⟨-, hntohl, -⟩⟩ :=
      recvMsgOverSocket_inv hrecv rfl (fun _ => by simp [recv]) hrun
    · exact hframe hwidth
    · rw [ntohl_missing ((List.length_take_le _ _).trans_lt (by omega))] at hntohl
      cases hntohl
  obtain ⟨hrecv₁, hrest⟩ := recv_frame k₂ k₃ ((htonl m.size).map some)
    (m.type.bytes.take 20) (cbuf body) rfl (length_take_type m) hlength
  obtain ⟨hrecv₂, hrecv₃⟩ := hrest m'.size.toInt.toNat
  obtain ⟨-, ⟨-, -, hwidth⟩ | ⟨-, -, name, body', got, -, hgot, hread, hbuf, hname, htype⟩⟩ :=
    recvMsgOverSocket_inv hrecv₁ hrecv₂ (fun n => by rw [(hrest n).2]; simp) hrun
  · exact absurd hwidth hframe
  · rw [hrecv₃] at hgot
    cases hgot
    -- The strings that were stored are those of the frame.
    have hname' := CArray.readString_store (readString_ok hname).1 htype
    have hbody' := CArray.readString_store (readString_ok hread).1 hbuf
    rw [h'.type] at hname'
    rw [h'.buf] at hbody'
    cases hname'
    cases hbody'
    have htypePiece := (readString_received (readString_ok hname).1).mp hname
    have hbodyPiece := (readString_received (readString_ok hread).1).mp hread
    rw [List.prefix_take_iff] at htypePiece hbodyPiece
    have htypeLen := htypePiece.2
    have hbodyLen := hbodyPiece.2
    simp only [cbuf, List.length_append, List.length_map,
      List.length_singleton] at htypeLen hbodyLen
    exact ⟨hlength, by omega, hbodyPiece.1, by omega⟩

theorem flatten_frame (m : Message) (body : Text) :
    [(htonl m.size).map some, m.type.bytes.take 20, cbuf body].flatten =
      (htonl m.size).map some ++ (m.type.bytes.take 20 ++ cbuf body) := by simp

theorem inStep_of_frameKept (h : m.Carries t body) {s : ServerState} {n : Nat}
    (hn : body.length + 25 ≤ n) (hkept : FrameKept m message t body s n k₁ k₂ k₃) :
    InStep m t body k₁ k₂ k₃ := by
  obtain ⟨sends, hsend, hwhole, -⟩ := hkept
  rw [h.send_eq] at hsend
  cases hsend
  rw [frame_length, flatten_frame] at hwhole
  obtain ⟨m', hrun, hcarries, -⟩ := hwhole hn
  exact inStep_of_recv hrun hcarries

/-- A frame is received as framing promises exactly when all of it arrives, in pieces that
keep the three reads in step. -/
theorem frameKept_iff (h : m.Carries t body) (ht : t.length < 20) (hne : t ≠ widthTest)
    (message : Message) (s : ServerState) (n : Nat) (k₁ k₂ k₃ : ℕ+) :
    FrameKept m message t body s n k₁ k₂ k₃ ↔
      body.length + 25 ≤ n ∧ InStep m t body k₁ k₂ k₃ := by
  constructor
  · intro hkept
    have hn : body.length + 25 ≤ n := by
      by_contra hclosed
      exact not_frameKept_closed h (not_le.mp hclosed) s hkept
    exact ⟨hn, inStep_of_frameKept h hn hkept⟩
  · rintro ⟨hn, hstep⟩
    refine ⟨_, h.send_eq, fun _ => ?_, fun hclosed => ?_⟩
    · rw [flatten_frame]
      exact recv_inStep h hne ht hstep message
    · rw [frame_length] at hclosed
      omega

end Segments

/-- A message with the type and the body "register". -/
def sampleMessage : Message := .echo register (by decide) (by decide)

theorem sampleMessage_carries : sampleMessage.Carries register register :=
  carries_echo (by decide) (by decide)

theorem frameKept_iff_sample :
    FrameKept sampleMessage (.raw 0) register register sampleServer 33 4 20 9 ↔
      register.length + 25 ≤ 33 ∧ InStep sampleMessage register register 4 20 9 :=
  frameKept_iff sampleMessage_carries (by decide) (by decide) (.raw 0) sampleServer 33 4 20 9

/-- It is lost when its body comes in two pieces, and when the peer closes in front of
the body nobody is told. -/
theorem not_frameKept_pieces :
    ¬ FrameKept sampleMessage (.raw 0) register register sampleServer 33 4 20 1 ∧
      ¬ FrameKept sampleMessage (.raw 0) register register sampleServer 24 4 20 9 := by
  refine ⟨fun hkept => ?_, not_frameKept_closed sampleMessage_carries (by decide) sampleServer⟩
  have hstep := inStep_of_frameKept sampleMessage_carries (by decide) hkept
  exact absurd hstep.body (by decide)

end VpnP2p.Server
