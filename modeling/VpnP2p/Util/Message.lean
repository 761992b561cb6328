import VpnP2p.Foundation.Stream

/-!
# Messages over a socket

A frame is a length, a type field and a body, each sent by a call of its own. The type
field has 20 bytes while `Message.type` has 40, and neither side sends more of a longer
name or puts a NUL behind what it has; so a frame comes back exactly when the name of its
type is shorter than 20 bytes.
-/

namespace VpnP2p.Util

open Foundation

/-! ## The header -/

def bufSize : Nat := 1024 * 64

def typeSize : Nat := 40

def fileSize : Nat := 1 <<< 19

def register : Text := lit "register"

def rRegister : Text := lit "r_register"

def regularUpdate : Text := lit "regular_update"

def regularUpdateReturn : Text := lit "regular_update_return"

def widthTest : Text := lit "width_test"

def widthTestReturn : Text := lit "width_test_return"

structure Message where
  type : CArray typeSize
  buf : CArray bufSize
  size : Int32

/-- `struct Message msg;` -/
def Message.raw (size : Int32) : Message := ⟨.raw typeSize, .raw bufSize, size⟩

/-- A message after `bzero`, two `strcpy` and `size = sizeof(..)` of the literal `body`. -/
def Message.ofStrings (type : CStr typeSize) (body : CStr bufSize) : Message where
  type := .ofString type
  buf := .ofString body
  size := .ofNat (body.val.length + 1)

/-- A message whose body repeats its type. -/
def Message.echo (t : Text) (hnul : 0 ∉ t) (hlen : t.length < typeSize) : Message :=
  .ofStrings ⟨t, hnul, hlen⟩ ⟨t, hnul, hlen.trans (by decide)⟩

/-! ## Files -/

/-- `read_file_to_buf`, where `fp` is what `fopen` finds; `fclose` follows in any case. -/
def readFileToBuf (message : Message) (fp : Option Text) : Result Message :=
  match fp with
  | none => .error .nullDeref
  | some text => do
    let buf ← message.buf.store text
    .ok { message with buf := buf, size := .ofNat (text.length + 1) }

/-- An `int` where a `size_t` is expected. -/
def sizeT (i : Int32) : Nat := (i.toInt % 2 ^ 64).toNat

/-- What `write_buf_to_file` writes; `stale` is what unassigned bytes happen to be. -/
def writeBufToFile (stale : Nat → Byte) (message : Message) (buf_len : Nat) : Result Text :=
  if buf_len ≤ bufSize then
    .ok ((message.buf.bytes.take buf_len).mapIdx (fun i b => b.getD (stale i)))
  else .error .outOfBounds

/-- `size - 1` bytes are in the buffer. -/
theorem sizeT_pred_le {size : Int32} :
    sizeT (size - 1) ≤ bufSize ↔ 1 ≤ size.toInt ∧ size.toInt ≤ bufSize + 1 := by
  have hlo := Int32.le_toInt size
  have hhi := Int32.toInt_lt size
  have hone : (1 : Int32).toInt = 1 := rfl
  rw [sizeT, Int32.toInt_sub, hone, Int.bmod_def]
  unfold bufSize
  split <;> omega

/-! ## Sending -/

/-- What `send_msg_over_socket` passes to `send`, call by call. -/
def sendMsgOverSocket (message : Message) : Result (List Buf) :=
  if 0 ≤ message.size.toInt ∧ message.size.toInt ≤ bufSize then
    .ok [(htonl message.size).map some, message.type.bytes.take 20,
      message.buf.bytes.take message.size.toInt.toNat]
  else .error .outOfBounds

theorem sendMsgOverSocket_eq_ok {message : Message} {sends : List Buf} :
    sendMsgOverSocket message = .ok sends ↔
      (0 ≤ message.size.toInt ∧ message.size.toInt ≤ bufSize) ∧
      sends = [(htonl message.size).map some, message.type.bytes.take 20,
        message.buf.bytes.take message.size.toInt.toNat] := by
  unfold sendMsgOverSocket
  split
  · rename_i hsize
    simp [hsize, eq_comm]
  · rename_i hsize
    simp [hsize]

/-- What `send_file_over_socket` passes to `send`. The length is not put into network
order, and the type field takes `behind`, whatever follows the literal in memory. -/
def sendFileOverSocket (bigBuf : CArray fileSize) (behind : CArray 9) : List Buf :=
  [(htonl (.ofNat fileSize)).reverse.map some, cbuf widthTest ++ behind.bytes, bigBuf.bytes]

/-! ## Receiving -/

/-- `recv_file_over_socket`; the bytes go to a buffer that nobody reads. -/
def recvFileOverSocket (s : Socket) : Int32 :=
  match recv s fileSize with
  | (none, _) => -1
  | (some _, _) => 0

/-- `recv_msg_over_socket`, with the return value and what it makes of `message`; `behind` is
what lies in memory behind `tempbuf`, where the copy of a body without a NUL goes on. -/
def recvMsgOverSocketOn (behind : Buf) (message : Message) (s : Socket) :
    Result (Int32 × Message) :=
  match recv s 4 with
  | (none, _) => .ok (-1, message)
  | (some got, s) =>
    let temp := received 4 got
    match recv s 20 with
    | (none, _) => .ok (-1, message)
    | (some got, s) => do
      let msg_type := received 20 got
      if ← strcmpEq msg_type widthTest then
        if recvFileOverSocket s < 0 then .ok (-1, message)
        else do
          let buf ← message.buf.store widthTestReturn
          let type ← message.type.store widthTestReturn
          .ok (0, ⟨type, buf, .ofNat fileSize⟩)
      else do
        let msg_len ← ntohl temp
        -- An array needs a positive length.
        if msg_len.toInt ≤ 0 then .error .outOfBounds
        else
          match recv s msg_len.toInt.toNat with
          | (none, _) => .ok (-1, message)
          | (some got, _) => do
            let tempbuf := received msg_len.toInt.toNat got ++ behind
            let body ← readString tempbuf
            let buf ← message.buf.store body
            let name ← readString msg_type
            let type ← message.type.store name
            .ok (0, ⟨type, buf, msg_len⟩)

/-- Where nothing is known of that memory, a string has to end in the array. -/
def recvMsgOverSocket (message : Message) (s : Socket) : Result (Int32 × Message) :=
  recvMsgOverSocketOn [] message s

/-- A length that comes over the connection is none for which `tempbuf` would have to be longer
than `Message.buf`. -/
def Modest (s : Socket) : Prop :=
  ∀ got rest size, recv s 4 = (some got, rest) → ntohl (received 4 got) = .ok size →
    size.toInt ≤ bufSize

theorem modest_whole {message : Message} {sends : List Buf}
    (hsend : sendMsgOverSocket message = .ok sends) : Modest (.whole sends) := by
  obtain ⟨hsize, rfl⟩ := sendMsgOverSocket_eq_ok.mp hsend
  intro got rest size hrecv hlen
  have hwhole := Foundation.recv_whole ((htonl message.size).map some)
    [message.type.bytes.take 20, message.buf.bytes.take message.size.toInt.toNat]
  obtain ⟨hgot, -⟩ := Prod.mk.inj (hwhole.symm.trans hrecv)
  obtain rfl := Option.some.inj hgot
  have hfull : received 4 ((htonl message.size).map some) = (htonl message.size).map some :=
    received_full rfl
  rw [hfull, ntohl_htonl] at hlen
  obtain rfl := Except.ok.inj hlen
  exact hsize.2

/-! ## What a message says -/

/-- The message has the type `t` and the body `body`, and its size counts the NUL. -/
structure Message.Carries (m : Message) (t body : Text) : Prop where
  type : readString m.type.bytes = .ok t
  buf : readString m.buf.bytes = .ok body
  size : m.size.toInt = body.length + 1

theorem carries_ofStrings (type : CStr typeSize) (body : CStr bufSize) :
    (Message.ofStrings type body).Carries type.val body.val where
  type := CArray.readString_ofString type
  buf := CArray.readString_ofString body
  size := by
    have hfits : body.val.length + 1 < 2 ^ 31 := by
      have := body.fits
      unfold bufSize at this
      omega
    exact Int32.toInt_ofNat_of_lt hfits

theorem length_take_type (m : Message) : (m.type.bytes.take 20).length = 20 := by
  rw [List.length_take, m.type.length]
  rfl

theorem carries_echo {t : Text} (hnul : 0 ∉ t) (hlen : t.length < typeSize) :
    (Message.echo t hnul hlen).Carries t t := carries_ofStrings _ _

namespace Message.Carries

variable {m : Message} {t body : Text}

theorem size_le (h : m.Carries t body) : m.size.toInt ≤ bufSize := by
  have := CArray.length_lt_of_readString h.buf
  rw [h.size]
  omega

theorem toNat_size (h : m.Carries t body) : m.size.toInt.toNat = body.length + 1 := by
  rw [h.size]
  rfl

/-- The body on the wire: the string and its NUL. -/
theorem take_buf (h : m.Carries t body) : m.buf.bytes.take m.size.toInt.toNat = cbuf body := by
  obtain ⟨rest, hrest⟩ := (readString_ok h.buf).2
  have hlen : m.size.toInt.toNat = (cbuf body).length := by
    rw [h.toNat_size]
    simp [cbuf]
  have hsplit : m.buf.bytes = cbuf body ++ rest := by
    rw [hrest, cbuf, List.append_assoc]
    rfl
  rw [hlen, hsplit, List.take_left]

theorem send_eq (h : m.Carries t body) : sendMsgOverSocket m =
    .ok [(htonl m.size).map some, m.type.bytes.take 20, cbuf body] := by
  have h0 : 0 ≤ m.size.toInt := by
    rw [h.size]
    omega
  exact sendMsgOverSocket_eq_ok.mpr ⟨⟨h0, h.size_le⟩, by rw [h.take_buf]⟩

end Message.Carries

/-! ## There and back -/

section Receive

variable {message : Message} {s s₁ s₂ s₃ : Socket} {temp msg_type body : Buf} {size : Int32}

/-- Anything but a width test, read to its end. -/
theorem recvMsgOverSocketOn_body (behind : Buf) (hTemp : recv s 4 = (some temp, s₁))
    (hType : recv s₁ 20 = (some msg_type, s₂))
    (hcmp : strcmpEq (received 20 msg_type) widthTest = .ok false)
    (hsize : ntohl (received 4 temp) = .ok size)
    (hBody : recv s₂ size.toInt.toNat = (some body, s₃)) :
    recvMsgOverSocketOn behind message s =
      if size.toInt ≤ 0 then .error .outOfBounds
      else (do
        let body ← readString (received size.toInt.toNat body ++ behind)
        let buf ← message.buf.store body
        let name ← readString (received 20 msg_type)
        let type ← message.type.store name
        .ok (0, ⟨type, buf, size⟩)) := by
  simp only [recvMsgOverSocketOn, hTemp, hType, hcmp, hsize, ok_bind, Bool.false_eq_true, if_false,
    hBody]

theorem recvMsgOverSocket_body (hTemp : recv s 4 = (some temp, s₁))
    (hType : recv s₁ 20 = (some msg_type, s₂))
    (hcmp : strcmpEq (received 20 msg_type) widthTest = .ok false)
    (hsize : ntohl (received 4 temp) = .ok size)
    (hBody : recv s₂ size.toInt.toNat = (some body, s₃)) :
    recvMsgOverSocket message s =
      if size.toInt ≤ 0 then .error .outOfBounds
      else (do
        let body ← readString (received size.toInt.toNat body)
        let buf ← message.buf.store body
        let name ← readString (received 20 msg_type)
        let type ← message.type.store name
        .ok (0, ⟨type, buf, size⟩)) := by
  rw [recvMsgOverSocket, recvMsgOverSocketOn_body [] hTemp hType hcmp hsize hBody,
    List.append_nil]

/-- What `recv_msg_over_socket` read when it returns and no `recv` failed: a width test,
which it answers to itself, or the parts of a frame. -/
theorem recvMsgOverSocketOn_inv {behind : Buf} {ret : Int32} {m' : Message}
    (hTemp : recv s 4 = (some temp, s₁)) (hType : recv s₁ 20 = (some msg_type, s₂))
    (hBody : ∀ n, (recv s₂ n).1 ≠ none)
    (hrun : recvMsgOverSocketOn behind message s = .ok (ret, m')) : ret = 0 ∧
      ((strcmpEq (received 20 msg_type) widthTest = .ok true ∧
          message.type.store widthTestReturn = .ok m'.type ∧ m'.size = .ofNat fileSize) ∨
        (strcmpEq (received 20 msg_type) widthTest = .ok false ∧
          ntohl (received 4 temp) = .ok m'.size ∧ ∃ name body got, 0 < m'.size.toInt ∧
          (recv s₂ m'.size.toInt.toNat).1 = some got ∧
          readString (received m'.size.toInt.toNat got ++ behind) = .ok body ∧
          message.buf.store body = .ok m'.buf ∧
          readString (received 20 msg_type) = .ok name ∧
          message.type.store name = .ok m'.type)) := by
  simp only [recvMsgOverSocketOn, hTemp, hType] at hrun
  obtain ⟨isWidthTest, hcmp, hrun⟩ := bind_eq_ok.mp hrun
  cases isWidthTest with
  | true =>
    have hfile : recvFileOverSocket s₂ = 0 := by
      unfold recvFileOverSocket
      split
      · rename_i hrecv
        exact absurd (congrArg Prod.fst hrecv) (hBody fileSize)
      · rfl
    rw [if_pos rfl, hfile, if_neg (by decide)] at hrun
    obtain ⟨buf, -, hrun⟩ := bind_eq_ok.mp hrun
    obtain ⟨type, htype, hrun⟩ := bind_eq_ok.mp hrun
    cases hrun
    exact ⟨rfl, Or.inl ⟨hcmp, htype, rfl⟩⟩
  | false =>
    rw [if_neg (by decide)] at hrun
    obtain ⟨size, hsize, hrun⟩ := bind_eq_ok.mp hrun
    split at hrun
    · cases hrun
    · rename_i hpos
      split at hrun
      · rename_i hrecv
        exact absurd (congrArg Prod.fst hrecv) (hBody size.toInt.toNat)
      · rename_i got s₃ hrecv
        obtain ⟨body, hbody, hrun⟩ := bind_eq_ok.mp hrun
        obtain ⟨buf, hbuf, hrun⟩ := bind_eq_ok.mp hrun
        obtain ⟨name, hname, hrun⟩ := bind_eq_ok.mp hrun
        obtain ⟨type, htype, hrun⟩ := bind_eq_ok.mp hrun
        cases hrun
        exact ⟨rfl, Or.inr ⟨hcmp, hsize, name, body, got, not_le.mp hpos,
          congrArg Prod.fst hrecv, hbody, hbuf, hname, htype⟩⟩

theorem recvMsgOverSocket_inv {ret : Int32} {m' : Message} (hTemp : recv s 4 = (some temp, s₁))
    (hType : recv s₁ 20 = (some msg_type, s₂)) (hBody : ∀ n, (recv s₂ n).1 ≠ none)
    (hrun : recvMsgOverSocket message s = .ok (ret, m')) : ret = 0 ∧
      ((strcmpEq (received 20 msg_type) widthTest = .ok true ∧
          message.type.store widthTestReturn = .ok m'.type ∧ m'.size = .ofNat fileSize) ∨
        (strcmpEq (received 20 msg_type) widthTest = .ok false ∧
          ntohl (received 4 temp) = .ok m'.size ∧ ∃ name body got, 0 < m'.size.toInt ∧
          (recv s₂ m'.size.toInt.toNat).1 = some got ∧
          readString (received m'.size.toInt.toNat got) = .ok body ∧
          message.buf.store body = .ok m'.buf ∧
          readString (received 20 msg_type) = .ok name ∧
          message.type.store name = .ok m'.type)) := by
  simpa only [List.append_nil] using recvMsgOverSocketOn_inv hTemp hType hBody hrun

end Receive

/-- Whatever `m` holds, this is what becomes of its frame when every `recv` takes one send. -/
theorem recvMsgOverSocket_whole {m message : Message} {sends : List Buf}
    (hsend : sendMsgOverSocket m = .ok sends)
    (hcmp : strcmpEq (m.type.bytes.take 20) widthTest = .ok false) :
    recvMsgOverSocket message (.whole sends) =
      if m.size.toInt ≤ 0 then .error .outOfBounds
      else (do
        let body ← readString (m.buf.bytes.take m.size.toInt.toNat)
        let buf ← message.buf.store body
        let name ← readString (m.type.bytes.take 20)
        let type ← message.type.store name
        .ok (0, ⟨type, buf, m.size⟩)) := by
  obtain ⟨hsize, rfl⟩ := sendMsgOverSocket_eq_ok.mp hsend
  have hType : received 20 (m.type.bytes.take 20) = m.type.bytes.take 20 :=
    received_full (length_take_type m).symm
  have hlen : m.size.toInt.toNat = (m.buf.bytes.take m.size.toInt.toNat).length := by
    rw [List.length_take, m.buf.length]
    omega
  have hrecv₁ := Foundation.recv_whole ((htonl m.size).map some)
    [m.type.bytes.take 20, m.buf.bytes.take m.size.toInt.toNat]
  have hrecv₂ := Foundation.recv_whole (m.type.bytes.take 20) [m.buf.bytes.take m.size.toInt.toNat]
  have hrecv₃ := Foundation.recv_whole (m.buf.bytes.take m.size.toInt.toNat) []
  rw [length_take_type] at hrecv₂
  rw [← hlen] at hrecv₃
  rw [recvMsgOverSocket_body hrecv₁ hrecv₂ (by rw [hType]; exact hcmp) (ntohl_htonl m.size)
    hrecv₃, hType, received_full hlen]

/-- The frame of `m`, received in one piece per send into `message`, brings `m` back. -/
def RoundTrips (m message : Message) (t body : Text) : Prop :=
  ∃ sends m', sendMsgOverSocket m = .ok sends ∧
    recvMsgOverSocket message (.whole sends) = .ok (0, m') ∧ m'.Carries t body ∧ m'.size = m.size

section RoundTrip

variable {m : Message} {t body : Text}

theorem Message.Carries.recv_whole (h : m.Carries t body) {sends : List Buf}
    (hsend : sendMsgOverSocket m = .ok sends)
    (hcmp : strcmpEq (m.type.bytes.take 20) widthTest = .ok false) (message : Message) :
    recvMsgOverSocket message (.whole sends) = (do
      let buf ← message.buf.store body
      let name ← readString (m.type.bytes.take 20)
      let type ← message.type.store name
      .ok (0, ⟨type, buf, m.size⟩)) := by
  have hpos : ¬ m.size.toInt ≤ 0 := by
    rw [h.size]
    omega
  have hbody : readString (m.buf.bytes.take m.size.toInt.toNat) = .ok body :=
    readString_take h.buf (by rw [h.toNat_size]; exact Nat.lt_succ_self _)
  rw [recvMsgOverSocket_whole hsend hcmp, if_neg hpos, hbody, ok_bind]

/-- The receiver looks for the NUL of a long name behind its array. -/
theorem not_roundTrips_long (h : m.Carries t body) (hlong : 20 ≤ t.length) (message : Message) :
    ¬ RoundTrips m message t body := by
  rintro ⟨sends, m', hsend, hrecv, -⟩
  have hfield := take_of_readString h.type hlong
  have hnul : 0 ∉ t.take 20 := fun hmem => (readString_ok h.type).1 (List.mem_of_mem_take hmem)
  have hcmp : strcmpEq (m.type.bytes.take 20) widthTest = .ok false := by
    rw [hfield]
    apply strcmpEq_unterminated hnul
    rw [List.length_take, Nat.min_eq_left hlong]
    decide
  rw [h.recv_whole hsend hcmp, hfield, readString_unterminated hnul] at hrecv
  obtain ⟨buf, -, hrecv⟩ := bind_eq_ok.mp hrecv
  cases hrecv

theorem roundTrips_short (h : m.Carries t body) (ht : t ≠ widthTest) (hshort : t.length < 20)
    (message : Message) : RoundTrips m message t body := by
  have hnul : 0 ∉ t := (readString_ok h.type).1
  have hbody : 0 ∉ body := (readString_ok h.buf).1
  have hname := readString_take h.type hshort
  have hcmp : strcmpEq (m.type.bytes.take 20) widthTest = .ok false := by
    rw [strcmpEq_of_readString hname (by decide), decide_eq_false ht]
  obtain ⟨buf, hbuf, -⟩ := message.buf.store_fits (CArray.length_lt_of_readString h.buf)
  obtain ⟨type, htype, -⟩ := message.type.store_fits (CArray.length_lt_of_readString h.type)
  refine ⟨_, ⟨type, buf, m.size⟩, h.send_eq, ?_, ⟨?_, ?_, h.size⟩, rfl⟩
  · rw [h.recv_whole h.send_eq hcmp, hname, hbuf, ok_bind, ok_bind, htype]
    rfl
  · exact CArray.readString_store hnul htype
  · exact CArray.readString_store hbody hbuf

/-- A frame comes back exactly when the name of its type leaves room for a NUL. -/
theorem roundTrips_iff (h : m.Carries t body) (ht : t ≠ widthTest) (message : Message) :
    RoundTrips m message t body ↔ t.length < 20 := by
  constructor
  · intro hround
    by_contra hlong
    exact not_roundTrips_long h (not_lt.mp hlong) message hround
  · intro hshort
    exact roundTrips_short h ht hshort message

end RoundTrip

theorem roundTrips_iff_sample :
    RoundTrips (.echo register (by decide) (by decide)) (.raw 0) register register ↔
      register.length < 20 :=
  roundTrips_iff (carries_echo (by decide) (by decide)) (by decide) (.raw 0)

/-- The name of the reply to a regular update fits `type[TYPE_SIZE]` and has 21 bytes. -/
theorem not_roundTrips_regularUpdateReturn :
    (Message.echo regularUpdateReturn (by decide) (by decide)).Carries
        regularUpdateReturn regularUpdateReturn ∧
      regularUpdateReturn ≠ widthTest ∧
      ¬ RoundTrips (.echo regularUpdateReturn (by decide) (by decide)) (.raw 0)
        regularUpdateReturn regularUpdateReturn := by
  have hcarries := carries_echo (t := regularUpdateReturn) (by decide) (by decide)
  exact ⟨hcarries, by decide, not_roundTrips_long hcarries (by decide) (.raw 0)⟩

end VpnP2p.Util
