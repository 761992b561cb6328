import VpnP2p.Join.Join

/-!
# The server of the join test

node_join_server.c merges whatever it receives into its infofile, under any type, and
prints its reply as a format. So a percent sign in a string that some machine once
registered stops it, as does a list that outgrows the message; nothing else does, as long
as what arrives can be decoded.
-/

namespace VpnP2p.Join

open Foundation NodeInfo Util Server

/-! ## The code -/

def percent : Byte := 37

/-- `printf(format)`, to which nothing is passed that a conversion could print. -/
def printf : Text → Result Unit
  | [] => .ok ()
  | c :: rest =>
    if c ≠ percent then printf rest
    else match rest with
      | [] => .error .unassigned
      | c' :: rest => if c' = percent then printf rest else .error .unassigned

namespace JoinServer

/-- The reply, which is printed on the way; its size does not count the NUL. -/
def replyMsg (s : ServerState) : Result Message := do
  let (text, len) ← convertNodeToBuf bufSize s.heap s.localNode
  let buf ← (CArray.zero bufSize).store text
  printf (← readString buf.bytes)
  let type ← (CArray.zero typeSize).store (lit "R_Register")
  .ok ⟨type, buf, .ofNat len⟩

/-- The body of the loop in `thread_receive_pack`, with what is sent back. -/
def receivePack (s : ServerState) (new_server_socket_fd : Socket) :
    Result (ServerState × List Buf) := do
  let (ret, msg) ← recvMsgOverSocket (.raw 0) new_server_socket_fd
  if ret < 0 then .ok (s, [])
  else do
    let s ← mergeAndSave s msg.buf.bytes
    let reply_msg ← replyMsg s
    let sends ← sendMsgOverSocket reply_msg
    .ok (s, sends)

/-- The loop, for the connections that it accepts. -/
def threadReceivePack (s : ServerState) (fds : List Socket) :
    Result (ServerState × List (List Buf)) :=
  fds.foldlM (fun (s, replies) new_server_socket_fd => do
    let (s, sends) ← receivePack s new_server_socket_fd
    .ok (s, replies ++ [sends])) (s, [])

end JoinServer

/-! ## Formats -/

/-- A text that can be printed as it is. -/
def Printable (t : Text) : Prop := printf t = .ok ()

instance (t : Text) : Decidable (Printable t) := inferInstanceAs (Decidable (_ = _))

structure Node.Printable (n : Node) : Prop where
  ip : ∀ x ∈ n.ipList, Join.Printable x.ip.val
  type : ∀ x ∈ n.ipList, Join.Printable x.type.val

theorem printf_byte {c : Byte} (hc : c ≠ percent) (rest : Text) :
    printf (c :: rest) = printf rest := by
  rw [printf.eq_def]
  simp only [if_pos hc]

/-- Behind a byte that is no percent sign, `printf` starts anew. -/
theorem printf_append {c : Byte} (hc : c ≠ percent) (t rest : Text) :
    printf (t ++ c :: rest) = (printf t >>= fun _ => printf rest) := by
  induction t using printf.induct with
  | case1 => exact printf_byte hc rest
  | case2 b t hb ih =>
    rw [List.cons_append, printf_byte hb, printf_byte hb]
    exact ih
  | case3 b hb => simp [printf, hb, hc]
  | case4 b hb t ih =>
    simp only [List.cons_append, printf, if_neg hb, if_true]
    exact ih
  | case5 b hb b' t hb' => simp [printf, hb, hb']

theorem printf_key {key : Text} (hkey : percent ∉ key) (t : Text) :
    printf (key ++ t) = printf t := by
  induction key with
  | nil => rfl
  | cons c key ih =>
    simp only [List.mem_cons, not_or] at hkey
    rw [List.cons_append, printf_byte (Ne.symm hkey.1), ih hkey.2]

theorem printable_key {key : Text} (hkey : percent ∉ key) (t : Text) :
    Printable (key ++ t) ↔ Printable t := by
  rw [Printable, printf_key hkey]
  rfl

theorem printable_of_not_mem {t : Text} (h : percent ∉ t) : Printable t := by
  have := printf_key h []
  rwa [List.append_nil] at this

theorem printable_unlines {ws : List Text} : Printable (unlines ws) ↔ ∀ w ∈ ws, Printable w := by
  induction ws with
  | nil => simp [Printable, unlines, printf]
  | cons w ws ih =>
    have hbind : Printable (w ++ newline :: unlines ws) ↔ Printable w ∧ Printable (unlines ws) := by
      rw [Printable, printf_append (by decide), bind_eq_ok]
      constructor
      · rintro ⟨_, hw, hrest⟩
        exact ⟨hw, hrest⟩
      · rintro ⟨hw, hrest⟩
        exact ⟨(), hw, hrest⟩
    rw [unlines_cons, List.forall_mem_cons, ← ih]
    exact hbind

theorem percent_not_mem_decimal (v : Int32) : percent ∉ decimal v := by
  have hdigit : ∀ d, d < 10 → digitByte d ≠ percent := by decide
  have hdigits : percent ∉ natText v.toInt.natAbs := by
    intro hmem
    obtain ⟨d, hd, heq⟩ := (isDigits_natText _).2 percent hmem
    exact absurd heq.symm (hdigit d hd)
  rcases decimal_eq v with ⟨heq, -⟩ | ⟨heq, -⟩
  · rw [heq]
    exact hdigits
  · rw [heq, List.mem_cons, not_or]
    exact ⟨by decide, hdigits⟩

/-- The strings of the IPs decide. -/
theorem printable_nodeLines (n : Node) :
    (∀ w ∈ nodeLines n, Printable w) ↔ Node.Printable n := by
  have hnumber : ∀ (key : Text) (v : Int32), percent ∉ key → Printable (key ++ decimal v) :=
    fun key v hkey => (printable_key hkey _).mpr (printable_of_not_mem (percent_not_mem_decimal v))
  constructor
  · intro h
    have hline : ∀ x ∈ n.ipList, ∀ w ∈ ipLines x, Printable w := fun x hx w hw =>
      h w (List.mem_append_left _ (List.mem_append_right _ (List.mem_flatMap.mpr ⟨x, hx, hw⟩)))
    constructor
    · intro x hx
      exact (printable_key (by decide) _).mp
        (hline x hx (lit "ip: " ++ x.ip.val) (by simp [ipLines]))
    · intro x hx
      exact (printable_key (by decide) _).mp
        (hline x hx (lit "ip_type: " ++ x.type.val) (by simp [ipLines]))
  · intro h w hw
    simp only [nodeLines, headLines, List.mem_append, List.mem_cons, List.not_mem_nil, or_false,
      List.mem_flatMap] at hw
    rcases hw with ((rfl | rfl | rfl | rfl | rfl) | ⟨x, hx, hw⟩) | (rfl | rfl)
    · exact printable_of_not_mem (by decide)
    · exact hnumber _ _ (by decide)
    · exact hnumber _ _ (by decide)
    · exact hnumber _ _ (by decide)
    · exact printable_of_not_mem (by decide)
    · simp only [ipLines, List.mem_cons, List.not_mem_nil, or_false] at hw
      rcases hw with rfl | rfl | rfl | rfl
      · exact (printable_key (by decide) _).mpr (h.ip x hx)
      · exact (printable_key (by decide) _).mpr (h.type x hx)
      · exact hnumber _ _ (by decide)
      · exact hnumber _ _ (by decide)
    · exact printable_of_not_mem (by decide)
    · exact printable_of_not_mem (by decide)

theorem printable_encode {l : List Node} :
    Printable (encode l) ↔ ∀ n ∈ l, Node.Printable n := by
  rw [encode, printable_unlines]
  simp only [List.mem_flatMap, ← printable_nodeLines]
  grind

theorem sampleNodes_printable (l : List Int32) : ∀ n ∈ sampleNodes l, Node.Printable n := by
  intro n hn
  obtain ⟨id, -, rfl⟩ := List.mem_map.mp hn
  constructor
  · intro x hx
    obtain rfl := List.mem_singleton.mp hx
    exact printable_of_not_mem (by decide)
  · intro x hx
    obtain rfl := List.mem_singleton.mp hx
    exact printable_of_not_mem (by decide)

/-! ## One connection -/

namespace JoinServer

/-- What can be replied with. -/
structure Answerable (l : List Node) : Prop where
  length : (encode l).length < bufSize
  printable : ∀ n ∈ l, Node.Printable n

/-- Fifty lines always fit a message. -/
theorem length_encode_lt {l : List Node} (hl : ∀ n ∈ l, n.OneLine) (hlines : lineCount l ≤ 50) :
    (encode l).length < bufSize := by
  have hle := length_encode_le hl
  unfold bufSize
  omega

/-- The frame of a reply: a type out of an array of zeros, and a text without its NUL. -/
def frame (type text : Text) : List Buf :=
  [(htonl (.ofNat text.length)).map some,
    (cbuf type ++ List.replicate (typeSize - (type.length + 1)) (some 0)).take 20, text.map some]

theorem send_frame {m : Message} {type text : Text} (hlen : text.length < bufSize)
    (htype : m.type.bytes = cbuf type ++ List.replicate (typeSize - (type.length + 1)) (some 0))
    (hbuf : readString m.buf.bytes = .ok text) (hsize : m.size = .ofNat text.length) :
    sendMsgOverSocket m = .ok (frame type text) := by
  have hint : m.size.toInt = text.length := by
    rw [hsize]
    exact Int32.toInt_ofNat_of_lt (by unfold bufSize at hlen; omega)
  have htext : m.buf.bytes.take text.length = text.map some := by
    rw [take_of_readString hbuf (Nat.le_refl _), List.take_length]
  refine sendMsgOverSocket_eq_ok.mpr ⟨⟨by omega, by omega⟩, ?_⟩
  rw [frame, ← htype, ← hsize, hint, Int.toNat_natCast, htext]

section Reply

variable {s : ServerState} {l : List Node} (hl : NodesAt s.heap s.localNode l)

include hl

theorem replyMsg_inv {m : Message} (h : replyMsg s = .ok m) :
    Answerable l ∧ sendMsgOverSocket m = .ok (frame (lit "R_Register") (encode l)) := by
  obtain ⟨⟨text, len⟩, hconv, h⟩ := bind_eq_ok.mp h
  obtain ⟨l', hl', rfl, hlen, rfl⟩ := (convertNodeToBuf_eq_ok (by decide)).mp hconv
  obtain rfl := hl.unique hl'
  obtain ⟨buf, hbuf, h⟩ := bind_eq_ok.mp h
  have hread := CArray.readString_store (noNul_encode l) hbuf
  rw [hread, ok_bind] at h
  obtain ⟨_, hprint, h⟩ := bind_eq_ok.mp h
  obtain ⟨type, htype, h⟩ := bind_eq_ok.mp h
  cases h
  refine ⟨⟨hlen, printable_encode.mp hprint⟩, send_frame hlen ?_ hread rfl⟩
  rw [(CArray.store_eq_ok htype).2]
  rfl

theorem replyMsg_answerable (h : Answerable l) : ∃ m, replyMsg s = .ok m := by
  have hconv := convertNodeToBuf_encode hl h.length
  obtain ⟨buf, hbuf, -⟩ := (CArray.zero bufSize).store_fits h.length
  obtain ⟨type, htype, -⟩ := (CArray.zero typeSize).store_fits (s := lit "R_Register") (by decide)
  have hprint : printf (encode l) = .ok () := printable_encode.mpr h.printable
  refine ⟨⟨type, buf, .ofNat (encode l).length⟩, ?_⟩
  rw [replyMsg, hconv, ok_bind]
  simp only [hbuf, ok_bind, CArray.readString_store (noNul_encode l) hbuf, hprint, htype]

end Reply

/-- The connection brings the list `m`, under whatever type, or one of its `recv`s fails. -/
def Brings (fd : Socket) : Option (List Node) → Prop
  | none => Modest fd ∧ ∃ ret msg, recvMsgOverSocket (.raw 0) fd = .ok (ret, msg) ∧ ret < 0
  | some m => Modest fd ∧ (∀ n ∈ m, n.OneLine) ∧
      ∃ msg text, recvMsgOverSocket (.raw 0) fd = .ok (0, msg) ∧
        readString msg.buf.bytes = .ok text ∧ TextOf m text

section Connection

variable {s s' : ServerState} {R m : List Node} {fd : Socket} {sends : List Buf}

theorem receivePack_of_recv {ret : Int32} {msg : Message}
    (hrecv : recvMsgOverSocket (.raw 0) fd = .ok (ret, msg)) : receivePack s fd =
      if ret < 0 then .ok (s, [])
      else (do
        let s ← mergeAndSave s msg.buf.bytes
        let reply_msg ← replyMsg s
        let sends ← sendMsgOverSocket reply_msg
        .ok (s, sends)) := by
  rw [receivePack, hrecv]
  rfl

theorem receivePack_failed (hfd : Brings fd none) : receivePack s fd = .ok (s, []) := by
  obtain ⟨-, ret, msg, hrecv, hret⟩ := hfd
  rw [receivePack_of_recv hrecv, if_pos hret]

variable (h : Readable s R) (hne : R ≠ []) (hfd : Brings fd (some m))

include h hne hfd

/-- What the server did when it took a list over. -/
theorem receivePack_inv (hrun : receivePack s fd = .ok (s', sends)) : FitsDecoder m ∧
    Answerable (mergeNodes R m) ∧ Stored s' (mergeNodes R m) ∧
    sends = frame (lit "R_Register") (encode (mergeNodes R m)) := by
  obtain ⟨-, hm, msg, text, hrecv, hbuf, htext⟩ := hfd
  rw [receivePack_of_recv hrecv, if_neg (by decide)] at hrun
  obtain ⟨t, hstep, hrun⟩ := bind_eq_ok.mp hrun
  have hfits : FitsDecoder m := by
    obtain ⟨r, hdecode, -⟩ := bind_eq_ok.mp hstep
    exact htext.fitsDecoder hm hbuf hdecode
  obtain ⟨hstored, hlocal⟩ := h.handled hne (decodes_textOf hm hfits htext hbuf s) hstep
  obtain ⟨reply_msg, hreply, hrun⟩ := bind_eq_ok.mp hrun
  obtain ⟨hanswer, hsend⟩ := replyMsg_inv hlocal hreply
  rw [hsend, ok_bind] at hrun
  cases hrun
  exact ⟨hfits, hanswer, hstored, rfl⟩

theorem receivePack_total (hfits : FitsDecoder m) (hanswer : Answerable (mergeNodes R m)) :
    ∃ s' sends, receivePack s fd = .ok (s', sends) := by
  obtain ⟨-, hm, msg, text, hrecv, hbuf, htext⟩ := hfd
  obtain ⟨s', hstep, -, hlocal⟩ := h.handle hne (decodes_textOf hm hfits htext hbuf s)
  obtain ⟨reply_msg, hreply⟩ := replyMsg_answerable hlocal hanswer
  obtain ⟨-, hsend⟩ := replyMsg_inv hlocal hreply
  refine ⟨s', frame (lit "R_Register") (encode (mergeNodes R m)), ?_⟩
  rw [receivePack_of_recv hrecv, if_neg (by decide), hstep, ok_bind, hreply, ok_bind, hsend,
    ok_bind]

end Connection

/-- What `register_node` sends brings the list in its infofile. -/
theorem brings_register {m : List Node} {text : Text} (hm : ∀ n ∈ m, n.OneLine)
    (htext : TextOf m text) (hlen : text.length < bufSize) : ∃ sends,
    (Request.register text).sends = .ok sends ∧ Brings (.whole sends) (some m) := by
  obtain ⟨type, htype, -⟩ := (CArray.raw typeSize).store_fits (s := lit "Register") (by decide)
  obtain ⟨buf, hbuf, -⟩ := (CArray.raw bufSize).store_fits hlen
  have hcarries :
      Message.Carries ⟨type, buf, .ofNat (text.length + 1)⟩ (lit "Register") text :=
    { type := CArray.readString_store (by decide) htype
      buf := CArray.readString_store htext.noNul hbuf
      size := Int32.toInt_ofNat_of_lt (by unfold bufSize at hlen; omega) }
  have hsends : (Request.register text).sends =
      sendMsgOverSocket ⟨type, buf, .ofNat (text.length + 1)⟩ := by
    simp only [Request.sends, Message.raw, htype, ok_bind, readFileToBuf, hbuf]
  obtain ⟨sends, msg, hsend, hrecv, hcarried, -⟩ :=
    roundTrips_short hcarries (by decide) (by decide) (.raw 0)
  exact ⟨sends, hsends.trans hsend, modest_whole hsend, hm, msg, text, hrecv, hcarried.buf, htext⟩

/-! ## The loop -/

/-- The lists that arrived. -/
def registered (conns : List (Socket × Option (List Node))) : List (List Node) :=
  conns.filterMap Prod.snd

/-- Each list can be decoded, and what the store has become by then can be replied with. -/
def Survives (l : List Node) (ms : List (List Node)) : Prop :=
  ∀ before m, before ++ [m] <+: ms → FitsDecoder m ∧ Answerable (storeAfter l (before ++ [m]))

section Loop

variable {s s' : ServerState} {l : List Node} {replies : List (List Buf)}
  {conns : List (Socket × Option (List Node))}

theorem threadReceivePack_concat (fds : List Socket) (fd : Socket) :
    threadReceivePack s (fds ++ [fd]) = .ok (s', replies) ↔ ∃ t before sends,
      threadReceivePack s fds = .ok (t, before) ∧ receivePack t fd = .ok (s', sends) ∧
        replies = before ++ [sends] := by
  rw [threadReceivePack, List.foldlM_append, bind_eq_ok]
  simp only [List.foldlM_cons, List.foldlM_nil, bind_pure]
  constructor
  · rintro ⟨⟨t, before⟩, hrun, hlast⟩
    obtain ⟨⟨t', sends⟩, hstep, heq⟩ := bind_eq_ok.mp hlast
    cases heq
    exact ⟨t, before, sends, hrun, hstep, rfl⟩
  · rintro ⟨t, before, sends, hrun, hstep, rfl⟩
    refine ⟨(t, before), hrun, ?_⟩
    rw [hstep, ok_bind]

theorem registered_concat (conn : Socket × Option (List Node)) :
    registered (conns ++ [conn]) = registered conns ++ conn.2.toList := by
  rw [registered, List.filterMap_append]
  cases h : conn.2 <;> simp [registered, h]

theorem survives_concat {ms : List (List Node)} {m : List Node} : Survives l (ms ++ [m]) ↔
    Survives l ms ∧ FitsDecoder m ∧ Answerable (storeAfter l (ms ++ [m])) :=
  forall_prefix_concat

variable (h : Stored s l)

include h

theorem threadReceivePack_inv (hconns : ∀ conn ∈ conns, Brings conn.1 conn.2)
    (hrun : threadReceivePack s (conns.map Prod.fst) = .ok (s', replies)) :
    Stored s' (storeAfter l (registered conns)) ∧ Survives l (registered conns) := by
  induction conns using List.reverseRecOn generalizing s' replies with
  | nil =>
    cases hrun
    refine ⟨h, fun before m hpre => ?_⟩
    exact absurd (List.prefix_nil.mp hpre) (by simp)
  | append_singleton conns conn ih =>
    rw [List.map_append] at hrun
    obtain ⟨t, before, sends, hbefore, hstep, -⟩ := (threadReceivePack_concat _ _).mp hrun
    obtain ⟨hstored, hsurvives⟩ := ih (fun c hc => hconns c (List.mem_append_left _ hc)) hbefore
    have hconn := hconns conn (List.mem_append_right _ (List.mem_singleton_self conn))
    rw [registered_concat]
    obtain ⟨fd, brought⟩ := conn
    cases brought with
    | none =>
      rw [receivePack_failed hconn] at hstep
      cases hstep
      simpa using ⟨hstored, hsurvives⟩
    | some m =>
      obtain ⟨hfits, hanswer, hstored', -⟩ :=
        receivePack_inv hstored.readable hstored.stripped_ne hconn hstep
      rw [← storeAfter_concat] at hanswer hstored'
      exact ⟨hstored', survives_concat.mpr ⟨hsurvives, hfits, hanswer⟩⟩

theorem threadReceivePack_total (hconns : ∀ conn ∈ conns, Brings conn.1 conn.2)
    (hsurvives : Survives l (registered conns)) :
    ∃ s' replies, threadReceivePack s (conns.map Prod.fst) = .ok (s', replies) := by
  induction conns using List.reverseRecOn with
  | nil => exact ⟨s, [], rfl⟩
  | append_singleton conns conn ih =>
    have hbefore : ∀ c ∈ conns, Brings c.1 c.2 := fun c hc => hconns c (List.mem_append_left _ hc)
    have hconn := hconns conn (List.mem_append_right _ (List.mem_singleton_self conn))
    rw [registered_concat] at hsurvives
    obtain ⟨t, before, hrun⟩ := ih hbefore
      (fun ms m hpre => hsurvives ms m (hpre.trans (List.prefix_append _ _)))
    have hstored := (threadReceivePack_inv h hbefore hrun).1
    obtain ⟨s', sends, hstep⟩ : ∃ s' sends, receivePack t conn.1 = .ok (s', sends) := by
      obtain ⟨fd, brought⟩ := conn
      cases brought with
      | none => exact ⟨t, [], receivePack_failed hconn⟩
      | some m =>
        obtain ⟨hfits, hanswer⟩ := hsurvives _ m List.prefix_rfl
        rw [storeAfter_concat] at hanswer
        exact receivePack_total hstored.readable hstored.stripped_ne hconn hfits hanswer
    rw [List.map_append]
    exact ⟨s', _, (threadReceivePack_concat _ _).mpr ⟨t, before, sends, hrun, hstep, rfl⟩⟩

/-- Over connections of these kinds the server goes on exactly if it could decode each list
that came and print each of its replies, and then its infofile has the merge of all of them. -/
theorem joinServer_goes_on (hconns : ∀ conn ∈ conns, Brings conn.1 conn.2) :
    ((∃ r, threadReceivePack s (conns.map Prod.fst) = .ok r) ↔ Survives l (registered conns)) ∧
      ∀ s' replies, threadReceivePack s (conns.map Prod.fst) = .ok (s', replies) →
        s'.Holds (storeAfter l (registered conns)) := by
  constructor
  · constructor
    · rintro ⟨⟨s', replies⟩, hrun⟩
      exact (threadReceivePack_inv h hconns hrun).2
    · intro hsurvives
      obtain ⟨s', replies, hrun⟩ := threadReceivePack_total h hconns hsurvives
      exact ⟨_, hrun⟩
  · intro s' replies hrun
    exact (threadReceivePack_inv h hconns hrun).1.holds

end Loop

/-- A machine registers a second node with the sample server. -/
theorem joinServer_goes_on_sample : ∃ fd, Brings fd (some (sampleNodes [124])) ∧
    ((∃ r, threadReceivePack sampleServer [fd] = .ok r) ↔
      Survives sampleA [sampleNodes [124]]) ∧
    ∀ s' replies, threadReceivePack sampleServer [fd] = .ok (s', replies) →
      s'.Holds (storeAfter sampleA [sampleNodes [124]]) := by
  have hlines : ∀ n ∈ sampleNodes [124], n.OneLine :=
    fun n hn => (sampleNodes_plain [124] n hn).toOneLine
  obtain ⟨sends, -, hfd⟩ := brings_register hlines (.encode _) (length_encode_lt hlines (by decide))
  refine ⟨.whole sends, hfd, ?_⟩
  have hconns : ∀ conn ∈ [(Socket.whole sends, some (sampleNodes [124]))],
      Brings conn.1 conn.2 := by
    simpa using hfd
  exact joinServer_goes_on sampleServer_stored hconns

end JoinServer

end VpnP2p.Join
