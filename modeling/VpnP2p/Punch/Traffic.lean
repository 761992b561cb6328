import Mathlib.Data.List.TakeWhile
import VpnP2p.Foundation.Network
import VpnP2p.Punch.Recognition
import VpnP2p.Punch.Sweep

/-!
# The traffic of a client

What a client sends in a round is settled by what its threads have done before and what has
arrived. Until its peer is recognised it sends one datagram in each round of
`thread_punching` and none in a round of `thread_heartbeat`; then `thread_punching` sends
once more, and every round of `thread_heartbeat` sends to whoever was heard last, be it the
peer or not. Only a datagram of 128 bytes or more keeps it from going on.
-/

namespace VpnP2p.Punch

open Foundation

/-! ## Rounds -/

/-- What the threads do by themselves; in a `failure` it is `recvfrom` that returns -1. -/
inductive Round where
  | punch
  | heartbeat
  | failure
deriving DecidableEq

/-- A round, or a datagram with the address it seems to be from. -/
abbrev Happening := Input Round (SockAddr × Text)

def Client.exec (c : Client) : Happening → Result (Client × List Datagram)
  | .act .punch => .ok (threadPunching c)
  | .act .heartbeat => .ok (c, threadHeartbeat c)
  | .act .failure => do
    let c ← threadReceivePack c none
    .ok (c, [])
  | .arrival (sender, text) => do
    let c ← threadReceivePack c (some (sender, text.map some))
    .ok (c, [])

/-! ## What a history says -/

/-- The string in a datagram, once there is a terminator behind it. -/
def spoken (text : Text) : Text := text.takeWhile (· ≠ 0)

/-- The datagram holds the string `r`. -/
def hears (r : Text) : Happening → Bool
  | .act _ => false
  | .arrival (_, text) => spoken text = r

def heard (r : Text) (hist : List Happening) : Bool := hist.any (hears r)

/-- A round of `thread_punching` came behind a datagram that holds `r`. -/
def exited (r : Text) (hist : List Happening) : Bool :=
  (hist.dropWhile (fun h => !hears r h)).any (fun h => h = .act .punch)

def punches (hist : List Happening) : Nat := hist.count (.act .punch)

/-- Where the last datagram seems to be from. -/
def lastSender (start : SockAddr) (hist : List Happening) : SockAddr :=
  hist.foldl (fun addr h => match h with
    | .act _ => addr
    | .arrival (sender, _) => sender) start

section History

variable (r : Text) (start : SockAddr) (hist : List Happening) (h : Happening)

@[simp] theorem heard_concat : heard r (hist ++ [h]) = (heard r hist || hears r h) := by
  simp [heard]

@[simp] theorem punches_concat :
    punches (hist ++ [h]) = punches hist + if h = .act .punch then 1 else 0 := by
  rw [punches, List.count_append, List.count_singleton]
  simp only [beq_iff_eq]
  rfl

@[simp] theorem lastSender_concat : lastSender start (hist ++ [h]) = match h with
    | .act _ => lastSender start hist
    | .arrival (sender, _) => sender := by
  rw [lastSender, List.foldl_append]
  rfl

theorem dropWhile_eq_nil :
    hist.dropWhile (fun h => !hears r h) = [] ↔ heard r hist = false := by
  rw [List.dropWhile_eq_nil_iff, heard, List.any_eq_false]
  simp

@[simp] theorem exited_concat : exited r (hist ++ [h]) =
    (exited r hist || (heard r hist && decide (h = .act .punch))) := by
  rw [exited, exited, List.dropWhile_append]
  cases hheard : heard r hist with
  | false =>
    have hnil := (dropWhile_eq_nil r hist).mpr hheard
    rw [hnil]
    cases h with
    | act a => simp [hears]
    | arrival m =>
      rw [List.dropWhile_cons]
      cases hears r (.arrival m) <;> simp
  | true =>
    have hne : ¬ (hist.dropWhile (fun h => !hears r h)).isEmpty = true := by
      rw [List.isEmpty_iff, dropWhile_eq_nil, hheard]
      decide
    rw [if_neg hne]
    simp

end History

/-! ## Arguments -/

/-- The arguments of a client, with the address that `inet_aton` reads. -/
structure Args where
  type : Int32
  srvIp : UInt32
  sendString : CStr 100
  recvString : CStr 100

namespace Args

variable (a : Args)

def client : Client := main a.type a.srvIp a.sendString a.recvString

/-- What the client waits for. -/
def waits : Text := if a.type = 1 then [] else a.recvString.val

/-- `SRV_IP` with the port of `init_program`. -/
def server : SockAddr := ⟨htons (.ofNat portMax), a.srvIp⟩

/-- The six bytes that `sendto` takes. -/
def payload : Buf := slice 0 6 (CArray.ofString a.sendString).bytes

/-- The port of send `k`, counted from 0. -/
def port (k : Nat) : Nat :=
  if a.type = 1 then if k = 0 then portMax else 9930 else portOf k

/-- What the client sends when `h` happens after `hist`. -/
def traffic (hist : List Happening) : Happening → List Datagram
  | .act .punch =>
    if exited a.waits hist then []
    else [⟨⟨htons (.ofNat (a.port (punches hist))), a.srvIp⟩, a.payload⟩]
  | .act .heartbeat =>
    if heard a.waits hist then [⟨lastSender a.server hist, a.payload⟩] else []
  | .act .failure => []
  | .arrival _ => []

/-- What it sends along a history. -/
def sends (hist : List Happening) : List Datagram :=
  (List.range hist.length).flatMap (fun k => hist[k]?.elim [] (a.traffic (hist.take k)))

@[simp] theorem sends_nil : a.sends [] = [] := rfl

@[simp] theorem sends_concat (hist : List Happening) (h : Happening) :
    a.sends (hist ++ [h]) = a.sends hist ++ a.traffic hist h := by
  have hlast : (hist ++ [h])[hist.length]? = some h := by simp
  rw [sends, List.length_append, List.length_singleton, List.range_succ, List.flatMap_append,
    List.flatMap_singleton, hlast, List.take_left]
  congr 1
  apply List.flatMap_congr
  intro k hk
  have hlt := List.mem_range.mp hk
  rw [List.getElem?_append_left hlt, List.take_append_of_le_length (Nat.le_of_lt hlt)]

end Args

/-! ## A client and its history -/

theorem sinPort_eq {x : UInt16} {p : Nat} (h : (htons x).toNat = p) : x = htons (.ofNat p) := by
  rw [← h, UInt16.ofNat_toNat, htons_htons]

/-- The client after `hist`. -/
structure After (a : Args) (hist : List Happening) (c : Client) : Prop where
  args : a.client.SameArgs c
  flags : (c.threadflag, c.heartbeat) = if heard a.waits hist then (1, 1) else (0, 0)
  punching : c.punching = !exited a.waits hist
  siOther : c.siOther = lastSender a.server hist
  addr : c.testOther.sinAddr = a.srvIp
  fixed : a.type = 1 → c.punching = true →
    c.testOther.sinPort = htons (.ofNat (a.port (punches hist)))
  swept : a.type ≠ 1 → c.punching = true → Swept (punches hist) c

theorem after_start (a : Args) : After a [] a.client where
  args := ⟨rfl, rfl, rfl⟩
  flags := rfl
  punching := rfl
  siOther := rfl
  addr := rfl
  fixed := by
    intro htype _
    rw [Args.port, if_pos htype]
    rfl
  swept := fun htype _ => swept_main htype a.srvIp a.sendString a.recvString

namespace After

variable {a : Args} {hist : List Happening} {c c' : Client} {out : List Datagram}

theorem send_eq (h : After a hist c) (target : SockAddr) : c.send target = ⟨target, a.payload⟩ := by
  have hstring : c.sendString = .ofString a.sendString := h.args.sendString
  rw [Client.send, hstring]
  rfl

theorem testOther (h : After a hist c) (halive : c.punching = true) :
    c.testOther = ⟨htons (.ofNat (a.port (punches hist))), a.srvIp⟩ := by
  have hport : c.testOther.sinPort = htons (.ofNat (a.port (punches hist))) := by
    by_cases htype : a.type = 1
    · exact h.fixed htype halive
    · rw [Args.port, if_neg htype]
      exact sinPort_eq (h.swept htype halive).port
  rw [← h.addr, ← hport]

theorem flag_iff (h : After a hist c) : c.threadflag = 1 ↔ heard a.waits hist = true := by
  have hflags := congrArg Prod.fst h.flags
  cases hheard : heard a.waits hist with
  | true => simpa [hheard] using hflags
  | false =>
    have hzero : c.threadflag = 0 := by simpa [hheard] using hflags
    simp [hzero]

theorem heartbeat_iff (h : After a hist c) : c.heartbeat = 1 ↔ heard a.waits hist = true := by
  have hflags := congrArg Prod.snd h.flags
  cases hheard : heard a.waits hist with
  | true => simpa [hheard] using hflags
  | false =>
    have hzero : c.heartbeat = 0 := by simpa [hheard] using hflags
    simp [hzero]

theorem punch (h : After a hist c) : (threadPunching c).2 = a.traffic hist (.act .punch) ∧
    After a (hist ++ [.act .punch]) (threadPunching c).1 := by
  have hexit := h.punching
  cases hexited : exited a.waits hist with
  | true =>
    have hdead : ¬ c.punching = true := by simp [hexit, hexited]
    rw [threadPunching, if_neg hdead]
    refine ⟨by simp [Args.traffic, hexited], ⟨h.args, ?_, ?_, ?_, h.addr, ?_, ?_⟩⟩
    · simpa [hears] using h.flags
    · simp [hexit, hexited]
    · simpa using h.siOther
    · exact fun _ halive => absurd halive hdead
    · exact fun _ halive => absurd halive hdead
  | false =>
    have halive : c.punching = true := by simp [hexit, hexited]
    have hargs := threadPunching_sameArgs c
    rw [threadPunching, if_pos halive] at hargs ⊢
    have hout : c.send c.testOther = _ := h.send_eq c.testOther
    rw [h.testOther halive] at hout
    refine ⟨?_, ⟨?_, ?_, ?_, ?_, ?_, ?_, ?_⟩⟩
    · simp only [Args.traffic, hexited, Bool.false_eq_true, if_false]
      exact congrArg (fun d => [d]) (h.testOther halive ▸ hout)
    · exact ⟨hargs.type.trans h.args.type, hargs.sendString.trans h.args.sendString,
        hargs.recvString.trans h.args.recvString⟩
    · have hkeep : (c.retarget.threadflag, c.retarget.heartbeat) = (c.threadflag, c.heartbeat) := by
        unfold Client.retarget
        split <;> rfl
      simpa [hears] using hkeep.trans h.flags
    · have hflag : c.retarget.threadflag = c.threadflag := by
        unfold Client.retarget
        split <;> rfl
      have hiff := h.flag_iff
      cases hheard : heard a.waits hist <;> simp [hexited, hheard, hflag, hiff]
    · have hkeep : c.retarget.siOther = c.siOther := by
        unfold Client.retarget
        split <;> rfl
      simpa using hkeep.trans h.siOther
    · have hkeep : c.retarget.testOther.sinAddr = c.testOther.sinAddr := by
        unfold Client.retarget
        split <;> rfl
      exact hkeep.trans h.addr
    · intro htype _
      have hc : c.type = 1 := h.args.type.trans htype
      have hnext : punches (hist ++ [Input.act Round.punch]) ≠ 0 := by simp
      show c.retarget.testOther.sinPort = _
      rw [Client.retarget, if_pos hc, Args.port, if_pos htype, if_neg hnext]
      rfl
    · intro htype _
      have hswept := (h.swept htype halive).retarget
      have hcount : punches (hist ++ [Input.act Round.punch]) = punches hist + 1 := by simp
      rw [hcount]
      exact ⟨hswept.type, hswept.cnt, hswept.port⟩

/-- A round of the other threads without a datagram. -/
theorem idle (h : After a hist c) {round : Round} (hround : round ≠ .punch) :
    After a (hist ++ [.act round]) c := by
  have hother : Input.act round ≠ (Input.act Round.punch : Happening) := by
    simpa using hround
  refine ⟨h.args, ?_, ?_, ?_, h.addr, ?_, ?_⟩
  · simpa [hears] using h.flags
  · simpa [hround] using h.punching
  · simpa using h.siOther
  · simpa [hround] using h.fixed
  · simpa [hround] using h.swept

theorem readString_recvString (h : After a hist c) :
    readString c.recvString.bytes = .ok a.waits := by
  have hstring : c.recvString = a.client.recvString := h.args.recvString
  rw [hstring, Args.waits]
  show readString (if a.type = 1 then CArray.zero 100 else CArray.ofString a.recvString).bytes = _
  by_cases htype : a.type = 1
  · rw [if_pos htype, if_pos htype]
    rfl
  · rw [if_neg htype, if_neg htype]
    exact CArray.readString_ofString a.recvString

end After

/-! ## Datagrams -/

theorem threadReceivePack_siOther {c c' : Client} {sender : SockAddr} {payload : Buf}
    (hrun : threadReceivePack c (some (sender, payload)) = .ok c') : c'.siOther = sender := by
  obtain ⟨buf, -, hrun⟩ := bind_eq_ok.mp hrun
  obtain ⟨tempbuf, -, hrun⟩ := bind_eq_ok.mp hrun
  obtain ⟨recv_string, -, hrun⟩ := bind_eq_ok.mp hrun
  obtain ⟨same, -, hrun⟩ := bind_eq_ok.mp hrun
  cases same with
  | false =>
    cases hrun
    rfl
  | true =>
    cases hrun
    rfl

/-- The copy of a datagram of 128 bytes or more has no room for its terminator. -/
theorem threadReceivePack_long (c : Client) (sender : SockAddr) {text : Text}
    (hlong : 128 ≤ text.length) :
    threadReceivePack c (some (sender, text.map some)) = .error .outOfBounds := by
  have htake : ((text.map some).take 512).length ≤ 512 := List.length_take_le ..
  obtain ⟨buf, hbuf, -⟩ := c.buf.write_fits _ htake
  have hroom : 128 < ((text.map some).take 512 ++ [some 0]).length := by
    rw [List.length_append, List.length_take, List.length_map, List.length_singleton]
    omega
  simp only [threadReceivePack, hbuf, ok_bind, c.tempbuf.write_long hroom, error_bind]

theorem After.arrival {a : Args} {hist : List Happening} {c : Client} (h : After a hist c)
    (sender : SockAddr) {text : Text} (hshort : text.length < 128) :
    ∃ c', threadReceivePack c (some (sender, text.map some)) = .ok c' ∧
      After a (hist ++ [.arrival (sender, text)]) c' := by
  obtain ⟨c', hrun, hflags⟩ := threadReceivePack_spec (by rw [List.length_map]; exact hshort)
    (readString_takeWhile text) h.readString_recvString
  have hkeep := threadReceivePack_untouched hrun
  have hother := threadReceivePack_siOther hrun
  refine ⟨c', hrun, ⟨?_, ?_, ?_, ?_, ?_, ?_, ?_⟩⟩
  · exact ⟨hkeep.type.trans h.args.type, hkeep.sendString.trans h.args.sendString,
      hkeep.recvString.trans h.args.recvString⟩
  · rw [hflags, h.flags, heard_concat]
    change (if spoken text = a.waits then _ else _) = _
    by_cases hsame : spoken text = a.waits
    · simp [hears, hsame]
    · simp [hears, hsame]
  · simpa [hkeep.punching] using h.punching
  · simpa using hother
  · rw [hkeep.testOther]
    exact h.addr
  · simpa [hkeep.punching, hkeep.testOther] using h.fixed
  · intro htype halive
    have hswept := (h.swept htype (hkeep.punching ▸ halive)).untouched hkeep
    simpa using hswept

/-- One round: it sends what the history says, and only a long datagram stops it. -/
theorem After.exec {a : Args} {hist : List Happening} {c : Client} (h : After a hist c)
    (x : Happening) (hshort : ∀ sender text, x = .arrival (sender, text) → text.length < 128) :
    ∃ c', c.exec x = .ok (c', a.traffic hist x) ∧ After a (hist ++ [x]) c' := by
  cases x with
  | act round =>
    cases round with
    | punch =>
      obtain ⟨hout, hnext⟩ := h.punch
      exact ⟨_, congrArg Except.ok (Prod.ext rfl hout), hnext⟩
    | heartbeat =>
      refine ⟨c, ?_, h.idle (by decide)⟩
      have hiff := h.heartbeat_iff
      cases hheard : heard a.waits hist with
      | true =>
        have hbeat := hiff.mpr hheard
        simp [Client.exec, threadHeartbeat, hbeat, Args.traffic, hheard, h.send_eq, h.siOther]
      | false =>
        have hquiet : ¬ c.heartbeat = 1 := by simp [hiff, hheard]
        simp [Client.exec, threadHeartbeat, hquiet, Args.traffic, hheard]
    | failure => exact ⟨c, rfl, h.idle (by decide)⟩
  | arrival m =>
    obtain ⟨sender, text⟩ := m
    obtain ⟨c', hrun, hnext⟩ := h.arrival sender (hshort sender text rfl)
    exact ⟨c', by rw [Client.exec, hrun, ok_bind]; rfl, hnext⟩

/-! ## Runs -/

/-- No datagram has 128 bytes. -/
def Short (hist : List Happening) : Prop :=
  ∀ sender text, .arrival (sender, text) ∈ hist → text.length < 128

theorem short_concat {hist : List Happening} {x : Happening} : Short (hist ++ [x]) ↔
    Short hist ∧ ∀ sender text, x = .arrival (sender, text) → text.length < 128 := by
  constructor
  · intro h
    exact ⟨fun sender text hmem => h sender text (by simp [hmem]),
      fun sender text hx => h sender text (by simp [hx])⟩
  · rintro ⟨hhist, hx⟩ sender text hmem
    rcases List.mem_append.mp hmem with hmem | hmem
    · exact hhist sender text hmem
    · exact hx sender text (List.mem_singleton.mp hmem).symm

/-- A client that is still going has seen short datagrams only. -/
theorem exec_short {c c' : Client} {x : Happening} {out : List Datagram}
    (hexec : c.exec x = .ok (c', out)) :
    ∀ sender text, x = .arrival (sender, text) → text.length < 128 := by
  rintro sender text rfl
  by_contra hlong
  rw [Client.exec, threadReceivePack_long c sender (Nat.not_lt.mp hlong)] at hexec
  cases hexec

theorem alone_after (a : Args) {hist : List Happening} (hshort : Short hist) :
    ∃ c, alone Client.exec a.client hist = .ok (c, a.sends hist) ∧ After a hist c := by
  induction hist using List.reverseRecOn with
  | nil => exact ⟨a.client, rfl, after_start a⟩
  | append_singleton hist x ih =>
    obtain ⟨hhist, hx⟩ := short_concat.mp hshort
    obtain ⟨c, hrun, hafter⟩ := ih hhist
    obtain ⟨c', hexec, hnext⟩ := hafter.exec x hx
    exact ⟨c', (alone_concat x).mpr ⟨c, _, _, hrun, hexec, a.sends_concat hist x⟩, hnext⟩

theorem short_of_alone {a : Args} {hist : List Happening} {r : Client × List Datagram}
    (hrun : alone Client.exec a.client hist = .ok r) : Short hist := by
  induction hist using List.reverseRecOn generalizing r with
  | nil => exact fun _ _ hmem => by cases hmem
  | append_singleton hist x ih =>
    obtain ⟨c, before, out, hbefore, hexec, -⟩ := (alone_concat x).mp hrun
    exact short_concat.mpr ⟨ih hbefore, exec_short hexec⟩

/-- A client goes on exactly as long as no datagram of 128 bytes or more comes in, and what it
sends is what its history says. -/
theorem client_traffic (a : Args) (hist : List Happening) (sent : List Datagram) :
    (∃ c, alone Client.exec a.client hist = .ok (c, sent)) ↔ Short hist ∧ sent = a.sends hist := by
  constructor
  · rintro ⟨c, hrun⟩
    have hshort := short_of_alone hrun
    obtain ⟨c', hrun', -⟩ := alone_after a hshort
    rw [hrun] at hrun'
    cases hrun'
    exact ⟨hshort, rfl⟩
  · rintro ⟨hshort, rfl⟩
    obtain ⟨c, hrun, -⟩ := alone_after a hshort
    exact ⟨c, hrun⟩

end VpnP2p.Punch
