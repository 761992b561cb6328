import VpnP2p.Punch.UdpServer

/-!
# Clients and servers on a network

Any number of clients and answering servers send each other datagrams over a network that
loses, delays, doubles and reorders them, delivers them to anybody, be it who sent them, and
writes any address into them; only their six bytes come as they were sent. Nobody goes wrong
there. A client is connected exactly when somebody's first six characters, which are what it
waits for, have come in; and as long as there is somebody with these characters, and be it
the client itself, it can still come to that from wherever the network is.
-/

namespace VpnP2p.Punch

open Foundation

/-! ## The parties -/

inductive Party where
  | client (c : Client)
  | server (s : UdpServer)

def Party.exec : Party → Happening → Result (Party × List Datagram)
  | .client c, x => do
    let (c, out) ← c.exec x
    .ok (.client c, out)
  | .server s, x => do
    let (s, out) ← s.exec x
    .ok (.server s, out)

variable {ι : Type}

/-- A datagram reaches any party, its own sender too, with any address as its sender's. -/
def udp (ι : Type) : Protocol ι Party Datagram Round (SockAddr × Text) where
  exec := Party.exec
  Arrives _ _ d m := m.2.map some = d.payload

/-- How a party was started. -/
inductive Role where
  | client (a : Args)
  | server (respond_string : CStr 100)

namespace Role

def start : Role → Party
  | .client a => .client a.client
  | .server r => .server (UdpServer.main r)

/-- What the party sends six bytes of. -/
def string : Role → CStr 100
  | .client a => a.sendString
  | .server r => r

/-- What its datagrams hold. -/
def speaks (role : Role) : Text := role.string.val.take 6

def payload (role : Role) : Buf := slice 0 6 (CArray.ofString role.string).bytes

end Role

/-- The party stands where its history of six-byte datagrams has led it. -/
inductive Party.At : Role → List Happening → Party → Prop
  | client {a : Args} {hist : List Happening} {c : Client} (h : After a hist c) :
      At (.client a) hist (.client c)
  | server {r : CStr 100} {hist : List Happening} {s : UdpServer} (h : Answering r hist s)
      (hrest : (received512 hist).drop 6 = List.replicate 506 0) : At (.server r) hist (.server s)

/-! ## Six bytes -/

theorem Role.length_payload (role : Role) : role.payload.length = 6 := by
  rw [Role.payload, slice, List.drop_zero, List.length_take, CArray.length]
  rfl

/-- What a datagram of six bytes says when it arrives. -/
theorem spoken_payload {role : Role} {text : Text} (h : text.map some = role.payload) :
    spoken text = role.speaks := by
  have hread := readString_payload role.string []
  have hspoken := readString_takeWhile text []
  rw [h, show role.payload = slice 0 6 (CArray.ofString role.string).bytes from rfl, hread]
    at hspoken
  exact (Except.ok.inj hspoken).symm

theorem length_of_payload {role : Role} {text : Text} (h : text.map some = role.payload) :
    text.length = 6 := by
  have hlen := congrArg List.length h
  rw [List.length_map, role.length_payload] at hlen
  exact hlen

/-- Every byte of it has a value. -/
theorem Role.exists_text (role : Role) : ∃ text : Text, text.map some = role.payload := by
  have hbytes : ∀ b ∈ (CArray.ofString role.string).bytes, ∃ c, some c = b := by
    intro b hb
    have hmem : b ∈ cbuf role.string.val ++ List.replicate _ (some 0) := hb
    simp only [cbuf, List.mem_append, List.mem_map, List.mem_singleton, List.mem_replicate] at hmem
    rcases hmem with (⟨c, -, hc⟩ | hc) | ⟨-, hc⟩
    · exact ⟨c, hc⟩
    · exact ⟨0, hc.symm⟩
    · exact ⟨0, hc.symm⟩
  refine ⟨role.payload.map (fun b => b.getD 0), ?_⟩
  rw [List.map_map]
  refine (List.map_congr_left fun b hb => ?_).trans (List.map_id _)
  obtain ⟨c, rfl⟩ := hbytes b (List.mem_of_mem_drop (List.mem_of_mem_take hb))
  rfl

theorem received512_drop {hist : List Happening} {x : Happening}
    (h : (received512 hist).drop 6 = List.replicate 506 0)
    (hx : ∀ sender text, x = .arrival (sender, text) → text.length = 6) :
    (received512 (hist ++ [x])).drop 6 = List.replicate 506 0 := by
  rw [received512_concat]
  cases x with
  | act round => exact h
  | arrival m =>
    obtain ⟨sender, text⟩ := m
    have hlen := hx sender text rfl
    have htake : text.take 512 = text := List.take_of_length_le (by omega)
    rw [overlay, htake, hlen, ← hlen, List.drop_left, hlen]
    exact h

theorem zero_mem_received512 {hist : List Happening}
    (h : (received512 hist).drop 6 = List.replicate 506 0) : 0 ∈ received512 hist := by
  apply List.mem_of_mem_drop
  rw [h]
  exact List.mem_replicate.mpr ⟨by decide, rfl⟩

/-! ## A party -/

theorem Args.traffic_payload {a : Args} {hist : List Happening} {x : Happening} {d : Datagram}
    (hd : d ∈ a.traffic hist x) : d.payload = a.payload := by
  cases x with
  | act round =>
    cases round with
    | punch =>
      rw [Args.traffic] at hd
      split at hd
      · cases hd
      · rw [List.mem_singleton.mp hd]
    | heartbeat =>
      rw [Args.traffic] at hd
      split at hd
      · rw [List.mem_singleton.mp hd]
      · cases hd
    | failure => cases hd
  | arrival m => cases hd

theorem party_start (role : Role) : Party.At role [] role.start := by
  cases role with
  | client a => exact .client (after_start a)
  | server r => exact .server (answering_main r) (List.drop_replicate ..)

/-- Nobody goes wrong on six bytes. -/
theorem Party.At.exec {role : Role} {hist : List Happening} {p : Party} (h : p.At role hist)
    (x : Happening) (hx : ∀ sender text, x = .arrival (sender, text) → text.length = 6) :
    ∃ p' out, p.exec x = .ok (p', out) ∧ p'.At role (hist ++ [x]) ∧
      ∀ d ∈ out, d.payload = role.payload := by
  cases h with
  | @client a hist c h =>
    have hshort : ∀ sender text, x = .arrival (sender, text) → text.length < 128 :=
      fun sender text h => by rw [hx sender text h]; decide
    obtain ⟨c', hexec, hnext⟩ := h.exec x hshort
    refine ⟨.client c', a.traffic hist x, ?_, .client hnext, fun d hd => Args.traffic_payload hd⟩
    rw [Party.exec, hexec, ok_bind]
  | @server r hist s h hrest =>
    have hrest' := received512_drop hrest hx
    obtain ⟨s', hexec, hnext⟩ :=
      (h.exec (zero_mem_received512 hrest) x).1 (zero_mem_received512 hrest')
    refine ⟨.server s', answers r x, ?_, .server hnext hrest', fun d hd => ?_⟩
    · rw [Party.exec, hexec, ok_bind]
    · cases x with
      | act round => cases hd
      | arrival m => rw [List.mem_singleton.mp hd]; rfl

/-! ## Runs -/

section Runs

variable [DecidableEq ι] {roles : ι → Role} {steps : List (ι × Happening)}
  {net : Net ι Party Datagram}

omit [DecidableEq ι] in
/-- What may arrive has six bytes of somebody's. -/
theorem ready_payload {wire : List (ι × Datagram)} {i : ι} {x : Happening}
    (hwire : ∀ j d, (j, d) ∈ wire → d.payload = (roles j).payload)
    (hready : (udp ι).Ready wire i x) : ∀ sender text, x = .arrival (sender, text) →
      ∃ j, text.map some = (roles j).payload := by
  rintro sender text rfl
  obtain ⟨j, d, hd, htext⟩ := hready
  exact ⟨j, Eq.trans htext (hwire j d hd)⟩

omit [DecidableEq ι] in
theorem ready_six {wire : List (ι × Datagram)} {i : ι} {x : Happening}
    (hwire : ∀ j d, (j, d) ∈ wire → d.payload = (roles j).payload)
    (hready : (udp ι).Ready wire i x) :
    ∀ sender text, x = .arrival (sender, text) → text.length = 6 := by
  intro sender text hx
  obtain ⟨j, htext⟩ := ready_payload hwire hready sender text hx
  exact length_of_payload htext

/-- Everybody stands where the history led, and only six bytes of the sender's are sent. -/
theorem run_at (hrun : (udp ι).Run (fun i => (roles i).start) steps net) :
    (∀ i, (net.party i).At (roles i) (inputsOf i steps)) ∧
      ∀ j d, (j, d) ∈ net.wire → d.payload = (roles j).payload := by
  refine hrun.keeps (fun i hist p => p.At (roles i) hist)
    (fun j d => d.payload = (roles j).payload) (fun i => party_start (roles i)) ?_
  intro i hist p x p' out hat hinput hexec
  have hsix : ∀ sender text, x = .arrival (sender, text) → text.length = 6 := by
    intro sender text hx
    obtain ⟨j, d, hd, htext⟩ := hinput _ hx
    exact length_of_payload (Eq.trans htext hd)
  obtain ⟨p₁, out₁, hexec₁, hnext, hout⟩ := hat.exec x hsix
  have heq : Except.ok (p₁, out₁) = Except.ok (p', out) := hexec₁.symm.trans hexec
  cases heq
  exact ⟨hnext, hout⟩

/-! ## Connections -/

/-- Somebody's string was recognised. -/
def Party.Connected (p : Party) : Prop :=
  ∃ c, p = .client c ∧ c.threadflag = 1 ∧ c.heartbeat = 1

omit [DecidableEq ι] in
theorem connected_iff_heard {a : Args} {hist : List Happening} {p : Party}
    (h : p.At (.client a) hist) : p.Connected ↔ heard a.waits hist = true := by
  cases h with
  | @client a hist c h =>
    constructor
    · rintro ⟨c', hc, hflag, -⟩
      cases hc
      exact h.flag_iff.mp hflag
    · intro hheard
      exact ⟨c, rfl, h.flag_iff.mpr hheard, h.heartbeat_iff.mpr hheard⟩

/-- In every run everybody can take whatever comes, and a client is connected exactly if
somebody's six bytes have come in whose characters it waits for. -/
theorem connected_iff (roles : ι → Role) {steps : List (ι × Happening)}
    {net : Net ι Party Datagram} (hrun : (udp ι).Run (fun i => (roles i).start) steps net) :
    (∀ i x, (udp ι).Ready net.wire i x → ∃ p out, (net.party i).exec x = .ok (p, out)) ∧
      ∀ i a, roles i = .client a → ((net.party i).Connected ↔
        ∃ j, (roles j).speaks = a.waits ∧
          ∃ sender text, (i, .arrival (sender, text)) ∈ steps ∧
            text.map some = (roles j).payload) := by
  obtain ⟨hat, hwire⟩ := run_at hrun
  constructor
  · intro i x hready
    obtain ⟨p, out, hexec, -⟩ := (hat i).exec x (ready_six hwire hready)
    exact ⟨p, out, hexec⟩
  · intro i a hi
    have hhere := hat i
    rw [hi] at hhere
    rw [connected_iff_heard hhere, heard, List.any_eq_true]
    constructor
    · rintro ⟨x, hx, hhears⟩
      rw [mem_inputsOf] at hx
      cases x with
      | act round => cases hhears
      | arrival m =>
        obtain ⟨sender, text⟩ := m
        obtain ⟨j, d, hd, htext⟩ := hrun.arrived hx
        have hpayload : text.map some = (roles j).payload := Eq.trans htext (hwire j d hd)
        refine ⟨j, ?_, sender, text, hx, hpayload⟩
        rw [← spoken_payload hpayload]
        exact of_decide_eq_true hhears
    · rintro ⟨j, hspeaks, sender, text, hx, hpayload⟩
      refine ⟨_, mem_inputsOf.mpr hx, ?_⟩
      show decide (spoken text = a.waits) = true
      rw [decide_eq_true_iff, spoken_payload hpayload, hspeaks]

/-! ## Getting connected -/

theorem heard_of_exited {r : Text} {hist : List Happening} (h : exited r hist = true) :
    heard r hist = true := by
  by_contra hno
  rw [Bool.not_eq_true] at hno
  rw [exited, (dropWhile_eq_nil r hist).mpr hno] at h
  cases h

omit [DecidableEq ι] in
/-- A client is never silent: one of its threads has something to send. -/
theorem exists_send {a : Args} {hist : List Happening} {p : Party} (h : p.At (.client a) hist) :
    ∃ round p' d, p.exec (.act round) = .ok (p', [d]) := by
  cases h with
  | @client a hist c h =>
    have hact : ∀ round, ∃ c', c.exec (.act round) = .ok (c', a.traffic hist (.act round)) := by
      intro round
      obtain ⟨c', hexec, -⟩ := h.exec (.act round) (fun _ _ hx => by cases hx)
      exact ⟨c', hexec⟩
    cases hexit : exited a.waits hist with
    | true =>
      obtain ⟨c', hexec⟩ := hact .heartbeat
      have hheard := heard_of_exited hexit
      refine ⟨.heartbeat, .client c', ⟨lastSender a.server hist, a.payload⟩, ?_⟩
      rw [Party.exec, hexec, Args.traffic, hheard]
      rfl
    | false =>
      obtain ⟨c', hexec⟩ := hact .punch
      refine ⟨.punch, .client c',
        ⟨⟨htons (.ofNat (a.port (punches hist))), a.srvIp⟩, a.payload⟩, ?_⟩
      rw [Party.exec, hexec, Args.traffic, hexit]
      rfl

omit [DecidableEq ι] in
/-- A server answers whatever comes. -/
theorem exists_answer {r : CStr 100} {hist : List Happening} {p : Party}
    (h : p.At (.server r) hist) (sender : SockAddr) {text : Text} (hsix : text.length = 6) :
    ∃ p' d, p.exec (.arrival (sender, text)) = .ok (p', [d]) := by
  cases h with
  | @server r hist s h hrest =>
    have hrest' : (received512 (hist ++ [.arrival (sender, text)])).drop 6 =
        List.replicate 506 0 := by
      refine received512_drop hrest (fun sender' text' hx => ?_)
      cases hx
      exact hsix
    have hgo := (h.exec (zero_mem_received512 hrest) (.arrival (sender, text))).1
    obtain ⟨s', hexec, -⟩ := hgo (zero_mem_received512 hrest')
    exact ⟨.server s', _, by rw [Party.exec, hexec]; rfl⟩

section Possible

variable (roles : ι → Role) {steps : List (ι × Happening)} {net : Net ι Party Datagram}
  (hrun : (udp ι).Run (fun i => (roles i).start) steps net) {i : ι} {a : Args}
  (hi : roles i = .client a)

include hrun hi

/-- A client can put a datagram on the wire. -/
theorem client_can_send : ∃ step net' d, (udp ι).Run (fun i => (roles i).start)
    (steps ++ [step]) net' ∧ (i, d) ∈ net'.wire := by
  have hhere := (run_at hrun).1 i
  rw [hi] at hhere
  obtain ⟨round, p, d, hexec⟩ := exists_send hhere
  have hready : (udp ι).Ready net.wire i (.act round) := trivial
  exact ⟨_, _, d, hrun.step hready hexec,
    Net.mem_after.mpr (.inr ⟨rfl, List.mem_singleton_self d⟩)⟩

omit hi in
/-- What is on the wire can come in at anybody's. -/
theorem can_arrive {j k : ι} {d : Datagram} (hd : (j, d) ∈ net.wire)
    {text : Text} (htext : text.map some = (roles j).payload) (sender : SockAddr) :
    (udp ι).Ready net.wire k (.arrival (sender, text)) :=
  ⟨j, d, hd, htext.trans ((run_at hrun).2 j d hd).symm⟩

/-- Anybody can come to send something, a server by being asked. -/
theorem can_send (j : ι) : ∃ steps' net' d, (udp ι).Run (fun i => (roles i).start)
    (steps ++ steps') net' ∧ (j, d) ∈ net'.wire := by
  cases hj : roles j with
  | client b =>
    obtain ⟨step, net', d, hrun', hd⟩ := client_can_send roles hrun hj
    exact ⟨[step], net', d, hrun', hd⟩
  | server r =>
    obtain ⟨step, net', d, hrun', hd⟩ := client_can_send roles hrun hi
    obtain ⟨text, htext⟩ := (roles i).exists_text
    have hthere := (run_at hrun').1 j
    rw [hj] at hthere
    obtain ⟨p, d', hexec⟩ := exists_answer hthere ⟨0, 0⟩ (length_of_payload htext)
    have hready : (udp ι).Ready net'.wire j (.arrival (⟨0, 0⟩, text)) :=
      can_arrive roles hrun' hd htext ⟨0, 0⟩
    have hnext := hrun'.step hready hexec
    rw [List.append_assoc] at hnext
    exact ⟨_, _, d', hnext, Net.mem_after.mpr (.inr ⟨rfl, List.mem_singleton_self d'⟩)⟩

/-- Wherever the network is, a client can still get connected, or be so already, exactly if
somebody's first six characters are what it waits for. -/
theorem connect_possible_iff : (∃ steps' net',
      (udp ι).Run (fun i => (roles i).start) (steps ++ steps') net' ∧
        (net'.party i).Connected) ↔
    ∃ j, (roles j).speaks = a.waits := by
  constructor
  · rintro ⟨steps', net', hrun', hconnected⟩
    obtain ⟨j, hspeaks, -⟩ := ((connected_iff roles hrun').2 i a hi).mp hconnected
    exact ⟨j, hspeaks⟩
  · rintro ⟨j, hspeaks⟩
    obtain ⟨steps', net', d, hrun', hd⟩ := can_send roles hrun hi j
    obtain ⟨text, htext⟩ := (roles j).exists_text
    have hready : (udp ι).Ready net'.wire i (.arrival (⟨0, 0⟩, text)) :=
      can_arrive roles hrun' hd htext ⟨0, 0⟩
    obtain ⟨p, out, hexec⟩ := (connected_iff roles hrun').1 i _ hready
    have hnext := hrun'.step hready hexec
    refine ⟨steps' ++ [(i, .arrival (⟨0, 0⟩, text))], _, List.append_assoc .. ▸ hnext, ?_⟩
    refine ((connected_iff roles hnext).2 i a hi).mpr ⟨j, hspeaks, ⟨0, 0⟩, text, ?_, htext⟩
    exact List.mem_append_right _ (List.mem_singleton_self _)

end Possible

end Runs

/-! ## Two clients -/

/-- Both send seven characters and wait for the first six. -/
def samplePeers (_ : Bool) : Role := .client ⟨2, 0, sampleString, samplePrefix⟩

theorem connected_iff_sample : ∃ net, (udp Bool).Run (fun i => (samplePeers i).start)
      [(true, .act .punch)] net ∧
    (∀ i x, (udp Bool).Ready net.wire i x → ∃ p out, (net.party i).exec x = .ok (p, out)) ∧
      ∀ i a, samplePeers i = .client a → ((net.party i).Connected ↔
        ∃ j, (samplePeers j).speaks = a.waits ∧
          ∃ sender, ∃ text : Text,
            (i, .arrival (sender, text)) ∈ [(true, (.act .punch : Happening))] ∧
            text.map some = (samplePeers j).payload) := by
  have hready : (udp Bool).Ready [] true (.act .punch) := trivial
  have hstart : (udp Bool).Run (fun i => (samplePeers i).start) [] ⟨_, []⟩ := .start
  have hrun := hstart.step hready rfl
  exact ⟨_, hrun, connected_iff samplePeers hrun⟩

/-- They recognise each other. -/
theorem connect_possible_sample : ∃ steps net,
    (udp Bool).Run (fun i => (samplePeers i).start) steps net ∧ (net.party false).Connected := by
  obtain ⟨steps, net, hrun, hconnected⟩ :=
    (connect_possible_iff samplePeers (.start) (rfl : samplePeers false = .client _)).mpr
      ⟨true, by decide⟩
  exact ⟨_, net, hrun, hconnected⟩

end VpnP2p.Punch
