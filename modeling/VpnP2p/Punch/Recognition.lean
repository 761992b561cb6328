import VpnP2p.Punch.Client

/-!
# Recognising the peer

What a client sends for its string, and what its peer makes of it.
-/

namespace VpnP2p.Punch

open Foundation

/-! ## One datagram -/

/-- The six bytes of `send_string`, with a terminator behind them, hold its first six
characters. -/
theorem readString_payload (s : CStr 100) (rest : Buf) :
    readString (slice 0 6 (CArray.ofString s).bytes ++ some 0 :: rest) = .ok (s.val.take 6) := by
  have hread := CArray.readString_ofString s
  rw [slice, List.drop_zero]
  by_cases hshort : s.val.length < 6
  · obtain ⟨hnul, tail, htail⟩ := readString_ok (readString_take hread hshort)
    rw [htail, List.take_of_length_le (by omega), List.append_assoc]
    exact readString_append hnul _
  · rw [take_of_readString hread (by omega)]
    exact readString_append (fun h => s.noNul (List.mem_of_mem_take h)) rest

/-- A short datagram sets the flags iff it holds the string that is waited for. -/
theorem threadReceivePack_spec {c : Client} {sender : SockAddr} {payload : Buf} {t r : Text}
    (hshort : payload.length < 128)
    (ht : ∀ rest, readString (payload ++ some 0 :: rest) = .ok t)
    (hr : readString c.recvString.bytes = .ok r) :
    ∃ c', threadReceivePack c (some (sender, payload)) = .ok c' ∧
      (c'.threadflag, c'.heartbeat) = if t = r then (1, 1) else (c.threadflag, c.heartbeat) := by
  have htake : payload.take 512 = payload := List.take_of_length_le (by omega)
  obtain ⟨buf, hbuf, -⟩ := c.buf.write_fits payload (by omega)
  obtain ⟨tempbuf, htemp, hbytes⟩ := c.tempbuf.write_fits (payload ++ [some 0]) (by simp; omega)
  have hcmp : strcmpEq tempbuf.bytes r = .ok (t = r) := by
    rw [hbytes, List.append_assoc]
    exact strcmpEq_of_readString (ht _) (readString_ok hr).1
  simp only [threadReceivePack, htake, hbuf, htemp, hr, hcmp, ok_bind]
  by_cases htr : t = r
  · simp [htr]
  · simp [htr]

/-! ## Between two clients -/

/-- A client that was started with these arguments and ran for a while. -/
def Reaches (type : Int32) (srv_ip : UInt32) (send_string recv_string : CStr 100) (c : Client) :
    Prop :=
  ∃ events sent, Client.run events (main type srv_ip send_string recv_string) = .ok (c, sent)

/-- What `thread_punching` and `thread_heartbeat` send in their next round. -/
def Client.sends (c : Client) : List Datagram := (threadPunching c).2 ++ threadHeartbeat c

/-- Any datagram for `s` sets the flags of a peer that waits for `r` if the strings are the
same, and leaves its flags alone if they are not. -/
def Recognises (s r : CStr 100) : Prop :=
  ∀ type srv_ip recv_string c, Reaches type srv_ip s recv_string c → ∀ d ∈ c.sends,
    ∀ type' srv_ip' send_string c', type' ≠ 1 → Reaches type' srv_ip' send_string r c' →
      ∀ sender, ∃ c'', threadReceivePack c' (some (sender, d.payload)) = .ok c'' ∧
        (c''.threadflag, c''.heartbeat) =
          if s = r then (1, 1) else (c'.threadflag, c'.heartbeat)

section Peers

variable {type : Int32} {srv_ip : UInt32} {s r : CStr 100} {c : Client}

theorem payload_of_sends (hc : Reaches type srv_ip s r c) {d : Datagram} (hd : d ∈ c.sends) :
    d.payload = slice 0 6 (CArray.ofString s).bytes := by
  obtain ⟨events, sent, hrun⟩ := hc
  have hstring : c.sendString = .ofString s := (Client.run_sameArgs hrun).sendString
  rw [← hstring]
  rcases List.mem_append.mp hd with hd | hd
  · unfold threadPunching at hd
    split at hd
    · rw [List.mem_singleton.mp hd]
      rfl
    · cases hd
  · unfold threadHeartbeat at hd
    split at hd
    · rw [List.mem_singleton.mp hd]
      rfl
    · cases hd

theorem readString_recvString (hc : Reaches type srv_ip s r c) (htype : type ≠ 1) :
    readString c.recvString.bytes = .ok r.val := by
  obtain ⟨events, sent, hrun⟩ := hc
  have hstring : c.recvString = (main type srv_ip s r).recvString :=
    (Client.run_sameArgs hrun).recvString
  rw [hstring, main, initProgram, if_neg htype]
  exact CArray.readString_ofString r

/-- The peer compares its string with the first six characters. -/
theorem threadReceivePack_sends (hc : Reaches type srv_ip s r c) {d : Datagram}
    (hd : d ∈ c.sends) {type' : Int32} {srv_ip' : UInt32} {s' r' : CStr 100} {c' : Client}
    (htype : type' ≠ 1) (hc' : Reaches type' srv_ip' s' r' c') (sender : SockAddr) :
    ∃ c'', threadReceivePack c' (some (sender, d.payload)) = .ok c'' ∧
      (c''.threadflag, c''.heartbeat) =
        if s.val.take 6 = r'.val then (1, 1) else (c'.threadflag, c'.heartbeat) := by
  rw [payload_of_sends hc hd]
  apply threadReceivePack_spec _ (readString_payload s) (readString_recvString hc' htype)
  have hlen := List.length_take_le 6 ((CArray.ofString s).bytes.drop 0)
  rw [slice]
  omega

end Peers

/-- The first six characters tell two strings apart like the strings themselves. -/
theorem take_eq_iff {s r : CStr 100} : (s.val.take 6 = r.val ↔ s = r) ↔
    (s.val.length ≤ 6 ∨ r ≠ s ∧ r.val ≠ s.val.take 6) := by
  by_cases hshort : s.val.length ≤ 6
  · rw [List.take_of_length_le hshort]
    exact ⟨fun _ => .inl hshort, fun _ => ⟨CStr.ext', congrArg CStr.val⟩⟩
  · have hcut : s.val.take 6 ≠ s.val := by
      intro heq
      have hlen := congrArg List.length heq
      rw [List.length_take] at hlen
      omega
    constructor
    · intro h
      refine .inr ⟨?_, fun hr => ?_⟩
      · rintro rfl
        exact hcut (h.mpr rfl)
      · obtain rfl := h.mp hr.symm
        exact hcut hr.symm
    · rintro (hle | ⟨hne, hr⟩)
      · exact absurd hle hshort
      · exact ⟨fun h => absurd h.symm hr, fun h => absurd h.symm hne⟩

/-- Two clients that were just started already show which strings are recognised. -/
theorem take_of_recognises {s r : CStr 100} (hall : Recognises s r) :
    s.val.take 6 = r.val ↔ s = r := by
  have hstart : Reaches 2 0 s r (main 2 0 s r) := ⟨[], [], rfl⟩
  have hd : (main 2 0 s r).send (main 2 0 s r).testOther ∈ (main 2 0 s r).sends :=
    List.mem_append_left _ (List.mem_singleton_self _)
  obtain ⟨c, hrun, hflags⟩ := hall 2 0 r _ hstart _ hd 2 0 s _ (by decide) hstart ⟨0, 0⟩
  obtain ⟨c', hrun', hflags'⟩ := threadReceivePack_sends hstart hd (by decide) hstart ⟨0, 0⟩
  rw [hrun] at hrun'
  cases hrun'
  rw [hflags] at hflags'
  have hquiet : ((1, 1) : UInt8 × Int32) ≠ ((main 2 0 s r).threadflag, (main 2 0 s r).heartbeat) :=
    show ((1, 1) : UInt8 × Int32) ≠ (0, 0) by decide
  exact ((ite_eq_ite_iff hquiet).mp hflags').symm

/-- A peer that waits for `r` recognises exactly that string iff the string sent has at most six
characters, or `r` is neither that string nor its first six characters. -/
theorem recognises_iff (s r : CStr 100) : Recognises s r ↔
    s.val.length ≤ 6 ∨ r ≠ s ∧ r.val ≠ s.val.take 6 := by
  rw [← take_eq_iff]
  constructor
  · exact take_of_recognises
  · intro hiff type srv_ip recv_string c hc d hd type' srv_ip' send_string c' htype hc' sender
    obtain ⟨c'', hrun, hflags⟩ := threadReceivePack_sends hc hd htype hc' sender
    refine ⟨c'', hrun, ?_⟩
    rw [hflags]
    simp only [hiff]

def samplePrefix : CStr 100 := ⟨lit "client", by decide, by decide⟩

/-- A string of seven characters is not recognised, and its first six are. -/
theorem not_recognises_seven :
    ¬ Recognises sampleString sampleString ∧ ¬ Recognises sampleString samplePrefix := by
  constructor
  · intro hall
    exact absurd ((take_of_recognises hall).mpr rfl) (by decide)
  · intro hall
    exact absurd ((take_of_recognises hall).mp (by decide)) (by decide)

end VpnP2p.Punch
