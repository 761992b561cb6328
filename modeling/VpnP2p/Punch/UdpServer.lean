import VpnP2p.Punch.Traffic

/-!
# The answering server

`udp_server.c` answers each datagram with the first six bytes of its string. It prints what
it has received first, from a buffer of 512 bytes that keeps the bytes of longer datagrams
behind those of shorter ones; so it goes on as long as some byte of that buffer is NUL.
-/

namespace VpnP2p.Punch

open Foundation

/-! ## The code -/

structure UdpServer where
  threadflag : UInt8
  respondString : CArray 100
  siOther : SockAddr
  buf : CArray 512
  /-- `thread_receive_pack` has not called `pthread_exit`. -/
  receiving : Bool

/-- `main` up to the thread, for an argument that fits its array. -/
def UdpServer.main (respond_string : CStr 100) : UdpServer where
  threadflag := 0
  respondString := .ofString respond_string
  -- `PORT` and `SRV_IP`, the address 127.0.0.1.
  siOther := ⟨htons 1, 0x0100007f⟩
  buf := .zero 512
  receiving := true

/-- A round of `thread_receive_pack`, as long as there are rounds. -/
def UdpServer.threadReceivePack (s : UdpServer) :
    Option (SockAddr × Buf) → Result (UdpServer × List Datagram)
  | none => .ok (s, [])
  | some (sender, payload) =>
    if s.receiving then do
      let buf ← s.buf.write (payload.take 512)
      let s := { s with siOther := sender, buf := buf, receiving := s.threadflag ≠ 1 }
      if s.threadflag ≠ 1 then do
        let _ ← readString s.buf.bytes
        .ok (s, [⟨s.siOther, slice 0 6 s.respondString.bytes⟩])
      else .ok (s, [])
    else .ok (s, [])

/-- The server has one thread, and takes nothing for the others. -/
def UdpServer.exec (s : UdpServer) : Happening → Result (UdpServer × List Datagram)
  | .act .failure => s.threadReceivePack none
  | .act _ => .ok (s, [])
  | .arrival (sender, text) => s.threadReceivePack (some (sender, text.map some))

/-! ## What it receives -/

/-- The buffer after a datagram. -/
def overlay (buf : Text) : Happening → Text
  | .act _ => buf
  | .arrival (_, text) => text.take 512 ++ buf.drop (text.take 512).length

def received512 (hist : List Happening) : Text := hist.foldl overlay (List.replicate 512 0)

/-- What the server sends for the string `r`. -/
def answers (r : CStr 100) : Happening → List Datagram
  | .act _ => []
  | .arrival (sender, _) => [⟨sender, slice 0 6 (CArray.ofString r).bytes⟩]

/-- The server after `hist`. -/
structure Answering (r : CStr 100) (hist : List Happening) (s : UdpServer) : Prop where
  threadflag : s.threadflag = 0
  respondString : s.respondString = .ofString r
  buf : s.buf.bytes = (received512 hist).map some
  receiving : s.receiving = true

theorem received512_concat (hist : List Happening) (x : Happening) :
    received512 (hist ++ [x]) = overlay (received512 hist) x := by
  rw [received512, List.foldl_append]
  rfl

/-- A buffer without a NUL has no end for `printf`. -/
theorem readString_map_some {s : Text} :
    (∃ t, readString (s.map some) = .ok t) ↔ 0 ∈ s := by
  constructor
  · rintro ⟨t, ht⟩
    by_contra hnul
    rw [readString_unterminated hnul] at ht
    cases ht
  · intro hnul
    obtain ⟨pre, post, rfl⟩ := List.append_of_mem hnul
    rw [List.map_append, List.map_cons]
    exact ⟨_, readString_takeWhile pre _⟩

namespace Answering

variable {r : CStr 100} {hist : List Happening} {s : UdpServer}

theorem exec_act (h : Answering r hist s) (round : Round) :
    s.exec (.act round) = .ok (s, []) ∧ Answering r (hist ++ [.act round]) s := by
  refine ⟨by cases round <;> rfl, h.threadflag, h.respondString, ?_, h.receiving⟩
  rw [received512_concat]
  exact h.buf

theorem exec_arrival (h : Answering r hist s) (sender : SockAddr) (text : Text) :
    ∃ s', Answering r (hist ++ [.arrival (sender, text)]) s' ∧
      s.exec (.arrival (sender, text)) = (do
        let _ ← readString s'.buf.bytes
        .ok (s', answers r (.arrival (sender, text)))) := by
  have htake : ((text.map some).take 512).length ≤ 512 := List.length_take_le ..
  obtain ⟨buf, hbuf, hbytes⟩ := s.buf.write_fits _ htake
  have hflag : s.threadflag ≠ 1 := by
    rw [h.threadflag]
    decide
  refine ⟨{ s with siOther := sender, buf := buf, receiving := true },
    ⟨h.threadflag, h.respondString, ?_, rfl⟩, ?_⟩
  · rw [received512_concat]
    show buf.bytes = _
    rw [hbytes, h.buf, overlay, List.map_append, List.map_take, List.map_drop, ← List.map_take,
      List.length_map]
  · simp only [UdpServer.exec, UdpServer.threadReceivePack, h.receiving, if_true, hbuf, ok_bind,
      hflag, ne_eq, not_false_eq_true, decide_true, h.respondString]
    rfl

end Answering

/-- After every datagram so far there was a NUL in the buffer. -/
def Terminated (hist : List Happening) : Prop := ∀ pre, pre <+: hist → 0 ∈ received512 pre

theorem terminated_concat {hist : List Happening} {x : Happening} :
    Terminated (hist ++ [x]) ↔ Terminated hist ∧ 0 ∈ received512 (hist ++ [x]) := by
  constructor
  · intro h
    exact ⟨fun pre hpre => h pre (hpre.trans (List.prefix_append _ _)), h _ List.prefix_rfl⟩
  · rintro ⟨h, hlast⟩ pre hpre
    rcases List.prefix_concat_iff.mp hpre with rfl | hpre
    · exact hlast
    · exact h pre hpre

theorem answering_main (r : CStr 100) : Answering r [] (UdpServer.main r) where
  threadflag := rfl
  respondString := rfl
  buf := List.map_replicate.symm
  receiving := rfl

/-- One round: the datagram is answered iff there is a NUL in the buffer then. -/
theorem Answering.exec {r : CStr 100} {hist : List Happening} {s : UdpServer}
    (h : Answering r hist s) (hnul : 0 ∈ received512 hist) (x : Happening) :
    (0 ∈ received512 (hist ++ [x]) → ∃ s', s.exec x = .ok (s', answers r x) ∧
      Answering r (hist ++ [x]) s') ∧
    (0 ∉ received512 (hist ++ [x]) → ∀ r', s.exec x ≠ .ok r') := by
  cases x with
  | act round =>
    obtain ⟨hexec, hnext⟩ := h.exec_act round
    refine ⟨fun _ => ⟨s, hexec, hnext⟩, fun hno => ?_⟩
    rw [received512_concat] at hno
    exact absurd hnul hno
  | arrival m =>
    obtain ⟨sender, text⟩ := m
    obtain ⟨s', hnext, hexec⟩ := h.exec_arrival sender text
    rw [hexec, hnext.buf]
    constructor
    · intro hyes
      obtain ⟨t, ht⟩ := readString_map_some.mpr hyes
      exact ⟨s', by rw [ht, ok_bind], hnext⟩
    · intro hno r' hrun
      obtain ⟨t, ht, -⟩ := bind_eq_ok.mp hrun
      exact hno (readString_map_some.mp ⟨t, ht⟩)

theorem alone_answering (r : CStr 100) {hist : List Happening} (hterm : Terminated hist) :
    ∃ s, alone UdpServer.exec (UdpServer.main r) hist = .ok (s, hist.flatMap (answers r)) ∧
      Answering r hist s := by
  induction hist using List.reverseRecOn with
  | nil => exact ⟨_, rfl, answering_main r⟩
  | append_singleton hist x ih =>
    obtain ⟨hhist, hlast⟩ := terminated_concat.mp hterm
    obtain ⟨s, hrun, hs⟩ := ih hhist
    obtain ⟨s', hexec, hs'⟩ := (hs.exec (hhist _ List.prefix_rfl) x).1 hlast
    exact ⟨s', (alone_concat x).mpr ⟨s, _, _, hrun, hexec, by simp⟩, hs'⟩

theorem terminated_of_alone {r : CStr 100} {hist : List Happening}
    {last : UdpServer × List Datagram}
    (hrun : alone UdpServer.exec (UdpServer.main r) hist = .ok last) : Terminated hist := by
  induction hist using List.reverseRecOn generalizing last with
  | nil =>
    intro pre hpre
    rw [List.prefix_nil.mp hpre]
    exact List.mem_replicate.mpr ⟨by decide, rfl⟩
  | append_singleton hist x ih =>
    obtain ⟨s, before, out, hbefore, hexec, -⟩ := (alone_concat x).mp hrun
    have hhist := ih hbefore
    obtain ⟨s', hrun', hs⟩ := alone_answering r hhist
    rw [hbefore] at hrun'
    cases hrun'
    refine terminated_concat.mpr ⟨hhist, ?_⟩
    by_contra hno
    exact (hs.exec (hhist _ List.prefix_rfl) x).2 hno _ hexec

/-- The server answers every datagram, once and to its sender, exactly as long as its buffer
has a NUL in it. -/
theorem udpServer_answers (r : CStr 100) (hist : List Happening) (sent : List Datagram) :
    (∃ s, alone UdpServer.exec (UdpServer.main r) hist = .ok (s, sent)) ↔
      Terminated hist ∧ sent = hist.flatMap (answers r) := by
  constructor
  · rintro ⟨s, hrun⟩
    have hhist := terminated_of_alone hrun
    obtain ⟨s', hrun', -⟩ := alone_answering r hhist
    rw [hrun] at hrun'
    cases hrun'
    exact ⟨hhist, rfl⟩
  · rintro ⟨hhist, rfl⟩
    obtain ⟨s, hrun, -⟩ := alone_answering r hhist
    exact ⟨s, hrun⟩

end VpnP2p.Punch
