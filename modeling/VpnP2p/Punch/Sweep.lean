import Mathlib.Order.Interval.Finset.Nat
import VpnP2p.Punch.Client

/-!
# The sweep over the ports

With a type other than 1, `thread_punching` counts the port down from 65535 to 1 and starts
again. A round sets the port for the next one, so the first two rounds have the same port.
-/

namespace VpnP2p.Punch

open Foundation

/-! ## Ports -/

theorem toNat_htons (x : UInt16) : (htons x).toNat = x.toNat % 256 * 256 + x.toNat / 256 := by
  have hlt := x.toNat_lt
  have hsize : UInt16.size = 2 ^ 16 := rfl
  exact UInt16.toNat_ofNat_of_lt' (by omega)

/-- `ntohs(htons(x))`. -/
@[simp] theorem htons_htons (x : UInt16) : htons (htons x) = x := by
  have hlt := x.toNat_lt
  apply UInt16.toNat_inj.mp
  rw [toNat_htons, toNat_htons]
  omega

/-- `PORT - cnt` is a port as long as the counter is. -/
theorem toNat_ofInt_portMax {n : Nat} (hn : n ≤ portMax) :
    (UInt16.ofInt (portMax - n)).toNat = portMax - n := by
  have hsize : UInt16.size = 2 ^ 16 := rfl
  have hmax : portMax = 65535 := rfl
  have hmod : (((portMax : Int) - n) % 2 ^ 16).toNat = portMax - n := by omega
  rw [UInt16.ofInt, hmod]
  exact UInt16.toNat_ofNat_of_lt' (by omega)

/-- The port the datagram is sent to. -/
def Datagram.port (d : Datagram) : Nat := (htons d.target.sinPort).toNat

/-! ## A cycle -/

/-- Of `n` consecutive numbers each has a remainder of its own. -/
theorem perm_map_mod (a n : Nat) : ((List.range' a n).map (· % n)).Perm (List.range n) := by
  have h := Nat.multiset_Ico_map_mod a n
  have hico : Multiset.Ico a (a + n) = (List.range' a (a + n - a) : List Nat) := rfl
  rw [hico, Nat.add_sub_cancel_left, Multiset.map_coe] at h
  exact Multiset.coe_eq_coe.mp h

/-- Counting down in a cycle hits each of 1, .., n once in `n` steps. -/
theorem perm_countdown (a n : Nat) :
    ((List.range' a n).map (fun k => n - k % n)).Perm (List.range' 1 n) := by
  have hmap : (List.range' a n).map (fun k => n - k % n) =
      ((List.range' a n).map (· % n)).map (fun r => n - r) := by
    rw [List.map_map]
    rfl
  have hdown : (List.range n).map (fun r => n - r) = (List.range' 1 n).reverse := by
    rw [List.reverse_range']
    apply List.map_congr_left
    intro r hr
    rw [List.mem_range] at hr
    omega
  rw [hmap]
  exact ((perm_map_mod a n).map _).trans (hdown ▸ List.reverse_perm _)

/-! ## Rounds -/

/-- The port of send `k`, counted from 0. -/
def portOf : Nat → Nat
  | 0 => portMax
  | k + 1 => portMax - k % portMax

theorem portOf_pos (k : Nat) : 0 < portOf k := by
  cases k with
  | zero => decide
  | succ k =>
    have hlt : k % portMax < portMax := Nat.mod_lt _ (by decide)
    rw [portOf]
    omega

/-- The client after `n` sends. -/
structure Swept (n : Nat) (c : Client) : Prop where
  type : c.type ≠ 1
  cnt : c.cnt.toNat = n % portMax
  port : (htons c.testOther.sinPort).toNat = portOf n

theorem swept_main {type : Int32} (htype : type ≠ 1) (srv_ip : UInt32)
    (send_string recv_string : CStr 100) : Swept 0 (main type srv_ip send_string recv_string) where
  type := htype
  cnt := rfl
  port := congrArg UInt16.toNat (htons_htons _)

section Rounds

variable {c c' : Client} {n : Nat}

theorem Swept.untouched (hc : Swept n c) (hkeep : c.Untouched c') : Swept n c' where
  type := by
    rw [hkeep.type]
    exact hc.type
  cnt := by rw [hkeep.cnt, hc.cnt]
  port := by rw [hkeep.testOther, hc.port]

/-- The counter never wraps, and neither does what it is subtracted from. -/
theorem Swept.cnt_lt (hc : Swept n c) : c.cnt.toNat < portMax := by
  rw [hc.cnt]
  exact Nat.mod_lt _ (by decide)

theorem Swept.retarget (hc : Swept n c) : Swept (n + 1) c.retarget := by
  have hlt := hc.cnt_lt
  have hmax : portMax = 65535 := rfl
  have hsize : UInt16.size = 2 ^ 16 := rfl
  rw [Client.retarget, if_neg hc.type]
  refine ⟨hc.type, ?_, ?_⟩
  · show (UInt16.ofNat ((c.cnt.toNat + 1) % 65535)).toNat = _
    rw [UInt16.toNat_ofNat_of_lt' (by omega), hc.cnt, hmax, Nat.mod_add_mod]
  · show (htons (htons (.ofInt (portMax - c.cnt.toNat)))).toNat = _
    rw [htons_htons, toNat_ofInt_portMax (Nat.le_of_lt hlt), hc.cnt]
    rfl

/-- One round: what it sends goes to the next port. -/
theorem Swept.step (hc : Swept n c) {event : Event} {out : List Datagram}
    (hrun : c.step event = .ok (c', out)) :
    out.map Datagram.port = (List.range' n out.length).map portOf ∧ Swept (n + out.length) c' := by
  cases event with
  | punch =>
    have hpunch : threadPunching c = (c', out) := Except.ok.inj hrun
    unfold threadPunching at hpunch
    by_cases halive : c.punching
    · rw [if_pos halive] at hpunch
      cases hpunch
      have hnext := hc.retarget
      refine ⟨?_, hnext.type, hnext.cnt, hnext.port⟩
      exact congrArg (fun p => [p]) hc.port
    · rw [if_neg halive] at hpunch
      cases hpunch
      exact ⟨rfl, hc⟩
  | receive m =>
    obtain ⟨c'', hreceive, heq⟩ := bind_eq_ok.mp hrun
    cases heq
    exact ⟨rfl, hc.untouched (threadReceivePack_untouched hreceive)⟩

/-- A run sends to one port after the other. -/
theorem Swept.run (hc : Swept n c) {events : List Event} {sent : List Datagram}
    (hrun : Client.run events c = .ok (c', sent)) :
    sent.map Datagram.port = (List.range' n sent.length).map portOf ∧
      Swept (n + sent.length) c' := by
  induction events generalizing c n sent with
  | nil =>
    cases hrun
    exact ⟨rfl, hc⟩
  | cons event events ih =>
    obtain ⟨c₁, out, rest, hstep, hrest, rfl⟩ := Client.run_cons_eq_ok.mp hrun
    obtain ⟨hout, hmid⟩ := hc.step hstep
    obtain ⟨htail, hend⟩ := ih hmid hrest
    rw [List.map_append, List.length_append, hout, htail, ← List.map_append,
      List.range'_append_1, ← Nat.add_assoc]
    exact ⟨rfl, hend⟩

end Rounds

/-! ## The sweep -/

theorem portOf_window {a : Nat} (ha : 1 ≤ a) :
    ((List.range' a portMax).map portOf).Perm (List.range' 1 portMax) := by
  obtain ⟨b, rfl⟩ : ∃ b, a = b + 1 := ⟨a - 1, by omega⟩
  have hmap : (List.range' (b + 1) portMax).map portOf =
      (List.range' b portMax).map (fun k => portMax - k % portMax) := by
    rw [Nat.add_comm b 1, ← List.map_add_range', List.map_map]
    apply List.map_congr_left
    intro k hk
    show portOf (1 + k) = _
    rw [Nat.add_comm 1 k, portOf]
  rw [hmap]
  exact perm_countdown b portMax

/-- Rounds without a packet in between all send. -/
theorem run_punches (n : Nat) {c : Client} (halive : c.punching = true) (hflag : c.threadflag ≠ 1) :
    ∃ c' sent, Client.run (List.replicate n .punch) c = .ok (c', sent) ∧ sent.length = n := by
  induction n generalizing c with
  | zero => exact ⟨c, [], rfl, rfl⟩
  | succ n ih =>
    have hkeep : c.retarget.threadflag = c.threadflag := by
      unfold Client.retarget
      split <;> rfl
    have hround : c.step .punch =
        .ok ({ c.retarget with punching := true }, [c.send c.testOther]) := by
      rw [Client.step, threadPunching, if_pos halive]
      simp [hkeep, hflag]
    obtain ⟨c', sent, hrun, hlen⟩ := ih (c := { c.retarget with punching := true }) rfl
      (by rw [← hkeep] at hflag; exact hflag)
    exact ⟨c', _, Client.run_cons_eq_ok.mpr ⟨_, _, sent, hround, hrun, rfl⟩, by simp [hlen]⟩

/-- In any run of a client of another type than 1 the sends go to 65535 twice and then down to 1
and around again, never to 0, and 65535 sends in a row go to each port once; the counter fits
16 bits and is less than `PORT`. -/
theorem threadPunching_sweeps {type : Int32} {srv_ip : UInt32} {send_string recv_string : CStr 100}
    (htype : type ≠ 1) {events : List Event} {c : Client} {sent : List Datagram}
    (hrun : Client.run events (main type srv_ip send_string recv_string) = .ok (c, sent)) :
    (∀ (k : Nat) d, 1 ≤ k → sent[k]? = some d → d.port = 65535 - (k - 1) % 65535) ∧
      (∀ d ∈ sent, d.port ≠ 0) ∧
      (c.cnt.toNat + 1 < 2 ^ 16 ∧ (0 : Int) < portMax - c.cnt.toNat) ∧
      ∀ a, 1 ≤ a → a + 65535 ≤ sent.length →
        (((sent.drop a).take 65535).map Datagram.port).Perm (List.range' 1 65535) := by
  obtain ⟨hsent, hswept⟩ := (swept_main htype srv_ip send_string recv_string).run hrun
  have hports : ∀ (k : Nat) d, sent[k]? = some d → d.port = portOf k := by
    intro k d hd
    have hk := (List.getElem?_eq_some_iff.mp hd).1
    have hport : (sent.map Datagram.port)[k]? = some d.port := by rw [List.getElem?_map, hd]; rfl
    rw [hsent, List.getElem?_map, List.getElem?_range' hk] at hport
    simpa using hport.symm
  have hlt := hswept.cnt_lt
  have hmax : portMax = 65535 := rfl
  refine ⟨?_, ?_, ⟨by omega, by omega⟩, ?_⟩
  · intro k d hk hd
    obtain ⟨j, rfl⟩ : ∃ j, k = j + 1 := ⟨k - 1, by omega⟩
    exact hports (j + 1) d hd
  · intro d hd
    obtain ⟨k, hk⟩ := List.mem_iff_getElem?.mp hd
    rw [hports k d hk]
    exact Nat.ne_of_gt (portOf_pos k)
  · intro a ha hlen
    have hwindow : ((sent.drop a).take portMax).map Datagram.port =
        (List.range' a portMax).map portOf := by
      rw [List.map_take, List.map_drop, hsent, ← List.map_drop, ← List.map_take, List.drop_range',
        List.take_range'_of_length_ge (by omega), Nat.zero_add, Nat.mul_one]
    exact hwindow ▸ portOf_window ha

theorem sweeps_sample : ∃ c sent,
    Client.run (List.replicate 65536 .punch) (main 2 0 sampleString sampleString) =
      .ok (c, sent) ∧ sent.length = 65536 ∧
      (((sent.drop 1).take 65535).map Datagram.port).Perm (List.range' 1 65535) := by
  obtain ⟨c, sent, hrun, hlen⟩ := run_punches 65536
    (c := main 2 0 sampleString sampleString) rfl (by decide)
  obtain ⟨-, -, -, hwindow⟩ := threadPunching_sweeps (by decide) hrun
  exact ⟨c, sent, hrun, hlen, hwindow 1 (Nat.le_refl _) (by omega)⟩

end VpnP2p.Punch
