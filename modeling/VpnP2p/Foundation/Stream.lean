import Mathlib.Data.PNat.Basic
import VpnP2p.Foundation.CString

/-!
# Bytes over a connection

A `Socket` holds the bytes that the peer has sent and that are still to come, and what
the network does at the calls of `recv` ahead: each hands over at most a given number of
the bytes still to come, and at least one of them, or fails. When the peer has closed and
nothing is left, `recv` returns 0.
-/

namespace VpnP2p.Foundation

/-! ## Receiving -/

inductive Arrival where
  | atMost (k : ℕ+)
  | failure
deriving DecidableEq

/-- Where `arrivals` is silent, everything that was asked for comes at once. -/
structure Socket where
  flight : Buf
  arrivals : List Arrival
deriving DecidableEq

/-- `recv(s, .., n, 0)`; `none` is the return value -1. -/
def recv (s : Socket) (n : Nat) : Option Buf × Socket :=
  match s.arrivals with
  | [] => (some (s.flight.take n), ⟨s.flight.drop n, []⟩)
  | .atMost k :: rest => (some (s.flight.take (min n k)), ⟨s.flight.drop (min n k), rest⟩)
  | .failure :: rest => (none, ⟨s.flight, rest⟩)

/-- The sends of a peer, each received by one `recv`. -/
def Socket.whole (sends : List Buf) : Socket := ⟨sends.flatten, []⟩

theorem recv_whole (got : Buf) (sends : List Buf) :
    recv (Socket.whole (got :: sends)) got.length = (some got, Socket.whole sends) := by
  simp [recv, Socket.whole]

theorem recv_atMost {got flight : Buf} {n : Nat} {k : ℕ+} (rest : List Arrival)
    (h : min n k = got.length) :
    recv ⟨got ++ flight, .atMost k :: rest⟩ n = (some got, ⟨flight, rest⟩) := by
  simp [recv, h]

/-- A fresh array of `n` bytes after a `recv` into it. -/
def received (n : Nat) (got : Buf) : Buf := got ++ List.replicate (n - got.length) none

theorem received_full {n : Nat} {got : Buf} (h : n = got.length) : received n got = got := by
  simp [received, h]

/-- The string in a partly filled array lies in the part that was received. -/
theorem readString_received {n : Nat} {got : Buf} {s : Text} (hs : 0 ∉ s) :
    readString (received n got) = .ok s ↔ cbuf s <+: got := by
  constructor
  · intro h
    obtain ⟨rest, hrest⟩ := (readString_ok h).2
    have hpre : cbuf s <+: received n got := ⟨rest, by simp [hrest, cbuf]⟩
    by_contra hnot
    have hlt : got.length < (cbuf s).length := by
      by_contra hle
      exact hnot (List.prefix_of_prefix_length_le hpre (List.prefix_append _ _) (not_lt.mp hle))
    -- Behind the received bytes the array is unwritten, and `cbuf s` has a byte there.
    have hbyte := List.prefix_iff_getElem?.mp hpre got.length hlt
    rw [received, List.getElem?_append_right (Nat.le_refl _)] at hbyte
    have hnone := List.eq_of_mem_replicate (List.mem_of_getElem? hbyte)
    have hmem : (cbuf s)[got.length] ∈ cbuf s := List.getElem_mem hlt
    rw [hnone] at hmem
    simp [cbuf] at hmem
  · rintro ⟨rest, rfl⟩
    rw [received, cbuf, List.append_assoc, List.append_assoc]
    exact readString_append hs _

/-! ## Network byte order -/

/-- `htonl`, as the bytes it puts in memory. -/
def htonl (v : Int32) : Text :=
  let n := v.toUInt32.toNat
  [n / 2 ^ 24, n / 2 ^ 16, n / 2 ^ 8, n].map Nat.toUInt8

/-- `ntohl` of an int that lies in memory. -/
def ntohl : Buf → Result Int32
  | [some a, some b, some c, some d] =>
    .ok (UInt32.ofNat (((a.toNat * 256 + b.toNat) * 256 + c.toNat) * 256 + d.toNat)).toInt32
  | _ => .error .unassigned

theorem htonl_length (v : Int32) : (htonl v).length = 4 := rfl

theorem ntohl_htonl (v : Int32) : ntohl ((htonl v).map some) = .ok v := by
  have hlt := v.toUInt32.toNat_lt
  have hval : (((v.toUInt32.toNat / 2 ^ 24 % 256) * 256 + v.toUInt32.toNat / 2 ^ 16 % 256) * 256 +
      v.toUInt32.toNat / 2 ^ 8 % 256) * 256 + v.toUInt32.toNat % 256 = v.toUInt32.toNat := by
    omega
  simp only [htonl, List.map_cons, List.map_nil, ntohl, Nat.toUInt8_eq, UInt8.toNat_ofNat']
  rw [show (2 : Nat) ^ 8 = 256 from rfl] at hval ⊢
  rw [hval]
  simp

/-- An int of which a byte is missing has no value. -/
theorem ntohl_missing {got : Buf} (h : got.length < 4) :
    ntohl (received 4 got) = .error .unassigned := by
  match got, h with
  | [], _ => rfl
  | [_], _ => cases ‹Option Byte› <;> rfl
  | [a, b], _ => cases a <;> cases b <;> rfl
  | [a, b, c], _ => cases a <;> cases b <;> cases c <;> rfl

end VpnP2p.Foundation
