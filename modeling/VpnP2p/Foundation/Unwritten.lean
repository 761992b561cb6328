import VpnP2p.Foundation.Decimal

/-!
# Bytes nobody wrote

A `Buf` leaves open what an unwritten byte is, and a read of one is a fault. The memory of
a run holds some byte there, and more bytes behind the array. `Fills a b` says that `b` is
such a memory for `a`: whatever a function makes of `a` it makes of `b` too.
-/

namespace VpnP2p.Foundation

/-- `b` holds what is known of `a`, any bytes where `a` is unwritten, and perhaps more. -/
inductive Fills : Buf → Buf → Prop where
  | done (b : Buf) : Fills [] b
  | unwritten {a b : Buf} (o : Option Byte) : Fills a b → Fills (none :: a) (o :: b)
  | written {a b : Buf} (v : Byte) : Fills a b → Fills (some v :: a) (some v :: b)

namespace Fills

variable {a b : Buf}

theorem refl (a : Buf) : Fills a a := by
  induction a with
  | nil => exact .done []
  | cons o a ih =>
    cases o with
    | none => exact .unwritten none ih
    | some v => exact .written v ih

theorem append_right (h : Fills a b) (c : Buf) : Fills a (b ++ c) := by
  induction h with
  | done => exact .done _
  | unwritten o _ ih => exact .unwritten o ih
  | written v _ ih => exact .written v ih

theorem append_left (t : Buf) (h : Fills a b) : Fills (t ++ a) (t ++ b) := by
  induction t with
  | nil => exact h
  | cons o t ih =>
    cases o with
    | none => exact .unwritten none ih
    | some v => exact .written v ih

theorem replicate_none {n : Nat} (h : n ≤ b.length) : Fills (List.replicate n none) b := by
  induction n generalizing b with
  | zero => exact .done b
  | succ n ih =>
    cases b with
    | nil => simp at h
    | cons o b => exact .unwritten o (ih (by simpa using h))

theorem drop (h : Fills a b) (n : Nat) : Fills (a.drop n) (b.drop n) := by
  induction h generalizing n with
  | done =>
    rw [List.drop_nil]
    exact .done _
  | unwritten o h ih =>
    cases n with
    | zero => exact .unwritten o h
    | succ n => exact ih n
  | written v h ih =>
    cases n with
    | zero => exact .written v h
    | succ n => exact ih n

theorem take (h : Fills a b) (n : Nat) : Fills (a.take n) (b.take n) := by
  induction h generalizing n with
  | done =>
    rw [List.take_nil]
    exact .done _
  | unwritten o h ih =>
    cases n with
    | zero => exact .done _
    | succ n => exact .unwritten o (ih n)
  | written v h ih =>
    cases n with
    | zero => exact .done _
    | succ n => exact .written v (ih n)

theorem slice (h : Fills a b) (off n : Nat) :
    Fills (Foundation.slice off n a) (Foundation.slice off n b) := (h.drop off).take n

/-! ## What is read -/

theorem readString (h : Fills a b) {s : Text} (ha : Foundation.readString a = .ok s) :
    Foundation.readString b = .ok s := by
  induction h generalizing s with
  | done => cases ha
  | unwritten => cases ha
  | written v _ ih =>
    simp only [Foundation.readString] at ha ⊢
    split
    · rename_i hv
      rwa [if_pos hv] at ha
    · rename_i hv
      rw [if_neg hv] at ha
      obtain ⟨t, ht, rfl⟩ := map_eq_ok.mp ha
      rw [ih ht, map_ok]

theorem strcpy (h : Fills a b) {n : Nat} {s : CStr n} (ha : Foundation.strcpy n a = .ok s) :
    Foundation.strcpy n b = .ok s := by
  obtain ⟨t, ht, hs⟩ := bind_eq_ok.mp ha
  rw [Foundation.strcpy, h.readString ht, ok_bind, hs]

theorem strcmpEq (h : Fills a b) {t : Text} {r : Bool} (ha : Foundation.strcmpEq a t = .ok r) :
    Foundation.strcmpEq b t = .ok r := by
  induction h generalizing t with
  | done => cases ha
  | unwritten => cases ha
  | written v _ ih =>
    cases t with
    | nil => exact ha
    | cons c t =>
      simp only [Foundation.strcmpEq] at ha ⊢
      split
      · rename_i hv
        rw [if_pos hv] at ha
        exact ih ha
      · rename_i hv
        rwa [if_neg hv] at ha

theorem atoiDigits (h : Fills a b) {acc n : Nat} (ha : Foundation.atoiDigits acc a = .ok n) :
    Foundation.atoiDigits acc b = .ok n := by
  induction h generalizing acc with
  | done => cases ha
  | unwritten => cases ha
  | written v _ ih =>
    simp only [Foundation.atoiDigits] at ha ⊢
    split
    · rename_i hv
      rw [if_pos hv] at ha
      exact ih ha
    · rename_i hv
      rwa [if_neg hv] at ha

theorem atoiSign (h : Fills a b) {i : Int} (ha : Foundation.atoiSign a = .ok i) :
    Foundation.atoiSign b = .ok i := by
  cases h with
  | done => cases ha
  | unwritten => cases ha
  | written v h =>
    simp only [Foundation.atoiSign] at ha ⊢
    split
    · rename_i hv
      rw [if_pos hv] at ha
      obtain ⟨n, hn, rfl⟩ := map_eq_ok.mp ha
      rw [h.atoiDigits hn, map_ok]
    · rename_i hminus
      rw [if_neg hminus] at ha
      split
      · rename_i hv
        rw [if_pos hv] at ha
        obtain ⟨n, hn, rfl⟩ := map_eq_ok.mp ha
        rw [h.atoiDigits hn, map_ok]
      · rename_i hplus
        rw [if_neg hplus] at ha
        obtain ⟨n, hn, rfl⟩ := map_eq_ok.mp ha
        rw [(Fills.written v h).atoiDigits hn, map_ok]

theorem atoiSpace (h : Fills a b) {i : Int} (ha : Foundation.atoiSpace a = .ok i) :
    Foundation.atoiSpace b = .ok i := by
  induction h with
  | done => cases ha
  | unwritten => cases ha
  | written v h ih =>
    simp only [Foundation.atoiSpace] at ha ⊢
    split
    · rename_i hv
      rw [if_pos hv] at ha
      exact ih ha
    · rename_i hv
      rw [if_neg hv] at ha
      exact (Fills.written v h).atoiSign ha

theorem atoi (h : Fills a b) {v : Int32} (ha : Foundation.atoi a = .ok v) :
    Foundation.atoi b = .ok v := by
  obtain ⟨i, hi, rfl⟩ := map_eq_ok.mp ha
  rw [Foundation.atoi, h.atoiSpace hi, map_ok]

end Fills

/-! ## Memory with a NUL in it -/

section Written

variable {t : Text} (ht : 0 ∈ t)

include ht

theorem readString_written : readString (t.map some) = .ok (t.takeWhile (· ≠ 0)) := by
  obtain ⟨s, rest, rfl⟩ := List.append_of_mem ht
  rw [List.map_append, List.map_cons, readString_takeWhile]
  congr 1
  induction s with
  | nil => simp
  | cons b s ih => simp only [List.cons_append, List.takeWhile_cons, ih (by simp)]

theorem atoi_written : ∃ v, atoi (t.map some) = .ok v := by
  obtain ⟨s, rest, rfl⟩ := List.append_of_mem ht
  rw [List.map_append, List.map_cons]
  exact atoi_terminated s _

/-- The string has fewer than `n` characters if one of the first `n` bytes is its NUL. -/
theorem length_takeWhile_lt {n : Nat} :
    (t.takeWhile (· ≠ 0)).length < n ↔ (0 : Byte) ∈ t.take n := by
  induction t generalizing n with
  | nil => simp at ht
  | cons b t ih =>
    cases n with
    | zero => simp
    | succ n =>
      by_cases hb : b = 0
      · simp [hb]
      · have hmem : (0 : Byte) ∈ t := by simpa [eq_comm, hb] using ht
        have hne : ¬ (0 : Byte) = b := fun h => hb h.symm
        simpa [hb, hne] using ih hmem

/-- `strcpy` into `char[n]` does no harm as long as a NUL comes among the first `n` bytes. -/
theorem strcpy_written {n : Nat} :
    (∃ s, strcpy n (t.map some) = .ok s) ↔ (0 : Byte) ∈ t.take n := by
  have hnul : (0 : Byte) ∉ t.takeWhile (· ≠ 0) := (readString_ok (readString_written ht)).1
  rw [← length_takeWhile_lt ht, strcpy, readString_written ht, ok_bind, CStr.ofText]
  split
  · rename_i h
    exact ⟨fun _ => h.2, fun _ => ⟨_, rfl⟩⟩
  · rename_i h
    refine ⟨fun hs => ?_, fun hlt => absurd ⟨hnul, hlt⟩ h⟩
    obtain ⟨s, hs⟩ := hs
    cases hs

end Written

end VpnP2p.Foundation
