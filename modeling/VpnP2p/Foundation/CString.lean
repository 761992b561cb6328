import Mathlib.Data.List.Basic
import VpnP2p.Foundation.Outcome

/-!
# Bytes, arrays and C strings

A `Text` is a sequence of bytes, a `Buf` the contents of an array object, in which a
byte nobody has written is `none`. A C string is read from an array up to the first
NUL: reading a byte that was never written, or running past the end of the array,
is a fault and not a value. `CStr n` is a string that fits `char[n]`.
-/

namespace VpnP2p.Foundation

abbrev Byte := UInt8

abbrev Text := List Byte

abbrev Buf := List (Option Byte)

/-- The bytes of an ASCII string literal, without its NUL. -/
def lit (s : String) : Text := s.toList.map (fun c => c.toNat.toUInt8)

def tab : Byte := 9

def newline : Byte := 10

/-- An array that holds the string `s` and its terminator. -/
def cbuf (s : Text) : Buf := s.map some ++ [some 0]

/-- A C string that fits `char[n]`. -/
structure CStr (n : Nat) where
  val : Text
  noNul : 0 ∉ val
  fits : val.length < n
deriving DecidableEq

theorem CStr.ext' {n : Nat} {s t : CStr n} (h : s.val = t.val) : s = t := by
  cases s
  cases t
  simp only at h
  subst h
  rfl

instance {n : Nat} (s : CStr n) (l : List (CStr n)) : Decidable (s ∈ l) := inferInstance

/-! ## Reading a string out of an array -/

/-- The bytes that `strlen`, `strcpy` and `%s` read: up to the first NUL. -/
def readString : Buf → Result Text
  | [] => .error .outOfBounds
  | none :: _ => .error .unassigned
  | some b :: rest => if b = 0 then .ok [] else (b :: ·) <$> readString rest

theorem readString_append {s : Text} (hs : 0 ∉ s) (rest : Buf) :
    readString (s.map some ++ some 0 :: rest) = .ok s := by
  induction s with
  | nil => rfl
  | cons b s ih =>
    simp only [List.mem_cons, not_or] at hs
    have hb : ¬ b = 0 := fun h => hs.1 h.symm
    simp only [List.map_cons, List.cons_append, readString, if_neg hb, ih hs.2, map_ok]

/-- Behind whatever bytes, a NUL ends the string at the latest. -/
theorem readString_takeWhile (s : Text) (rest : Buf) :
    readString (s.map some ++ some 0 :: rest) = .ok (s.takeWhile (· ≠ 0)) := by
  induction s with
  | nil => rfl
  | cons b s ih =>
    by_cases hb : b = 0
    · simp [readString, hb]
    · simp [readString, hb, ih]

theorem readString_cbuf {s : Text} (hs : 0 ∉ s) : readString (cbuf s) = .ok s :=
  readString_append hs []

/-- An array filled with nonzero bytes has no terminator to stop at. -/
theorem readString_unterminated {s : Text} (hs : 0 ∉ s) :
    readString (s.map some) = .error .outOfBounds := by
  induction s with
  | nil => rfl
  | cons b s ih =>
    simp only [List.mem_cons, not_or] at hs
    have hb : ¬ b = 0 := fun h => hs.1 h.symm
    simp only [List.map_cons, readString, if_neg hb, ih hs.2, map_error]

theorem readString_ok {buf : Buf} {s : Text} (h : readString buf = .ok s) :
    0 ∉ s ∧ ∃ rest, buf = s.map some ++ some 0 :: rest := by
  induction buf generalizing s with
  | nil => cases h
  | cons o buf ih =>
    cases o with
    | none => cases h
    | some b =>
      simp only [readString] at h
      split at h
      · rename_i hb
        cases h
        exact ⟨by simp, buf, by simp [hb]⟩
      · rename_i hb
        obtain ⟨t, ht, rfl⟩ := map_eq_ok.mp h
        obtain ⟨hnul, rest, rfl⟩ := ih ht
        exact ⟨by simp [hnul, eq_comm, hb], rest, rfl⟩

/-- The bytes behind the terminator do not matter. -/
theorem readString_take {buf : Buf} {s : Text} {n : Nat} (h : readString buf = .ok s)
    (hn : s.length < n) : readString (buf.take n) = .ok s := by
  obtain ⟨hnul, rest, rfl⟩ := readString_ok h
  obtain ⟨k, rfl⟩ : ∃ k, n = (s.map some).length + (k + 1) :=
    ⟨n - s.length - 1, by rw [List.length_map]; omega⟩
  rw [List.take_length_add_append, List.take_succ_cons]
  exact readString_append hnul _

theorem take_of_readString {buf : Buf} {s : Text} {n : Nat} (h : readString buf = .ok s)
    (hn : n ≤ s.length) : buf.take n = (s.take n).map some := by
  obtain ⟨-, rest, rfl⟩ := readString_ok h
  rw [List.take_append_of_le_length (by simpa using hn), List.map_take]

/-- A cut in front of the terminator leaves none. -/
theorem readString_take_short {buf : Buf} {s : Text} {n : Nat} (h : readString buf = .ok s)
    (hn : n ≤ s.length) : readString (buf.take n) = .error .outOfBounds := by
  rw [take_of_readString h hn]
  exact readString_unterminated (fun hmem => (readString_ok h).1 (List.mem_of_mem_take hmem))

/-- Storing a string into `char[n]`. -/
def CStr.ofText (n : Nat) (s : Text) : Result (CStr n) :=
  if h : 0 ∉ s ∧ s.length < n then .ok ⟨s, h.1, h.2⟩ else .error .outOfBounds

/-- `strcpy` from an array into `char[n]`. -/
def strcpy (n : Nat) (src : Buf) : Result (CStr n) := do
  let s ← readString src
  CStr.ofText n s

theorem CStr.ofText_val {n : Nat} (s : CStr n) : CStr.ofText n s.val = .ok s := by
  unfold CStr.ofText
  rw [dif_pos ⟨s.noNul, s.fits⟩]

theorem CStr.ofText_ok {n : Nat} {s : Text} {c : CStr n} (h : CStr.ofText n s = .ok c) :
    c.val = s := by
  unfold CStr.ofText at h
  split at h
  · cases h
    rfl
  · cases h

theorem strcpy_ok {n : Nat} {src : Buf} {c : CStr n} (h : strcpy n src = .ok c) :
    ∃ rest, src = c.val.map some ++ some 0 :: rest := by
  obtain ⟨s, hs, hc⟩ := bind_eq_ok.mp h
  rw [CStr.ofText_ok hc]
  exact (readString_ok hs).2

/-! ## Parts of an array -/

/-- What `memcpy(dst, src + off, n)` copies. -/
def slice (off n : Nat) (src : Buf) : Buf := (src.drop off).take n

/-- The contents of a `char[n]` object. -/
structure CArray (n : Nat) where
  bytes : Buf
  length : bytes.length = n
deriving DecidableEq

namespace CArray

variable {n : Nat}

/-- An array nobody has written to. -/
def raw (n : Nat) : CArray n := ⟨List.replicate n none, List.length_replicate⟩

/-- What `bzero` leaves. -/
def zero (n : Nat) : CArray n := ⟨List.replicate n (some 0), List.length_replicate⟩

/-- The array after `bzero` and a `strcpy` of `s`. -/
def ofString (s : CStr n) : CArray n :=
  ⟨cbuf s.val ++ List.replicate (n - (s.val.length + 1)) (some 0), by
    have := s.fits
    simp [cbuf]
    omega⟩

theorem readString_ofString (s : CStr n) : readString (ofString s).bytes = .ok s.val := by
  show readString (cbuf s.val ++ _) = .ok s.val
  rw [cbuf, List.append_assoc]
  exact readString_append s.noNul _

/-- The array after `strcpy` of the string `s`; the bytes behind the terminator stay. -/
def store (a : CArray n) (s : Text) : Result (CArray n) :=
  if h : s.length < n then
    .ok ⟨cbuf s ++ a.bytes.drop (s.length + 1), by simp [cbuf, a.length]; omega⟩
  else .error .outOfBounds

theorem store_fits (a : CArray n) {s : Text} (h : s.length < n) :
    ∃ b, a.store s = .ok b ∧ b.bytes = cbuf s ++ a.bytes.drop (s.length + 1) := by
  unfold store
  rw [dif_pos h]
  exact ⟨_, rfl, rfl⟩

theorem store_eq_ok {a b : CArray n} {s : Text} (h : a.store s = .ok b) :
    s.length < n ∧ b.bytes = cbuf s ++ a.bytes.drop (s.length + 1) := by
  unfold store at h
  split at h
  · rename_i hlt
    cases h
    exact ⟨hlt, rfl⟩
  · cases h

theorem readString_store {a b : CArray n} {s : Text} (hs : 0 ∉ s) (h : a.store s = .ok b) :
    readString b.bytes = .ok s := by
  rw [(store_eq_ok h).2, cbuf, List.append_assoc]
  exact readString_append hs _

/-- The array after `n` bytes at its start were written, one after the other. -/
def write (a : CArray n) (xs : Buf) : Result (CArray n) :=
  if h : xs.length ≤ n then
    .ok ⟨xs ++ a.bytes.drop xs.length, by simp [a.length]; omega⟩
  else .error .outOfBounds

theorem write_fits (a : CArray n) (xs : Buf) (h : xs.length ≤ n) :
    ∃ b, a.write xs = .ok b ∧ b.bytes = xs ++ a.bytes.drop xs.length := by
  unfold write
  rw [dif_pos h]
  exact ⟨_, rfl, rfl⟩

theorem write_long (a : CArray n) {xs : Buf} (h : n < xs.length) :
    a.write xs = .error .outOfBounds := by
  unfold write
  rw [dif_neg (Nat.not_le.mpr h)]

/-- A string in an array leaves room for its terminator. -/
theorem length_lt_of_readString {a : CArray n} {s : Text} (h : readString a.bytes = .ok s) :
    s.length < n := by
  obtain ⟨rest, hrest⟩ := (readString_ok h).2
  have hlen := congrArg List.length hrest
  rw [a.length] at hlen
  simp at hlen
  omega

end CArray

/-! ## Comparing -/

/-- `strcmp(buf, s) == 0`, reading `buf` only as far as the comparison goes. -/
def strcmpEq : Buf → Text → Result Bool
  | [], _ => .error .outOfBounds
  | none :: _, _ => .error .unassigned
  | some b :: _, [] => .ok (b = 0)
  | some b :: rest, c :: s => if b = c then strcmpEq rest s else .ok false

theorem strcmpEq_append {s : Text} (hs : 0 ∉ s) (rest : Buf) {t : Text} (ht : 0 ∉ t) :
    strcmpEq (s.map some ++ some 0 :: rest) t = .ok (s = t) := by
  induction s generalizing t with
  | nil =>
    cases t with
    | nil => rfl
    | cons c t =>
      have hc : ¬ (0 : Byte) = c := fun h => ht (by simp [h])
      simp [strcmpEq, hc]
  | cons b s ih =>
    simp only [List.mem_cons, not_or] at hs
    cases t with
    | nil =>
      have hb : ¬ b = 0 := fun h => hs.1 h.symm
      simp [strcmpEq, hb]
    | cons c t =>
      simp only [List.mem_cons, not_or] at ht
      by_cases hbc : b = c
      · simp [strcmpEq, hbc, ih hs.2 ht.2]
      · simp [strcmpEq, hbc]

/-- On an array that holds a string, `strcmp` compares the two strings. -/
theorem strcmpEq_of_readString {buf : Buf} {s t : Text} (hs : readString buf = .ok s)
    (ht : 0 ∉ t) : strcmpEq buf t = .ok (s = t) := by
  obtain ⟨hnul, rest, rfl⟩ := readString_ok hs
  exact strcmpEq_append hnul rest ht

/-- A longer string without a terminator differs before the array ends. -/
theorem strcmpEq_unterminated {s t : Text} (hs : 0 ∉ s) (hlen : t.length < s.length) :
    strcmpEq (s.map some) t = .ok false := by
  induction s generalizing t with
  | nil => simp at hlen
  | cons b s ih =>
    simp only [List.mem_cons, not_or] at hs
    cases t with
    | nil =>
      have hb : ¬ b = 0 := fun h => hs.1 h.symm
      simp [strcmpEq, hb]
    | cons c t =>
      by_cases hbc : b = c
      · simp [strcmpEq, hbc, ih hs.2 (by simpa using hlen)]
      · simp [strcmpEq, hbc]

end VpnP2p.Foundation
