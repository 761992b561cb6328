import Mathlib.Data.Nat.Digits.Lemmas
import VpnP2p.Foundation.CString

/-!
# Decimal integers

`decimal` is what `printf("%d")` writes for a 32-bit `int`, `atoi` what the C library
reads back. `atoi` looks at no byte after the first one that is not a digit, so it
needs that byte to be there: an array that is all digits sends it past the end.
-/

namespace VpnP2p.Foundation

def digitByte (d : Nat) : Byte := (48 + d).toUInt8

def isDigit (b : Byte) : Bool := 48 ≤ b && b ≤ 57

def isSpace (b : Byte) : Bool := b = 32 || (9 ≤ b && b ≤ 13)

def minus : Byte := 45

def plus : Byte := 43

/-! ## Writing -/

def natText (n : Nat) : Text :=
  if n = 0 then [digitByte 0] else (Nat.digits 10 n).reverse.map digitByte

/-- `printf("%d", v)`. -/
def decimal (v : Int32) : Text :=
  if v.toInt < 0 then minus :: natText v.toInt.natAbs else natText v.toInt.natAbs

/-! ## Reading -/

def atoiDigits (acc : Nat) : Buf → Result Nat
  | [] => .error .outOfBounds
  | none :: _ => .error .unassigned
  | some b :: rest =>
    if isDigit b then atoiDigits (acc * 10 + (b.toNat - 48)) rest else .ok acc

def atoiSign : Buf → Result Int
  | some b :: rest =>
    if b = minus then (fun n : Nat => -(n : Int)) <$> atoiDigits 0 rest
    else if b = plus then (fun n : Nat => (n : Int)) <$> atoiDigits 0 rest
    else (fun n : Nat => (n : Int)) <$> atoiDigits 0 (some b :: rest)
  | buf => (fun n : Nat => (n : Int)) <$> atoiDigits 0 buf

def atoiSpace : Buf → Result Int
  | some b :: rest => if isSpace b then atoiSpace rest else atoiSign (some b :: rest)
  | buf => atoiSign buf

/-- `strtol` stops at the limits of `long`. -/
def clampLong (i : Int) : Int := max (-2 ^ 63) (min i (2 ^ 63 - 1))

/-- `atoi(buf)`, that is `(int) strtol(buf, NULL, 10)`. -/
def atoi (buf : Buf) : Result Int32 := (fun i => Int32.ofInt (clampLong i)) <$> atoiSpace buf

/-! ## Digits -/

theorem digitByte_spec : ∀ d, d < 10 → isDigit (digitByte d) = true ∧
    isSpace (digitByte d) = false ∧ digitByte d ≠ minus ∧ digitByte d ≠ plus ∧
    (digitByte d).toNat - 48 = d := by decide

/-- A nonempty run of digit bytes. -/
def IsDigits (s : Text) : Prop := s ≠ [] ∧ ∀ b ∈ s, ∃ d, d < 10 ∧ b = digitByte d

theorem natText_eq (n : Nat) :
    ∃ ds : List Nat, natText n = ds.map digitByte ∧ ds ≠ [] ∧ (∀ d ∈ ds, d < 10) ∧
      ds.foldl (fun acc d => acc * 10 + d) 0 = n := by
  unfold natText
  split
  · rename_i hn
    exact ⟨[0], rfl, by simp, by simp, by simp [hn]⟩
  · rename_i hn
    refine ⟨(Nat.digits 10 n).reverse, rfl, ?_, ?_, ?_⟩
    · simpa [Nat.digits_ne_nil_iff_ne_zero] using hn
    · intro d hd
      exact Nat.digits_lt_base (by omega) (List.mem_reverse.mp hd)
    · rw [List.foldl_reverse]
      conv_rhs => rw [← Nat.ofDigits_digits 10 n, Nat.ofDigits_eq_foldr]
      congr 1
      funext d acc
      simp only [Nat.cast_id]
      omega

theorem isDigits_natText (n : Nat) : IsDigits (natText n) := by
  obtain ⟨ds, hds, hne, hlt, -⟩ := natText_eq n
  rw [hds]
  refine ⟨by simpa using hne, ?_⟩
  intro b hb
  obtain ⟨d, hd, rfl⟩ := List.mem_map.mp hb
  exact ⟨d, hlt d hd, rfl⟩

theorem natText_length_le {n k : Nat} (hk : 0 < k) (hn : n < 10 ^ k) :
    (natText n).length ≤ k := by
  unfold natText
  split
  · simpa [Nat.one_le_iff_ne_zero] using hk.ne'
  · simpa using (Nat.digits_length_le_iff (by omega) n).mpr hn

/-- The text of a nonnegative number, or a minus sign and such a text. -/
theorem decimal_eq (v : Int32) : (decimal v = natText v.toInt.natAbs ∧ 0 ≤ v.toInt) ∨
    (decimal v = minus :: natText v.toInt.natAbs ∧ v.toInt < 0) := by
  unfold decimal
  split
  · rename_i h
    exact Or.inr ⟨rfl, h⟩
  · rename_i h
    exact Or.inl ⟨rfl, by omega⟩

theorem decimal_length_le (v : Int32) : (decimal v).length ≤ 11 := by
  have hlo := Int32.le_toInt v
  have hhi := Int32.toInt_lt v
  have hlen : (natText v.toInt.natAbs).length ≤ 10 :=
    natText_length_le (by omega) (by omega)
  rcases decimal_eq v with ⟨h, -⟩ | ⟨h, -⟩
  · rw [h]
    omega
  · rw [h, List.length_cons]
    omega

theorem decimal_bytes (v : Int32) : ∀ b ∈ decimal v, b ≠ 0 ∧ b ≠ tab ∧ b ≠ newline := by
  have hDigit : ∀ d, d < 10 →
      digitByte d ≠ 0 ∧ digitByte d ≠ tab ∧ digitByte d ≠ newline := by decide
  have hNat : ∀ b ∈ natText v.toInt.natAbs, b ≠ 0 ∧ b ≠ tab ∧ b ≠ newline := by
    intro b hb
    obtain ⟨d, hd, rfl⟩ := (isDigits_natText _).2 b hb
    exact hDigit d hd
  intro b hb
  rcases decimal_eq v with ⟨h, -⟩ | ⟨h, -⟩
  · exact hNat b (h ▸ hb)
  · rw [h, List.mem_cons] at hb
    rcases hb with rfl | hb
    · decide
    · exact hNat b hb

/-! ## Reading back what was written -/

theorem atoiDigits_append (ds : List Nat) (hds : ∀ d ∈ ds, d < 10) (acc : Nat) (rest : Buf) :
    atoiDigits acc ((ds.map digitByte).map some ++ rest) =
      atoiDigits (ds.foldl (fun acc d => acc * 10 + d) acc) rest := by
  induction ds generalizing acc with
  | nil => rfl
  | cons d ds ih =>
    obtain ⟨hdig, -, -, -, hval⟩ := digitByte_spec d (hds d (by simp))
    simp only [List.map_cons, List.cons_append, atoiDigits, hdig, if_true, hval,
      List.foldl_cons]
    exact ih (fun e he => hds e (by simp [he])) _

theorem atoiSpace_digits {ds : List Nat} (hne : ds ≠ []) (hds : ∀ d ∈ ds, d < 10) (rest : Buf) :
    atoiSpace ((ds.map digitByte).map some ++ rest) = (fun m : Nat => (m : Int)) <$>
      atoiDigits (ds.foldl (fun acc d => acc * 10 + d) 0) rest := by
  rw [← atoiDigits_append ds hds 0 rest]
  cases ds with
  | nil => exact absurd rfl hne
  | cons d ds =>
    obtain ⟨-, hspace, hminus, hplus, -⟩ := digitByte_spec d (hds d (by simp))
    simp [atoiSpace, atoiSign, hspace, hminus, hplus]

theorem atoiSpace_minus (buf : Buf) :
    atoiSpace (some minus :: buf) = (fun n : Nat => -(n : Int)) <$> atoiDigits 0 buf := by
  have hspace : isSpace minus = false := by decide
  simp [atoiSpace, atoiSign, hspace]

theorem ofInt_clampLong (v : Int32) : Int32.ofInt (clampLong v.toInt) = v := by
  have hlo := Int32.le_toInt v
  have hhi := Int32.toInt_lt v
  have hclamp : clampLong v.toInt = v.toInt := by
    unfold clampLong
    omega
  rw [hclamp, Int32.ofInt_toInt]

/-- `atoi` reads back what `printf("%d")` wrote, whatever follows the terminator. -/
theorem atoi_decimal (v : Int32) (rest : Buf) :
    atoi ((decimal v).map some ++ some 0 :: rest) = .ok v := by
  have hstop : ∀ n, atoiDigits n (some 0 :: rest) = .ok n := by
    intro n
    have h0 : isDigit 0 = false := by decide
    simp [atoiDigits, h0]
  obtain ⟨ds, hds, hne, hlt, hval⟩ := natText_eq v.toInt.natAbs
  rcases decimal_eq v with ⟨h, hsign⟩ | ⟨h, hsign⟩
  · have habs : ((v.toInt.natAbs : Nat) : Int) = v.toInt := by omega
    simp only [atoi, h, hds, atoiSpace_digits hne hlt, hval, hstop, map_ok, habs,
      ofInt_clampLong]
  · have habs : -((v.toInt.natAbs : Nat) : Int) = v.toInt := by omega
    simp only [atoi, h, List.map_cons, List.cons_append, atoiSpace_minus, hds,
      atoiDigits_append ds hlt, hval, hstop, map_ok, habs, ofInt_clampLong]

theorem atoi_cbuf_decimal (v : Int32) : atoi (cbuf (decimal v)) = .ok v :=
  atoi_decimal v []

/-! ## Where reading stops -/

def signedLength : Text → Nat
  | [] => 0
  | b :: s =>
    if b = minus ∨ b = plus then (s.takeWhile isDigit).length + 1
    else ((b :: s).takeWhile isDigit).length

/-- The length of the white space, sign and digits a string starts with. -/
def numeralLength : Text → Nat
  | [] => 0
  | b :: s => if isSpace b then numeralLength s + 1 else signedLength (b :: s)

theorem signedLength_le (s : Text) : signedLength s ≤ s.length := by
  have htake : ∀ t : Text, (t.takeWhile isDigit).length ≤ t.length :=
    fun t => (List.takeWhile_prefix _).length_le
  cases s with
  | nil => exact Nat.le_refl 0
  | cons b s =>
    rw [signedLength]
    split
    · exact Nat.succ_le_succ (htake s)
    · exact htake (b :: s)

theorem numeralLength_le (s : Text) : numeralLength s ≤ s.length := by
  induction s with
  | nil => exact Nat.le_refl 0
  | cons b s ih =>
    unfold numeralLength
    split
    · exact Nat.succ_le_succ ih
    · exact signedLength_le (b :: s)

section Stop

variable {α β : Type}

theorem exists_map_ok (f : α → β) (x : Result α) :
    (∃ b, f <$> x = .ok b) ↔ ∃ a, x = .ok a := by
  cases x with
  | error e => simp
  | ok a => simp

theorem atoiDigits_take (s : Text) (rest : Buf) (acc n : Nat) :
    (∃ m, atoiDigits acc ((s.map some ++ some 0 :: rest).take n) = .ok m) ↔
      (s.takeWhile isDigit).length < n := by
  induction s generalizing acc n with
  | nil =>
    cases n with
    | zero => simp [atoiDigits]
    | succ n =>
      have h0 : isDigit 0 = false := by decide
      simp [atoiDigits, h0]
  | cons b s ih =>
    cases n with
    | zero => simp [atoiDigits]
    | succ n =>
      simp only [List.map_cons, List.cons_append, List.take_succ_cons, atoiDigits,
        List.takeWhile_cons]
      split
      · rw [ih]
        simp
      · simp

theorem atoiSign_take (s : Text) (rest : Buf) (n : Nat) :
    (∃ i, atoiSign ((s.map some ++ some 0 :: rest).take n) = .ok i) ↔ signedLength s < n := by
  cases n with
  | zero => simp [atoiSign, atoiDigits]
  | succ n =>
    cases s with
    | nil =>
      have h0 : isDigit 0 = false := by decide
      have h1 : ¬ (0 : Byte) = minus := by decide
      have h2 : ¬ (0 : Byte) = plus := by decide
      simp [atoiSign, atoiDigits, signedLength, h0, h1, h2]
    | cons b s =>
      have hdigits := atoiDigits_take (b :: s) rest 0 (n + 1)
      simp only [List.map_cons, List.cons_append, List.take_succ_cons, atoiSign] at hdigits ⊢
      rw [signedLength]
      split
      · rename_i hb
        rw [exists_map_ok, atoiDigits_take, if_pos (Or.inl hb)]
        omega
      · rename_i hminus
        split
        · rename_i hb
          rw [exists_map_ok, atoiDigits_take, if_pos (Or.inr hb)]
          omega
        · rename_i hplus
          rw [exists_map_ok, hdigits, if_neg (by simp [hminus, hplus])]

/-- `atoi` reads an array to its end if the number in it does not stop before. -/
theorem atoi_take (s : Text) (rest : Buf) (n : Nat) :
    (∃ v, atoi ((s.map some ++ some 0 :: rest).take n) = .ok v) ↔ numeralLength s < n := by
  unfold atoi
  rw [exists_map_ok]
  induction s generalizing n with
  | nil =>
    cases n with
    | zero => simp [atoiSpace, atoiSign, atoiDigits]
    | succ n =>
      have hsign := atoiSign_take [] rest (n + 1)
      have h0 : isSpace 0 = false := by decide
      simpa [atoiSpace, h0, numeralLength, signedLength] using hsign
  | cons b s ih =>
    cases n with
    | zero => simp [atoiSpace, atoiSign, atoiDigits]
    | succ n =>
      have hsign := atoiSign_take (b :: s) rest (n + 1)
      simp only [List.map_cons, List.cons_append, List.take_succ_cons, atoiSpace] at hsign ⊢
      unfold numeralLength
      split
      · rw [ih]
        omega
      · exact hsign

end Stop

/-- On a terminated string `atoi` always ends. -/
theorem atoi_terminated (s : Text) (rest : Buf) :
    ∃ v, atoi (s.map some ++ some 0 :: rest) = .ok v := by
  have hlt : numeralLength s < (s.map some ++ some 0 :: rest).length := by
    have := numeralLength_le s
    simp only [List.length_append, List.length_map, List.length_cons]
    omega
  have hread := (atoi_take s rest _).mpr hlt
  rwa [List.take_length] at hread

/-- The first bytes of a longer decimal are sign and digits only, and `atoi` runs off
an array that holds nothing else. -/
theorem atoi_take_decimal {v : Int32} {n : Nat} (hn : 1 < n) :
    atoi (((decimal v).take n).map some) = .error .outOfBounds := by
  obtain ⟨ds, hds, hne, hlt, -⟩ := natText_eq v.toInt.natAbs
  have hcut : ∀ k, ∀ d ∈ ds.take k, d < 10 := fun k d hd => hlt d (List.mem_of_mem_take hd)
  rcases decimal_eq v with ⟨h, -⟩ | ⟨h, -⟩
  · have htake : ds.take n ≠ [] := by
      intro hnil
      rcases List.take_eq_nil_iff.mp hnil with hzero | hnil
      · omega
      · exact hne hnil
    have hrun := atoiSpace_digits htake (hcut n) []
    rw [List.append_nil] at hrun
    rw [atoi, h, hds, ← List.map_take, hrun]
    rfl
  · obtain ⟨k, rfl⟩ : ∃ k, n = k + 1 := ⟨n - 1, by omega⟩
    have hrun := atoiDigits_append (ds.take k) (hcut k) 0 []
    rw [List.append_nil] at hrun
    rw [atoi, h, List.take_succ_cons, List.map_cons, hds, ← List.map_take, atoiSpace_minus, hrun]
    rfl

end VpnP2p.Foundation
