import Mathlib.Data.List.Basic
import VpnP2p.Foundation.CString

/-!
# Lines of a text

`fgetsAll n` is the sequence of strings that repeated `fgets(buffer, n, fp)` calls
deliver until the end of the file, `strtokAll spl` the tokens of repeated `strtok`
calls. On a text made of short lines both find the lines again, the first with and the
second without their newlines, and a cut anywhere leaves whole lines and one piece of
the next.
-/

namespace VpnP2p.Foundation

/-- Each line followed by a newline. -/
def unlines (ls : List Text) : Text := ls.flatMap (fun l => l ++ [newline])

@[simp] theorem unlines_nil : unlines [] = [] := rfl

@[simp] theorem unlines_cons (l : Text) (ls : List Text) :
    unlines (l :: ls) = l ++ newline :: unlines ls := by
  simp [unlines]

@[simp] theorem unlines_append (ks ls : List Text) :
    unlines (ks ++ ls) = unlines ks ++ unlines ls := by
  simp [unlines]

theorem count_newline_unlines {ls : List Text} (hls : ∀ l ∈ ls, newline ∉ l) :
    (unlines ls).count newline = ls.length := by
  induction ls with
  | nil => rfl
  | cons l ls ih =>
    have hl : l.count newline = 0 := List.count_eq_zero.mpr (hls l (by simp))
    rw [unlines_cons, List.count_append, List.count_cons_self, hl,
      ih (fun k hk => hls k (by simp [hk])), List.length_cons]
    omega

/-- Lines that fit into some lines and a piece are no more than those lines. -/
theorem length_le_of_unlines_prefix {ks ls : List Text} {u : Text}
    (hks : ∀ l ∈ ks, newline ∉ l) (hls : ∀ l ∈ ls, newline ∉ l) (hu : newline ∉ u)
    (h : unlines ks <+: unlines ls ++ u) : ks.length ≤ ls.length := by
  have hcount := h.sublist.count_le newline
  rwa [count_newline_unlines hks, List.count_append, count_newline_unlines hls,
    List.count_eq_zero.mpr hu] at hcount

/-- Every line is nonempty, free of newlines and shorter than `n`. -/
def ShortLines (n : Nat) (ls : List Text) : Prop :=
  ∀ l ∈ ls, l ≠ [] ∧ newline ∉ l ∧ l.length < n

theorem ShortLines.tail {n : Nat} {l : Text} {ls : List Text} (h : ShortLines n (l :: ls)) :
    ShortLines n ls := fun k hk => h k (by simp [hk])

/-! ## `fgets` -/

/-- `room` bytes are left in the buffer, which holds `acc` already. -/
def fgetsFrom (n : Nat) : Nat → Text → Text → List Text
  | _, acc, [] => if acc = [] then [] else [acc]
  | room, acc, c :: s =>
    if c = newline ∨ room ≤ 1 then (acc ++ [c]) :: fgetsFrom n (n - 1) [] s
    else fgetsFrom n (room - 1) (acc ++ [c]) s

/-- The strings of repeated `fgets(buffer, n, fp)`: at most `n - 1` bytes each, ended
early by a newline, which is kept. -/
def fgetsAll (n : Nat) (s : Text) : List Text := fgetsFrom n (n - 1) [] s

theorem fgetsFrom_line {n room : Nat} {acc l : Text} (hl : newline ∉ l)
    (hroom : l.length < room) (rest : Text) :
    fgetsFrom n room acc (l ++ newline :: rest) =
      (acc ++ l ++ [newline]) :: fgetsFrom n (n - 1) [] rest := by
  induction l generalizing room acc with
  | nil => simp [fgetsFrom]
  | cons c l ih =>
    simp only [List.mem_cons, not_or] at hl
    simp only [List.length_cons] at hroom
    have hc : ¬ (c = newline ∨ room ≤ 1) := by
      rintro (h | h)
      · exact hl.1 h.symm
      · omega
    simp only [List.cons_append, fgetsFrom, if_neg hc]
    rw [ih hl.2 (by omega)]
    simp

theorem fgetsFrom_last {n room : Nat} {acc l : Text} (hl : newline ∉ l)
    (hroom : l.length < room) (hne : acc ++ l ≠ []) :
    fgetsFrom n room acc l = [acc ++ l] := by
  induction l generalizing room acc with
  | nil =>
    rw [List.append_nil] at hne ⊢
    simp [fgetsFrom, hne]
  | cons c l ih =>
    simp only [List.mem_cons, not_or] at hl
    simp only [List.length_cons] at hroom
    have hc : ¬ (c = newline ∨ room ≤ 1) := by
      rintro (h | h)
      · exact hl.1 h.symm
      · omega
    simp only [fgetsFrom, if_neg hc]
    rw [ih hl.2 (by omega) (by simp)]
    simp

theorem fgetsAll_unlines {n : Nat} {ls : List Text} (h : ShortLines (n - 1) ls) (rest : Text) :
    fgetsAll n (unlines ls ++ rest) =
      ls.map (fun l => l ++ [newline]) ++ fgetsAll n rest := by
  induction ls with
  | nil => rfl
  | cons l ls ih =>
    obtain ⟨-, hnl, hlen⟩ := h l (by simp)
    have hTail := ih h.tail
    unfold fgetsAll at hTail ⊢
    rw [unlines_cons, List.append_assoc, List.cons_append, fgetsFrom_line hnl hlen, hTail]
    simp

theorem fgetsAll_nil (n : Nat) : fgetsAll n [] = [] := rfl

theorem fgetsAll_last {n : Nat} {l : Text} (hne : l ≠ []) (hnl : newline ∉ l)
    (hlen : l.length < n - 1) : fgetsAll n l = [l] := by
  unfold fgetsAll
  rw [fgetsFrom_last hnl hlen (by simpa using hne)]
  rfl

/-! ## `strtok` -/

/-- `acc` is the token collected so far. -/
def strtokFrom (spl : Text) : Text → Text → List Text
  | acc, [] => if acc = [] then [] else [acc]
  | acc, c :: s =>
    if c ∈ spl then
      if acc = [] then strtokFrom spl [] s else acc :: strtokFrom spl [] s
    else strtokFrom spl (acc ++ [c]) s

/-- The tokens of repeated `strtok` calls with the delimiters `spl`. -/
def strtokAll (spl : Text) (s : Text) : List Text := strtokFrom spl [] s

theorem strtokFrom_line {acc l : Text} (hl : newline ∉ l) (hne : acc ++ l ≠ []) (rest : Text) :
    strtokFrom [newline] acc (l ++ newline :: rest) =
      (acc ++ l) :: strtokFrom [newline] [] rest := by
  induction l generalizing acc with
  | nil =>
    rw [List.append_nil] at hne
    simp [strtokFrom, hne]
  | cons c l ih =>
    simp only [List.mem_cons, not_or] at hl
    have hc : ¬ c = newline := fun h => hl.1 h.symm
    simp only [List.cons_append, strtokFrom, List.mem_singleton, if_neg hc]
    rw [ih hl.2 (by simp)]
    simp

theorem strtokFrom_last {acc l : Text} (hl : newline ∉ l) (hne : acc ++ l ≠ []) :
    strtokFrom [newline] acc l = [acc ++ l] := by
  induction l generalizing acc with
  | nil =>
    rw [List.append_nil] at hne ⊢
    simp [strtokFrom, hne]
  | cons c l ih =>
    simp only [List.mem_cons, not_or] at hl
    have hc : ¬ c = newline := fun h => hl.1 h.symm
    simp only [strtokFrom, List.mem_singleton, if_neg hc]
    rw [ih hl.2 (by simp)]
    simp

theorem strtokAll_unlines {n : Nat} {ls : List Text} (h : ShortLines n ls) (rest : Text) :
    strtokAll [newline] (unlines ls ++ rest) = ls ++ strtokAll [newline] rest := by
  induction ls with
  | nil => rfl
  | cons l ls ih =>
    obtain ⟨hne, hnl, -⟩ := h l (by simp)
    have hTail := ih h.tail
    unfold strtokAll at hTail ⊢
    rw [unlines_cons, List.append_assoc, List.cons_append,
      strtokFrom_line hnl (by simpa using hne), hTail]
    rfl

theorem strtokAll_nil : strtokAll [newline] [] = [] := rfl

theorem strtokAll_last {l : Text} (hne : l ≠ []) (hnl : newline ∉ l) :
    strtokAll [newline] l = [l] := by
  unfold strtokAll
  rw [strtokFrom_last hnl (by simpa using hne)]
  rfl

/-- The bytes of a token are bytes of the text and no delimiters. -/
theorem strtokAll_mem {spl s l : Text} (h : l ∈ strtokAll spl s) :
    ∀ c ∈ l, c ∈ s ∧ c ∉ spl := by
  suffices ∀ (s acc : Text), l ∈ strtokFrom spl acc s →
      ∀ c ∈ l, (c ∈ acc ∨ c ∈ s) ∧ (c ∈ acc ∨ c ∉ spl) by
    intro c hc
    simpa using this s [] h c hc
  intro s
  induction s with
  | nil =>
    intro acc hl c hc
    simp only [strtokFrom] at hl
    split at hl
    · simp at hl
    · rw [List.mem_singleton.mp hl] at hc
      exact ⟨Or.inl hc, Or.inl hc⟩
  | cons b s ih =>
    intro acc hl c hc
    simp only [strtokFrom] at hl
    split at hl
    · have hrest : l ∈ strtokFrom spl [] s → (c ∈ acc ∨ c ∈ b :: s) ∧ (c ∈ acc ∨ c ∉ spl) := by
        intro hl
        have := ih [] hl c hc
        simp only [List.not_mem_nil, false_or] at this
        exact ⟨Or.inr (by simp [this.1]), Or.inr this.2⟩
      split at hl
      · exact hrest hl
      · rcases List.mem_cons.mp hl with rfl | hl
        · exact ⟨Or.inl hc, Or.inl hc⟩
        · exact hrest hl
    · rename_i hb
      have := ih (acc ++ [b]) hl c hc
      simp only [List.mem_append, List.mem_singleton] at this
      rcases this with ⟨(h1 | rfl) | h1, h2⟩
      · exact ⟨Or.inl h1, Or.inl h1⟩
      · exact ⟨Or.inr (by simp), Or.inr hb⟩
      · refine ⟨Or.inr (by simp [h1]), ?_⟩
        rcases h2 with (h2 | rfl) | h2
        · exact Or.inl h2
        · exact Or.inr hb
        · exact Or.inr h2

/-! ## Cutting a text -/

/-- A prefix of a text of lines is some whole lines and a piece of the next line. -/
theorem prefix_unlines {ls : List Text} (hls : ∀ l ∈ ls, newline ∉ l) {t : Text}
    (ht : t <+: unlines ls) :
    ∃ k u, t = unlines (ls.take k) ++ u ∧ newline ∉ u ∧
      ((u = [] ∧ k ≤ ls.length) ∨ ∃ l, ls[k]? = some l ∧ u <+: l) := by
  induction ls generalizing t with
  | nil =>
    rw [unlines_nil, List.prefix_nil] at ht
    exact ⟨0, [], by simp [ht], by simp, Or.inl ⟨rfl, Nat.le_refl _⟩⟩
  | cons l ls ih =>
    have hl := hls l (by simp)
    rw [unlines_cons] at ht
    obtain ⟨w, hw⟩ := ht
    rcases List.append_eq_append_iff.mp hw with ⟨v, hshort, -⟩ | ⟨v, rfl, hv⟩
    · have hpre : t <+: l := ⟨v, hshort.symm⟩
      refine ⟨0, t, by simp, ?_, Or.inr ⟨l, rfl, hpre⟩⟩
      exact fun hmem => hl (hpre.subset hmem)
    · cases v with
      | nil =>
        exact ⟨0, l, by simp, hl, Or.inr ⟨l, rfl, by simp⟩⟩
      | cons c v =>
        obtain ⟨rfl, hTail⟩ := List.cons.inj hv
        obtain ⟨k, u, rfl, hu, hrest⟩ := ih (fun m hm => hls m (by simp [hm])) ⟨w, hTail.symm⟩
        refine ⟨k + 1, u, by simp, hu, ?_⟩
        rcases hrest with ⟨rfl, hk⟩ | ⟨m, hm, hum⟩
        · exact Or.inl ⟨rfl, by simpa using hk⟩
        · exact Or.inr ⟨m, by simpa using hm, hum⟩

/-- What stands behind the last newline. -/
def lastLine (t : Text) : Text := (t.reverse.takeWhile (· ≠ newline)).reverse

theorem lastLine_unlines (ls : List Text) {u : Text} (hu : newline ∉ u) :
    lastLine (unlines ls ++ u) = u := by
  have hrev : ∀ b ∈ u.reverse, decide (b ≠ newline) = true := by
    intro b hb
    exact decide_eq_true (fun h => hu (h ▸ List.mem_reverse.mp hb))
  have hend : (unlines ls).reverse.takeWhile (fun b : Byte => decide (b ≠ newline)) = [] := by
    rcases List.eq_nil_or_concat ls with rfl | ⟨ks, l, rfl⟩
    · rfl
    · simp
  unfold lastLine
  rw [List.reverse_append, List.takeWhile_append_of_pos hrev, hend, List.append_nil,
    List.reverse_reverse]

end VpnP2p.Foundation
