import Mathlib.Data.List.Basic
import Mathlib.Data.List.Forall2

/-!
# Outcomes of C code

A run of C code either ends with a value or leaves the behaviour the language
defines. `Fault` names the ways it leaves it; `Result` is the exception monad over
them. A loop over a list of items is `List.foldlM`, and the two rules below carry
an invariant and a relation through such a loop.
-/

namespace VpnP2p.Foundation

/-- Why a run of C code has no defined result. -/
inductive Fault where
  | nullDeref
  | unassigned
  | outOfBounds
  | diverges
deriving DecidableEq, Repr

abbrev Result (α : Type) := Except Fault α

section Bind

variable {α β : Type}

@[simp] theorem ok_bind (a : α) (f : α → Result β) : (Except.ok a >>= f) = f a := rfl

@[simp] theorem error_bind (e : Fault) (f : α → Result β) :
    ((Except.error e : Result α) >>= f) = .error e := rfl

@[simp] theorem pure_eq_ok (a : α) : (pure a : Result α) = .ok a := rfl

@[simp] theorem map_ok (f : α → β) (a : α) : f <$> (Except.ok a : Result α) = .ok (f a) := rfl

@[simp] theorem map_error (f : α → β) (e : Fault) :
    f <$> (Except.error e : Result α) = .error e := rfl

theorem bind_eq_ok {x : Result α} {f : α → Result β} {b : β} :
    (x >>= f) = .ok b ↔ ∃ a, x = .ok a ∧ f a = .ok b := by
  cases x with
  | error e => simp
  | ok a => simp

theorem map_eq_ok {f : α → β} {x : Result α} {b : β} :
    f <$> x = .ok b ↔ ∃ a, x = .ok a ∧ f a = b := by
  cases x with
  | error e => simp
  | ok a => simp

end Bind

/-- Two different answers tell what is answered. -/
theorem ite_eq_ite_iff {α : Type} {x y : α} (hxy : x ≠ y) {P Q : Prop} [Decidable P]
    [Decidable Q] : (if P then x else y) = (if Q then x else y) ↔ (P ↔ Q) := by
  by_cases hP : P
  · by_cases hQ : Q
    · simp [hP, hQ]
    · simp [hP, hQ, hxy]
  · by_cases hQ : Q
    · simp [hP, hQ, hxy.symm]
    · simp [hP, hQ]

/-! ## Loops over a list -/

section Loop

variable {σ α β : Type}

/-- What one step keeps, a whole successful loop keeps. -/
theorem foldlM_invariant {f : σ → α → Result σ} (I : σ → Prop)
    {xs : List α} {s s' : σ} (hStart : I s)
    (hStep : ∀ a ∈ xs, ∀ t t', I t → f t a = .ok t' → I t')
    (hRun : xs.foldlM f s = .ok s') : I s' := by
  induction xs generalizing s with
  | nil =>
    cases hRun
    exact hStart
  | cons a xs ih =>
    rw [List.foldlM_cons] at hRun
    obtain ⟨t, hHead, hTail⟩ := bind_eq_ok.mp hRun
    exact ih (hStep a (by simp) s t hStart hHead)
      (fun b hb => hStep b (by simp [hb])) hTail

/-- A loop whose steps succeed under an invariant succeeds and keeps it. -/
theorem foldlM_total {f : σ → α → Result σ} (I : σ → Prop) {xs : List α} {s : σ}
    (hStart : I s) (hStep : ∀ a ∈ xs, ∀ t, I t → ∃ t', f t a = .ok t' ∧ I t') :
    ∃ s', xs.foldlM f s = .ok s' ∧ I s' := by
  induction xs generalizing s with
  | nil => exact ⟨s, rfl, hStart⟩
  | cons a xs ih =>
    obtain ⟨t, hHead, hI⟩ := hStep a (by simp) s hStart
    obtain ⟨s', hTail, hI'⟩ := ih hI (fun b hb => hStep b (by simp [hb]))
    exact ⟨s', by rw [List.foldlM_cons, hHead]; exact hTail, hI'⟩

/-- In a successful loop every item was processed successfully in some state. -/
theorem foldlM_step_of_ok {f : σ → α → Result σ} {xs : List α} {s s' : σ}
    (hRun : xs.foldlM f s = .ok s') {a : α} (ha : a ∈ xs) :
    ∃ t t', f t a = .ok t' := by
  induction xs generalizing s with
  | nil => simp at ha
  | cons b xs ih =>
    rw [List.foldlM_cons] at hRun
    obtain ⟨t, hHead, hTail⟩ := bind_eq_ok.mp hRun
    rcases List.mem_cons.mp ha with rfl | ha
    · exact ⟨s, t, hHead⟩
    · exact ih hTail ha

/-- A loop that appends the text of one item per round, as long as the output stays
within `fits`, appends the texts of all of them. -/
theorem foldlM_emit {γ : Type} {f : List γ → α → Result (List γ)} {P : α → β → Prop}
    {text : β → List γ} {fits : List γ → Prop}
    (hPrefix : ∀ s t, fits (s ++ t) → fits s)
    (hStep : ∀ a out out', f out a = .ok out' ↔
      ∃ x, P a x ∧ out' = out ++ text x ∧ fits out')
    {xs : List α} {out out' : List γ} (hOut : fits out) :
    xs.foldlM f out = .ok out' ↔
      ∃ ys, List.Forall₂ P xs ys ∧ out' = out ++ ys.flatMap text ∧ fits out' := by
  induction xs generalizing out with
  | nil =>
    constructor
    · intro h
      cases h
      exact ⟨[], .nil, by simp, hOut⟩
    · rintro ⟨ys, hys, rfl, -⟩
      cases hys
      simp
  | cons a xs ih =>
    rw [List.foldlM_cons, bind_eq_ok]
    constructor
    · rintro ⟨t, hHead, hTail⟩
      obtain ⟨x, hx, rfl, hfits⟩ := (hStep a out t).mp hHead
      obtain ⟨ys, hys, hout, hfits'⟩ := (ih hfits).mp hTail
      exact ⟨x :: ys, .cons hx hys, by simp [hout], hfits'⟩
    · rintro ⟨ys, hys, hout, hfits⟩
      cases hys with
      | @cons _ x _ ys hx hys =>
        rw [List.flatMap_cons, ← List.append_assoc] at hout
        have hMid := hPrefix _ _ (hout ▸ hfits)
        exact ⟨out ++ text x, (hStep a out _).mpr ⟨x, hx, rfl, hMid⟩,
          (ih hMid).mpr ⟨ys, hys, hout, hfits⟩⟩

end Loop

/-! ## Filling an array -/

section Fill

variable {α β : Type} {f : List β × Nat → α → Result (List β × Nat)} {item : α → β} {size : Nat}

/-- A loop that writes an item to the next slot of an array of `size` in each round fills the
array from the left, as long as there is room. -/
theorem foldlM_fill (hf : ∀ xs j a, f (xs, j) a =
      if j < size then .ok (xs.set j (item a), j + 1) else .error .outOfBounds) (slot : β)
    (as : List α) (filled : List β) (room : Nat) (hsize : filled.length + room = size) :
    as.foldlM f (filled ++ List.replicate room slot, filled.length) =
      if as.length ≤ room then
        .ok (filled ++ as.map item ++ List.replicate (room - as.length) slot,
          filled.length + as.length)
      else .error .outOfBounds := by
  induction as generalizing filled room with
  | nil => simp
  | cons a as ih =>
    rw [List.foldlM_cons, hf]
    cases room with
    | zero =>
      have hfull : ¬ filled.length < size := by omega
      rw [if_neg hfull, error_bind, if_neg (by simp)]
    | succ room =>
      have hroom : filled.length < size := by omega
      have hset : (filled ++ List.replicate (room + 1) slot).set filled.length (item a) =
          (filled ++ [item a]) ++ List.replicate room slot := by
        rw [List.replicate_succ, List.set_append_right _ _ (Nat.le_refl _), Nat.sub_self,
          List.set_cons_zero, List.append_assoc]
        rfl
      have hlen : filled.length + 1 = (filled ++ [item a]).length := by simp
      rw [if_pos hroom, ok_bind, hset, hlen, ih (filled ++ [item a]) room (by simp; omega)]
      simp only [List.length_cons, Nat.add_le_add_iff_right, Nat.add_sub_add_right, List.map_cons,
        List.append_assoc, List.length_append, List.length_nil, List.cons_append, List.nil_append]
      congr 3
      omega

end Fill

end VpnP2p.Foundation
