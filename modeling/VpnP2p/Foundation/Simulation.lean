import VpnP2p.Foundation.Outcome

/-!
# Runs of C code that follow an abstract machine

A step of an abstract machine leads to a next state or is stuck. `Follows R o r` sets
the outcome `r` of the code against the outcome `o` of the machine: the code goes wrong
where the machine is stuck, and elsewhere ends in a state related by `R`. Code that
follows the machine step by step follows it over whole runs.
-/

namespace VpnP2p.Foundation

variable {α σ σ' τ τ' : Type}

/-- The code goes wrong where the machine is stuck and is in a related state elsewhere. -/
def Follows (R : σ → τ → Prop) : Option σ → Result τ → Prop
  | none, r => ∃ e, r = .error e
  | some s, r => ∃ t, r = .ok t ∧ R s t

namespace Follows

variable {R R' : σ → τ → Prop} {o : Option σ} {r : Result τ}

theorem mono (h : Follows R o r) (hR : ∀ s t, R s t → R' s t) : Follows R' o r := by
  cases o with
  | none => exact h
  | some s =>
    obtain ⟨t, hr, hst⟩ := h
    exact ⟨t, hr, hR s t hst⟩

theorem bind (h : Follows R o r) {S : σ' → τ' → Prop} {k : σ → Option σ'} {k' : τ → Result τ'}
    (hk : ∀ s t, R s t → Follows S (k s) (k' t)) : Follows S (o.bind k) (r >>= k') := by
  cases o with
  | none =>
    obtain ⟨e, rfl⟩ := h
    exact ⟨e, rfl⟩
  | some s =>
    obtain ⟨t, rfl, hst⟩ := h
    exact hk s t hst

theorem toOption {ρ : Type} (v : Result ρ) : Follows Eq v.toOption v := by
  cases v with
  | error e => exact ⟨e, rfl⟩
  | ok a => exact ⟨a, rfl, rfl⟩

/-- Where the code ends, the machine has a next state. -/
theorem of_ok (h : Follows R o r) {t : τ} (hr : r = .ok t) : ∃ s, o = some s ∧ R s t := by
  subst hr
  cases o with
  | none =>
    obtain ⟨e, he⟩ := h
    cases he
  | some s =>
    obtain ⟨t', ht, hst⟩ := h
    cases ht
    exact ⟨s, rfl, hst⟩

/-- Where the machine has a next state, the code ends. -/
theorem of_some (h : Follows R o r) {s : σ} (ho : o = some s) : ∃ t, r = .ok t ∧ R s t := by
  subst ho
  exact h

end Follows

/-- Related states stay related along a loop whose rounds follow the machine. -/
theorem follows_foldlM {R : σ → τ → Prop} {f : σ → α → Option σ} {g : τ → α → Result τ}
    (hstep : ∀ s t a, R s t → Follows R (f s a) (g t a)) (as : List α) {s : σ} {t : τ}
    (hR : R s t) : Follows R (as.foldlM f s) (as.foldlM g t) := by
  induction as generalizing s t with
  | nil => exact ⟨t, rfl, hR⟩
  | cons a as ih =>
    rw [List.foldlM_cons, List.foldlM_cons]
    exact (hstep s t a hR).bind (fun _ _ hst => ih hst)

end VpnP2p.Foundation
