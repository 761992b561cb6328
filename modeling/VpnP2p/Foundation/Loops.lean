import VpnP2p.Foundation.Chain

/-!
# Loops over a list that may be left early

A round of such a loop goes on with a new state or leaves the loop with a value, by
`break` or by `return`. Over a NULL-terminated list whose links the rounds keep, the
loop is a fold over its cells that stops at the first round that leaves.
-/

namespace VpnP2p.Foundation

/-- How a round of a loop ends. -/
inductive Flow (σ ρ : Type) where
  | next (s : σ)
  | done (r : ρ)
deriving DecidableEq

section Fold

variable {α σ ρ : Type} {body : α → σ → Result (Flow σ ρ)}

/-- The rounds for the items of a list, up to the one that leaves. -/
def foldFlow (body : α → σ → Result (Flow σ ρ)) : List α → σ → Result (Flow σ ρ)
  | [], s => .ok (.next s)
  | a :: as, s => do
    match ← body a s with
    | .done r => .ok (.done r)
    | .next s => foldFlow body as s

@[simp] theorem foldFlow_nil (s : σ) : foldFlow body [] s = .ok (.next s) := rfl

theorem foldFlow_cons_next {a : α} {as : List α} {s s' : σ} (h : body a s = .ok (.next s')) :
    foldFlow body (a :: as) s = foldFlow body as s' := by
  rw [foldFlow, h]
  rfl

theorem foldFlow_cons_done {a : α} {as : List α} {s : σ} {r : ρ} (h : body a s = .ok (.done r)) :
    foldFlow body (a :: as) s = .ok (.done r) := by
  rw [foldFlow, h]
  rfl

theorem foldFlow_append_next {as bs : List α} {s s' : σ}
    (h : foldFlow body as s = .ok (.next s')) :
    foldFlow body (as ++ bs) s = foldFlow body bs s' := by
  induction as generalizing s with
  | nil =>
    cases h
    rfl
  | cons a as ih =>
    rw [foldFlow] at h
    obtain ⟨f, hbody, h⟩ := bind_eq_ok.mp h
    cases f with
    | done r => cases h
    | next t =>
      rw [List.cons_append, foldFlow_cons_next hbody]
      exact ih h

theorem foldFlow_concat_next {as : List α} {a : α} {s t : σ} :
    foldFlow body (as ++ [a]) s = .ok (.next t) ↔
      ∃ s', foldFlow body as s = .ok (.next s') ∧ body a s' = .ok (.next t) := by
  induction as generalizing s with
  | nil =>
    simp only [List.nil_append, foldFlow, Except.ok.injEq, Flow.next.injEq, exists_eq_left']
    match body a s with
    | .error e => simp
    | .ok (.done r) => simp
    | .ok (.next s') => simp
  | cons b as ih =>
    rw [List.cons_append, foldFlow, foldFlow]
    match body b s with
    | .error e => simp
    | .ok (.done r) => simp
    | .ok (.next s') => exact ih

theorem foldFlow_append_done {as : List α} (bs : List α) {s : σ} {r : ρ}
    (h : foldFlow body as s = .ok (.done r)) :
    foldFlow body (as ++ bs) s = .ok (.done r) := by
  induction as generalizing s with
  | nil => cases h
  | cons a as ih =>
    rw [foldFlow] at h
    obtain ⟨f, hbody, h⟩ := bind_eq_ok.mp h
    cases f with
    | done r' =>
      cases h
      exact foldFlow_cons_done hbody
    | next t =>
      rw [List.cons_append, foldFlow_cons_next hbody]
      exact ih h

/-- A loop that was left had come to the item it was left at. -/
theorem foldFlow_eq_done {as : List α} {s : σ} {r : ρ} :
    foldFlow body as s = .ok (.done r) ↔ ∃ before a after t, as = before ++ a :: after ∧
      foldFlow body before s = .ok (.next t) ∧ body a t = .ok (.done r) := by
  constructor
  · intro h
    induction as generalizing s with
    | nil => cases h
    | cons a as ih =>
      rw [foldFlow] at h
      obtain ⟨f, hbody, h⟩ := bind_eq_ok.mp h
      cases f with
      | done r' =>
        cases h
        exact ⟨[], a, as, s, rfl, rfl, hbody⟩
      | next t =>
        obtain ⟨before, b, after, u, rfl, hrun, hlast⟩ := ih h
        exact ⟨a :: before, b, after, u, rfl, (foldFlow_cons_next hbody).trans hrun, hlast⟩
  · rintro ⟨before, a, after, t, rfl, hrun, hlast⟩
    rw [foldFlow_append_next hrun]
    exact foldFlow_cons_done hlast

/-- What is asked at every item, with the items before it. -/
theorem forall_prefix_concat {P : List α → α → Prop} {as : List α} {a : α} :
    (∀ before x, before ++ [x] <+: as ++ [a] → P before x) ↔
      (∀ before x, before ++ [x] <+: as → P before x) ∧ P as a := by
  constructor
  · intro h
    exact ⟨fun before x hpre => h before x (hpre.trans (List.prefix_append _ _)),
      h as a List.prefix_rfl⟩
  · rintro ⟨h, hlast⟩ before x hpre
    rcases List.prefix_concat_iff.mp hpre with heq | hpre
    · obtain ⟨rfl, hx⟩ := List.append_inj' heq rfl
      cases hx
      exact hlast
    · exact h before x hpre

end Fold

/-! ## Two loops side by side -/

section Simulation

variable {α σ τ ρ : Type}

/-- Two runs that end in the same way, and where they go on, in related states. -/
def SameEnd (R : σ → τ → Prop) : Result (Flow σ ρ) → Result (Flow τ ρ) → Prop
  | .error e, .error e' => e = e'
  | .ok (.done r), .ok (.done r') => r = r'
  | .ok (.next s), .ok (.next t) => R s t
  | _, _ => False

theorem SameEnd.next_iff {R : σ → τ → Prop} {x : Result (Flow σ ρ)} {y : Result (Flow τ ρ)}
    (h : SameEnd R x y) : (∃ s, x = .ok (.next s)) ↔ ∃ t, y = .ok (.next t) := by
  match x, y, h with
  | .error _, .error _, _ => simp
  | .ok (.done _), .ok (.done _), _ => simp
  | .ok (.next s), .ok (.next t), _ => exact iff_of_true ⟨s, rfl⟩ ⟨t, rfl⟩

/-- What holds between the states as long as items remain, holds at the end. -/
theorem foldFlow_simulation {f : α → σ → Result (Flow σ ρ)} {g : α → τ → Result (Flow τ ρ)}
    (R : List α → σ → τ → Prop)
    (hstep : ∀ a as s t, R (a :: as) s t → SameEnd (R as) (f a s) (g a t)) {as : List α} {s : σ}
    {t : τ} (hstart : R as s t) : SameEnd (R []) (foldFlow f as s) (foldFlow g as t) := by
  induction as generalizing s t with
  | nil => exact hstart
  | cons a as ih =>
    have hround := hstep a as s t hstart
    rw [foldFlow, foldFlow]
    match f a s, g a t, hround with
    | .error _, .error _, h => exact h
    | .ok (.done _), .ok (.done _), h => exact h
    | .ok (.next _), .ok (.next _), h => exact ih h

end Simulation

/-! ## Searches -/

section Search

variable {α β ρ : Type} {R : α → β → Prop} {P : β → Prop} [DecidablePred P] {found : α → ρ}
  {body : α → Unit → Result (Flow Unit ρ)}

/-- A loop that leaves at the first item whose value has the property: it runs through
where no value has it. -/
theorem foldFlow_search_none
    (hbody : ∀ a x, R a x → body a () = .ok (if P x then .done (found a) else .next ()))
    {as : List α} {xs : List β} (h : List.Forall₂ R as xs) (hno : ∀ x ∈ xs, ¬ P x) :
    foldFlow body as () = .ok (.next ()) := by
  induction h with
  | nil => rfl
  | @cons a x as xs ha _ ih =>
    have hstep := hbody a x ha
    rw [if_neg (hno x (by simp))] at hstep
    rw [foldFlow_cons_next hstep]
    exact ih (fun y hy => hno y (by simp [hy]))

/-- And it leaves with such an item where there is one. -/
theorem foldFlow_search_some
    (hbody : ∀ a x, R a x → body a () = .ok (if P x then .done (found a) else .next ()))
    {as : List α} {xs : List β} (h : List.Forall₂ R as xs) (hyes : ∃ x ∈ xs, P x) :
    ∃ a ∈ as, ∃ x, R a x ∧ P x ∧ foldFlow body as () = .ok (.done (found a)) := by
  induction h with
  | nil =>
    obtain ⟨x, hx, -⟩ := hyes
    cases hx
  | @cons a x as xs ha _ ih =>
    have hstep := hbody a x ha
    by_cases hP : P x
    · rw [if_pos hP] at hstep
      exact ⟨a, by simp, x, ha, hP, foldFlow_cons_done hstep⟩
    · rw [if_neg hP] at hstep
      have hrest : ∃ y ∈ xs, P y := by
        obtain ⟨y, hy, hPy⟩ := hyes
        rcases List.mem_cons.mp hy with rfl | hy
        · exact absurd hPy hP
        · exact ⟨y, hy, hPy⟩
      obtain ⟨b, hb, y, hR, hPy, hrun⟩ := ih hrest
      exact ⟨b, by simp [hb], y, hR, hPy, by rw [foldFlow_cons_next hstep, hrun]⟩

end Search

section Loop

variable {α σ ρ : Type} (cells : σ → Mem α) (next : α → Ptr) (body : Nat → σ → Result (Flow σ ρ))

/-- `for (p = head; p != NULL; p = p->next) body`, where the body may leave. -/
def forChainFlow : Nat → Ptr → σ → Result (Flow σ ρ)
  | 0, _, _ => .error .diverges
  | _ + 1, .unassigned, _ => .error .unassigned
  | _ + 1, .null, s => .ok (.next s)
  | fuel + 1, .addr a, s => do
    match ← body a s with
    | .done r => .ok (.done r)
    | .next s => do
      let c ← load (cells s) (.addr a)
      forChainFlow fuel (next c) s

variable {cells next body}

theorem forChainFlow_next {fuel a : Nat} {s s' : σ} {c : α} (hbody : body a s = .ok (.next s'))
    (hc : (cells s')[a]? = some c) :
    forChainFlow cells next body (fuel + 1) (.addr a) s =
      forChainFlow cells next body fuel (next c) s' := by
  rw [forChainFlow, hbody]
  simp only [ok_bind, load_addr hc]

theorem forChainFlow_done {fuel a : Nat} {s : σ} {r : ρ} (hbody : body a s = .ok (.done r)) :
    forChainFlow cells next body (fuel + 1) (.addr a) s = .ok (.done r) := by
  rw [forChainFlow, hbody]
  rfl

/-- As long as no round relinks the list, the loop is a fold over its cells. -/
theorem forChainFlow_eq_foldFlow {p : Ptr} {as : List Nat} {s : σ} {fuel : Nat}
    (hSeg : Seg next (cells s) p as .null) (hFuel : as.length < fuel)
    (hBody : ∀ a ∈ as, ∀ t t', body a t = .ok (.next t') →
      SameLinks next as (cells t) (cells t')) :
    forChainFlow cells next body fuel p s = foldFlow body as s := by
  induction as generalizing p s fuel with
  | nil =>
    cases fuel with
    | zero => omega
    | succ fuel =>
      rw [show p = .null from hSeg]
      rfl
  | cons a as ih =>
    cases fuel with
    | zero => omega
    | succ fuel =>
      simp only [List.length_cons] at hFuel
      have hp : p = .addr a := hSeg.1
      subst hp
      cases hRun : body a s with
      | error e => simp only [forChainFlow, foldFlow, hRun, error_bind]
      | ok f =>
        cases f with
        | done r => rw [forChainFlow_done hRun, foldFlow_cons_done hRun]
        | next t =>
          obtain ⟨-, c, hc, hrest⟩ := hSeg.sameLinks (hBody a (by simp) s t hRun)
          rw [forChainFlow_next hRun hc, foldFlow_cons_next hRun]
          apply ih hrest (by omega)
          intro b hb u u' hub
          exact (hBody b (by simp [hb]) u u' hub).mono (fun d hd => by simp [hd])

/-- A loop over a memory that its body only reads. -/
theorem forChainFlow_read_eq_foldFlow {m : Mem α} {p : Ptr} {as : List Nat} {s : σ} {fuel : Nat}
    (hSeg : Seg next m p as .null) (hFuel : as.length < fuel) :
    forChainFlow (fun _ => m) next body fuel p s = foldFlow body as s :=
  forChainFlow_eq_foldFlow hSeg hFuel (fun _ _ _ _ _ => SameLinks.refl _ _)

end Loop

/-! ## The last cell -/

section Last

variable {α : Type} (next : α → Ptr)

/-- `for (p = head; p->next != NULL; p = p->next)`, where it ends. -/
def lastCell (m : Mem α) : Nat → Ptr → Result Ptr
  | 0, _ => .error .diverges
  | fuel + 1, p => do
    let c ← load m p
    if next c = .null then .ok p else lastCell m fuel (next c)

variable {next}

theorem lastCell_spec {m : Mem α} {p : Ptr} {cs : List Nat} {a fuel : Nat}
    (hlinks : Seg next m p (cs ++ [a]) .null) (hfuel : cs.length < fuel) :
    lastCell next m fuel p = .ok (.addr a) := by
  induction cs generalizing p fuel with
  | nil =>
    cases fuel with
    | zero => omega
    | succ fuel =>
      obtain ⟨rfl, c, hc, hend⟩ := hlinks
      have hnull : next c = .null := hend
      rw [lastCell, load_addr hc, ok_bind, if_pos hnull]
  | cons b cs ih =>
    cases fuel with
    | zero => omega
    | succ fuel =>
      obtain ⟨rfl, c, hc, hrest⟩ := hlinks
      have hnext : ¬ next c = .null := by
        intro hnull
        rw [hnull] at hrest
        cases cs <;> cases hrest.1
      rw [lastCell, load_addr hc, ok_bind, if_neg hnext]
      exact ih hrest (by simpa using hfuel)

end Last

end VpnP2p.Foundation
