import Mathlib.Data.List.MinMax
import Mathlib.Data.List.Nodup
import Mathlib.Data.List.Forall2
import Mathlib.Order.Basic
import Mathlib.Order.Defs.LinearOrder
import Mathlib.Tactic.Tauto

/-!
# Merging lists of keyed, ranked records

A record has a key, and its rank says how recent it is. Merging `ys` into `xs` offers
every record of `ys` to every record of `xs`, which gives way to a strictly higher
rank under the same key, and appends the records of `ys` under keys that `xs` does not
have. On lists without repeated keys this is an associative, idempotent operation, and
what survives a run of merges under a key is the first record of maximal rank that
arrived.
-/

namespace VpnP2p.Foundation

variable {ρ κ ω : Type}

/-! ## Records without repeated keys -/

section Records

variable [LinearOrder ω] (key : ρ → κ) (rank : ρ → ω)

/-- `z` stands in `l`, outranks what stands before it under its key and is not
outranked by what stands behind. -/
def IsFirstMax (l : List ρ) (z : ρ) : Prop :=
  ∃ before after, l = before ++ z :: after ∧
    (∀ y ∈ before, key y = key z → rank y < rank z) ∧
    ∀ y ∈ after, key y = key z → rank y ≤ rank z

/-- The key of `y` is in `xs`, and `y` is no newer than what is there. -/
def Known (xs : List ρ) (y : ρ) : Prop :=
  key y ∈ xs.map key ∧ ∀ x ∈ xs, key y = key x → rank y ≤ rank x

/-- `s` is what a run of merges over the records `l` has left: the keys of `l`, once
each, and under each the first record of maximal rank. -/
structure Settled (l s : List ρ) : Prop where
  nodup : (s.map key).Nodup
  keys : ∀ k, k ∈ s.map key ↔ k ∈ l.map key
  firstMax : ∀ z ∈ s, IsFirstMax key rank l z

variable {key rank}

theorem IsFirstMax.mem {l : List ρ} {z : ρ} (h : IsFirstMax key rank l z) : z ∈ l := by
  obtain ⟨before, after, rfl, -, -⟩ := h
  simp

theorem IsFirstMax.le {l : List ρ} {z : ρ} (h : IsFirstMax key rank l z) {y : ρ} (hy : y ∈ l)
    (hkey : key y = key z) : rank y ≤ rank z := by
  obtain ⟨before, after, rfl, hbefore, hafter⟩ := h
  rcases List.mem_append.mp hy with hy | hy
  · exact (hbefore y hy hkey).le
  · rcases List.mem_cons.mp hy with rfl | hy
    · exact le_rfl
    · exact hafter y hy hkey

/-- A key has one first record of maximal rank. -/
theorem IsFirstMax.unique {l : List ρ} {y z : ρ} (hy : IsFirstMax key rank l y)
    (hz : IsFirstMax key rank l z) (hkey : key y = key z) : y = z := by
  have hrank : rank y = rank z :=
    le_antisymm (hz.le hy.mem hkey) (hy.le hz.mem hkey.symm)
  obtain ⟨before, after, rfl, hbefore, -⟩ := hy
  obtain ⟨before', after', heq, hbefore', -⟩ := hz
  -- Neither of the two stands in front of the other.
  rcases List.append_eq_append_iff.mp heq with ⟨as, rfl, hcs⟩ | ⟨as, rfl, hcs⟩
  · cases as with
    | nil => exact (List.cons.inj hcs).1
    | cons a as =>
      obtain rfl := (List.cons.inj hcs).1
      exact absurd (hbefore' y (by simp) hkey) (by rw [hrank]; exact lt_irrefl _)
  · cases as with
    | nil => exact (List.cons.inj hcs).1.symm
    | cons a as =>
      obtain rfl := (List.cons.inj hcs).1
      exact absurd (hbefore z (by simp) hkey.symm) (by rw [hrank]; exact lt_irrefl _)

theorem Settled.mem_iff {l s : List ρ} (h : Settled key rank l s) {z : ρ} :
    z ∈ s ↔ IsFirstMax key rank l z := by
  constructor
  · exact h.firstMax z
  · intro hz
    obtain ⟨y, hy, hkey⟩ :=
      List.mem_map.mp ((h.keys (key z)).mpr (List.mem_map.mpr ⟨z, hz.mem, rfl⟩))
    rw [← (h.firstMax y hy).unique hz hkey]
    exact hy

/-- A record of `ys` whose key occurs nowhere else is the first of maximal rank. -/
theorem isFirstMax_of_alone {l before after : List ρ} {z : ρ} (hnew : key z ∉ l.map key)
    (hbefore : key z ∉ before.map key) (hafter : key z ∉ after.map key) :
    IsFirstMax key rank (l ++ (before ++ z :: after)) z := by
  refine ⟨l ++ before, after, by simp, ?_, ?_⟩
  · intro y hy hkey
    rcases List.mem_append.mp hy with hy | hy
    · exact absurd (List.mem_map.mpr ⟨y, hy, hkey⟩) hnew
    · exact absurd (List.mem_map.mpr ⟨y, hy, hkey⟩) hbefore
  · intro y hy hkey
    exact absurd (List.mem_map.mpr ⟨y, hy, hkey⟩) hafter

/-- Without repeated keys, a record's key occurs nowhere else. -/
theorem alone_of_nodup {ys : List ρ} (hys : (ys.map key).Nodup) {z : ρ} (hz : z ∈ ys) :
    ∃ before after, ys = before ++ z :: after ∧ key z ∉ before.map key ∧
      key z ∉ after.map key := by
  obtain ⟨before, after, rfl⟩ := List.append_of_mem hz
  simp only [List.map_append, List.map_cons, List.nodup_append, List.nodup_cons] at hys
  obtain ⟨-, ⟨hAfter, -⟩, hBefore⟩ := hys
  exact ⟨before, after, rfl, fun hmem => hBefore _ hmem _ (by simp) rfl, hAfter⟩

/-- A record keeps its key against records of no higher rank that come later. -/
theorem isFirstMax_of_left {l ys : List ρ} (hl : (l.map key).Nodup) {z : ρ} (hz : z ∈ l)
    (hys : ∀ y ∈ ys, key y = key z → rank y ≤ rank z) : IsFirstMax key rank (l ++ ys) z := by
  obtain ⟨before, after, rfl, hbefore, hafter⟩ := alone_of_nodup hl hz
  refine ⟨before, after ++ ys, by simp, ?_, ?_⟩
  · intro y hy hkey
    exact absurd (List.mem_map.mpr ⟨y, hy, hkey⟩) hbefore
  · intro y hy hkey
    rcases List.mem_append.mp hy with hy | hy
    · exact absurd (List.mem_map.mpr ⟨y, hy, hkey⟩) hafter
    · exact hys y hy hkey

/-- A later record takes its key from records of lower rank. -/
theorem isFirstMax_of_right {l ys : List ρ} (hys : (ys.map key).Nodup) {z : ρ} (hz : z ∈ ys)
    (hl : ∀ x ∈ l, key x = key z → rank x < rank z) : IsFirstMax key rank (l ++ ys) z := by
  obtain ⟨before, after, rfl, hbefore, hafter⟩ := alone_of_nodup hys hz
  refine ⟨l ++ before, after, by simp, ?_, ?_⟩
  · intro y hy hkey
    rcases List.mem_append.mp hy with hy | hy
    · exact hl y hy hkey
    · exact absurd (List.mem_map.mpr ⟨y, hy, hkey⟩) hbefore
  · intro y hy hkey
    exact absurd (List.mem_map.mpr ⟨y, hy, hkey⟩) hafter

theorem Settled.of_nodup {l : List ρ} (hl : (l.map key).Nodup) : Settled key rank l l where
  nodup := hl
  keys := fun _ => Iff.rfl
  firstMax := fun z hz => by
    obtain ⟨before, after, rfl, hbefore, hafter⟩ := alone_of_nodup hl hz
    have h : IsFirstMax key rank ([] ++ (before ++ z :: after)) z :=
      isFirstMax_of_alone (by simp) hbefore hafter
    simpa using h

/-- Two runs that received the same records agree on every key's rank. -/
theorem Settled.rank_eq {l l' s s' : List ρ} (h : Settled key rank l s)
    (h' : Settled key rank l' s') (hmem : ∀ x, x ∈ l ↔ x ∈ l')
    {z z' : ρ} (hz : z ∈ s) (hz' : z' ∈ s') (hkey : key z = key z') : rank z = rank z' := by
  have hf := h.firstMax z hz
  have hf' := h'.firstMax z' hz'
  exact le_antisymm (hf'.le ((hmem z).mp hf.mem) hkey) (hf.le ((hmem z').mpr hf'.mem) hkey.symm)

end Records

theorem eq_of_key_eq {key : ρ → κ} {xs : List ρ} (hxs : (xs.map key).Nodup) {x y : ρ}
    (hx : x ∈ xs) (hy : y ∈ xs) (h : key x = key y) : x = y :=
  List.inj_on_of_nodup_map hxs hx hy h

theorem known_self [LinearOrder ω] {key : ρ → κ} {rank : ρ → ω} {xs : List ρ}
    (hxs : (xs.map key).Nodup) {x : ρ} (hx : x ∈ xs) :
    Known key rank xs x := by
  refine ⟨List.mem_map.mpr ⟨x, hx, rfl⟩, fun y hy hkey => ?_⟩
  rw [eq_of_key_eq hxs hx hy hkey]

theorem rel_keys {ρ' : Type} {key : ρ → κ} {key' : ρ' → κ} {R : ρ → ρ' → Prop}
    (hR : ∀ x x', R x x' → key x = key' x') {xs : List ρ} {xs' : List ρ'}
    (hxs : List.Forall₂ R xs xs') : xs.map key = xs'.map key' := by
  induction hxs with
  | nil => rfl
  | cons hx _ ih => rw [List.map_cons, List.map_cons, ih, hR _ _ hx]

/-! ## The merge -/

variable [DecidableEq κ] [LinearOrder ω] (key : ρ → κ) (rank : ρ → ω)

/-- What `x` becomes when `y` is offered to it. -/
def offer (x y : ρ) : ρ := if key x = key y ∧ rank x < rank y then y else x

def offerAll (x : ρ) (ys : List ρ) : ρ := ys.foldl (offer key rank) x

/-- The first record of maximal rank under the key `k`. -/
def firstMax (k : κ) (ys : List ρ) : Option ρ := (ys.filter (fun y => key y = k)).argmax rank

/-- The records of `ys` under keys that `xs` does not have. -/
def fresh (xs ys : List ρ) : List ρ := ys.filter (fun y => key y ∉ xs.map key)

def merge (xs ys : List ρ) : List ρ :=
  xs.map (fun x => offerAll key rank x ys) ++ fresh key xs ys

/-- Every list of `yss` is merged in turn. -/
def mergeAll (xs : List ρ) (yss : List (List ρ)) : List ρ := yss.foldl (merge key rank) xs

/-- No key of `ys` but the known ones occurs twice. -/
def NewOnce (known : List κ) (ys : List ρ) : Prop := ((ys.map key).filter (· ∉ known)).Nodup

instance (known : List κ) (ys : List ρ) : Decidable (NewOnce key known ys) :=
  inferInstanceAs (Decidable (List.Nodup _))

/-- The same for lists that arrive one after the other, each making its keys known. -/
def NewOnceAll (known : List κ) : List (List ρ) → Prop
  | [] => True
  | ys :: yss => NewOnce key known ys ∧ NewOnceAll (known ++ ys.map key) yss

/-! ## Offering -/

section Offer

theorem key_offer (x y : ρ) : key (offer key rank x y) = key x := by
  unfold offer
  split
  · rename_i h
    exact h.1.symm
  · rfl

variable {key rank}

theorem offer_of_ne {x y : ρ} (h : key x ≠ key y) : offer key rank x y = x :=
  if_neg (fun hxy => h hxy.1)

theorem offer_of_le {x y : ρ} (h : rank y ≤ rank x) : offer key rank x y = x :=
  if_neg (fun hxy => absurd hxy.2 (not_lt.mpr h))

theorem offer_of_lt {x y : ρ} (hkey : key x = key y) (h : rank x < rank y) :
    offer key rank x y = y := if_pos ⟨hkey, h⟩

@[simp] theorem offerAll_nil (x : ρ) : offerAll key rank x [] = x := rfl

@[simp] theorem offerAll_cons (x y : ρ) (ys : List ρ) :
    offerAll key rank x (y :: ys) = offerAll key rank (offer key rank x y) ys := rfl

theorem offerAll_append (x : ρ) (ys zs : List ρ) :
    offerAll key rank x (ys ++ zs) = offerAll key rank (offerAll key rank x ys) zs :=
  List.foldl_append ..

variable (key rank) in
theorem key_offerAll (x : ρ) (ys : List ρ) : key (offerAll key rank x ys) = key x := by
  induction ys generalizing x with
  | nil => rfl
  | cons y ys ih => rw [offerAll_cons, ih, key_offer key rank]

variable (key rank) in
theorem map_key_offerAll (xs ys : List ρ) :
    (xs.map (fun x => offerAll key rank x ys)).map key = xs.map key := by
  rw [List.map_map]
  exact List.map_congr_left (fun x _ => key_offerAll key rank x ys)

/-- Offers that do not outrank a record leave it. -/
theorem offerAll_eq_self {x : ρ} {ys : List ρ}
    (h : ∀ y ∈ ys, key y = key x → rank y ≤ rank x) : offerAll key rank x ys = x := by
  induction ys with
  | nil => rfl
  | cons y ys ih =>
    have hy : offer key rank x y = x := by
      by_cases hkey : key x = key y
      · exact offer_of_le (h y (by simp) hkey.symm)
      · exact offer_of_ne hkey
    rw [offerAll_cons, hy]
    exact ih (fun z hz => h z (by simp [hz]))

theorem offerAll_of_not_mem {x : ρ} {ys : List ρ} (h : key x ∉ ys.map key) :
    offerAll key rank x ys = x := by
  apply offerAll_eq_self
  intro y hy hkey
  exact absurd (List.mem_map.mpr ⟨y, hy, hkey⟩) h

/-- Only the offers under the record's own key count. -/
theorem offerAll_filter {x : ρ} {ys : List ρ} (p : ρ → Bool)
    (hp : ∀ y ∈ ys, key y = key x → p y = true) :
    offerAll key rank x (ys.filter p) = offerAll key rank x ys := by
  induction ys generalizing x with
  | nil => rfl
  | cons y ys ih =>
    have hRest : ∀ z ∈ ys, key z = key x → p z = true := fun z hz => hp z (by simp [hz])
    by_cases hy : p y = true
    · rw [List.filter_cons_of_pos hy, offerAll_cons, offerAll_cons]
      refine ih (fun z hz hzx => hRest z hz ?_)
      rw [hzx, key_offer key rank]
    · have hkey : key x ≠ key y := fun h => hy (hp y (by simp) h.symm)
      rw [List.filter_cons_of_neg hy, offerAll_cons, offer_of_ne hkey]
      exact ih hRest

/-- A list without repeated keys makes at most one offer to a record. -/
theorem offerAll_of_mem {x y : ρ} {ys : List ρ} (hys : (ys.map key).Nodup) (hy : y ∈ ys)
    (hkey : key y = key x) : offerAll key rank x ys = offer key rank x y := by
  obtain ⟨before, after, rfl, hbefore, hafter⟩ := alone_of_nodup hys hy
  have h1 : key x ∉ before.map key := hkey ▸ hbefore
  have h2 : key (offer key rank x y) ∉ after.map key := by
    rw [key_offer key rank, ← hkey]
    exact hafter
  rw [offerAll_append, offerAll_of_not_mem h1, offerAll_cons, offerAll_of_not_mem h2]

theorem rank_le_offer (x y : ρ) : rank x ≤ rank (offer key rank x y) := by
  unfold offer
  split
  · rename_i h
    exact h.2.le
  · exact le_rfl

theorem rank_le_offerAll (x : ρ) (ys : List ρ) : rank x ≤ rank (offerAll key rank x ys) := by
  induction ys generalizing x with
  | nil => exact le_rfl
  | cons y ys ih => exact (rank_le_offer x y).trans (ih _)

theorem rank_offerAll_of_mem {x y : ρ} {ys : List ρ} (hy : y ∈ ys) (hkey : key y = key x) :
    rank y ≤ rank (offerAll key rank x ys) := by
  induction ys generalizing x with
  | nil => simp at hy
  | cons z ys ih =>
    rcases List.mem_cons.mp hy with rfl | hy
    · refine le_trans ?_ (rank_le_offerAll _ ys)
      by_cases h : rank x < rank y
      · rw [offer_of_lt hkey.symm h]
      · rw [offer_of_le (not_lt.mp h)]
        exact not_lt.mp h
    · exact ih hy (hkey.trans (key_offer key rank x z).symm)

variable (key rank) in
theorem offerAll_mem (x : ρ) (ys : List ρ) : offerAll key rank x ys ∈ x :: ys := by
  induction ys generalizing x with
  | nil => simp
  | cons y ys ih =>
    rw [offerAll_cons]
    rcases List.mem_cons.mp (ih (offer key rank x y)) with h | h
    · rw [h]
      unfold offer
      split <;> simp
    · simp [h]

theorem offer_assoc {x y z : ρ} (hkey : key x = key y) :
    offer key rank (offer key rank x y) z = offer key rank x (offer key rank y z) := by
  unfold offer
  split_ifs <;> grind

/-- The record offered may take its own offers first. -/
theorem offer_offerAll {x y : ρ} (hkey : key x = key y) (zs : List ρ) :
    offer key rank x (offerAll key rank y zs) = offerAll key rank (offer key rank x y) zs := by
  induction zs generalizing y with
  | nil => rfl
  | cons z zs ih =>
    rw [offerAll_cons, offerAll_cons, ih (hkey.trans (key_offer key rank y z).symm),
      offer_assoc hkey]

/-- All offers together are one offer, of the first record of maximal rank. -/
theorem offerAll_eq_firstMax (x : ρ) (ys : List ρ) : offerAll key rank x ys =
    (firstMax key rank (key x) ys).elim x (offer key rank x) := by
  induction ys using List.reverseRecOn with
  | nil => rfl
  | append_singleton ys y ih =>
    have hstep : offerAll key rank x (ys ++ [y]) = offer key rank (offerAll key rank x ys) y := by
      rw [offerAll_append, offerAll_cons, offerAll_nil]
    rw [hstep, ih]
    unfold firstMax
    by_cases hkey : key y = key x
    · rw [List.filter_append, List.filter_singleton, decide_eq_true hkey, cond_true,
        List.argmax_concat]
      cases hmax : (ys.filter (fun y => key y = key x)).argmax rank with
      | none => rfl
      | some z =>
        have hz : key z = key x := by
          simpa using (List.mem_filter.mp (List.argmax_mem hmax)).2
        show offer key rank (offer key rank x z) y =
          Option.elim (if rank z < rank y then _ else _) _ _
        rw [offer_assoc hz.symm]
        by_cases hlt : rank z < rank y
        · rw [if_pos hlt, offer_of_lt (hz.trans hkey.symm) hlt]
          rfl
        · rw [if_neg hlt, offer_of_le (not_lt.mp hlt)]
          rfl
    · rw [List.filter_append, List.filter_singleton, decide_eq_false hkey, cond_false,
        List.append_nil]
      apply offer_of_ne
      intro heq
      cases hmax : (ys.filter (fun y => key y = key x)).argmax rank with
      | none =>
        rw [hmax] at heq
        exact hkey heq.symm
      | some z =>
        rw [hmax] at heq
        exact hkey (heq.symm.trans (key_offer key rank x z))

end Offer

/-! ## Keys of a merge -/

section Keys

variable {key rank}

theorem mem_fresh {xs ys : List ρ} {y : ρ} :
    y ∈ fresh key xs ys ↔ y ∈ ys ∧ key y ∉ xs.map key := by
  simp [fresh]

variable (key rank) in
theorem keys_merge (xs ys : List ρ) :
    (merge key rank xs ys).map key = xs.map key ++ (fresh key xs ys).map key := by
  rw [merge, List.map_append, map_key_offerAll key rank]

variable (key rank) in
theorem mem_keys_merge (xs ys : List ρ) (k : κ) :
    k ∈ (merge key rank xs ys).map key ↔ k ∈ xs.map key ∨ k ∈ ys.map key := by
  rw [keys_merge key rank, List.mem_append]
  constructor
  · rintro (h | h)
    · exact Or.inl h
    · obtain ⟨y, hy, rfl⟩ := List.mem_map.mp h
      exact Or.inr (List.mem_map.mpr ⟨y, (mem_fresh.mp hy).1, rfl⟩)
  · rintro (h | h)
    · exact Or.inl h
    · by_cases hxs : k ∈ xs.map key
      · exact Or.inl hxs
      · obtain ⟨y, hy, rfl⟩ := List.mem_map.mp h
        exact Or.inr (List.mem_map.mpr ⟨y, mem_fresh.mpr ⟨hy, hxs⟩, rfl⟩)

/-- The merge repeats a key exactly when one of the two parts does. -/
theorem nodup_keys_merge {xs ys : List ρ} : ((merge key rank xs ys).map key).Nodup ↔
    (xs.map key).Nodup ∧ ((fresh key xs ys).map key).Nodup := by
  rw [keys_merge key rank, List.nodup_append]
  constructor
  · rintro ⟨h1, h2, -⟩
    exact ⟨h1, h2⟩
  · rintro ⟨h1, h2⟩
    refine ⟨h1, h2, ?_⟩
    intro k hk l hl hkl
    obtain ⟨y, hy, rfl⟩ := List.mem_map.mp hl
    exact (mem_fresh.mp hy).2 (hkl ▸ hk)

theorem nodup_keys_fresh {xs ys : List ρ} (hys : (ys.map key).Nodup) :
    ((fresh key xs ys).map key).Nodup :=
  hys.sublist (List.filter_sublist.map key)

/-- A new key that is new once occurs nowhere else. -/
theorem alone_of_nodup_fresh {xs ys : List ρ} (hys : ((fresh key xs ys).map key).Nodup) {z : ρ}
    (hz : z ∈ fresh key xs ys) : ∃ before after, ys = before ++ z :: after ∧
      key z ∉ before.map key ∧ key z ∉ after.map key := by
  obtain ⟨hmem, hnew⟩ := mem_fresh.mp hz
  obtain ⟨before, after, rfl⟩ := List.append_of_mem hmem
  have hsplit : fresh key xs (before ++ z :: after) =
      fresh key xs before ++ z :: fresh key xs after := by
    unfold fresh
    rw [List.filter_append, List.filter_cons_of_pos (by simpa using hnew)]
  have hkept : ∀ ws : List ρ, key z ∈ ws.map key → key z ∈ (fresh key xs ws).map key := by
    intro ws hws
    obtain ⟨w, hw, hkey⟩ := List.mem_map.mp hws
    exact List.mem_map.mpr ⟨w, mem_fresh.mpr ⟨hw, hkey ▸ hnew⟩, hkey⟩
  rw [hsplit] at hys
  simp only [List.map_append, List.map_cons, List.nodup_append, List.nodup_cons] at hys
  obtain ⟨-, ⟨hAfter, -⟩, hBefore⟩ := hys
  exact ⟨before, after, rfl, fun hws => hBefore _ (hkept before hws) _ (by simp) rfl,
    fun hws => hAfter (hkept after hws)⟩

theorem fresh_congr {xs xs' ys : List ρ} (h : xs.map key = xs'.map key) :
    fresh key xs ys = fresh key xs' ys := by
  unfold fresh
  rw [h]

theorem mem_of_mem_merge {xs ys : List ρ} {z : ρ} (hz : z ∈ merge key rank xs ys) :
    z ∈ xs ∨ z ∈ ys := by
  rcases List.mem_append.mp hz with hz | hz
  · obtain ⟨x, hx, rfl⟩ := List.mem_map.mp hz
    rcases List.mem_cons.mp (offerAll_mem key rank x ys) with h | h
    · rw [h]
      exact Or.inl hx
    · exact Or.inr h
  · exact Or.inr (mem_fresh.mp hz).1

theorem merge_ne_nil {xs ys : List ρ} (h : xs ≠ []) : merge key rank xs ys ≠ [] := by
  simp [merge, h]

end Keys

/-! ## Looking a key up -/

section Lookup

/-- The first record under the key `k`. -/
def lookup (k : κ) (xs : List ρ) : Option ρ := xs.find? (fun x => key x = k)

variable {key rank}

theorem lookup_eq_none {k : κ} {xs : List ρ} : lookup key k xs = none ↔ k ∉ xs.map key := by
  simp [lookup]

theorem lookup_eq_some {k : κ} {xs : List ρ} (hxs : (xs.map key).Nodup) {x : ρ} :
    lookup key k xs = some x ↔ x ∈ xs ∧ key x = k := by
  constructor
  · intro h
    exact ⟨List.mem_of_find?_eq_some h, by simpa using List.find?_some h⟩
  · rintro ⟨hx, rfl⟩
    cases h : lookup key (key x) xs with
    | none => exact absurd (List.mem_map.mpr ⟨x, hx, rfl⟩) (lookup_eq_none.mp h)
    | some y =>
      have hy := List.find?_some h
      rw [eq_of_key_eq hxs (List.mem_of_find?_eq_some h) hx (by simpa using hy)]

/-- A key of `xs` keeps its place and its offers, a new one comes from `ys`. -/
theorem lookup_merge {xs ys : List ρ} (hxs : (xs.map key).Nodup) (hys : (ys.map key).Nodup)
    (k : κ) : lookup key k (merge key rank xs ys) =
      match lookup key k xs, lookup key k ys with
      | some x, some y => some (offer key rank x y)
      | some x, none => some x
      | none, r => r := by
  have hmerge : ((merge key rank xs ys).map key).Nodup :=
    nodup_keys_merge.mpr ⟨hxs, nodup_keys_fresh hys⟩
  cases hx : lookup key k xs with
  | some x =>
    obtain ⟨hmem, rfl⟩ := (lookup_eq_some hxs).mp hx
    have hoffered : lookup key (key x) (merge key rank xs ys) =
        some (offerAll key rank x ys) := by
      refine (lookup_eq_some hmerge).mpr ⟨List.mem_append_left _ ?_, key_offerAll key rank x ys⟩
      exact List.mem_map.mpr ⟨x, hmem, rfl⟩
    rw [hoffered]
    cases hy : lookup key (key x) ys with
    | some y =>
      obtain ⟨hymem, hkey⟩ := (lookup_eq_some hys).mp hy
      rw [offerAll_of_mem hys hymem hkey]
    | none => rw [offerAll_of_not_mem (lookup_eq_none.mp hy)]
  | none =>
    have hnew := lookup_eq_none.mp hx
    cases hy : lookup key k ys with
    | some y =>
      obtain ⟨hymem, rfl⟩ := (lookup_eq_some hys).mp hy
      refine (lookup_eq_some hmerge).mpr ⟨List.mem_append_right _ ?_, rfl⟩
      exact mem_fresh.mpr ⟨hymem, hnew⟩
    | none =>
      rw [lookup_eq_none, mem_keys_merge key rank]
      exact fun h => h.elim hnew (lookup_eq_none.mp hy)

end Lookup

/-! ## Laws -/

section Laws

variable {key rank}

/-- A record of `xs` that meets `ys` and then `zs` meets the merge of the two. -/
theorem offerAll_merge {ys : List ρ} (hys : (ys.map key).Nodup) (x : ρ) (zs : List ρ) :
    offerAll key rank x (merge key rank ys zs) =
      offerAll key rank (offerAll key rank x ys) zs := by
  rw [merge, offerAll_append]
  by_cases hmem : key x ∈ ys.map key
  · obtain ⟨y, hy, hkey⟩ := List.mem_map.mp hmem
    have hmap : offerAll key rank x (ys.map (fun y => offerAll key rank y zs)) =
        offer key rank x (offerAll key rank y zs) :=
      offerAll_of_mem (by rw [map_key_offerAll key rank]; exact hys)
        (List.mem_map.mpr ⟨y, hy, rfl⟩) ((key_offerAll key rank y zs).trans hkey)
    have hfresh : key x ∉ (fresh key ys zs).map key := by
      intro h
      obtain ⟨z, hz, hzx⟩ := List.mem_map.mp h
      exact (mem_fresh.mp hz).2 (hzx ▸ hmem)
    have hfresh' : key (offerAll key rank (offer key rank x y) zs) ∉
        (fresh key ys zs).map key := by
      rw [key_offerAll key rank, key_offer key rank]
      exact hfresh
    rw [hmap, offer_offerAll hkey.symm, offerAll_of_mem hys hy hkey, offerAll_of_not_mem hfresh']
  · have hmap : key x ∉ (ys.map (fun y => offerAll key rank y zs)).map key := by
      rw [map_key_offerAll key rank]
      exact hmem
    rw [offerAll_of_not_mem hmap, offerAll_of_not_mem hmem, fresh, offerAll_filter]
    intro z _ hzx
    simpa [hzx] using hmem

theorem merge_assoc {ys : List ρ} (hys : (ys.map key).Nodup) (xs zs : List ρ) :
    merge key rank (merge key rank xs ys) zs = merge key rank xs (merge key rank ys zs) := by
  have hmapped : (merge key rank xs ys).map (fun x => offerAll key rank x zs) =
      xs.map (fun x => offerAll key rank x (merge key rank ys zs)) ++
        (fresh key xs ys).map (fun y => offerAll key rank y zs) := by
    rw [merge, List.map_append, List.map_map]
    congr 1
    apply List.map_congr_left
    intro x _
    exact (offerAll_merge hys x zs).symm
  have hold : fresh key xs (ys.map (fun y => offerAll key rank y zs)) =
      (fresh key xs ys).map (fun y => offerAll key rank y zs) := by
    unfold fresh
    rw [List.filter_map]
    congr 2
    funext y
    simp only [Function.comp_apply, key_offerAll key rank]
  have hnew : fresh key (merge key rank xs ys) zs = fresh key xs (fresh key ys zs) := by
    unfold fresh
    rw [List.filter_filter]
    congr 1
    funext z
    have := mem_keys_merge key rank xs ys (key z)
    by_cases h1 : key z ∈ xs.map key <;> by_cases h2 : key z ∈ ys.map key <;> simp_all
  have hsplit : fresh key xs (merge key rank ys zs) =
      fresh key xs (ys.map (fun y => offerAll key rank y zs)) ++
        fresh key xs (fresh key ys zs) := List.filter_append ..
  calc merge key rank (merge key rank xs ys) zs
      = (merge key rank xs ys).map (fun x => offerAll key rank x zs) ++
          fresh key (merge key rank xs ys) zs := rfl
    _ = xs.map (fun x => offerAll key rank x (merge key rank ys zs)) ++
          fresh key xs (merge key rank ys zs) := by
        rw [hmapped, hnew, hsplit, hold, List.append_assoc]
    _ = merge key rank xs (merge key rank ys zs) := rfl

/-- What was merged is known from then on. -/
theorem known_merge {ys : List ρ} (hys : (ys.map key).Nodup) (xs : List ρ) {z : ρ} (hz : z ∈ ys) :
    Known key rank (merge key rank xs ys) z := by
  refine ⟨(mem_keys_merge key rank xs ys _).mpr (Or.inr (List.mem_map.mpr ⟨z, hz, rfl⟩)), ?_⟩
  intro x hx hkey
  rcases List.mem_append.mp hx with hx | hx
  · obtain ⟨x', -, rfl⟩ := List.mem_map.mp hx
    exact rank_offerAll_of_mem hz (hkey.trans (key_offerAll key rank x' ys))
  · rw [eq_of_key_eq hys hz (mem_fresh.mp hx).1 hkey]

end Laws

/-! ## Runs of merges -/

section Runs

variable {key rank}

theorem IsFirstMax.offerAll {l : List ρ} {z : ρ} (h : IsFirstMax key rank l z) (ys : List ρ) :
    IsFirstMax key rank (l ++ ys) (offerAll key rank z ys) := by
  induction ys generalizing l z with
  | nil => simpa using h
  | cons y ys ih =>
    rw [offerAll_cons, List.append_cons]
    apply ih
    by_cases hxy : key z = key y ∧ rank z < rank y
    · rw [offer_of_lt hxy.1 hxy.2]
      refine ⟨l, [], rfl, ?_, by simp⟩
      intro x hx hkey
      exact (h.le hx (hkey.trans hxy.1.symm)).trans_lt hxy.2
    · obtain ⟨before, after, rfl, hbefore, hafter⟩ := h
      rw [offer, if_neg hxy]
      refine ⟨before, after ++ [y], by simp, hbefore, ?_⟩
      intro x hx hkey
      rcases List.mem_append.mp hx with hx | hx
      · exact hafter x hx hkey
      · obtain rfl := List.mem_singleton.mp hx
        exact not_lt.mp (fun hlt => hxy ⟨hkey.symm, hlt⟩)

theorem Settled.merge {l s : List ρ} (h : Settled key rank l s) {ys : List ρ}
    (hys : ((fresh key s ys).map key).Nodup) :
    Settled key rank (l ++ ys) (merge key rank s ys) where
  nodup := nodup_keys_merge.mpr ⟨h.nodup, hys⟩
  keys := by
    intro k
    rw [mem_keys_merge key rank, h.keys k, List.map_append, List.mem_append]
  firstMax := by
    intro z hz
    rcases List.mem_append.mp hz with hz | hz
    · obtain ⟨x, hx, rfl⟩ := List.mem_map.mp hz
      exact (h.firstMax x hx).offerAll ys
    · have hnew : key z ∉ l.map key := fun hmem => (mem_fresh.mp hz).2 ((h.keys _).mpr hmem)
      obtain ⟨before, after, rfl, hbefore, hafter⟩ := alone_of_nodup_fresh hys hz
      exact isFirstMax_of_alone hnew hbefore hafter

theorem newOnce_iff_fresh {known : List κ} {xs ys : List ρ}
    (hknown : ∀ k, k ∈ xs.map key ↔ k ∈ known) :
    NewOnce key known ys ↔ ((fresh key xs ys).map key).Nodup := by
  have hkeys : (fresh key xs ys).map key = (ys.map key).filter (· ∉ known) := by
    simp only [fresh, hknown, List.filter_map]
    rfl
  rw [hkeys, NewOnce]

theorem newOnce_of_nodup {ys : List ρ} (hys : (ys.map key).Nodup) (known : List κ) :
    NewOnce key known ys := hys.sublist List.filter_sublist

theorem newOnceAll_of_nodup {yss : List (List ρ)} (hyss : ∀ ys ∈ yss, (ys.map key).Nodup)
    (known : List κ) : NewOnceAll key known yss := by
  induction yss generalizing known with
  | nil => trivial
  | cons ys yss ih =>
    exact ⟨newOnce_of_nodup (hyss ys (by simp)) known, ih (fun zs hzs => hyss zs (by simp [hzs])) _⟩

/-- A key that is in the list stays where it is. -/
theorem keys_isPrefix_mergeAll (xs : List ρ) (yss : List (List ρ)) :
    xs.map key <+: (mergeAll key rank xs yss).map key := by
  induction yss generalizing xs with
  | nil => exact List.prefix_rfl
  | cons ys yss ih =>
    have hstep : xs.map key <+: (merge key rank xs ys).map key := by
      rw [keys_merge key rank]
      exact List.prefix_append _ _
    exact hstep.trans (ih (merge key rank xs ys))

/-- What a run of merges leaves, by induction on the run. -/
theorem Settled.mergeAll {l s : List ρ} (h : Settled key rank l s) {yss : List (List ρ)}
    (hyss : NewOnceAll key (l.map key) yss) :
    Settled key rank (l ++ yss.flatten) (mergeAll key rank s yss) := by
  induction yss generalizing l s with
  | nil => simpa [Foundation.mergeAll] using h
  | cons ys yss ih =>
    obtain ⟨hnew, hrest⟩ := hyss
    rw [← List.map_append] at hrest
    have hstep := h.merge ((newOnce_iff_fresh h.keys).mp hnew)
    rw [List.flatten_cons, ← List.append_assoc]
    exact ih hstep hrest

/-- A run that ends without repeated keys met none that was new twice. -/
theorem newOnceAll_of_nodup_mergeAll {known : List κ} {xs : List ρ} {yss : List (List ρ)}
    (hknown : ∀ k, k ∈ xs.map key ↔ k ∈ known)
    (hrun : ((mergeAll key rank xs yss).map key).Nodup) : NewOnceAll key known yss := by
  induction yss generalizing known xs with
  | nil => trivial
  | cons ys yss ih =>
    have hstep : ((merge key rank xs ys).map key).Nodup :=
      hrun.sublist (keys_isPrefix_mergeAll (merge key rank xs ys) yss).sublist
    refine ⟨(newOnce_iff_fresh hknown).mpr (nodup_keys_merge.mp hstep).2, ih ?_ hrun⟩
    intro k
    rw [mem_keys_merge key rank, List.mem_append, hknown]

/-- Runs that received the same records leave the same rank under every key. -/
theorem Settled.lookup_rank {l l' s s' : List ρ} (h : Settled key rank l s)
    (h' : Settled key rank l' s') (hmem : ∀ x, x ∈ l ↔ x ∈ l') (k : κ) :
    (lookup key k s).map rank = (lookup key k s').map rank := by
  have hkeys : k ∈ s.map key ↔ k ∈ s'.map key := by
    rw [h.keys, h'.keys]
    simp only [List.mem_map, hmem]
  cases hz : lookup key k s with
  | none =>
    have hnew : k ∉ s'.map key := fun hk => lookup_eq_none.mp hz (hkeys.mpr hk)
    rw [lookup_eq_none.mpr hnew]
  | some z =>
    obtain ⟨hzs, rfl⟩ := (lookup_eq_some h.nodup).mp hz
    obtain ⟨z', hzs', hkey⟩ := List.mem_map.mp (hkeys.mp (List.mem_map.mpr ⟨z, hzs, rfl⟩))
    rw [(lookup_eq_some h'.nodup).mpr ⟨hzs', hkey⟩, Option.map_some, Option.map_some,
      h.rank_eq h' hmem hzs hzs' hkey.symm]

end Runs

/-! ## The merge as a double loop -/

section Loop

/-- One record of the second list: what it does to the first list and to the list of
records under new keys. -/
def mergeStep (s : List ρ × List ρ) (y : ρ) : List ρ × List ρ :=
  (s.1.map (fun x => offer key rank x y), if key y ∈ s.1.map key then s.2 else s.2 ++ [y])

variable {key rank}

theorem foldl_mergeStep (xs ys r : List ρ) : ys.foldl (mergeStep key rank) (xs, r) =
    (xs.map (fun x => offerAll key rank x ys), r ++ fresh key xs ys) := by
  induction ys generalizing xs r with
  | nil => simp [fresh]
  | cons y ys ih =>
    have hkeys : (xs.map (fun x => offer key rank x y)).map key = xs.map key := by
      rw [List.map_map]
      exact List.map_congr_left (fun x _ => key_offer key rank x y)
    rw [List.foldl_cons, mergeStep, ih, fresh_congr hkeys, List.map_map]
    refine Prod.ext rfl ?_
    by_cases hy : key y ∈ xs.map key
    · have hcut : fresh key xs (y :: ys) = fresh key xs ys := by
        unfold fresh
        exact List.filter_cons_of_neg (by simpa using hy)
      simp only [if_pos hy, hcut]
    · have hkeep : fresh key xs (y :: ys) = y :: fresh key xs ys := by
        unfold fresh
        exact List.filter_cons_of_pos (by simpa using hy)
      simp only [if_neg hy, hkeep, List.append_assoc, List.singleton_append]

end Loop

/-! ## Merging through a relation -/

section Relation

variable {ρ' : Type} {key rank} {key' : ρ' → κ} {rank' : ρ' → ω} {R : ρ → ρ' → Prop}

theorem rel_offerAll (hR : ∀ x x', R x x' → key x = key' x' ∧ rank x = rank' x')
    {ys : List ρ} {ys' : List ρ'} (hys : List.Forall₂ R ys ys') {x : ρ} {x' : ρ'} (hx : R x x') :
    R (offerAll key rank x ys) (offerAll key' rank' x' ys') := by
  induction hys generalizing x x' with
  | nil => exact hx
  | @cons y y' ys ys' hy _ ih =>
    apply ih
    unfold offer
    rw [(hR x x' hx).1, (hR x x' hx).2, (hR y y' hy).1, (hR y y' hy).2]
    split
    · exact hy
    · exact hx

/-- The merge looks at nothing but keys and ranks. -/
theorem rel_merge (hR : ∀ x x', R x x' → key x = key' x' ∧ rank x = rank' x')
    {xs ys : List ρ} {xs' ys' : List ρ'} (hxs : List.Forall₂ R xs xs')
    (hys : List.Forall₂ R ys ys') :
    List.Forall₂ R (merge key rank xs ys) (merge key' rank' xs' ys') := by
  refine List.rel_append ?_ ?_
  · rw [List.forall₂_map_left_iff, List.forall₂_map_right_iff]
    exact hxs.imp (fun x x' hx => rel_offerAll hR hys hx)
  · unfold fresh
    rw [rel_keys (fun x x' hx => (hR x x' hx).1) hxs]
    refine List.rel_filter (fun y y' hy => ?_) hys
    simp [(hR y y' hy).1]

end Relation

end VpnP2p.Foundation
