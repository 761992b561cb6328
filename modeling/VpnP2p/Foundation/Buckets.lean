import Mathlib.Data.Finmap

/-!
# Bindings spread over buckets

A list of bindings in which no two keys are equivalent is a finite map on the classes of
keys. A hash table spreads such a list over buckets, each key into the bucket its class
belongs to, so that a search in one bucket decides for the whole table.
-/

namespace VpnP2p.Foundation

section Apart

variable {K V : Type} [s : Setoid K] {xs ys : List (K × V)} {b : K × V}

/-- No two bindings have equivalent keys. -/
def Apart (xs : List (K × V)) : Prop := xs.Pairwise (fun b c => ¬ b.1 ≈ c.1)

theorem apart_cons : Apart (b :: xs) ↔ (∀ c ∈ xs, ¬ b.1 ≈ c.1) ∧ Apart xs := List.pairwise_cons

theorem apart_append : Apart (xs ++ ys) ↔
    Apart xs ∧ Apart ys ∧ ∀ b ∈ xs, ∀ c ∈ ys, ¬ b.1 ≈ c.1 := List.pairwise_append

theorem Apart.perm (h : Apart xs) (hp : xs.Perm ys) : Apart ys :=
  hp.pairwise h (fun hbc hcb => hbc (Setoid.symm hcb))

end Apart

section Flat

variable {K V : Type} [s : Setoid K] [DecidableRel (α := K) (· ≈ ·)]

/-- The finite map of a list of bindings. -/
def mapOf (xs : List (K × V)) : Finmap (fun _ : Quotient s => V) :=
  (xs.map (fun b => (⟨⟦b.1⟧, b.2⟩ : Sigma (fun _ : Quotient s => V)))).toFinmap

variable {xs ys : List (K × V)} {b : K × V} {k : K} {v : V}

@[simp] theorem mapOf_cons (b : K × V) (xs : List (K × V)) :
    mapOf (b :: xs) = (mapOf xs).insert ⟦b.1⟧ b.2 := Finmap.toFinmap_cons _ _ _

theorem lookup_mapOf_eq_none (h : ∀ b ∈ xs, ¬ k ≈ b.1) : (mapOf xs).lookup ⟦k⟧ = none := by
  induction xs with
  | nil => rfl
  | cons b xs ih =>
    obtain ⟨hb, hxs⟩ := List.forall_mem_cons.mp h
    have hne : (⟦k⟧ : Quotient s) ≠ ⟦b.1⟧ := fun heq => hb (Quotient.exact heq)
    rw [mapOf_cons, Finmap.lookup_insert_of_ne _ hne]
    exact ih hxs

theorem mapOf_perm (h : Apart xs) (hp : xs.Perm ys) : mapOf xs = mapOf ys := by
  induction hp with
  | nil => rfl
  | cons b _ ih => rw [mapOf_cons, mapOf_cons, ih (apart_cons.mp h).2]
  | swap b c xs =>
    have hbc : (⟦b.1⟧ : Quotient s) ≠ ⟦c.1⟧ := by
      intro heq
      exact (apart_cons.mp h).1 b (by simp) (Setoid.symm (Quotient.exact heq))
    simp only [mapOf_cons]
    exact Finmap.insert_insert_of_ne _ hbc
  | trans hp₁ _ ih₁ ih₂ => rw [ih₁ h, ih₂ (h.perm hp₁)]

theorem card_insert {q : Quotient s} {f : Finmap (fun _ : Quotient s => V)} (h : q ∉ f) (v : V) :
    (f.insert q v).keys.card = f.keys.card + 1 := by
  have hkeys : (f.insert q v).keys = insert q f.keys := by
    ext r
    rw [Finmap.mem_keys, Finmap.mem_insert, Finset.mem_insert, Finmap.mem_keys]
  rw [hkeys, Finset.card_insert_of_notMem (by rwa [Finmap.mem_keys])]

/-- Each binding binds a class of its own. -/
theorem card_mapOf (h : Apart xs) : (mapOf xs).keys.card = xs.length := by
  induction xs with
  | nil => rfl
  | cons b xs ih =>
    obtain ⟨hb, hxs⟩ := apart_cons.mp h
    have hnot : (⟦b.1⟧ : Quotient s) ∉ mapOf xs :=
      Finmap.lookup_eq_none.mp (lookup_mapOf_eq_none hb)
    rw [mapOf_cons, card_insert hnot, ih hxs, List.length_cons]

theorem mem_mapOf : (⟦k⟧ : Quotient s) ∈ mapOf xs ↔ ∃ b ∈ xs, k ≈ b.1 := by
  induction xs with
  | nil => exact ⟨fun h => absurd h Finmap.notMem_empty, by simp⟩
  | cons b xs ih =>
    rw [mapOf_cons, Finmap.mem_insert, ih, List.exists_mem_cons_iff]
    exact or_congr ⟨Quotient.exact, fun h => Quotient.sound h⟩ Iff.rfl

theorem mapOf_eq_empty : mapOf xs = ∅ ↔ xs = [] := by
  cases xs with
  | nil => exact iff_of_true rfl rfl
  | cons b xs =>
    refine iff_of_false (fun h => ?_) (List.cons_ne_nil _ _)
    have hmem : (⟦b.1⟧ : Quotient s) ∈ mapOf (b :: xs) :=
      mem_mapOf.mpr ⟨b, List.mem_cons_self, Setoid.refl _⟩
    rw [h] at hmem
    exact Finmap.notMem_empty hmem

theorem erase_of_lookup_none {q : Quotient s} {f : Finmap (fun _ : Quotient s => V)}
    (h : f.lookup q = none) : f.erase q = f := by
  apply Finmap.ext_lookup
  intro r
  by_cases hr : r = q
  · rw [hr, Finmap.lookup_erase, h]
  · rw [Finmap.lookup_erase_ne hr]

theorem erase_insert {q : Quotient s} {f : Finmap (fun _ : Quotient s => V)}
    (h : f.lookup q = none) (v : V) : (f.insert q v).erase q = f := by
  apply Finmap.ext_lookup
  intro r
  by_cases hr : r = q
  · rw [hr, Finmap.lookup_erase, h]
  · rw [Finmap.lookup_erase_ne hr, Finmap.lookup_insert_of_ne _ hr]

end Flat

/-! ## Buckets -/

/-- What is in the buckets when one of them is replaced. -/
theorem mem_flatten_set {α : Type} {ass : List (List α)} {i : Nat} {a : α}
    {as as' : List α}
    (hnodup : ass.flatten.Nodup) (has : ass[i]? = some as) :
    a ∈ (ass.set i as').flatten ↔ a ∈ as' ∨ (a ∈ ass.flatten ∧ a ∉ as) := by
  obtain ⟨hlt, rfl⟩ := List.getElem?_eq_some_iff.mp has
  have hsplit : ass = ass.take i ++ ass[i] :: ass.drop (i + 1) := by
    rw [← List.drop_eq_getElem_cons hlt, List.take_append_drop]
  have hset : ass.set i as' = ass.take i ++ as' :: ass.drop (i + 1) := by
    rw [List.set_eq_take_append_cons_drop, if_pos hlt]
  have hflat : ass.flatten =
      (ass.take i).flatten ++ (ass[i] ++ (ass.drop (i + 1)).flatten) := by
    conv_lhs => rw [hsplit, List.flatten_append, List.flatten_cons]
  rw [hflat] at hnodup
  rw [hflat, hset, List.flatten_append, List.flatten_cons]
  simp only [List.mem_append]
  have hfront : ∀ a ∈ (ass.take i).flatten, a ∉ ass[i] := fun a ha hmem =>
    (List.nodup_append.mp hnodup).2.2 a ha a (List.mem_append_left _ hmem) rfl
  have hback : ∀ a ∈ (ass.drop (i + 1)).flatten, a ∉ ass[i] := fun a ha hmem =>
    (List.nodup_append.mp (List.nodup_append.mp hnodup).2.1).2.2 a hmem a ha rfl
  have h₁ := hfront a
  have h₂ := hback a
  tauto

section Buckets

variable {K V : Type} [s : Setoid K]

/-- Every binding lies in the bucket of its key, and no two keys are equivalent. -/
structure Spread (slot : K → Nat) (bs : List (List (K × V))) : Prop where
  placed : ∀ i xs, bs[i]? = some xs → ∀ b ∈ xs, slot b.1 = i
  apart : Apart bs.flatten

/-- The bindings of other classes are the same in both. -/
def OthersKept (k : K) (bs bs' : List (List (K × V))) : Prop :=
  ∀ b : K × V, ¬ k ≈ b.1 → (b ∈ bs'.flatten ↔ b ∈ bs.flatten)

theorem spread_replicate (slot : K → Nat) (n : Nat) :
    Spread slot (List.replicate n ([] : List (K × V))) where
  placed := by
    intro i xs hi b hb
    obtain rfl := List.eq_of_mem_replicate (List.mem_of_getElem? hi)
    simp at hb
  apart := by simp [Apart]

variable {slot : K → Nat} {bs : List (List (K × V))} {i : Nat} {xs ys pre post : List (K × V)}
  {k k' : K} {v old : V}

/-- A bucket and the rest, which stays when the bucket is replaced. -/
theorem Spread.split (h : Spread slot bs) (hi : bs[i]? = some xs) :
    ∃ rest : List (K × V), bs.flatten.Perm (xs ++ rest) ∧ (∀ b ∈ rest, slot b.1 ≠ i) ∧
      ∀ ys, (bs.set i ys).flatten.Perm (ys ++ rest) := by
  obtain ⟨hlt, hxs⟩ := List.getElem?_eq_some_iff.mp hi
  have hswap : ∀ zs, ((bs.take i).flatten ++ (zs ++ (bs.drop (i + 1)).flatten)).Perm
      (zs ++ ((bs.take i).flatten ++ (bs.drop (i + 1)).flatten)) := by
    intro zs
    rw [← List.append_assoc, ← List.append_assoc]
    exact List.perm_append_comm.append_right _
  refine ⟨(bs.take i).flatten ++ (bs.drop (i + 1)).flatten, ?_, ?_, fun ys => ?_⟩
  · have hbs : bs = bs.take i ++ xs :: bs.drop (i + 1) := by
      rw [← hxs, ← List.drop_eq_getElem_cons hlt, List.take_append_drop]
    have hflat : bs.flatten = (bs.take i).flatten ++ (xs ++ (bs.drop (i + 1)).flatten) := by
      conv_lhs => rw [hbs, List.flatten_append, List.flatten_cons]
    rw [hflat]
    exact hswap xs
  · intro b hb
    rcases List.mem_append.mp hb with hb | hb
    · obtain ⟨zs, hzs, hb⟩ := List.mem_flatten.mp hb
      obtain ⟨j, hj⟩ := List.mem_iff_getElem?.mp hzs
      obtain ⟨hji, hj⟩ : j < i ∧ bs[j]? = some zs := by
        rw [List.getElem?_take] at hj
        split at hj
        · exact ⟨‹_›, hj⟩
        · cases hj
      rw [h.placed j zs hj b hb]
      omega
    · obtain ⟨zs, hzs, hb⟩ := List.mem_flatten.mp hb
      obtain ⟨j, hj⟩ := List.mem_iff_getElem?.mp hzs
      rw [List.getElem?_drop] at hj
      rw [h.placed _ zs hj b hb]
      omega
  · rw [List.set_eq_take_append_cons_drop, if_pos hlt, List.flatten_append, List.flatten_cons]
    exact hswap ys

/-- A bucket may be replaced by bindings that belong there. -/
theorem Spread.replace (h : Spread slot bs) (hslot : ∀ x y : K, x ≈ y → slot x = slot y)
    (hi : bs[i]? = some xs) (hplaced : ∀ b ∈ ys, slot b.1 = i) (hys : Apart ys) :
    Spread slot (bs.set i ys) where
  placed := by
    intro j zs hj
    by_cases hji : i = j
    · subst hji
      rw [List.getElem?_set_self (List.getElem?_eq_some_iff.mp hi).1] at hj
      cases hj
      exact hplaced
    · rw [List.getElem?_set_ne hji] at hj
      exact h.placed j zs hj
  apart := by
    obtain ⟨rest, hperm, hrest, hset⟩ := h.split hi
    have hold := (apart_append.mp (h.apart.perm hperm)).2.1
    refine Apart.perm (apart_append.mpr ⟨hys, hold, fun b hb c hc heq => ?_⟩) (hset ys).symm
    exact hrest c hc ((hslot _ _ heq).symm.trans (hplaced b hb))

theorem Spread.others (h : Spread slot bs) (hi : bs[i]? = some xs)
    (hsame : ∀ b : K × V, ¬ k ≈ b.1 → (b ∈ ys ↔ b ∈ xs)) : OthersKept k bs (bs.set i ys) := by
  obtain ⟨rest, hperm, -, hset⟩ := h.split hi
  intro b hb
  rw [(hset ys).mem_iff, hperm.mem_iff, List.mem_append, List.mem_append, hsame b hb]

theorem Spread.length_set (h : Spread slot bs) (hi : bs[i]? = some xs) (ys : List (K × V)) :
    (bs.set i ys).flatten.length + xs.length = bs.flatten.length + ys.length := by
  obtain ⟨rest, hperm, -, hset⟩ := h.split hi
  rw [(hset ys).length_eq, hperm.length_eq, List.length_append, List.length_append]
  omega

/-- The bucket of a found binding, with another value or without the binding. -/
theorem Spread.of_found (h : Spread slot bs) (hslot : ∀ x y : K, x ≈ y → slot x = slot y)
    (hi : bs[i]? = some (pre ++ (k', old) :: post)) (v : V) :
    Spread slot (bs.set i (pre ++ (k', v) :: post)) ∧ Spread slot (bs.set i (pre ++ post)) := by
  obtain ⟨rest, hperm, -⟩ := h.split hi
  have hxs := (apart_append.mp (h.apart.perm hperm)).1
  have hplaced := h.placed _ _ hi
  obtain ⟨hpre, hpost, hcross⟩ := apart_append.mp hxs
  obtain ⟨hhead, hpost⟩ := apart_cons.mp hpost
  constructor
  · apply h.replace hslot hi
    · intro b hb
      rcases List.mem_append.mp hb with hb | hb
      · exact hplaced b (by simp [hb])
      · rcases List.mem_cons.mp hb with rfl | hb
        · exact hplaced (k', old) (by simp)
        · exact hplaced b (by simp [hb])
    · refine apart_append.mpr ⟨hpre, apart_cons.mpr ⟨hhead, hpost⟩, fun b hb c hc => ?_⟩
      rcases List.mem_cons.mp hc with rfl | hc
      · exact hcross b hb (k', old) (by simp)
      · exact hcross b hb c (by simp [hc])
  · apply h.replace hslot hi
    · intro b hb
      rcases List.mem_append.mp hb with hb | hb <;> exact hplaced b (by simp [hb])
    · exact apart_append.mpr ⟨hpre, hpost, fun b hb c hc => hcross b hb c (by simp [hc])⟩

variable [DecidableRel (α := K) (· ≈ ·)]

section Search

variable (h : Spread slot bs) (hslot : ∀ x y : K, x ≈ y → slot x = slot y)
  (hi : bs[slot k]? = some xs)

include h hslot hi

/-- A key that is not in its bucket is not bound. -/
theorem Spread.absent (hno : ∀ b ∈ xs, ¬ k ≈ b.1) : (mapOf bs.flatten).lookup ⟦k⟧ = none := by
  obtain ⟨rest, hperm, hrest, -⟩ := h.split hi
  rw [mapOf_perm h.apart hperm]
  apply lookup_mapOf_eq_none
  intro b hb heq
  rcases List.mem_append.mp hb with hb | hb
  · exact hno b hb heq
  · exact hrest b hb (hslot _ _ heq).symm

/-- A new binding in front of the bucket. -/
theorem Spread.bind_new (hno : ∀ b ∈ xs, ¬ k ≈ b.1) (v : V) :
    Spread slot (bs.set (slot k) ((k, v) :: xs)) ∧
      mapOf (bs.set (slot k) ((k, v) :: xs)).flatten = (mapOf bs.flatten).insert ⟦k⟧ v ∧
      OthersKept k bs (bs.set (slot k) ((k, v) :: xs)) := by
  obtain ⟨rest, hperm, -, hset⟩ := h.split hi
  have hxs := (apart_append.mp (h.apart.perm hperm)).1
  have hspread : Spread slot (bs.set (slot k) ((k, v) :: xs)) := by
    apply h.replace hslot hi _ (apart_cons.mpr ⟨hno, hxs⟩)
    intro b hb
    rcases List.mem_cons.mp hb with rfl | hb
    · rfl
    · exact h.placed _ xs hi b hb
  refine ⟨hspread, ?_, h.others hi (fun b hb => ?_)⟩
  · rw [mapOf_perm hspread.apart (hset _), mapOf_perm h.apart hperm]
    exact mapOf_cons _ _
  · constructor
    · intro hmem
      rcases List.mem_cons.mp hmem with rfl | hmem
      · exact absurd (Setoid.refl k) hb
      · exact hmem
    · exact List.mem_cons_of_mem _

end Search

section Found

variable (h : Spread slot bs) (hslot : ∀ x y : K, x ≈ y → slot x = slot y)
  (hi : bs[slot k]? = some (pre ++ (k', old) :: post)) (hk : k ≈ k')

include h hslot hi hk

/-- The map without the binding that was found, and what the map is with a value there. -/
theorem Spread.rest_of_found : ∃ f : Finmap (fun _ : Quotient s => V), f.lookup ⟦k⟧ = none ∧
    mapOf bs.flatten = f.insert ⟦k⟧ old ∧
    (∀ v, mapOf (bs.set (slot k) (pre ++ (k', v) :: post)).flatten = f.insert ⟦k⟧ v) ∧
    mapOf (bs.set (slot k) (pre ++ post)).flatten = f := by
  obtain ⟨rest, hperm, -, hset⟩ := h.split hi
  have hfront : ∀ v : V,
      (pre ++ (k', v) :: post ++ rest).Perm ((k', v) :: (pre ++ post ++ rest)) := by
    intro v
    rw [List.append_assoc, List.append_assoc]
    exact List.perm_middle
  have hclass : (⟦k'⟧ : Quotient s) = ⟦k⟧ := (Quotient.sound hk).symm
  have hbs := h.apart.perm (hperm.trans (hfront old))
  refine ⟨mapOf (pre ++ post ++ rest), ?_, ?_, fun v => ?_, ?_⟩
  · rw [← hclass]
    exact lookup_mapOf_eq_none (apart_cons.mp hbs).1
  · rw [mapOf_perm h.apart (hperm.trans (hfront old)), mapOf_cons, hclass]
  · have hspread := (h.of_found hslot hi v).1
    rw [mapOf_perm hspread.apart ((hset _).trans (hfront v)), mapOf_cons, hclass]
  · have hspread := (h.of_found hslot hi old).2
    exact mapOf_perm hspread.apart (hset _)

theorem Spread.present : (mapOf bs.flatten).lookup ⟦k⟧ = some old := by
  obtain ⟨f, -, hmap, -⟩ := h.rest_of_found hslot hi hk
  rw [hmap, Finmap.lookup_insert]

/-- A binding that was found gets another value. -/
theorem Spread.bind_old (v : V) :
    Spread slot (bs.set (slot k) (pre ++ (k', v) :: post)) ∧
      mapOf (bs.set (slot k) (pre ++ (k', v) :: post)).flatten = (mapOf bs.flatten).insert ⟦k⟧ v ∧
      OthersKept k bs (bs.set (slot k) (pre ++ (k', v) :: post)) := by
  obtain ⟨f, -, hmap, hset, -⟩ := h.rest_of_found hslot hi hk
  refine ⟨(h.of_found hslot hi v).1, ?_, h.others hi (fun b hb => ?_)⟩
  · rw [hset, hmap, Finmap.insert_insert]
  · have hne : ∀ w : V, b ≠ (k', w) := by
      rintro w rfl
      exact hb hk
    simp [hne]

/-- A binding that was found is taken out. -/
theorem Spread.unbind :
    Spread slot (bs.set (slot k) (pre ++ post)) ∧
      mapOf (bs.set (slot k) (pre ++ post)).flatten = (mapOf bs.flatten).erase ⟦k⟧ ∧
      OthersKept k bs (bs.set (slot k) (pre ++ post)) := by
  obtain ⟨f, hnone, hmap, -, hset⟩ := h.rest_of_found hslot hi hk
  refine ⟨(h.of_found hslot hi old).2, ?_, h.others hi (fun b hb => ?_)⟩
  · rw [hset, hmap, erase_insert hnone]
  · have hne : b ≠ (k', old) := by
      rintro rfl
      exact hb hk
    simp [hne]

end Found

end Buckets

end VpnP2p.Foundation
