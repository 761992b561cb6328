import VpnP2p.Foundation.KeyedMerge

/-!
# Merges that travel

Every site has records of its own under keys of their own. What a site holds after merging
what it got from others, who had merged before, is told by whose records went into it: each
key once, every record one of theirs, and none of theirs with a higher rank. In which order
they came, over whom and how often, makes no difference to that.
-/

namespace VpnP2p.Foundation

variable {ι ρ κ ω : Type} [LinearOrder ω] (key : ρ → κ) (rank : ρ → ω)

/-- The list `s` is made of what the sites `news` had on their `own`. -/
structure Gathered (own : ι → List ρ) (news : List ι) (s : List ρ) : Prop where
  nodup : (s.map key).Nodup
  source : ∀ z ∈ s, ∃ j ∈ news, z ∈ own j
  known : ∀ j ∈ news, ∀ z ∈ own j, Known key rank s z

variable {key rank}

theorem Known.trans {s : List ρ} {y z : ρ} (hy : Known key rank s y) (hkey : key z = key y)
    (hrank : rank z ≤ rank y) : Known key rank s z := by
  refine ⟨?_, fun x hx hzx => ?_⟩
  · rw [hkey]
    exact hy.1
  · exact hrank.trans (hy.2 x hx (hkey.symm.trans hzx))

/-- What is known stays known. -/
theorem Known.merge [DecidableEq κ] {xs : List ρ} {z : ρ} (h : Known key rank xs z)
    (ys : List ρ) : Known key rank (merge key rank xs ys) z := by
  refine ⟨(mem_keys_merge key rank xs ys (key z)).mpr (.inl h.1), fun x hx hkey => ?_⟩
  rcases List.mem_append.mp hx with hx | hx
  · obtain ⟨x', hx', rfl⟩ := List.mem_map.mp hx
    rw [key_offerAll key rank] at hkey
    exact (h.2 x' hx' hkey).trans (rank_le_offerAll x' ys)
  · exact absurd (hkey ▸ h.1) (mem_fresh.mp hx).2

namespace Gathered

variable {own : ι → List ρ} {news news' : List ι} {s s' : List ρ}

theorem start {j : ι} (h : ((own j).map key).Nodup) : Gathered key rank own [j] (own j) where
  nodup := h
  source := fun z hz => ⟨j, List.mem_singleton_self j, hz⟩
  known := by
    intro k hk z hz
    obtain rfl := List.mem_singleton.mp hk
    exact known_self h hz

theorem congr (h : Gathered key rank own news s) (hnews : ∀ j, j ∈ news ↔ j ∈ news') :
    Gathered key rank own news' s where
  nodup := h.nodup
  source := by
    intro z hz
    obtain ⟨j, hj, hmem⟩ := h.source z hz
    exact ⟨j, (hnews j).mp hj, hmem⟩
  known := fun j hj => h.known j ((hnews j).mpr hj)

/-- Under the key of a record of theirs there is one that is no older. -/
theorem newer (h : Gathered key rank own news s) {j : ι} (hj : j ∈ news) {z : ρ}
    (hz : z ∈ own j) : ∃ y ∈ s, key y = key z ∧ rank z ≤ rank y := by
  obtain ⟨hmem, hle⟩ := h.known j hj z hz
  obtain ⟨y, hy, hkey⟩ := List.mem_map.mp hmem
  exact ⟨y, hy, hkey, hle y hy hkey.symm⟩

theorem mem_keys (h : Gathered key rank own news s) (k : κ) :
    k ∈ s.map key ↔ ∃ j ∈ news, k ∈ (own j).map key := by
  constructor
  · intro hk
    obtain ⟨z, hz, rfl⟩ := List.mem_map.mp hk
    obtain ⟨j, hj, hmem⟩ := h.source z hz
    exact ⟨j, hj, List.mem_map.mpr ⟨z, hmem, rfl⟩⟩
  · rintro ⟨j, hj, hk⟩
    obtain ⟨z, hz, rfl⟩ := List.mem_map.mp hk
    exact (h.known j hj z hz).1

variable [DecidableEq κ]

/-- What two sites hold, merged, is what the two groups have. -/
theorem merge (h : Gathered key rank own news s) (h' : Gathered key rank own news' s') :
    Gathered key rank own (news ++ news') (merge key rank s s') where
  nodup := nodup_keys_merge.mpr ⟨h.nodup, nodup_keys_fresh h'.nodup⟩
  source := by
    intro z hz
    rcases mem_of_mem_merge hz with hz | hz
    · obtain ⟨j, hj, hmem⟩ := h.source z hz
      exact ⟨j, List.mem_append_left _ hj, hmem⟩
    · obtain ⟨j, hj, hmem⟩ := h'.source z hz
      exact ⟨j, List.mem_append_right _ hj, hmem⟩
  known := by
    intro j hj z hz
    rcases List.mem_append.mp hj with hj | hj
    · exact (h.known j hj z hz).merge s'
    · obtain ⟨y, hy, hkey, hle⟩ := h'.newer hj hz
      exact (known_merge h'.nodup s hy).trans hkey.symm hle

/-- Two sites with the same news have the same rank under every key. -/
theorem lookup_rank (h : Gathered key rank own news s) (h' : Gathered key rank own news s')
    (k : κ) : (lookup key k s).map rank = (lookup key k s').map rank := by
  cases hz : lookup key k s with
  | none =>
    have hnot : k ∉ s'.map key := by
      rw [h'.mem_keys, ← h.mem_keys]
      exact lookup_eq_none.mp hz
    rw [lookup_eq_none.mpr hnot]
  | some z =>
    obtain ⟨hzs, rfl⟩ := (lookup_eq_some h.nodup).mp hz
    obtain ⟨j, hj, hown⟩ := h.source z hzs
    obtain ⟨z', hzs', hkey, hle⟩ := h'.newer hj hown
    obtain ⟨j', hj', hown'⟩ := h'.source z' hzs'
    have hle' := (h.known j' hj' z' hown').2 z hzs hkey
    rw [(lookup_eq_some h'.nodup).mpr ⟨hzs', hkey⟩, Option.map_some, Option.map_some,
      le_antisymm hle hle']

end Gathered

end VpnP2p.Foundation
