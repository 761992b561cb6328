import VpnP2p.Foundation.Chain

/-!
# Lists that grow behind a spare cell

C code often builds a list with a dummy `header` cell, a `spare` cell allocated one
step ahead of the data, and a trailing pointer `prev` to the last finished cell (the
header while there is none). Finishing the spare cell links a new one behind it and
moves `prev`; at the end `prev->next = NULL` cuts the spare cell off. `Growing` is the
invariant of that idiom. All its cells have addresses from `lo` on, so a list that
grows in fresh memory leaves the memory below `lo` alone.
-/

namespace VpnP2p.Foundation

variable {α : Type} {next : α → Ptr}

/-- `header` leads through the finished cells `as` to `spare`. -/
structure Growing (next : α → Ptr) (lo : Nat) (m : Mem α) (header prev spare : Nat)
    (as : List Nat) : Prop where
  links : Seg next m (.addr header) (header :: as) (.addr spare)
  last : ∃ bs, header :: as = bs ++ [prev]
  nodup : (spare :: header :: as).Nodup
  bound : ∀ a ∈ spare :: header :: as, lo ≤ a
  live : spare < m.length

namespace Growing

variable {lo : Nat} {m m' : Mem α} {header prev spare : Nat} {as : List Nat}

theorem start {c : α} (hc : m[header]? = some c) (hnext : next c = .addr spare)
    (hne : spare ≠ header) (hlo : lo ≤ spare ∧ lo ≤ header) (hlive : spare < m.length) :
    Growing next lo m header header spare [] where
  links := ⟨rfl, c, hc, hnext⟩
  last := ⟨[], rfl⟩
  nodup := by simpa using hne
  bound := by simpa using hlo
  live := hlive

/-- Anything that keeps the links keeps the list. -/
theorem transport (h : Growing next lo m header prev spare as)
    (hlinks : SameLinks next (header :: as) m m') (hlen : m.length ≤ m'.length) :
    Growing next lo m' header prev spare as where
  links := h.links.sameLinks hlinks
  last := h.last
  nodup := h.nodup
  bound := h.bound
  live := Nat.lt_of_lt_of_le h.live hlen

theorem spare_not_mem (h : Growing next lo m header prev spare as) : spare ∉ header :: as :=
  (List.nodup_cons.mp h.nodup).1

theorem spare_not_done (h : Growing next lo m header prev spare as) : spare ∉ as :=
  fun hmem => h.spare_not_mem (List.mem_cons_of_mem _ hmem)

/-- Writing the spare cell does not touch the list. -/
theorem write_spare (h : Growing next lo m header prev spare as) (f : α → α) :
    Growing next lo (m.modify spare f) header prev spare as :=
  h.transport (SameLinks.modify m (fun hmem => absurd hmem h.spare_not_mem)) (by simp)

theorem of_prefix (h : Growing next lo m header prev spare as) (hpre : m <+: m') :
    Growing next lo m' header prev spare as :=
  h.transport (SameLinks.of_prefix _ hpre) hpre.length_le

theorem prev_mem (h : Growing next lo m header prev spare as) : prev ∈ header :: as := by
  obtain ⟨bs, hbs⟩ := h.last
  simp [hbs]

theorem prev_lt (h : Growing next lo m header prev spare as) : prev < m.length :=
  h.links.lt_length prev h.prev_mem

theorem le_prev (h : Growing next lo m header prev spare as) : lo ≤ prev :=
  h.bound prev (List.mem_cons_of_mem _ h.prev_mem)

theorem le_spare (h : Growing next lo m header prev spare as) : lo ≤ spare :=
  h.bound spare (by simp)

/-- `prev->next` is the spare cell. -/
theorem prev_next (h : Growing next lo m header prev spare as) :
    ∃ c, m[prev]? = some c ∧ next c = .addr spare := by
  obtain ⟨bs, hbs⟩ := h.last
  have hlinks := h.links
  rw [hbs] at hlinks
  obtain ⟨q, -, -, c, hc, hnext⟩ := Seg.append_iff.mp hlinks
  exact ⟨c, hc, hnext⟩

/-- The spare cell joins the list and a new cell takes its place. -/
theorem advance (h : Growing next lo m header prev spare as) {c : α} {f : α → α}
    (hf : ∀ c, next (f c) = .addr m.length) :
    Growing next lo ((m ++ [c]).modify spare f) header spare m.length (as ++ [spare]) := by
  have hlt : ∀ a ∈ spare :: header :: as, a < m.length := by
    intro a ha
    rcases List.mem_cons.mp ha with rfl | ha
    · exact h.live
    · exact h.links.lt_length a ha
  have hAll : header :: (as ++ [spare]) = (header :: as) ++ [spare] := rfl
  have hSub : ∀ a ∈ header :: (as ++ [spare]), a ∈ spare :: header :: as := by
    intro a ha
    simp only [List.mem_cons, List.mem_append, List.not_mem_nil, or_false] at ha ⊢
    tauto
  refine ⟨?_, ⟨header :: as, rfl⟩, ?_, ?_, by simp⟩
  · rw [hAll, Seg.append_iff]
    have hOld := (h.of_prefix (List.prefix_append m [c])).write_spare f
    have hlive : spare < (m ++ [c]).length := by
      rw [List.length_append]
      exact Nat.lt_add_right _ h.live
    have hd := List.getElem?_eq_getElem hlive
    exact ⟨.addr spare, hOld.links, rfl, _, getElem?_modify_same f hd, hf _⟩
  · have hPerm : (header :: (as ++ [spare])).Perm (spare :: header :: as) := by
      rw [hAll]
      exact List.perm_append_singleton spare (header :: as)
    refine List.nodup_cons.mpr ⟨fun hmem => ?_, hPerm.nodup_iff.mpr h.nodup⟩
    exact absurd (hlt m.length (hSub _ hmem)) (Nat.lt_irrefl _)
  · intro a ha
    rcases List.mem_cons.mp ha with rfl | ha
    · exact Nat.le_of_lt (Nat.lt_of_le_of_lt h.le_spare h.live)
    · exact h.bound a (hSub a ha)

/-- `prev->next = NULL` leaves the finished cells as a NULL-terminated list. -/
theorem cut (h : Growing next lo m header prev spare as) {f : α → α}
    (hf : ∀ c, next (f c) = .null) :
    ∃ c, (m.modify prev f)[header]? = some c ∧
      Seg next (m.modify prev f) (next c) as .null := by
  obtain ⟨bs, hbs⟩ := h.last
  have hnodup := (List.nodup_cons.mp h.nodup).2
  have hlinks := h.links
  rw [hbs] at hnodup hlinks
  have hcut := hlinks.relink_last hnodup hf
  rw [← hbs] at hcut
  exact hcut.2

end Growing

end VpnP2p.Foundation
