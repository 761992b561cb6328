import VpnP2p.Server.Register

/-!
# Ids in the store

`node_merge` looks for an id among the nodes it started with and not among those it has
collected, so a message that names a new id twice leaves it twice in the store, and
nothing takes it out again. This is the only way for an id to get there twice.
-/

namespace VpnP2p.Server

open Foundation NodeInfo

/-! ## One record under an id -/

/-- `l` has every id once, with the largest count that arrived for it. -/
structure OnePerId (arrived l : List Node) : Prop where
  nodup : (ids l).Nodup
  offered : ∀ z ∈ l, ∃ w ∈ arrived, w.id = z.id ∧ w.nodeCount = z.nodeCount
  largest : ∀ z ∈ l, ∀ w ∈ arrived, w.id = z.id → w.nodeCount ≤ z.nodeCount

/-- The same id with the same count. -/
structure SameCount (x y : Node) : Prop where
  id : x.id = y.id
  nodeCount : x.nodeCount = y.nodeCount

theorem SameCount.rank {x y : Node} (h : SameCount x y) : x.id = y.id ∧ x.rank = y.rank :=
  ⟨h.id, congrArg Int32.toInt h.nodeCount⟩

theorem sameCount_refl (l : List Node) : List.Forall₂ SameCount l l :=
  List.forall₂_same.mpr (fun _ _ => ⟨rfl, rfl⟩)

theorem sameCount_map_stripped {l l' : List Node} (h : List.Forall₂ SameCount l l') :
    List.Forall₂ SameCount (l.map Node.stripped) l' :=
  List.forall₂_map_left_iff.mpr (h.imp (fun _ _ hxy => ⟨hxy.id, hxy.nodeCount⟩))

/-- Losing tabs on the way, the store keeps the ids and counts of the merge of all lists. -/
theorem sameCount_storeAfter {l l' : List Node} (h : List.Forall₂ SameCount l l')
    (ms : List (List Node)) :
    List.Forall₂ SameCount (storeAfter l ms) (mergeAll Node.id Node.rank l' ms) := by
  induction ms generalizing l l' with
  | nil => exact h
  | cons m ms ih =>
    exact ih (rel_merge (fun _ _ hxy => hxy.rank) (sameCount_map_stripped h) (sameCount_refl m))

theorem ids_eq_of_sameCount {l l' : List Node} (h : List.Forall₂ SameCount l l') :
    ids l = ids l' := rel_keys (fun _ _ hxy => hxy.id) h

theorem OnePerId.of_settled {arrived l l' : List Node} (h : Settled Node.id Node.rank arrived l')
    (hsame : List.Forall₂ SameCount l l') : OnePerId arrived l := by
  have hpartner : ∀ z ∈ l, ∃ z' ∈ l', SameCount z z' := by
    intro z hz
    obtain ⟨i, hi, rfl⟩ := List.mem_iff_getElem.mp hz
    have hi' : i < l'.length := hsame.length_eq ▸ hi
    exact ⟨l'[i], List.getElem_mem hi', hsame.get hi hi'⟩
  refine ⟨?_, ?_, ?_⟩
  · rw [ids_eq_of_sameCount hsame]
    exact h.nodup
  · intro z hz
    obtain ⟨z', hz', hsame'⟩ := hpartner z hz
    exact ⟨z', (h.firstMax z' hz').mem, hsame'.id.symm, hsame'.nodeCount.symm⟩
  · intro z hz w hw hid
    obtain ⟨z', hz', hsame'⟩ := hpartner z hz
    rw [hsame'.nodeCount]
    exact Int32.le_iff_toInt_le.mpr ((h.firstMax z' hz').le hw (hid.trans hsame'.id))

/-! ## When ids stay unique -/

theorem onePerId_mergeNodes {xs ys : List Node} (hxs : (ids xs).Nodup) :
    OnePerId (xs ++ ys) (mergeNodes xs ys) ↔ NewOnce Node.id (ids xs) ys := by
  have hfresh : NewOnce Node.id (ids xs) ys ↔ ((fresh Node.id xs ys).map Node.id).Nodup :=
    newOnce_iff_fresh (fun _ => Iff.rfl)
  rw [hfresh]
  constructor
  · intro h
    exact (nodup_keys_merge.mp h.nodup).2
  · intro hnew
    exact .of_settled ((Settled.of_nodup hxs).merge hnew) (sameCount_refl _)

theorem onePerId_storeAfter {S : List Node} (hS : (ids S).Nodup) (ms : List (List Node)) :
    OnePerId (S ++ ms.flatten) (storeAfter S ms) ↔ NewOnceAll Node.id (ids S) ms := by
  have hsame := sameCount_storeAfter (sameCount_refl S) ms
  constructor
  · intro h
    have hnodup := h.nodup
    rw [ids_eq_of_sameCount hsame] at hnodup
    exact newOnceAll_of_nodup_mergeAll (fun _ => Iff.rfl) hnodup
  · intro hnew
    exact .of_settled ((Settled.of_nodup hS).mergeAll hnew) hsame

/-- After a merge, and after any run of register messages to a server that holds the first
list, every id stands once in the list and with its largest count exactly when no message
names an id twice that was not known when it came. -/
theorem onePerId_iff_newOnce {h : Heap} {node1 node2 : Ptr} {as bs : List Nat} {xs ys : List Node}
    (hx : NodesOn h node1 as xs) (hy : NodesOn h node2 bs ys) (hapart : as.Disjoint bs)
    (hne : xs ≠ []) (hxs : (ids xs).Nodup) :
    (∃ h' l, nodeMerge h node1 node2 = .ok h' ∧ NodesAt h' node1 l ∧
      (OnePerId (xs ++ ys) l ↔ NewOnce Node.id (ids xs) ys)) ∧
    ∀ s₀ : ServerState, s₀.Holds xs → (∀ n ∈ xs, n.OneLine) → ∀ ms s, Run s₀ ms s →
      ∃ l, s.Holds l ∧ (OnePerId (xs ++ ms.flatten) l ↔ NewOnceAll Node.id (ids xs) ms) := by
  constructor
  · obtain ⟨h', fs, hrun, hon, -⟩ := nodeMerge_spec hx hy hne (fun b hb hmem => hapart hmem hb)
    exact ⟨h', _, hrun, ⟨_, hon⟩, onePerId_mergeNodes hxs⟩
  · intro s₀ hholds hlines ms s hrun
    have hstored := hrun.stored ⟨hholds.file, hlines, hne⟩
    exact ⟨_, hstored.holds, onePerId_storeAfter hxs ms⟩

theorem onePerId_iff_newOnce_sample :
    let hA := Heap.empty.alloc sampleA
    let hB := hA.1.alloc sampleB
    (∃ h' l, nodeMerge hB.1 hA.2 hB.2 = .ok h' ∧ NodesAt h' hA.2 l ∧
      (OnePerId (sampleA ++ sampleB) l ↔ NewOnce Node.id (ids sampleA) sampleB)) ∧
    ∀ s₀ : ServerState, s₀.Holds sampleA → (∀ n ∈ sampleA, n.OneLine) → ∀ ms s, Run s₀ ms s →
      ∃ l, s.Holds l ∧
        (OnePerId (sampleA ++ ms.flatten) l ↔ NewOnceAll Node.id (ids sampleA) ms) := by
  obtain ⟨-, as, hA, -⟩ := Heap.empty.alloc_spec sampleA
  obtain ⟨hA', bs, hB, hab, -⟩ := Heap.alloc_apart hA sampleB
  exact onePerId_iff_newOnce hA' hB hab (by simp [sampleA]) (by decide)

/-- A message that names the new id 124 twice leaves it twice. -/
theorem not_onePerId_twice :
    ∃ s, Run sampleServer [sampleNodes [124, 124]] s ∧
      s.Holds (sampleA ++ sampleNodes [124, 124]) ∧
      ¬ (ids (sampleA ++ sampleNodes [124, 124])).Nodup := by
  have hfits : FitsDecoder (sampleNodes [124, 124]) := sampleNodes_fits (by decide) (by decide)
  obtain ⟨s, hrun, hs, -⟩ := sampleServer_handles hfits rfl
  exact ⟨s, hrun, hs.holds, by decide⟩

end VpnP2p.Server
