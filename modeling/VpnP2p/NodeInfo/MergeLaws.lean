import VpnP2p.NodeInfo.Merge

/-!
# Laws of `node_merge`

Merging what is known already changes nothing, wherever in memory it lies, also in the
merged list itself. Merging in two steps gives the same list whichever step comes first.
-/

namespace VpnP2p.NodeInfo

open Foundation

/-! ## Merging what is known -/

section Known

variable {h : Heap} {node1 node2 : Ptr} {as bs : List Nat} {xs ys : List Node}

theorem offerNode_known {ips : Mem IPCell} {m : Mem NodeCell} {a b : Nat} {x y : Node}
    {c1 c2 : NodeCell} (hc1 : m[a]? = some c1) (hx : c1.Holds ips x) (hc2 : m[b]? = some c2)
    (hy : c2.Holds ips y) (hle : y.id = x.id → y.rank ≤ x.rank) (flag : Bool) :
    offerNode b a (m, flag) = .ok (m, flag && x.id != y.id) := by
  simp only [offerNode, load_addr hc1, load_addr hc2, hx.id, hy.id, assigned_some, ok_bind]
  by_cases hid : x.id = y.id
  · have hlt : ¬ x.nodeCount < y.nodeCount :=
      fun h => absurd (Int32.lt_iff_toInt_lt.mp h) (not_lt.mpr (hle hid.symm))
    simp only [hx.nodeCount, hy.nodeCount, assigned_some, ok_bind, hid, bne_self_eq_false,
      Bool.and_false, if_neg hlt]
    rfl
  · rw [if_neg hid]
    simp [hid]

theorem offerNode_fold_known {ips : Mem IPCell} {m : Mem NodeCell} {b : Nat} {y : Node}
    {c2 : NodeCell} (hcont : Contents (NodeCell.Holds ips) m as xs) (hc2 : m[b]? = some c2)
    (hy : c2.Holds ips y) (hle : ∀ x ∈ xs, y.id = x.id → y.rank ≤ x.rank) (flag : Bool) :
    as.foldlM (fun s a => offerNode b a s) (m, flag) = .ok (m, flag && y.id ∉ ids xs) := by
  induction hcont generalizing flag with
  | nil => simp [ids]
  | @cons a x as xs hax _ ih =>
    obtain ⟨c1, hc1, hx⟩ := hax
    rw [List.foldlM_cons, offerNode_known hc1 hx hc2 hy (hle x (by simp)), ok_bind,
      ih (fun z hz => hle z (by simp [hz]))]
    by_cases hid : x.id = y.id
    · simp [ids, hid]
    · have hne : (x.id != y.id) = true := bne_iff_ne.mpr hid
      simp [ids, hne, Ne.symm hid]

/-- The outer loop leaves its state alone for a node that is known. -/
theorem Merging.step_known {s : MergeState} {r : List Node} {prev p : Nat} {fs : List Nat}
    (hM : Merging h node1 as s xs r prev p fs) {b : Nat} {y : Node} {c2 : NodeCell}
    (hc2 : s.nodes[b]? = some c2) (hy : c2.Holds h.ips y)
    (hknown : Known Node.id Node.rank xs y) :
    mergeNode (h.nodes.length + 1) node1 b s = .ok s := by
  have hlinks : Seg NodeCell.nextNode (Prod.fst (s.nodes, true)) node1 as .null := hM.links
  have hloop : forChain Prod.fst NodeCell.nextNode (offerNode b) (h.nodes.length + 1) node1
      (s.nodes, true) = .ok (s.nodes, false) := by
    rw [forChain_eq_foldlM (fun _ => True) hlinks hM.lt_fuel trivial
      (fun a _ t t' _ hrun => ⟨trivial, offerNode_sameLinks as hrun⟩),
      offerNode_fold_known hM.contents hc2 hy hknown.2]
    have hmem : y.id ∈ ids xs := hknown.1
    simp [hmem]
  simp only [mergeNode, hloop, ok_bind, Bool.false_eq_true, if_false]

theorem nodeMerge_known (hx : NodesOn h node1 as xs) (hy : NodesOn h node2 bs ys) (hne : xs ≠ [])
    (hknown : ∀ y ∈ ys, Known Node.id Node.rank xs y) :
    ∃ h', nodeMerge h node1 node2 = .ok h' ∧ NodesOn h' node1 as xs := by
  have hM := Merging.start hx
  have hlinks := hy.links.sameLinks (SameLinks.of_prefix bs (MergeState.start_prefix h))
  have hfuel := Nat.lt_succ_of_le hy.links.length_le
  have hstep : ∀ b ∈ bs, mergeNode (h.nodes.length + 1) node1 b (MergeState.start h) =
      .ok (MergeState.start h) := by
    intro b hb
    obtain ⟨y, hymem, c, hc, hyc⟩ := hy.contents.mem_left hb
    have hc' := getElem?_of_prefix (MergeState.start_prefix h) hc
    exact hM.step_known hc' hyc (hknown y hymem)
  have hfold : ∀ cs : List Nat, (∀ b ∈ cs, b ∈ bs) →
      cs.foldlM (fun s b => mergeNode (h.nodes.length + 1) node1 b s) (MergeState.start h) =
        .ok (MergeState.start h) := by
    intro cs
    induction cs with
    | nil => exact fun _ => rfl
    | cons b cs ih =>
      intro hsub
      rw [List.foldlM_cons, hstep b (hsub b (by simp)), ok_bind]
      exact ih (fun d hd => hsub d (by simp [hd]))
  have hloop : forChain MergeState.nodes NodeCell.nextNode (mergeNode (h.nodes.length + 1) node1)
      (h.nodes.length + 1) node2 (MergeState.start h) = .ok (MergeState.start h) := by
    refine (forChain_eq_foldlM (fun t => t = MergeState.start h) hlinks hfuel rfl ?_).trans
      (hfold bs (fun _ hb => hb))
    rintro b hb t t' rfl hrun
    rw [hstep b hb] at hrun
    cases hrun
    exact ⟨rfl, SameLinks.refl _ _⟩
  obtain ⟨ptr1, nodes, c, nodes', hlast, hcut, hload, hlink, hon, -⟩ :=
    hM.finish (hx.cells_ne_nil hne)
  refine ⟨⟨h.ips, nodes'⟩, ?_, by simpa using hon⟩
  simp only [nodeMerge, hloop, hlast, hcut, hload, hlink, ok_bind]

end Known

/-! ## Two steps -/

section Laws

variable {h : Heap} {pa pb pc : Ptr} {as bs cs : List Nat} {a b c : List Node}

/-- A merge followed by a merge with a third list, all three apart. -/
theorem nodeMerge_twice (ha : NodesOn h pa as a) (hb : NodesOn h pb bs b) (hc : NodesOn h pc cs c)
    (hne : a ≠ []) (hab : as.Disjoint bs) (hac : as.Disjoint cs) :
    ∃ h₁ h₂, nodeMerge h pa pb = .ok h₁ ∧ nodeMerge h₁ pa pc = .ok h₂ ∧
      NodesAt h₁ pa (mergeNodes a b) ∧ NodesOn h₁ pb bs b ∧
      NodesAt h₂ pa (mergeNodes (mergeNodes a b) c) := by
  obtain ⟨h₁, fs, hrun₁, hon₁, hfs, hips, hframe⟩ :=
    nodeMerge_spec ha hb hne (fun d hd hda => hab hda hd)
  have hcs : ∀ d ∈ cs, d < h.nodes.length := hc.links.lt_length
  have hb₁ := hb.frame hips (fun d hd e he => hframe d e he (fun hda => hab hda hd))
  have hc₁ := hc.frame hips (fun d hd e he => hframe d e he (fun hda => hac hda hd))
  have hdisj : ∀ d ∈ cs, d ∉ as ++ fs := by
    intro d hd hmem
    rcases List.mem_append.mp hmem with hmem | hmem
    · exact hac hmem hd
    · exact absurd (hcs d hd) (Nat.not_lt.mpr (hfs d hmem))
  obtain ⟨h₂, gs, hrun₂, hon₂, -⟩ := nodeMerge_spec hon₁ hc₁ (merge_ne_nil hne) hdisj
  exact ⟨h₁, h₂, hrun₁, hrun₂, ⟨_, hon₁⟩, hb₁, ⟨_, hon₂⟩⟩

/-- A merge into the second list followed by a merge of the result into the first. -/
theorem nodeMerge_behind (ha : NodesOn h pa as a) (hb : NodesOn h pb bs b)
    (hc : NodesOn h pc cs c) (hane : a ≠ []) (hbne : b ≠ []) (hab : as.Disjoint bs)
    (hbc : bs.Disjoint cs) :
    ∃ h₁ h₂, nodeMerge h pb pc = .ok h₁ ∧ nodeMerge h₁ pa pb = .ok h₂ ∧
      NodesAt h₂ pa (mergeNodes a (mergeNodes b c)) := by
  obtain ⟨h₁, fs, hrun₁, hon₁, hfs, hips, hframe⟩ :=
    nodeMerge_spec hb hc hbne (fun d hd hdb => hbc hdb hd)
  have ha₁ := ha.frame hips (fun d hd e he => hframe d e he (fun hdb => hab hd hdb))
  have hdisj : ∀ d ∈ bs ++ fs, d ∉ as := by
    intro d hd hmem
    rcases List.mem_append.mp hd with hd | hd
    · exact hab hmem hd
    · exact ha.disjoint hfs hmem hd
  obtain ⟨h₂, gs, hrun₂, hon₂, -⟩ := nodeMerge_spec ha₁ hon₁ hane hdisj
  exact ⟨h₁, h₂, hrun₁, hrun₂, ⟨_, hon₂⟩⟩

/-- Relaying equals direct delivery, and redelivery is harmless: `node_merge` is
associative, merging a list into itself or into an equal one leaves it, and so does
merging anything of `b` once `b` is merged. -/
theorem nodeMerge_laws (ha : NodesOn h pa as a) (hb : NodesOn h pb bs b) (hc : NodesOn h pc cs c)
    (hane : a ≠ []) (hbne : b ≠ []) (hida : (ids a).Nodup) (hidb : (ids b).Nodup)
    (hab : as.Disjoint bs) (hac : as.Disjoint cs) (hbc : bs.Disjoint cs) :
    (∃ h₁ h₂ h₁' h₂' l, nodeMerge h pa pb = .ok h₁ ∧ nodeMerge h₁ pa pc = .ok h₂ ∧
      nodeMerge h pb pc = .ok h₁' ∧ nodeMerge h₁' pa pb = .ok h₂' ∧
      NodesAt h₂ pa l ∧ NodesAt h₂' pa l) ∧
    (∀ q, NodesAt h q a → ∃ h', nodeMerge h pa q = .ok h' ∧ NodesAt h' pa a) ∧
    ∃ h₁ l, nodeMerge h pa pb = .ok h₁ ∧ NodesAt h₁ pa l ∧ NodesAt h₁ pb b ∧
      ∀ zs, zs.Sublist b → ∀ q, NodesAt h₁ q zs →
        ∃ h₂, nodeMerge h₁ pa q = .ok h₂ ∧ NodesAt h₂ pa l := by
  obtain ⟨h₁, h₂, hrun₁, hrun₂, hl₁, hb₁, hl₂⟩ := nodeMerge_twice ha hb hc hane hab hac
  obtain ⟨h₁', h₂', hrun₁', hrun₂', hl₂'⟩ := nodeMerge_behind ha hb hc hane hbne hab hbc
  refine ⟨?_, ?_, ?_⟩
  · refine ⟨h₁, h₂, h₁', h₂', _, hrun₁, hrun₂, hrun₁', hrun₂', hl₂, ?_⟩
    rw [mergeNodes, mergeNodes, merge_assoc hidb]
    exact hl₂'
  · rintro q ⟨qs, hq⟩
    obtain ⟨h', hrun, hon⟩ := nodeMerge_known ha hq hane (fun y hy => known_self hida hy)
    exact ⟨h', hrun, as, hon⟩
  · refine ⟨h₁, _, hrun₁, hl₁, ⟨bs, hb₁⟩, ?_⟩
    rintro zs hzs q ⟨qs, hq⟩
    obtain ⟨ls, hls⟩ := hl₁
    obtain ⟨h₂, hrun, hon⟩ := nodeMerge_known hls hq (merge_ne_nil hane)
      (fun z hz => known_merge hidb a (hzs.subset hz))
    exact ⟨h₂, hrun, ls, hon⟩

end Laws

def sampleA : List Node := [sampleNode]

def sampleB : List Node := [{ sampleNode with nodeCount := 2 }, { sampleNode with id := 124 }]

theorem nodeMerge_laws_sample :
    let hA := Heap.empty.alloc sampleA
    let hB := hA.1.alloc sampleB
    let hC := hB.1.alloc sampleA
    (∃ h₁ h₂ h₁' h₂' l, nodeMerge hC.1 hA.2 hB.2 = .ok h₁ ∧ nodeMerge h₁ hA.2 hC.2 = .ok h₂ ∧
      nodeMerge hC.1 hB.2 hC.2 = .ok h₁' ∧ nodeMerge h₁' hA.2 hB.2 = .ok h₂' ∧
      NodesAt h₂ hA.2 l ∧ NodesAt h₂' hA.2 l) ∧
    (∀ q, NodesAt hC.1 q sampleA → ∃ h', nodeMerge hC.1 hA.2 q = .ok h' ∧ NodesAt h' hA.2 sampleA) ∧
    ∃ h₁ l, nodeMerge hC.1 hA.2 hB.2 = .ok h₁ ∧ NodesAt h₁ hA.2 l ∧ NodesAt h₁ hB.2 sampleB ∧
      ∀ zs, zs.Sublist sampleB → ∀ q, NodesAt h₁ q zs →
        ∃ h₂, nodeMerge h₁ hA.2 q = .ok h₂ ∧ NodesAt h₂ hA.2 l := by
  obtain ⟨-, as, hA, -⟩ := Heap.empty.alloc_spec sampleA
  obtain ⟨hA', bs, hB, hab, -⟩ := Heap.alloc_apart hA sampleB
  obtain ⟨hA'', cs, hC, hac, hfresh⟩ := Heap.alloc_apart hA' sampleA
  have hB' := (Heap.alloc_apart hB sampleA).1
  have hbc : bs.Disjoint cs := hB.disjoint hfresh
  exact nodeMerge_laws hA'' hB' hC (by simp [sampleA]) (by simp [sampleB]) (by decide) (by decide)
    hab hac hbc

end VpnP2p.NodeInfo
