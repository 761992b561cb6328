import VpnP2p.NodeInfo.Merge

/-!
# Repeated ids

`node_merge` does not ask for distinct ids. Every node of `node1` ends with the record of
the first node of `node2` that has the largest count under its id, where that count is
larger than its own, and the nodes of `node2` under other ids follow as they are, however
often an id occurs.
-/

namespace VpnP2p.NodeInfo

open Foundation

/-- The record that `node_merge` leaves in a node of `node1`. -/
def updated (ys : List Node) (x : Node) : Node :=
  match firstMax Node.id Node.rank x.id ys with
  | none => x
  | some y =>
    if x.nodeCount < y.nodeCount then
      { x with nodeCount := y.nodeCount, reliable := y.reliable, ipList := y.ipList }
    else x

/-- Offering the nodes one by one leaves the same record. -/
theorem offerAll_eq_updated (ys : List Node) (x : Node) :
    offerAll Node.id Node.rank x ys = updated ys x := by
  rw [offerAll_eq_firstMax]
  unfold updated
  cases hmax : firstMax Node.id Node.rank x.id ys with
  | none => rfl
  | some y =>
    have hid : y.id = x.id := by
      simpa using (List.mem_filter.mp (List.argmax_mem hmax)).2
    show offerTo y x = _
    by_cases hlt : x.nodeCount < y.nodeCount
    · have hoffer : offerTo y x = y := offer_of_lt hid.symm (Int32.lt_iff_toInt_lt.mp hlt)
      rw [hoffer]
      simp only [if_pos hlt, ← hid]
    · have hoffer : offerTo y x = x :=
        offer_of_le (not_lt.mp (fun h => hlt (Int32.lt_iff_toInt_lt.mpr h)))
      rw [hoffer]
      simp only [if_neg hlt]

theorem mergeNodes_eq_updated (xs ys : List Node) : mergeNodes xs ys =
    xs.map (updated ys) ++ ys.filter (fun y => y.id ∉ ids xs) := by
  have hmap : xs.map (fun x => offerAll Node.id Node.rank x ys) = xs.map (updated ys) :=
    List.map_congr_left (fun x _ => offerAll_eq_updated ys x)
  rw [mergeNodes, merge, hmap]
  rfl

/-- Whatever ids occur twice, `node_merge` leaves at `node1` an acyclic list of the updated
nodes and of the nodes under new ids, and nothing of `node2` is changed. -/
theorem nodeMerge_repeated {h : Heap} {node1 node2 : Ptr} {as bs : List Nat} {xs ys : List Node}
    (hx : NodesOn h node1 as xs) (hy : NodesOn h node2 bs ys) (hne : xs ≠ [])
    (hdisj : as.Disjoint bs) :
    ∃ h' cs, nodeMerge h node1 node2 = .ok h' ∧
      NodesOn h' node1 cs (xs.map (updated ys) ++ ys.filter (fun y => y.id ∉ ids xs)) ∧
      cs.Nodup ∧ (∀ b ∈ bs, h'.nodes[b]? = h.nodes[b]?) ∧ h'.ips = h.ips ∧
      NodesOn h' node2 bs ys := by
  obtain ⟨h', fs, hrun, hon, -, hips, hframe⟩ :=
    nodeMerge_spec hx hy hne (fun b hb hba => hdisj hba hb)
  have hold : ∀ b ∈ bs, h'.nodes[b]? = h.nodes[b]? := by
    intro b hb
    have hc := List.getElem?_eq_getElem (hy.links.lt_length b hb)
    rw [hc, hframe b _ hc (fun hba => hdisj hba hb)]
  rw [mergeNodes_eq_updated] at hon
  refine ⟨h', as ++ fs, hrun, hon, hon.links.nodup, hold, hips, ?_⟩
  exact hy.frame hips (fun b hb c hc => (hold b hb).trans hc)

/-- Two records of an id that is in `node1`, and an id that is new twice. -/
def sampleRepeated : List Node :=
  [{ sampleNode with nodeCount := 3 }, { sampleNode with id := 124 },
    { sampleNode with nodeCount := 3, reliable := 0 }, { sampleNode with id := 124 }]

theorem nodeMerge_repeated_sample :
    let hA := Heap.empty.alloc [sampleNode]
    let hB := hA.1.alloc sampleRepeated
    ∃ bs h' cs, nodeMerge hB.1 hA.2 hB.2 = .ok h' ∧
      NodesOn h' hA.2 cs ([sampleNode].map (updated sampleRepeated) ++
        sampleRepeated.filter (fun y => y.id ∉ ids [sampleNode])) ∧
      cs.Nodup ∧ (∀ b ∈ bs, h'.nodes[b]? = hB.1.nodes[b]?) ∧ h'.ips = hB.1.ips ∧
      NodesOn h' hB.2 bs sampleRepeated := by
  obtain ⟨-, as, hA, -⟩ := Heap.empty.alloc_spec [sampleNode]
  obtain ⟨hA', bs, hB, hab, -⟩ := Heap.alloc_apart hA sampleRepeated
  exact ⟨bs, nodeMerge_repeated hA' hB (by simp) hab⟩

end VpnP2p.NodeInfo
