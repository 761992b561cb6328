import VpnP2p.NodeInfo.IpMerge
import VpnP2p.NodeInfo.MergeLaws
import VpnP2p.Util.Message

/-!
# Rechecks

`join` merges what a contacted server replies and asks that server for a recheck where
`node_merge` returns -1, its sign of a strong conflict. Equal node counts are left for
later there, so `node_merge` never returns anything but 0 and no recheck is ever sent.
-/

namespace VpnP2p.Join

open Foundation NodeInfo Util

/-! ## The code -/

/-- `node_merge` with the value it returns. -/
def nodeMergeRet (h : Heap) (node1 node2 : Ptr) : Result (Int32 × Heap) := do
  let h ← nodeMerge h node1 node2
  .ok (0, h)

/-- What `send_recheck_msg` sends. -/
def sendRecheckMsg : Result (List Buf) := do
  let type ← (CArray.zero typeSize).store (lit "Recheck")
  sendMsgOverSocket ⟨type, .zero bufSize, 0⟩

/-- What `join` does with the list that a contacted server replied, and what it sends. -/
def mergeReply (h : Heap) (local_node tmp_node : Ptr) : Result (Heap × List Buf) := do
  let (ret, h) ← nodeMergeRet h local_node tmp_node
  if ret = -1 then
    let sends ← sendRecheckMsg
    .ok (h, sends)
  else .ok (h, [])

/-! ## Conflicts -/

/-- Two records of an id with the same count judge an IP with the same count differently. -/
def NodesClash (x y : Node) : Prop :=
  x.id = y.id ∧ x.nodeCount = y.nodeCount ∧ ∃ u ∈ x.ipList, ∃ v ∈ y.ipList, Clash u v

instance (x y : Node) : Decidable (NodesClash x y) :=
  inferInstanceAs (Decidable (_ ∧ _ ∧ ∃ u ∈ x.ipList, ∃ v ∈ y.ipList, Clash u v))

def StrongConflict (xs ys : List Node) : Prop := ∃ x ∈ xs, ∃ y ∈ ys, NodesClash x y

instance (xs ys : List Node) : Decidable (StrongConflict xs ys) :=
  inferInstanceAs (Decidable (∃ x ∈ xs, ∃ y ∈ ys, NodesClash x y))

/-- `node_merge` returns -1 for a strong conflict and nothing negative otherwise, and
`join` sends a recheck for a strong conflict only. -/
def ReportsConflict (h : Heap) (p q : Ptr) (xs ys : List Node) : Prop :=
  ∃ ret h' sends, nodeMergeRet h p q = .ok (ret, h') ∧ mergeReply h p q = .ok (h', sends) ∧
    (ret = -1 ↔ StrongConflict xs ys) ∧ (¬ StrongConflict xs ys → 0 ≤ ret) ∧
    (sends ≠ [] ↔ StrongConflict xs ys)

theorem mergeReply_of_nodeMerge {h h' : Heap} {p q : Ptr} (hrun : nodeMerge h p q = .ok h') :
    nodeMergeRet h p q = .ok (0, h') ∧ mergeReply h p q = .ok (h', []) := by
  have hret : nodeMergeRet h p q = .ok (0, h') := by
    rw [nodeMergeRet, hrun]
    rfl
  refine ⟨hret, ?_⟩
  rw [mergeReply, hret]
  rfl

/-- The merge itself goes through, with 0 and without a recheck. -/
theorem mergeReply_silent {h : Heap} {p q : Ptr} {as bs : List Nat} {xs ys : List Node}
    (hx : NodesOn h p as xs) (hy : NodesOn h q bs ys) (hne : xs ≠ []) (hdisj : as.Disjoint bs) :
    ∃ h', nodeMergeRet h p q = .ok (0, h') ∧ mergeReply h p q = .ok (h', []) := by
  obtain ⟨h', fs, hrun, -⟩ := nodeMerge_spec hx hy hne (fun b hb hba => hdisj hba hb)
  exact ⟨h', mergeReply_of_nodeMerge hrun⟩

/-- The return value is right exactly when there is nothing to report. -/
theorem reportsConflict_iff {h : Heap} {p q : Ptr} {as bs : List Nat} {xs ys : List Node}
    (hx : NodesOn h p as xs) (hy : NodesOn h q bs ys) (hne : xs ≠ []) (hdisj : as.Disjoint bs) :
    ReportsConflict h p q xs ys ↔ ¬ StrongConflict xs ys := by
  obtain ⟨h₁, hret₁, hreply₁⟩ := mergeReply_silent hx hy hne hdisj
  constructor
  · rintro ⟨ret, h', sends, hret, -, hiff, -⟩ hconflict
    rw [hret₁] at hret
    cases hret
    exact absurd (hiff.mpr hconflict) (by decide)
  · intro hno
    exact ⟨0, h₁, [], hret₁, hreply₁, iff_of_false (by decide) hno, fun _ => by decide,
      iff_of_false (by simp) hno⟩

/-- Two lists that have nothing in common. -/
theorem reportsConflict_iff_sample :
    let hA := Heap.empty.alloc sampleA
    let hB := hA.1.alloc sampleB
    ReportsConflict hB.1 hA.2 hB.2 sampleA sampleB ↔ ¬ StrongConflict sampleA sampleB := by
  obtain ⟨-, as, hA, -⟩ := Heap.empty.alloc_spec sampleA
  obtain ⟨hA', bs, hB, hab, -⟩ := Heap.alloc_apart hA sampleB
  exact reportsConflict_iff hA' hB (by simp [sampleA]) hab

/-- The sample node, its IP judged differently. -/
def sampleRejudged : Node :=
  { sampleNode with
    ipList := sampleNode.ipList.map (fun x => { x with type := serverIP }) }

theorem not_reportsConflict_rejudged :
    let hA := Heap.empty.alloc [sampleNode]
    let hB := hA.1.alloc [sampleRejudged]
    (ids [sampleNode]).Nodup ∧ (ids [sampleRejudged]).Nodup ∧
      StrongConflict [sampleNode] [sampleRejudged] ∧
      NodesAt hB.1 hA.2 [sampleNode] ∧ NodesAt hB.1 hB.2 [sampleRejudged] ∧
      ¬ ReportsConflict hB.1 hA.2 hB.2 [sampleNode] [sampleRejudged] := by
  obtain ⟨-, as, hA, -⟩ := Heap.empty.alloc_spec [sampleNode]
  obtain ⟨hA', bs, hB, hab, -⟩ := Heap.alloc_apart hA [sampleRejudged]
  have hconflict : StrongConflict [sampleNode] [sampleRejudged] := by decide
  refine ⟨by decide, by decide, hconflict, ⟨as, hA'⟩, ⟨bs, hB⟩, ?_⟩
  rintro ⟨ret, h', sends, hret, -, hiff, -⟩
  obtain ⟨h₁, hret₁, -⟩ := mergeReply_silent hA' hB (by simp) hab
  rw [hret₁] at hret
  cases hret
  exact absurd (hiff.mpr hconflict) (by decide)

end VpnP2p.Join
