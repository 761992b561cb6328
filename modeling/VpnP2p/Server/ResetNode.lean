import VpnP2p.NodeInfo.IpCounts
import VpnP2p.Server.Register

/-!
# A node that was reset

When its IPs changed, `join` counts `node_count` up, takes the IP list off the local node
and writes the infofile. Neither decoder brings such a node back, and the server stops at
the IP that nobody assigned when it writes its store.
-/

namespace VpnP2p.Server

open Foundation NodeInfo Util

/-- What `join` makes of the local node. -/
def resetNode (n : Node) : Node := { n with nodeCount := n.nodeCount + 1, ipList := [] }

/-- Sent to a server whose store is `L`, the list at `p` is merged into the store. -/
def ReachesStore (h : Heap) (p : Ptr) (s : ServerState) (L l : List Node) : Prop :=
  ∃ text s', struct2file h p = .ok text ∧ mergeAndSave s (cbuf text) = .ok s' ∧
    s'.Holds (mergeNodes (L.map Node.stripped) l)

/-- The list at `p` comes back from the file and from the wire with its numbers of IPs,
and reaches the store of every server. -/
structure SurvivesEncoding (h : Heap) (p : Ptr) (base : Heap) (l : List Node) : Prop where
  file : FileKeepsCounts h p base l
  wire : FitsDecoder l → WireKeepsCounts h p base l
  server : FitsDecoder l → ∀ s L, Stored s L → ReachesStore h p s L l

/-- A list survives the encoding exactly when every node has an IP. -/
theorem survivesEncoding_iff {h : Heap} {p : Ptr} {l : List Node} (hp : NodesAt h p l)
    (hl : ∀ n ∈ l, n.Unbroken) (base : Heap) :
    SurvivesEncoding h p base l ↔ ∀ n ∈ l, n.ipList ≠ [] := by
  constructor
  · intro hsurvives
    exact (fileKeepsCounts_iff hp hl base).mp hsurvives.file
  · intro hips
    have hLines : ∀ n ∈ l, n.OneLine := fun n hn => ((hl n hn).plain (hips n hn)).toOneLine
    refine ⟨(fileKeepsCounts_iff hp hl base).mpr hips,
      fun hfits => (wireKeepsCounts_iff hp hl base hfits).mpr hips, fun hfits s L hstored => ?_⟩
    obtain ⟨s', hstep, hs', -⟩ := hstored.handle (decodes_encode hLines hfits s)
    exact ⟨encode l, s', struct2file_nodesAt hp, hstep, hs'.holds⟩

theorem survivesEncoding_iff_sample :
    SurvivesEncoding (Heap.empty.alloc [sampleNode]).1 (Heap.empty.alloc [sampleNode]).2
      Heap.empty [sampleNode] ↔ ∀ n ∈ [sampleNode], n.ipList ≠ [] :=
  survivesEncoding_iff (Heap.empty.alloc_nodesAt [sampleNode])
    (by simpa using sampleNode_plain.unbroken) Heap.empty

/-- The first node of test_info.txt after a reset: it comes back with an IP, and a server
that knows the node stops. -/
theorem not_survivesEncoding_reset :
    let l := [resetNode sampleNode]
    let hl := Heap.empty.alloc l
    (∀ n ∈ l, n.Unbroken) ∧ FitsDecoder l ∧ ¬ SurvivesEncoding hl.1 hl.2 Heap.empty l ∧
      ¬ WireKeepsCounts hl.1 hl.2 Heap.empty l ∧
      mergeAndSave sampleServer (cbuf (encode l)) = .error .unassigned := by
  intro l hl
  have hp := Heap.empty.alloc_nodesAt l
  have hunbroken : ∀ n ∈ l, n.Unbroken := by
    intro n hn x hx
    rw [List.mem_singleton.mp hn] at hx
    simp [resetNode] at hx
  have hnone : ¬ ∀ n ∈ l, n.ipList ≠ [] := by decide
  have hfits : FitsDecoder l := by
    refine ⟨by decide, ?_⟩
    intro n hn
    rw [List.mem_singleton.mp hn]
    exact ⟨by decide, by decide, by decide, by simp [resetNode]⟩
  refine ⟨hunbroken, hfits, ?_, ?_, ?_⟩
  · intro hsurvives
    exact hnone ((fileKeepsCounts_iff hp hunbroken Heap.empty).mp hsurvives.file)
  · intro hwire
    exact hnone ((wireKeepsCounts_iff hp hunbroken Heap.empty hfits).mp hwire)
  · rfl

end VpnP2p.Server
