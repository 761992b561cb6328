import Mathlib.Data.Finset.Dedup
import VpnP2p.NodeInfo.MergeLaws

/-!
# Convergence of two nodes

The design's count rule says what two nodes should agree on after each merged the
other's list: under an id, the record with the larger node count, and under equal counts
the union of the IPs, newest first. `node_merge` leaves equal counts alone, so the two
nodes agree exactly when under every such id they agreed before.
-/

namespace VpnP2p.NodeInfo

open Foundation

/-! ## The count rule -/

/-- What the cluster knows under an id; the order of the IPs does not count. -/
structure Record where
  nodeCount : Int32
  reliable : Int32
  ips : Finset IP
deriving DecidableEq

def Node.record (n : Node) : Record := ⟨n.nodeCount, n.reliable, n.ipList.toFinset⟩

def clusterMap (l : List Node) (id : Int32) : Option Record :=
  (lookup Node.id id l).map Node.record

/-- `s` is the union of `xs` and `ys` in which each ip has a record of maximal count. -/
structure JoinedIps (xs ys s : Finset IP) : Prop where
  sound : ∀ z ∈ s, z ∈ xs ∨ z ∈ ys
  newest : ∀ z ∈ s, ∀ w, w ∈ xs ∨ w ∈ ys → w.ip = z.ip → w.sCount ≤ z.sCount
  complete : ∀ w, w ∈ xs ∨ w ∈ ys → ∃ z ∈ s, z.ip = w.ip
  single : ∀ z ∈ s, ∀ w ∈ s, z.ip = w.ip → z = w

/-- The rule for equal node counts. -/
structure Joined (x y r : Record) : Prop where
  nodeCount : r.nodeCount = x.nodeCount
  reliable : r.reliable = x.reliable ∨ r.reliable = y.reliable
  preferred : x.reliable = reliableMark ∨ y.reliable = reliableMark → r.reliable = reliableMark
  ips : JoinedIps x.ips y.ips r.ips

/-- The count rule for what two nodes hold under an id and what they should get. -/
def CountRule : Option Record → Option Record → Option Record → Prop
  | none, r, s => s = r
  | some x, none, s => s = some x
  | some x, some y, s =>
    if x.nodeCount < y.nodeCount then s = some y
    else if y.nodeCount < x.nodeCount then s = some x
    else ∃ r, s = some r ∧ Joined x y r

/-- Each node merges the other's list; then both know the same, and it is what the count
rule says. -/
def Converges (h : Heap) (pa pb : Ptr) (a b : List Node) : Prop :=
  ∃ h₁ h₂ ab ba, nodeMerge h pa pb = .ok h₁ ∧ NodesAt h₁ pa ab ∧
    nodeMerge h pb pa = .ok h₂ ∧ NodesAt h₂ pb ba ∧
    ∀ id, clusterMap ab id = clusterMap ba id ∧
      CountRule (clusterMap a id) (clusterMap b id) (clusterMap ab id)

/-- No IP was judged differently under the same node count and the same `s_count`. -/
def NoStrongConflict (a b : List Node) : Prop :=
  ∀ x ∈ a, ∀ y ∈ b, x.id = y.id → x.nodeCount = y.nodeCount →
    ∀ u ∈ x.ipList, ∀ v ∈ y.ipList, u.ip = v.ip → u.sCount = v.sCount → u.type = v.type

instance (a b : List Node) : Decidable (NoStrongConflict a b) :=
  inferInstanceAs (Decidable (∀ x ∈ a, ∀ y ∈ b, x.id = y.id → x.nodeCount = y.nodeCount →
    ∀ u ∈ x.ipList, ∀ v ∈ y.ipList, u.ip = v.ip → u.sCount = v.sCount → u.type = v.type))

/-- Records with the same id and count are the same, up to the order of the IPs. -/
def TiesAgree (a b : List Node) : Prop :=
  ∀ x ∈ a, ∀ y ∈ b, x.id = y.id → x.nodeCount = y.nodeCount →
    x.reliable = y.reliable ∧ x.ipList.toFinset = y.ipList.toFinset

instance (a b : List Node) : Decidable (TiesAgree a b) :=
  inferInstanceAs (Decidable (∀ x ∈ a, ∀ y ∈ b, x.id = y.id → x.nodeCount = y.nodeCount →
    x.reliable = y.reliable ∧ x.ipList.toFinset = y.ipList.toFinset))

/-! ## What `node_merge` makes of an id -/

theorem rank_lt {x y : Node} : x.rank < y.rank ↔ x.nodeCount < y.nodeCount :=
  Int32.lt_iff_toInt_lt.symm

theorem offerTo_of_not_lt {x y : Node} (h : ¬ x.nodeCount < y.nodeCount) : offerTo y x = x :=
  if_neg (fun hxy => h (rank_lt.mp hxy.2))

theorem joined_self {n : Node} (hips : (n.ipList.map IP.ip).Nodup) :
    Joined n.record n.record n.record where
  nodeCount := rfl
  reliable := Or.inl rfl
  preferred := fun h => h.elim id id
  ips := by
    have hone : ∀ z ∈ n.record.ips, ∀ w ∈ n.record.ips, z.ip = w.ip → z = w := by
      intro z hz w hw hip
      exact eq_of_key_eq hips (List.mem_toFinset.mp hz) (List.mem_toFinset.mp hw) hip
    refine ⟨fun z hz => Or.inl hz, fun z hz w hw hip => ?_, fun w hw => ⟨w, ?_, rfl⟩, hone⟩
    · rw [hone w (hw.elim id id) z hz hip]
      exact Int32.le_rfl
    · exact hw.elim id id

/-- Of two records of an id the one with the larger count is kept on both sides. -/
theorem offerTo_of_lt {x y : Node} (hid : x.id = y.id) (h : x.nodeCount < y.nodeCount) :
    offerTo y x = y ∧ offerTo x y = y :=
  ⟨offer_of_lt hid (rank_lt.mpr h), offerTo_of_not_lt (Int32.lt_asymm h)⟩

/-- Two records of an id that are the same when their counts are. -/
theorem agree_offerTo {x y : Node} (hid : x.id = y.id) (hips : (x.ipList.map IP.ip).Nodup)
    (htie : x.nodeCount = y.nodeCount →
      x.reliable = y.reliable ∧ x.ipList.toFinset = y.ipList.toFinset) :
    (offerTo y x).record = (offerTo x y).record ∧
      CountRule (some x.record) (some y.record) (some (offerTo y x).record) := by
  simp only [CountRule]
  by_cases hxy : x.nodeCount < y.nodeCount
  · obtain ⟨hoffer, hback⟩ := offerTo_of_lt hid hxy
    rw [hoffer, hback, if_pos (show x.record.nodeCount < y.record.nodeCount from hxy)]
    exact ⟨rfl, rfl⟩
  · by_cases hyx : y.nodeCount < x.nodeCount
    · obtain ⟨hoffer, hback⟩ := offerTo_of_lt hid.symm hyx
      rw [hoffer, hback, if_neg (show ¬ x.record.nodeCount < y.record.nodeCount from hxy),
        if_pos (show y.record.nodeCount < x.record.nodeCount from hyx)]
      exact ⟨rfl, rfl⟩
    · have hcount : x.nodeCount = y.nodeCount :=
        Int32.le_antisymm (Int32.not_lt.mp hyx) (Int32.not_lt.mp hxy)
      obtain ⟨hrel, hset⟩ := htie hcount
      have hrecord : x.record = y.record := by
        simp only [Node.record, hcount, hrel, hset]
      rw [offerTo_of_not_lt hxy, offerTo_of_not_lt hyx]
      refine ⟨hrecord, ?_⟩
      rw [if_neg (show ¬ x.record.nodeCount < y.record.nodeCount from hxy),
        if_neg (show ¬ y.record.nodeCount < x.record.nodeCount from hyx), ← hrecord]
      exact ⟨x.record, rfl, joined_self hips⟩

section Lists

variable {a b : List Node} (hida : (ids a).Nodup) (hidb : (ids b).Nodup)

include hida hidb

theorem clusterMap_merge (id : Int32) : clusterMap (mergeNodes a b) id =
    match lookup Node.id id a, lookup Node.id id b with
    | some x, some y => some (offerTo y x).record
    | some x, none => some x.record
    | none, r => r.map Node.record := by
  unfold clusterMap
  rw [mergeNodes, lookup_merge hida hidb]
  cases lookup Node.id id a <;> cases lookup Node.id id b <;> rfl

/-- The two merges and the count rule, id by id. -/
theorem agree_iff_tiesAgree (hipa : ∀ n ∈ a, (n.ipList.map IP.ip).Nodup) :
    (∀ id, clusterMap (mergeNodes a b) id = clusterMap (mergeNodes b a) id ∧
      CountRule (clusterMap a id) (clusterMap b id) (clusterMap (mergeNodes a b) id)) ↔
    TiesAgree a b := by
  constructor
  · intro h x hx y hy hid hcount
    obtain ⟨heq, -⟩ := h x.id
    rw [clusterMap_merge hida hidb, clusterMap_merge hidb hida,
      (lookup_eq_some hida).mpr ⟨hx, rfl⟩, (lookup_eq_some hidb).mpr ⟨hy, hid.symm⟩] at heq
    have hxy : ¬ x.nodeCount < y.nodeCount := by
      rw [hcount]
      exact Int32.lt_irrefl
    have hyx : ¬ y.nodeCount < x.nodeCount := by
      rw [hcount]
      exact Int32.lt_irrefl
    simp only [offerTo_of_not_lt hxy, offerTo_of_not_lt hyx, Node.record, Option.some.injEq,
      Record.mk.injEq] at heq
    exact ⟨heq.2.1, heq.2.2⟩
  · intro h id
    rw [clusterMap_merge hida hidb, clusterMap_merge hidb hida]
    unfold clusterMap
    cases hla : lookup Node.id id a with
    | none => cases lookup Node.id id b <;> exact ⟨rfl, rfl⟩
    | some x =>
      cases hlb : lookup Node.id id b with
      | none => exact ⟨rfl, rfl⟩
      | some y =>
        obtain ⟨hx, hidx⟩ := (lookup_eq_some hida).mp hla
        obtain ⟨hy, hidy⟩ := (lookup_eq_some hidb).mp hlb
        have hid : x.id = y.id := hidx.trans hidy.symm
        obtain ⟨hrecord, hrule⟩ := agree_offerTo hid (hipa x hx) (h x hx y hy hid)
        exact ⟨congrArg some hrecord, hrule⟩

end Lists

/-! ## Two nodes -/

section Nodes

variable {h : Heap} {pa pb : Ptr} {as bs : List Nat} {a b : List Node}

theorem converges_iff_lists (ha : NodesOn h pa as a) (hb : NodesOn h pb bs b) (hane : a ≠ [])
    (hbne : b ≠ []) (hab : as.Disjoint bs) : Converges h pa pb a b ↔
      ∀ id, clusterMap (mergeNodes a b) id = clusterMap (mergeNodes b a) id ∧
        CountRule (clusterMap a id) (clusterMap b id) (clusterMap (mergeNodes a b) id) := by
  obtain ⟨h₁, fs, hrun₁, hon₁, -⟩ := nodeMerge_spec ha hb hane (fun d hd hda => hab hda hd)
  obtain ⟨h₂, gs, hrun₂, hon₂, -⟩ := nodeMerge_spec hb ha hbne (fun d hd hdb => hab hd hdb)
  constructor
  · rintro ⟨h₁', h₂', ab, ba, hrun₁', hl₁, hrun₂', hl₂, hagree⟩
    rw [hrun₁] at hrun₁'
    rw [hrun₂] at hrun₂'
    cases hrun₁'
    cases hrun₂'
    rw [hl₁.unique ⟨_, hon₁⟩, hl₂.unique ⟨_, hon₂⟩] at hagree
    exact hagree
  · intro hagree
    exact ⟨h₁, h₂, _, _, hrun₁, ⟨_, hon₁⟩, hrun₂, ⟨_, hon₂⟩, hagree⟩

/-- Two nodes that exchange their lists converge on what the count rule says exactly when
no id with equal counts differs between them. -/
theorem converges_iff_tiesAgree (ha : NodesOn h pa as a) (hb : NodesOn h pb bs b) (hane : a ≠ [])
    (hbne : b ≠ []) (hab : as.Disjoint bs) (hida : (ids a).Nodup) (hidb : (ids b).Nodup)
    (hipa : ∀ n ∈ a, (n.ipList.map IP.ip).Nodup) :
    Converges h pa pb a b ↔ TiesAgree a b := by
  rw [converges_iff_lists ha hb hane hbne hab]
  exact agree_iff_tiesAgree hida hidb hipa

theorem converges_iff_tiesAgree_sample :
    let hA := Heap.empty.alloc sampleA
    let hB := hA.1.alloc sampleB
    Converges hB.1 hA.2 hB.2 sampleA sampleB ↔ TiesAgree sampleA sampleB := by
  obtain ⟨-, as, hA, -⟩ := Heap.empty.alloc_spec sampleA
  obtain ⟨hA', bs, hB, hab, -⟩ := Heap.alloc_apart hA sampleB
  exact converges_iff_tiesAgree hA' hB (by simp [sampleA]) (by simp [sampleB]) hab (by decide)
    (by decide) (by decide)

/-- The node of the sample, seen at another address. -/
def sampleMoved : List Node :=
  [{ sampleNode with ipList := [⟨sampleThere, clientIP, 1, 1⟩] }]

/-- Two views of a node under the same count and without a conflict stay apart. -/
theorem not_converges_equalCounts :
    let hA := Heap.empty.alloc sampleA
    let hB := hA.1.alloc sampleMoved
    (ids sampleA).Nodup ∧ (ids sampleMoved).Nodup ∧
      (∀ n ∈ sampleA ++ sampleMoved, (n.ipList.map IP.ip).Nodup) ∧
      NoStrongConflict sampleA sampleMoved ∧
      NodesAt hB.1 hA.2 sampleA ∧ NodesAt hB.1 hB.2 sampleMoved ∧
      ¬ Converges hB.1 hA.2 hB.2 sampleA sampleMoved := by
  obtain ⟨-, as, hA, -⟩ := Heap.empty.alloc_spec sampleA
  obtain ⟨hA', bs, hB, hab, -⟩ := Heap.alloc_apart hA sampleMoved
  refine ⟨by decide, by decide, by decide, by decide, ⟨as, hA'⟩, ⟨bs, hB⟩, fun hconv => ?_⟩
  have hagree :=
    (converges_iff_lists hA' hB (by simp [sampleA]) (by simp [sampleMoved]) hab).mp hconv
  have hne : clusterMap (mergeNodes sampleA sampleMoved) 123 ≠
      clusterMap (mergeNodes sampleMoved sampleA) 123 := by decide
  exact hne (hagree 123).1

end Nodes

end VpnP2p.NodeInfo
