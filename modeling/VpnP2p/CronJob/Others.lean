import VpnP2p.CronJob.Routes

/-!
# The nodes that a refresh of the routes reaches

The second loop of `handle_router_refresh` asks in its condition whether the node is the
local one, so it does not step over that node but stops there. The other nodes are all
reached exactly where the local node is the last of the list.
-/

namespace VpnP2p.CronJob

open Foundation NodeInfo Util Server

/-- The cells of the nodes under another id. -/
def others (id : Int32) (as : List Nat) (l : List Node) : List Nat :=
  ((as.zip l).filter (fun x => x.2.id ≠ id)).map Prod.fst

/-- One call for every other node, in list order, from the local node. -/
def RefreshesOthers (σ : Process) (as : List Nat) (l : List Node) : Prop :=
  ∃ a n, (a, n) ∈ as.zip l ∧ n.id = σ.localNodeId ∧
    handleRouterRefresh σ = .ok ((others σ.localNodeId as l).map (fun b => (.addr a, .addr b)))

theorem others_append {id : Int32} {as bs : List Nat} {xs ys : List Node}
    (hlen : as.length = xs.length) :
    others id (as ++ bs) (xs ++ ys) = others id as xs ++ others id bs ys := by
  simp only [others, List.zip_append hlen, List.filter_append, List.map_append]

theorem others_cons_local {id : Int32} {a : Nat} {as : List Nat} {n : Node} {l : List Node}
    (hn : n.id = id) : others id (a :: as) (n :: l) = others id as l := by
  simp [others, hn]

theorem others_of_not_mem {id : Int32} {as : List Nat} {l : List Node}
    (hlen : as.length = l.length) (hid : id ∉ ids l) : others id as l = as := by
  have hall : ∀ x ∈ as.zip l, decide (x.2.id ≠ id) = true := by
    intro x hx
    have hmem : x.2.id ∈ ids l := List.mem_map_of_mem (List.of_mem_zip hx).2
    exact decide_eq_true (fun h => hid (h ▸ hmem))
  rw [others, List.filter_eq_self.mpr hall, List.map_fst_zip (Nat.le_of_eq hlen)]

/-! ## The calls -/

section Loops

variable {h : Heap} {id : Int32} {as : List Nat} {ns : List Node}
  (hcont : Contents (NodeCell.Holds h.ips) h.nodes as ns) (hid : id ∉ ids ns)

include hcont hid

/-- In front of the local node every round of the second loop makes its call. -/
theorem foldFlow_refreshOther_next (fromNode : Ptr) (calls : List (Ptr × Ptr)) :
    foldFlow (refreshOther h id fromNode) as calls =
      .ok (.next (calls ++ as.map (fun b => (fromNode, .addr b)))) := by
  induction hcont generalizing calls with
  | nil => simp
  | @cons a n as ns ha _ ih =>
    simp only [ids, List.map_cons, List.mem_cons, not_or] at hid
    have hstep := refreshOther_eq id ha fromNode calls
    rw [if_neg (Ne.symm hid.1)] at hstep
    rw [foldFlow_cons_next hstep, ih hid.2, List.append_assoc]
    rfl

theorem foldFlow_findLocal_next : foldFlow (findLocal h id) as () = .ok (.next ()) := by
  apply foldFlow_search_none findLocal_eq hcont
  intro n hn hnid
  exact hid (hnid ▸ List.mem_map_of_mem hn)

end Loops

section Calls

variable {σ : Process} {as bs : List Nat} {a : Nat} {pre post : List Node} {n : Node}

/-- The calls are those for the nodes in front of the local one. -/
theorem handleRouterRefresh_eq
    (hlinks : Seg NodeCell.nextNode σ.heap.nodes σ.localNode (as ++ a :: bs) .null)
    (hcont : Contents (NodeCell.Holds σ.heap.ips) σ.heap.nodes as pre)
    (ha : ∃ c, σ.heap.nodes[a]? = some c ∧ c.Holds σ.heap.ips n)
    (hpre : σ.localNodeId ∉ ids pre) (hn : n.id = σ.localNodeId) :
    handleRouterRefresh σ = .ok (as.map (fun b => (.addr a, .addr b))) := by
  have hfuel := Nat.lt_succ_of_le hlinks.length_le
  have hfind : foldFlow (findLocal σ.heap σ.localNodeId) (as ++ a :: bs) () =
      .ok (.done (.addr a)) := by
    rw [foldFlow_append_next (foldFlow_findLocal_next hcont hpre)]
    have hstep : findLocal σ.heap σ.localNodeId a () = .ok _ := findLocal_eq a n ha
    rw [if_pos hn] at hstep
    exact foldFlow_cons_done hstep
  have hcalls : foldFlow (refreshOther σ.heap σ.localNodeId (.addr a)) (as ++ a :: bs) [] =
      .ok (.done (as.map (fun b => (.addr a, .addr b)))) := by
    rw [foldFlow_append_next (foldFlow_refreshOther_next hcont hpre (.addr a) [])]
    have hstep := refreshOther_eq σ.localNodeId ha (.addr a)
      (as.map (fun b => (.addr a, .addr b)))
    rw [if_pos hn] at hstep
    exact foldFlow_cons_done hstep
  simp only [handleRouterRefresh, forChainFlow_read_eq_foldFlow hlinks hfuel, hfind, hcalls,
    ok_bind]

end Calls

/-- An id that stands at one place is the last one if nothing stands behind it. -/
theorem getLast?_ids_iff {id : Int32} {n : Node} {pre post : List Node} (hn : n.id = id)
    (hpost : id ∉ ids post) : (ids (pre ++ n :: post)).getLast? = some id ↔ post = [] := by
  constructor
  · intro hlast
    by_contra hne
    have hne' : post.map Node.id ≠ [] := by simpa using hne
    rw [ids, List.map_append, List.map_cons, List.getLast?_append_of_ne_nil _ (by simp),
      List.getLast?_cons_of_ne_nil hne'] at hlast
    exact hpost (List.mem_of_getLast? hlast)
  · rintro rfl
    simp [ids, hn]

/-- Every other node gets its call exactly if none stands behind the local node. -/
theorem refreshesOthers_iff {σ : Process} {as : List Nat} {l : List Node}
    (hlocal : NodesOn σ.heap σ.localNode as l) (hnodup : (ids l).Nodup)
    (hid : σ.localNodeId ∈ ids l) :
    RefreshesOthers σ as l ↔ (ids l).getLast? = some σ.localNodeId := by
  obtain ⟨n, hn, hnid⟩ := List.mem_map.mp hid
  obtain ⟨pre, post, rfl⟩ := List.append_of_mem hn
  obtain ⟨hlinks, hcont⟩ := hlocal
  obtain ⟨cs, a, bs, rfl, hpre, ha, hpost⟩ := hcont.split
  simp only [ids, List.map_append, List.map_cons, hnid, List.nodup_append,
    List.nodup_cons] at hnodup
  obtain ⟨-, ⟨hpostId, -⟩, hdisj⟩ := hnodup
  have hpreId : σ.localNodeId ∉ ids pre := fun h => hdisj _ h _ (List.mem_cons_self) rfl
  have hlen₁ : cs.length = pre.length := hpre.length_eq
  have hlen₂ : bs.length = post.length := hpost.length_eq
  have hothers : others σ.localNodeId (cs ++ a :: bs) (pre ++ n :: post) = cs ++ bs := by
    rw [others_append hlen₁, others_cons_local hnid, others_of_not_mem hlen₁ hpreId,
      others_of_not_mem hlen₂ hpostId]
  have hrun := handleRouterRefresh_eq hlinks hpre ha hpreId hnid
  rw [getLast?_ids_iff hnid hpostId]
  constructor
  · rintro ⟨a', n', -, -, hcalls⟩
    rw [hrun, hothers] at hcalls
    have hlen := congrArg List.length (Except.ok.inj hcalls)
    simp only [List.length_map, List.length_append] at hlen
    exact List.eq_nil_of_length_eq_zero (by omega)
  · rintro rfl
    obtain rfl : bs = [] := List.eq_nil_of_length_eq_zero hlen₂
    refine ⟨a, n, ?_, hnid, ?_⟩
    · rw [List.zip_append hlen₁]
      simp
    · rw [hrun, hothers, List.append_nil]

/-- A process that knows two nodes, one of them under `id` its own. -/
def sampleCluster (id : Int32) : Process where
  heap := (Heap.empty.alloc (sampleNodes [123, 124])).1
  file := none
  localNode := (Heap.empty.alloc (sampleNodes [123, 124])).2
  localNodeId := id

theorem refreshesOthers_iff_sample : ∃ as,
    RefreshesOthers (sampleCluster 124) as (sampleNodes [123, 124]) ↔
      (ids (sampleNodes [123, 124])).getLast? = some 124 := by
  obtain ⟨as, hlocal⟩ := Heap.empty.alloc_nodesAt (sampleNodes [123, 124])
  exact ⟨as, refreshesOthers_iff (σ := sampleCluster 124) hlocal (by decide) (by decide)⟩

/-- The local node comes first, and the other one is not reached. -/
theorem not_refreshesOthers_first : ∃ as,
    NodesOn (sampleCluster 123).heap (sampleCluster 123).localNode as (sampleNodes [123, 124]) ∧
      (ids (sampleNodes [123, 124])).Nodup ∧
      (sampleCluster 123).localNodeId ∈ ids (sampleNodes [123, 124]) ∧
      handleRouterRefresh (sampleCluster 123) = .ok [] ∧
      ¬ RefreshesOthers (sampleCluster 123) as (sampleNodes [123, 124]) := by
  obtain ⟨as, hlocal⟩ := Heap.empty.alloc_nodesAt (sampleNodes [123, 124])
  have hrun : handleRouterRefresh (sampleCluster 123) = .ok [] := rfl
  refine ⟨as, hlocal, by decide, by decide, hrun, ?_⟩
  rintro ⟨a, n, -, -, hcalls⟩
  rw [hrun] at hcalls
  have hlen := List.Forall₂.length_eq hlocal.contents
  match as, hlen with
  | [b, c], _ => simp [others, sampleNodes, sampleCluster] at hcalls

end VpnP2p.CronJob
