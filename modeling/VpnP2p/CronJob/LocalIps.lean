import VpnP2p.CronJob.Others

/-!
# The local IPs after a refresh

`local_ip_refresh` takes `before_ip_list` out of `local_node` after `generate_local_node`
has put its own node there. So it compares the new list with itself: a change is never
seen, no entry is ever marked, and what was in `local_node` before is gone, whatever the
addresses are.
-/

namespace VpnP2p.CronJob

open Foundation NodeInfo Util Server

/-- The node has the addresses of the host, in some order. -/
def SameIps (n : Node) (host : Host) : Prop := (ipStrings n.ipList).Perm (strings host)

/-! ## What should hold -/

/-- A node other than the local one stays as it is; the local one keeps its id, and its
entries too as long as the addresses are the same. -/
structure Kept (id : Int32) (host : Host) (n n' : Node) : Prop where
  sameId : n'.id = n.id
  others : n.id ≠ id → n' = n
  entries : n.id = id → SameIps n host → n'.ipList = n.ipList

/-- A refresh touches nothing but the IP list of the local node. -/
def LeavesRest (rand : UInt32 → Nat) (host : Host) (σ : Process) : Prop :=
  ∃ l σ' l', NodesAt σ.heap σ.localNode l ∧ localIpRefresh rand host σ = .ok σ' ∧
    NodesAt σ'.heap σ'.localNode l' ∧ σ'.localNodeId = σ.localNodeId ∧
    List.Forall₂ (Kept σ.localNodeId host) l l'

/-- The count goes up, the list has the addresses of the host, an address that was there
is no longer valid, and a new one is marked as unknown. -/
structure Marked (host : Host) (n n' : Node) : Prop where
  nodeCount : n'.nodeCount = n.nodeCount + 1
  ips : SameIps n' host
  shared : ∀ x ∈ n'.ipList, x.ip ∈ ipStrings n.ipList → x.validity = 0
  new : ∀ x ∈ n'.ipList, x.ip ∉ ipStrings n.ipList →
    x.type = unknownIP ∧ x.sCount = 0 ∧ x.validity = 1

/-- A refresh marks the local node. -/
def MarksChange (rand : UInt32 → Nat) (host : Host) (σ : Process) : Prop :=
  ∃ l n σ' l' n', NodesAt σ.heap σ.localNode l ∧ n ∈ l ∧ n.id = σ.localNodeId ∧
    localIpRefresh rand host σ = .ok σ' ∧ NodesAt σ'.heap σ'.localNode l' ∧ n' ∈ l' ∧
    n'.id = σ'.localNodeId ∧ Marked host n n'

/-! ## The entry of the new node -/

section Entry

variable {rand : UInt32 → Nat} {host : Host} {σ σ' : Process} {l : List Node}

theorem localNode_of_localIpRefresh (hrun : localIpRefresh rand host σ = .ok σ')
    (hl : NodesAt σ'.heap σ'.localNode l) : host.Served ∧
      σ'.localNodeId = generateId rand host.time ∧
      l = [host.localNode (generateId rand host.time)] := by
  have hserved := served_of_localIpRefresh hrun
  obtain ⟨σ'', hrun', -, hid, hlocal⟩ := localIpRefresh_spec rand σ hserved
  rw [hrun] at hrun'
  cases hrun'
  exact ⟨hserved, hid, hl.unique hlocal⟩

/-- The one entry has the host's addresses only if there is an address. -/
theorem addresses_ne_nil {n : Node} (hips : n.ipList = [host.ip 1]) (hsame : SameIps n host) :
    host.addresses ≠ [] := by
  intro hnone
  have hlen := hsame.length_eq
  rw [hips, strings, hnone] at hlen
  cases hlen

theorem Host.ip_of_ne_nil (hne : host.addresses ≠ []) : (host.ip 1).type = clientIP ∧
    (host.ip 1).sCount = 0 ∧ (host.ip 1).validity = 1 := by
  unfold Host.ip
  cases has : host.addresses with
  | nil => exact absurd has hne
  | cons a as => exact ⟨rfl, rfl, rfl⟩

/-- The entries of a new node, with the same address. -/
theorem ipList_eq_of_same (hserved : host.Served) {n : Node} (hsame : SameIps n host)
    (hne : host.addresses ≠ [])
    (hmarks : ∀ x ∈ n.ipList, x.type = clientIP ∧ x.sCount = 0 ∧ x.validity = 1) :
    n.ipList = [host.ip 1] := by
  obtain ⟨a, has⟩ := hserved.addresses.resolve_left hne
  have hips : ipStrings n.ipList = [a.ip] := by
    rw [SameIps, strings, has] at hsame
    exact List.perm_singleton.mp hsame
  obtain ⟨x, hx, hip⟩ := List.map_eq_singleton_iff.mp hips
  obtain ⟨htype, hcount, hvalid⟩ := hmarks x (by simp [hx])
  have hxip : x = host.ip 1 := by
    rw [Host.ip, has]
    cases x
    simp_all
  rw [hx, hxip]

end Entry

/-! ## What is left alone -/

/-- The local node is the whole cluster, the generator works and draws its id again, and
if its address is still the host's, its entry already is what the generator writes. -/
structure Undisturbed (rand : UInt32 → Nat) (host : Host) (id : Int32) (l : List Node) : Prop where
  served : host.Served
  alone : ids l = [id]
  drawn : generateId rand host.time = id
  entries : ∀ n ∈ l, SameIps n host → host.addresses ≠ [] ∧
    ∀ x ∈ n.ipList, x.type = clientIP ∧ x.sCount = 0 ∧ x.validity = 1

theorem leavesRest_iff {rand : UInt32 → Nat} {host : Host} {σ : Process} {l : List Node}
    (hlocal : NodesAt σ.heap σ.localNode l) :
    LeavesRest rand host σ ↔ Undisturbed rand host σ.localNodeId l := by
  constructor
  · rintro ⟨l₀, σ', l', hl₀, hrun, hl', hid, hkept⟩
    obtain rfl := hlocal.unique hl₀
    obtain ⟨hserved, hid', rfl⟩ := localNode_of_localIpRefresh hrun hl'
    obtain ⟨n, ns, hn, hns, rfl⟩ := List.forall₂_cons_right_iff.mp hkept
    obtain rfl := List.forall₂_nil_right_iff.mp hns
    have hdrawn : generateId rand host.time = σ.localNodeId := hid'.symm.trans hid
    have hnid : n.id = σ.localNodeId := hn.sameId.symm.trans hdrawn
    refine ⟨hserved, congrArg (fun i => [i]) hnid, hdrawn, fun m hm hsame => ?_⟩
    obtain rfl := List.mem_singleton.mp hm
    have hips : m.ipList = [host.ip 1] := (hn.entries hnid hsame).symm
    have hne := addresses_ne_nil hips hsame
    refine ⟨hne, fun x hx => ?_⟩
    rw [hips] at hx
    obtain rfl := List.mem_singleton.mp hx
    exact Host.ip_of_ne_nil hne
  · intro h
    obtain ⟨σ', hrun, -, hid, hl'⟩ := localIpRefresh_spec rand σ h.served
    obtain ⟨n, rfl, hnid⟩ := List.map_eq_singleton_iff.mp h.alone
    refine ⟨[n], σ', _, hlocal, hrun, hl', hid.trans h.drawn, .cons ⟨?_, ?_, ?_⟩ .nil⟩
    · exact h.drawn.trans hnid.symm
    · intro hother
      exact absurd hnid hother
    · intro _ hsame
      obtain ⟨hne, hmarks⟩ := h.entries n (by simp) hsame
      exact (ipList_eq_of_same h.served hsame hne hmarks).symm

theorem leavesRest_iff_sample : LeavesRest UInt32.toNat sampleHost (sampleCluster 123) ↔
    Undisturbed UInt32.toNat sampleHost 123 (sampleNodes [123, 124]) :=
  leavesRest_iff (σ := sampleCluster 123) (Heap.empty.alloc_nodesAt _)

/-- The refresh drops node 124 and gives the local node the id 1. -/
theorem not_leavesRest_dropped :
    NodesAt (sampleCluster 123).heap (sampleCluster 123).localNode (sampleNodes [123, 124]) ∧
      (sampleCluster 123).localNodeId ∈ ids (sampleNodes [123, 124]) ∧
      ¬ LeavesRest UInt32.toNat sampleHost (sampleCluster 123) := by
  refine ⟨Heap.empty.alloc_nodesAt _, by decide, ?_⟩
  rintro ⟨l, σ', l', -, hrun, hl', hid, -⟩
  obtain ⟨-, hid', -⟩ := localNode_of_localIpRefresh hrun hl'
  rw [hid] at hid'
  exact absurd hid' (by decide)

/-! ## What is marked -/

/-- The one entry would have to be marked. -/
theorem MarksChange.entry {rand : UInt32 → Nat} {host : Host} {σ : Process}
    (h : MarksChange rand host σ) : host.addresses ≠ [] ∧
      ((host.ip 1).validity = 0 ∨ (host.ip 1).type = unknownIP) := by
  obtain ⟨l, n, σ', l', n', -, -, -, hrun, hl', hn', -, hmarked⟩ := h
  obtain ⟨-, -, rfl⟩ := localNode_of_localIpRefresh hrun hl'
  obtain rfl := List.mem_singleton.mp hn'
  have hentry : host.ip 1 ∈ (host.localNode (generateId rand host.time)).ipList :=
    List.mem_singleton.mpr rfl
  refine ⟨addresses_ne_nil rfl hmarked.ips, ?_⟩
  by_cases hshared : (host.ip 1).ip ∈ ipStrings n.ipList
  · exact .inl (hmarked.shared _ hentry hshared)
  · exact .inr (hmarked.new _ hentry hshared).1

/-- No change is ever marked. -/
theorem marksChange_never (rand : UInt32 → Nat) (host : Host) (σ : Process) :
    ¬ MarksChange rand host σ := by
  intro h
  obtain ⟨hne, hmark⟩ := h.entry
  obtain ⟨htype, -, hvalid⟩ := Host.ip_of_ne_nil hne
  rw [htype, hvalid] at hmark
  rcases hmark with hmark | hmark
  · exact absurd hmark (by decide)
  · exact absurd hmark (by decide)

/-- The local node had 127.0.0.1, and the host has 10.0.0.1. -/
theorem not_marksChange_new :
    NodesAt (sampleCluster 123).heap (sampleCluster 123).localNode (sampleNodes [123, 124]) ∧
      (∀ n ∈ sampleNodes [123, 124], (ipStrings n.ipList).Nodup ∧ ¬ SameIps n sampleHost) ∧
      (strings sampleHost).Nodup ∧ sampleHost.Served ∧
      ¬ MarksChange UInt32.toNat sampleHost (sampleCluster 123) := by
  refine ⟨Heap.empty.alloc_nodesAt _, ?_, by decide, sampleHost_served, fun h => ?_⟩
  · intro n hn
    obtain ⟨id, -, rfl⟩ := List.mem_map.mp hn
    refine ⟨List.nodup_singleton _, fun hsame => ?_⟩
    have hip : [sampleHere] = [sampleAddress.ip] := List.perm_singleton.mp hsame
    exact absurd hip (by decide)
  · exact absurd h.entry.2 (by decide)

end VpnP2p.CronJob
