import VpnP2p.NodeInfo.Generate

/-!
# All addresses of the host

The generators on an array that starts with the addresses of the host and a NULL, whatever
stands behind. The list they build is complete and ends only if there is a single address
and the memory from `malloc` is zero.
-/

namespace VpnP2p.NodeInfo

open Foundation

/-- The node at `p` lists `ips` in order, and the list ends, so that `struct2file` does. -/
structure Lists (h : Heap) (p : Ptr) (n : Node) (ips : List (CStr 20)) : Prop where
  node : NodeAt h p n
  acyclic : ∃ c as, load h.nodes p = .ok c ∧ Seg IPCell.nextIp h.ips c.ipList as .null ∧ as.Nodup
  ips : n.ipList.map IP.ip = ips
  written : ∃ text, struct2file h p = .ok text

/-- The node that `generate_local_node` returns lists the addresses. -/
def ListsLocal (rand : UInt32 → Nat) (host : Host) (h : Heap) (local_ip_list : List Slot)
    (as : List Address) : Prop :=
  ∃ h' node id n, localNodeFrom rand host h local_ip_list = .ok (h', node, id) ∧
    Lists h' node n (as.map Address.ip) ∧ ∀ x ∈ n.ipList, x.sCount = 0 ∧ x.validity = 1

/-- The node that `generate_node_info` hands to `struct2file` lists the addresses and
`server_ip`. -/
def ListsInfo (rand : UInt32 → Nat) (host : Host) (server_ip : Address)
    (local_ip_list : List Slot) (as : List Address) : Prop :=
  ∃ h' node n, nodeInfoFrom rand host server_ip local_ip_list = .ok (h', node) ∧
    Lists h' node n (as.map Address.ip ++ [server_ip.ip]) ∧
    n.ipList.getLast?.map IP.type = some serverIP

theorem Lists.of_nodesAt {h : Heap} {p : Ptr} {n : Node} (hn : NodesAt h p [n]) :
    Lists h p n (n.ipList.map IP.ip) := by
  obtain ⟨c, hc, hholds⟩ := hn.nodeAt
  obtain ⟨as, hlinks, -⟩ := hholds.ipList
  exact ⟨hn.nodeAt, ⟨c, as, hc, hlinks, hlinks.nodup⟩, rfl, _, struct2file_nodesAt hn⟩

section Memory

variable {rand : UInt32 → Nat} {host : Host} {h : Heap} {server_ip a : Address} {list : List Slot}

/-- Nobody assigns the last link, so the list ends there only if `malloc` did. -/
theorem cleared_of_seg {m : Mem IPCell} {as : List Nat}
    (hlinks : Seg IPCell.nextIp m host.mallocIp.nextIp as .null) : host.cleared = true := by
  by_contra hraw
  rw [Host.mallocIp, if_neg hraw] at hlinks
  cases as with
  | nil => cases hlinks
  | cons b as => cases hlinks.1

theorem fillIps_fresh (host : Host) (a : Address) (list : List Slot) (mark : IPCell → IPCell)
    (m : Mem IPCell) :
    fillIps mark (.ip a :: .null :: list) ipListSize 0 (m ++ [host.mallocIp]) (.addr m.length) =
      .ok (m ++ [mark { host.mallocIp with
        ip := some a.ip, type := some clientIP, sCount := some 0 }], .addr m.length) := by
  rw [fillIps_one (by simp), modify_concat]

theorem mallocIp_of_cleared (hclear : host.cleared = true) : host.mallocIp = .zero := by
  rw [Host.mallocIp, if_pos hclear]

/-- A single address is listed, where `malloc` returns zeros. -/
theorem listsLocal_one :
    ListsLocal rand host h (.ip a :: .null :: list) [a] ↔ host.cleared = true := by
  have hfill := fillIps_fresh host a list setValid h.ips
  constructor
  · rintro ⟨h', node, id, n, hrun, hlists, -⟩
    simp only [localNodeFrom, hfill, ok_bind] at hrun
    cases hrun
    obtain ⟨c, as, hc, hlinks, -⟩ := hlists.acyclic
    rw [load_addr List.getElem?_concat_length] at hc
    cases hc
    obtain ⟨bs, -, hrest⟩ := hlinks.behind_head List.getElem?_concat_length
    exact cleared_of_seg hrest
  · intro hclear
    have hend : host.mallocIp.nextIp = .null := by rw [mallocIp_of_cleared hclear]; rfl
    obtain ⟨h', hrun, -, hnode⟩ := localNodeFrom_of_fill rand
      (x := ⟨a.ip, clientIP, 0, 1⟩) hclear hfill ⟨rfl, rfl, rfl, rfl⟩ hend
    exact ⟨h', _, _, _, hrun, .of_nodesAt ⟨_, hnode⟩, by simp⟩

theorem listsInfo_one :
    ListsInfo rand host server_ip (.ip a :: .null :: list) [a] ↔ host.cleared = true := by
  have hfill := fillIps_fresh host a list id []
  rw [List.nil_append, List.nil_append, List.length_nil] at hfill
  constructor
  · rintro ⟨h', node, n, hrun, hlists, -⟩
    simp only [nodeInfoFrom, hfill, ok_bind] at hrun
    cases hrun
    obtain ⟨c, as, hc, hlinks, -⟩ := hlists.acyclic
    cases hc
    obtain ⟨bs, -, hserver⟩ := hlinks.behind_head rfl
    obtain ⟨bs', -, hrest⟩ := hserver.behind_head rfl
    exact cleared_of_seg hrest
  · intro hclear
    have hvalid : host.mallocIp.validity = some 0 := by rw [mallocIp_of_cleared hclear]; rfl
    obtain ⟨h', hrun, hnode⟩ := nodeInfoFrom_of_fill rand server_ip
      (x := ⟨a.ip, clientIP, 0, 0⟩) hclear hfill ⟨rfl, rfl, rfl, hvalid⟩
    exact ⟨h', _, _, hrun, .of_nodesAt hnode, rfl⟩

end Memory

/-- Nothing is listed behind a second address. -/
theorem not_listsLocal_two {rand : UInt32 → Nat} {host : Host} {h : Heap} {a a' : Address}
    {list : List Slot} {as : List Address} :
    ¬ ListsLocal rand host h (.ip a :: .ip a' :: list) as := by
  rintro ⟨h', node, id, n, hrun, -⟩
  obtain ⟨r, hfill, -⟩ := bind_eq_ok.mp hrun
  exact fillIps_two hfill

theorem not_listsInfo_two {rand : UInt32 → Nat} {host : Host} {server_ip a a' : Address}
    {list : List Slot} {as : List Address} :
    ¬ ListsInfo rand host server_ip (.ip a :: .ip a' :: list) as := by
  rintro ⟨h', node, n, hrun, -⟩
  obtain ⟨r, hfill, -⟩ := bind_eq_ok.mp hrun
  exact fillIps_two hfill

/-- On an array of at least one address in front of NULL, the generated node lists all
addresses, and the written one the server's behind them, iff there is one address only and
the memory from `malloc` is zero. -/
theorem generators_list_iff (rand : UInt32 → Nat) (host : Host) (h : Heap)
    (server_ip a : Address) (as : List Address) (list : List Slot) :
    (ListsLocal rand host h ((a :: as).map .ip ++ .null :: list) (a :: as) ↔
      host.cleared = true ∧ as = []) ∧
    (ListsInfo rand host server_ip ((a :: as).map .ip ++ .null :: list) (a :: as) ↔
      host.cleared = true ∧ as = []) := by
  cases as with
  | nil => exact ⟨listsLocal_one.trans (by simp), listsInfo_one.trans (by simp)⟩
  | cons a' as =>
    have hmany : ¬ (host.cleared = true ∧ a' :: as = []) := by simp
    exact ⟨iff_of_false not_listsLocal_two hmany, iff_of_false not_listsInfo_two hmany⟩

def sampleNeighbour : Address := ⟨lit "192.168.0.2", by simp [lit, isDigit], by decide⟩

/-- With two addresses the second round writes through a pointer into a block that has ended. -/
theorem not_lists_two_addresses :
    sampleHost.cleared = true ∧
      localNodeFrom UInt32.toNat sampleHost Heap.empty
        [.ip sampleAddress, .ip sampleNeighbour, .null] = .error .unassigned ∧
      ¬ ListsLocal UInt32.toNat sampleHost Heap.empty
        [.ip sampleAddress, .ip sampleNeighbour, .null] [sampleAddress, sampleNeighbour] ∧
      ¬ ListsInfo UInt32.toNat sampleHost sampleAddress
        [.ip sampleAddress, .ip sampleNeighbour, .null] [sampleAddress, sampleNeighbour] :=
  ⟨rfl, rfl, not_listsLocal_two, not_listsInfo_two⟩

end VpnP2p.NodeInfo
