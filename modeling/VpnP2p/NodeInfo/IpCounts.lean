import VpnP2p.NodeInfo.Received
import VpnP2p.NodeInfo.FileFormat
import VpnP2p.NodeInfo.WireFormat

/-!
# How many IPs come back

Both decoders put a cell under `ip_list` before they know whether an IP follows, and the
cut at `ip_list_ends` goes to the cell in front of it, which no node points to. A node
that was written with IPs comes back with as many; one that was written without comes
back with one that nobody assigned.
-/

namespace VpnP2p.NodeInfo

open Foundation

/-- The node list at `p` is NULL-terminated and its IP lists have the lengths `ks`. -/
def IpCounts (h : Heap) (p : Ptr) (ks : List Nat) : Prop :=
  ∃ as, Seg NodeCell.nextNode h.nodes p as .null ∧
    Contents (fun (c : NodeCell) k => ∃ is, Seg IPCell.nextIp h.ips c.ipList is .null ∧
      is.length = k) h.nodes as ks

def Node.ipCount (n : Node) : Nat := n.ipList.length

/-- No string of the node has a tab or a newline in it. -/
def Node.Unbroken (n : Node) : Prop :=
  ∀ x ∈ n.ipList, (newline ∉ x.ip.val ∧ newline ∉ x.type.val) ∧ tab ∉ x.ip.val ∧ tab ∉ x.type.val

theorem Node.Unbroken.plain {n : Node} (h : n.Unbroken) (hips : n.ipList ≠ []) : n.Plain where
  ips := hips
  lines := fun x hx => (h x hx).1
  tabs := fun x hx => (h x hx).2

theorem Node.Plain.unbroken {n : Node} (h : n.Plain) : n.Unbroken :=
  fun x hx => ⟨h.lines x hx, h.tabs x hx⟩

theorem NodesAt.ipCounts {h : Heap} {p : Ptr} {l : List Node} (hl : NodesAt h p l) :
    IpCounts h p (l.map Node.ipCount) := by
  obtain ⟨as, hlinks, hcont⟩ := hl
  refine ⟨as, hlinks, List.forall₂_map_right_iff.mpr (hcont.imp ?_)⟩
  rintro a n ⟨c, hc, hcn⟩
  obtain ⟨is, his, hips⟩ := hcn.ipList
  exact ⟨c, hc, is, his, List.Forall₂.length_eq hips⟩

/-! ## Lists from fresh cells -/

/-- In a list of cells that a decoder made, every node has an IP. -/
theorem ipCounts_pos {base h : Heap} {p : Ptr} {ks : List Nat}
    (hp : Ptr.From base.nodes.length p)
    (hcells : Behind base.nodes.length (FreshNode base) h.nodes) (hks : IpCounts h p ks) :
    ∀ k ∈ ks, k ≠ 0 := by
  obtain ⟨as, hlinks, hcont⟩ := hks
  intro k hk hzero
  obtain ⟨a, ha, c, hc, is, his, hlen⟩ := hcont.mem_right hk
  have hfresh := hcells a c (hlinks.behind hcells (fun c hc => hc.nextNode) hp a ha) hc
  obtain rfl : is = [] := List.length_eq_zero_iff.mp (hlen.trans hzero)
  exact hfresh.notNull his

theorem tidy_fileCursor (base : Heap) : Tidy base (fileCursor base) where
  nodes := List.prefix_append _ _
  ips := List.prefix_append _ _
  nodeNew := Ptr.from_addr (Nat.le_refl _)
  header := Ptr.from_addr (Nat.le_succ _)
  prev := Ptr.from_addr (Nat.le_succ _)
  ipNew := Ptr.from_addr (Nat.le_refl _)
  ipHeader := Ptr.from_addr (Nat.le_succ _)
  nodeCells := (tidy_bufCursor base).nodeCells
  ipCells := by
    refine (behind_length _ base.ips).append (fun c hc => ?_)
    simp only [List.mem_cons, List.not_mem_nil, or_false, or_self] at hc
    rw [hc]
    exact freshIp_raw base (Ptr.from_unassigned _)

theorem fileOp_clean (strline : Text) : (fileOp strline).Clean := by
  have hstrip : ∀ (t : Text) (s : CStr 20), CStr.ofText 20 (strip t) = .ok s →
      newline ∉ s.val := by
    intro t s hs
    rw [CStr.ofText_ok hs]
    exact newline_not_mem_strip t
  have hip := clean_ip (hstrip (strline.drop 4))
  have htype := clean_type (hstrip (strline.drop 9))
  exact .ite trivial <| .ite trivial <| .ite trivial <| .ite trivial <| .ite trivial <|
    .ite hip <| .ite htype <| .ite trivial <| .ite trivial <| .ite trivial <| .ite trivial trivial

/-- Whatever text `file2struct` reads, every node it returns has an IP. -/
theorem file2struct_ipCounts_pos {base h' : Heap} {fp : Option Text} {p : Ptr}
    (hrun : file2struct base fp = .ok (h', p)) {ks : List Nat} (hks : IpCounts h' p ks) :
    ∀ k ∈ ks, k ≠ 0 := by
  cases fp with
  | none => cases hrun
  | some text =>
    obtain ⟨c, hloop, hfin⟩ := bind_eq_ok.mp hrun
    have htidy : Tidy base c := by
      refine foldlM_invariant (Tidy base) (tidy_fileCursor base) ?_ hloop
      intro buffer _ t t' ht hstep
      obtain ⟨strline, -, hexec⟩ := bind_eq_ok.mp hstep
      exact ht.exec (fileOp_clean strline) hexec
    obtain ⟨-, hp, hnodes, -⟩ := htidy.finish hfin
    exact ipCounts_pos hp hnodes hks

theorem convertBufToNode_ipCounts_pos {base h' : Heap} {buf : Buf} {p : Ptr}
    (hrun : convertBufToNode base buf = .ok (h', p)) {ks : List Nat} (hks : IpCounts h' p ks) :
    ∀ k ∈ ks, k ≠ 0 := by
  obtain ⟨c, htidy, hfin⟩ := convertBufToNode_tidy hrun
  obtain ⟨-, hp, hnodes, -⟩ := htidy.finish hfin
  exact ipCounts_pos hp hnodes hks

/-! ## Written and read back -/

/-- `file2struct(struct2file(l))` has as many IPs under each node as `l`. -/
def FileKeepsCounts (h : Heap) (p : Ptr) (base : Heap) (l : List Node) : Prop :=
  ∃ text h' q, struct2file h p = .ok text ∧ file2struct base (some text) = .ok (h', q) ∧
    IpCounts h' q (l.map Node.ipCount)

/-- So has `convert_buf_to_node(convert_node_to_buf(l))`. -/
def WireKeepsCounts (h : Heap) (p : Ptr) (base : Heap) (l : List Node) : Prop :=
  ∃ text len h' q, convertNodeToBuf 2048 h p = .ok (text, len) ∧
    convertBufToNode base (cbuf text) = .ok (h', q) ∧ IpCounts h' q (l.map Node.ipCount)

theorem ips_ne_nil_of_counts {l : List Node} (h : ∀ k ∈ l.map Node.ipCount, k ≠ 0) :
    ∀ n ∈ l, n.ipList ≠ [] := by
  intro n hn hnil
  exact h _ (List.mem_map_of_mem hn) (by rw [Node.ipCount, hnil]; rfl)

section Counts

variable {h : Heap} {p : Ptr} {l : List Node} (hp : NodesAt h p l) (hl : ∀ n ∈ l, n.Unbroken)
  (base : Heap)

include hp hl

theorem fileKeepsCounts_iff : FileKeepsCounts h p base l ↔ ∀ n ∈ l, n.ipList ≠ [] := by
  constructor
  · rintro ⟨text, h', q, -, hread, hcounts⟩
    exact ips_ne_nil_of_counts (file2struct_ipCounts_pos hread hcounts)
  · intro hips
    have hplain : ∀ n ∈ l, n.Plain := fun n hn => (hl n hn).plain (hips n hn)
    obtain ⟨h', q, as, hread, hon, -⟩ :=
      file2struct_encode (fun n hn => (hplain n hn).toOneLine) base
    rw [map_stripped_of_plain hplain] at hon
    exact ⟨encode l, h', q, struct2file_nodesAt hp, hread, NodesAt.ipCounts ⟨as, hon⟩⟩

theorem wireKeepsCounts_iff (hfits : FitsDecoder l) :
    WireKeepsCounts h p base l ↔ ∀ n ∈ l, n.ipList ≠ [] := by
  constructor
  · rintro ⟨text, len, h', q, -, hread, hcounts⟩
    exact ips_ne_nil_of_counts (convertBufToNode_ipCounts_pos hread hcounts)
  · intro hips
    have hLines : ∀ n ∈ l, n.OneLine := fun n hn => ((hl n hn).plain (hips n hn)).toOneLine
    have hlen : (encode l).length < 2048 := by
      have := length_encode_le hLines
      have := hfits.lines
      omega
    obtain ⟨h', q, as, hread, hon, -⟩ := convertBufToNode_encode hLines hfits
      (readString_cbuf (noNul_encode l)) base
    exact ⟨encode l, _, h', q, convertNodeToBuf_encode hp hlen, hread,
      NodesAt.ipCounts ⟨as, hon⟩⟩

end Counts

end VpnP2p.NodeInfo
