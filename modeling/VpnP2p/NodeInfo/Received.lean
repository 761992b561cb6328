import VpnP2p.NodeInfo.Decode

/-!
# Lists a peer can send

Whatever text arrives, `convert_buf_to_node` writes fresh cells only. If what it returns
is a list at all, every node of it has an IP, because `ip_list` puts a cell there before
anything is read, and no string has a newline, because `split` cut the text at them.
-/

namespace VpnP2p.NodeInfo

open Foundation

/-! ## Fresh cells -/

/-- A node cell of the decoder: its links lead to fresh cells, and its IP list is not
NULL. -/
structure FreshNode (base : Heap) (c : NodeCell) : Prop where
  nextNode : Ptr.From base.nodes.length c.nextNode
  ipList : Ptr.From base.ips.length c.ipList
  notNull : c.ipList ≠ .null

/-- An IP cell of the decoder: its strings have no newline. -/
structure FreshIp (base : Heap) (c : IPCell) : Prop where
  nextIp : Ptr.From base.ips.length c.nextIp
  ip : ∀ s, c.ip = some s → newline ∉ s.val
  type : ∀ s, c.type = some s → newline ∉ s.val

theorem freshNode_raw (base : Heap) : FreshNode base NodeCell.raw :=
  ⟨Ptr.from_unassigned _, Ptr.from_unassigned _, by simp [NodeCell.raw]⟩

theorem freshIp_raw (base : Heap) {p : Ptr} (hp : Ptr.From base.ips.length p) :
    FreshIp base { IPCell.raw with nextIp := p } :=
  ⟨hp, by simp [IPCell.raw], by simp [IPCell.raw]⟩

/-- What the decoder keeps on any text. -/
structure Tidy (base : Heap) (c : Cursor) : Prop where
  nodes : base.nodes <+: c.heap.nodes
  ips : base.ips <+: c.heap.ips
  nodeNew : Ptr.From base.nodes.length c.nodeNew
  header : Ptr.From base.nodes.length c.header
  prev : Ptr.From base.nodes.length c.prev
  ipNew : Ptr.From base.ips.length c.ipNew
  ipHeader : Ptr.From base.ips.length c.ipHeader
  nodeCells : Behind base.nodes.length (FreshNode base) c.heap.nodes
  ipCells : Behind base.ips.length (FreshIp base) c.heap.ips

theorem tidy_bufCursor (base : Heap) : Tidy base (bufCursor base) where
  nodes := List.prefix_append _ _
  ips := List.prefix_rfl
  nodeNew := Ptr.from_addr (Nat.le_refl _)
  header := Ptr.from_addr (Nat.le_succ _)
  prev := Ptr.from_addr (Nat.le_succ _)
  ipNew := Ptr.from_null _
  ipHeader := Ptr.from_null _
  nodeCells := by
    refine (behind_length _ base.nodes).append (fun c hc => ?_)
    simp only [List.mem_cons, List.not_mem_nil, or_false] at hc
    rcases hc with rfl | rfl
    · exact freshNode_raw base
    · exact ⟨Ptr.from_addr (Nat.le_refl _), Ptr.from_unassigned _, by simp [NodeCell.raw]⟩
  ipCells := behind_length _ base.ips

section Steps

variable {base : Heap} {c c' : Cursor}

theorem Tidy.writeNodeNew (h : Tidy base c) {f : NodeCell → NodeCell}
    (hrun : c.writeNodeNew f = .ok c')
    (hf : ∀ n, FreshNode base n → FreshNode base (f n)) : Tidy base c' := by
  obtain ⟨nodes, hupd, hc⟩ := bind_eq_ok.mp hrun
  obtain ⟨a, ha, -, rfl⟩ := update_eq_ok.mp hupd
  cases hc
  exact { h with
    nodes := prefix_modify h.nodes (h.nodeNew a ha) f
    nodeCells := h.nodeCells.modify hf }

theorem Tidy.writeIpNew (h : Tidy base c) {f : IPCell → IPCell} (hrun : c.writeIpNew f = .ok c')
    (hf : ∀ x, FreshIp base x → FreshIp base (f x)) : Tidy base c' := by
  obtain ⟨ips, hupd, hc⟩ := bind_eq_ok.mp hrun
  obtain ⟨a, ha, -, rfl⟩ := update_eq_ok.mp hupd
  cases hc
  exact { h with
    ips := prefix_modify h.ips (h.ipNew a ha) f
    ipCells := h.ipCells.modify hf }

theorem Tidy.cutIps (h : Tidy base c) (hrun : c.cutIps = .ok c') : Tidy base c' := by
  obtain ⟨ips, hupd, hc⟩ := bind_eq_ok.mp hrun
  obtain ⟨a, ha, -, rfl⟩ := update_eq_ok.mp hupd
  cases hc
  exact { h with
    ips := prefix_modify h.ips (h.ipHeader a ha) _
    ipCells := h.ipCells.modify (fun x hx => ⟨Ptr.from_null _, hx.ip, hx.type⟩) }

theorem Tidy.nextIp (h : Tidy base c) (hrun : c.nextIp = .ok c') : Tidy base c' := by
  obtain ⟨header, hload, hrun⟩ := bind_eq_ok.mp hrun
  obtain ⟨ips, hupd, hc⟩ := bind_eq_ok.mp hrun
  obtain ⟨b, hb, hcell⟩ := load_eq_ok.mp hload
  obtain ⟨a, ha, -, rfl⟩ := update_eq_ok.mp hupd
  cases hc
  have htmp : Ptr.From base.ips.length (.addr c.heap.ips.length) :=
    Ptr.from_addr h.ips.length_le
  have hgrown : Behind base.ips.length (FreshIp base)
      (c.heap.ips ++ [{ IPCell.raw with nextIp := .null }]) :=
    h.ipCells.append (by simpa using freshIp_raw base (Ptr.from_null _))
  exact { h with
    ips := prefix_modify (h.ips.trans (List.prefix_append _ _)) (h.ipNew a ha) _
    ipNew := htmp
    ipHeader := (h.ipCells b header (h.ipHeader b hb) hcell).nextIp
    ipCells := hgrown.modify (fun x hx => ⟨htmp, hx.ip, hx.type⟩) }

theorem Tidy.openIps (h : Tidy base c) (hrun : c.openIps = .ok c') : Tidy base c' := by
  have hnew : Ptr.From base.ips.length (.addr c.heap.ips.length) := Ptr.from_addr h.ips.length_le
  have hcells : ∀ x ∈ [{ IPCell.raw with nextIp := .null },
      { IPCell.raw with nextIp := .addr c.heap.ips.length }], FreshIp base x := by
    simp only [List.forall_mem_cons, List.not_mem_nil, false_implies, implies_true, and_true]
    exact ⟨freshIp_raw base (Ptr.from_null _), freshIp_raw base hnew⟩
  have hopened : Tidy base { c with
      heap := { c.heap with ips := c.heap.ips ++ [{ IPCell.raw with nextIp := .null },
        { IPCell.raw with nextIp := .addr c.heap.ips.length }] }
      ipNew := .addr c.heap.ips.length
      ipHeader := .addr (c.heap.ips.length + 1) } :=
    { h with
      ips := h.ips.trans (List.prefix_append _ _)
      ipNew := hnew
      ipHeader := Ptr.from_addr (Nat.le_succ_of_le h.ips.length_le)
      ipCells := h.ipCells.append hcells }
  have hset : ∀ n, FreshNode base n →
      FreshNode base { n with ipList := .addr c.heap.ips.length } :=
    fun n hn => ⟨hn.nextNode, hnew, by simp⟩
  exact hopened.writeNodeNew hrun hset

theorem Tidy.nextNode (h : Tidy base c) (hrun : c.nextNode = .ok c') : Tidy base c' := by
  obtain ⟨nodes, hupd, hrun⟩ := bind_eq_ok.mp hrun
  obtain ⟨prev, hload, hc⟩ := bind_eq_ok.mp hrun
  obtain ⟨a, ha, -, rfl⟩ := update_eq_ok.mp hupd
  obtain ⟨b, hb, hcell⟩ := load_eq_ok.mp hload
  cases hc
  have hnext : Ptr.From base.nodes.length (.addr c.heap.nodes.length) :=
    Ptr.from_addr h.nodes.length_le
  have hgrown : Behind base.nodes.length (FreshNode base) (c.heap.nodes ++ [NodeCell.raw]) :=
    h.nodeCells.append (by simpa using freshNode_raw base)
  have hcells := hgrown.modify (a := a)
    (f := fun n => { n with nextNode := .addr c.heap.nodes.length })
    (fun n hn => ⟨hnext, hn.ipList, hn.notNull⟩)
  exact { h with
    nodes := prefix_modify (h.nodes.trans (List.prefix_append _ _)) (h.nodeNew a ha) _
    nodeNew := hnext
    prev := (hcells b prev (h.prev b hb) hcell).nextNode
    nodeCells := hcells }

/-- The strings that the branch assigns have no newline. -/
def Op.Clean : Op → Prop
  | .ip (.ok s) => newline ∉ s.val
  | .type (.ok s) => newline ∉ s.val
  | _ => True

theorem clean_ip {s : Result (CStr 20)} (h : ∀ t, s = .ok t → newline ∉ t.val) :
    (Op.ip s).Clean := by
  cases s with
  | error e => trivial
  | ok t => exact h t rfl

theorem clean_type {s : Result (CStr 20)} (h : ∀ t, s = .ok t → newline ∉ t.val) :
    (Op.type s).Clean := by
  cases s with
  | error e => trivial
  | ok t => exact h t rfl

theorem Tidy.exec (h : Tidy base c) {op : Op} (hop : op.Clean) (hrun : c.exec op = .ok c') :
    Tidy base c' := by
  cases op with
  | skip =>
    cases hrun
    exact h
  | id v =>
    obtain ⟨v, -, hrun⟩ := bind_eq_ok.mp hrun
    exact h.writeNodeNew hrun (fun n hn => ⟨hn.nextNode, hn.ipList, hn.notNull⟩)
  | nodeCount v =>
    obtain ⟨v, -, hrun⟩ := bind_eq_ok.mp hrun
    exact h.writeNodeNew hrun (fun n hn => ⟨hn.nextNode, hn.ipList, hn.notNull⟩)
  | reliable v =>
    obtain ⟨v, -, hrun⟩ := bind_eq_ok.mp hrun
    exact h.writeNodeNew hrun (fun n hn => ⟨hn.nextNode, hn.ipList, hn.notNull⟩)
  | ipListEnds => exact h.cutIps hrun
  | ip s =>
    obtain ⟨s, rfl, hwrite⟩ := bind_eq_ok.mp hrun
    refine h.writeIpNew hwrite (fun x hx => ⟨hx.nextIp, ?_, hx.type⟩)
    rintro t ⟨⟩
    exact hop
  | type s =>
    obtain ⟨s, rfl, hwrite⟩ := bind_eq_ok.mp hrun
    refine h.writeIpNew hwrite (fun x hx => ⟨hx.nextIp, hx.ip, ?_⟩)
    rintro t ⟨⟩
    exact hop
  | sCount v =>
    obtain ⟨v, -, hrun⟩ := bind_eq_ok.mp hrun
    exact h.writeIpNew hrun (fun x hx => ⟨hx.nextIp, hx.ip, hx.type⟩)
  | validity v =>
    obtain ⟨v, -, hrun⟩ := bind_eq_ok.mp hrun
    obtain ⟨d, hwrite, hrun⟩ := bind_eq_ok.mp hrun
    exact (h.writeIpNew hwrite (fun x hx => ⟨hx.nextIp, hx.ip, hx.type⟩)).nextIp hrun
  | ipList => exact h.openIps hrun
  | endNode => exact h.nextNode hrun

theorem Tidy.run (h : Tidy base c) {ops : List Op} (hops : ∀ op ∈ ops, op.Clean)
    (hrun : c.run ops = .ok c') : Tidy base c' :=
  foldlM_invariant (Tidy base) h (fun op hop _ _ ht hstep => ht.exec (hops op hop) hstep) hrun

/-- Where the decoder ends, what it returns begins behind the old cells. -/
theorem Tidy.finish (h : Tidy base c) {h' : Heap} {p : Ptr} (hrun : c.finish = .ok (h', p)) :
    base.Extends h' ∧ Ptr.From base.nodes.length p ∧
      Behind base.nodes.length (FreshNode base) h'.nodes ∧
      Behind base.ips.length (FreshIp base) h'.ips := by
  obtain ⟨nodes, hupd, hrun⟩ := bind_eq_ok.mp hrun
  obtain ⟨header, hload, hrun⟩ := bind_eq_ok.mp hrun
  obtain ⟨a, ha, -, rfl⟩ := update_eq_ok.mp hupd
  obtain ⟨b, hb, hcell⟩ := load_eq_ok.mp hload
  cases hrun
  have hcut : Behind base.nodes.length (FreshNode base)
      (c.heap.nodes.modify a (fun n => { n with nextNode := .null })) :=
    h.nodeCells.modify (fun n hn => ⟨Ptr.from_null _, hn.ipList, hn.notNull⟩)
  exact ⟨⟨h.ips, prefix_modify h.nodes (h.prev a ha) _⟩,
    (hcut b header (h.header b hb) hcell).nextNode, hcut, h.ipCells⟩

end Steps

/-! ## The rows of the text -/

theorem mem_of_strcpy_row {line : Text} {m n k : Nat} {s : CStr m}
    (h : strcpy m (slice k n (row line)) = .ok s) : ∀ b ∈ s.val, b ∈ line := by
  intro b hb
  obtain ⟨rest, hrest⟩ := strcpy_ok h
  have hmem : some b ∈ row line := by
    refine List.mem_of_mem_drop (List.mem_of_mem_take (i := n) (l := (row line).drop k) ?_)
    change some b ∈ slice k n (row line)
    rw [hrest]
    simp [hb]
  have hb0 : b ≠ 0 := fun h => s.noNul (h ▸ hb)
  simpa [row, cbuf, hb0] using hmem

theorem Op.Clean.ite {p : Prop} [Decidable p] {op op' : Op} (h : op.Clean) (h' : op'.Clean) :
    (if p then op else op').Clean := by
  split
  · exact h
  · exact h'

theorem bufOp_clean {line : Text} (hline : newline ∉ line) : (bufOp line).Clean := by
  have hcopy : ∀ (m n k : Nat) (s : CStr m), strcpy m (slice k n (row line)) = .ok s →
      newline ∉ s.val := fun m n k s h hmem => hline (mem_of_strcpy_row h newline hmem)
  have hip := clean_ip (hcopy 20 20 4)
  have htype := clean_type (hcopy 20 10 9)
  exact .ite trivial <| .ite trivial <| .ite trivial <| .ite trivial <| .ite trivial <|
    .ite hip <| .ite htype <| .ite trivial <| .ite trivial <| .ite trivial <| .ite trivial trivial

/-! ## What arrives -/

/-- Whatever text `convert_buf_to_node` is given, its loop keeps the invariant. -/
theorem convertBufToNode_tidy {base h' : Heap} {buf : Buf} {p : Ptr}
    (hrun : convertBufToNode base buf = .ok (h', p)) :
    ∃ c : Cursor, Tidy base c ∧ c.finish = .ok (h', p) := by
  obtain ⟨str, -, hrun⟩ := bind_eq_ok.mp hrun
  obtain ⟨dst, hsplit, hrun⟩ := bind_eq_ok.mp hrun
  obtain ⟨c, hloop, hfin⟩ := bind_eq_ok.mp hrun
  have hdst : dst = strtokAll (lit "\n") str := (split_eq_ok.mp hsplit).1
  have hclean : ∀ op ∈ dst.map bufOp, op.Clean := by
    intro op hop
    obtain ⟨line, hline, rfl⟩ := List.mem_map.mp hop
    apply bufOp_clean
    intro hmem
    exact (strtokAll_mem (hdst ▸ hline) newline hmem).2 (by decide)
  exact ⟨c, (tidy_bufCursor base).run hclean hloop, hfin⟩

/-- Whatever text `convert_buf_to_node` is given: it leaves the old cells alone, and a
list it returns is made of new ones; every node has an IP and no string a newline. -/
theorem convertBufToNode_fresh {base h' : Heap} {buf : Buf} {p : Ptr}
    (hrun : convertBufToNode base buf = .ok (h', p)) : base.Extends h' ∧
      ∀ as m, NodesOn h' p as m →
        (∀ n ∈ m, n.OneLine) ∧ ∀ a ∈ as, base.nodes.length ≤ a := by
  obtain ⟨c, htidy, hfin⟩ := convertBufToNode_tidy hrun
  obtain ⟨hext, hp, hnodes, hips⟩ := htidy.finish hfin
  refine ⟨hext, fun as m hon => ?_⟩
  have hcells := hon.links.behind hnodes (fun c hc => hc.nextNode) hp
  refine ⟨fun n hn => ?_, hcells⟩
  obtain ⟨a, ha, c, hc, hcn⟩ := hon.contents.mem_right hn
  have hfresh := hnodes a c (hcells a ha) hc
  obtain ⟨is, hlinks, hcont⟩ := hcn.ipList
  refine ⟨?_, fun x hx => ?_⟩
  · rintro hnil
    rw [hnil] at hcont
    cases hcont
    exact hfresh.notNull hlinks
  · obtain ⟨i, hi, d, hd, hdx⟩ := hcont.mem_right hx
    have hlow := hlinks.behind hips (fun d hd => hd.nextIp) hfresh.ipList
    have hd' := hips i d (hlow i hi) hd
    exact ⟨hd'.ip _ hdx.ip, hd'.type _ hdx.type⟩

end VpnP2p.NodeInfo
