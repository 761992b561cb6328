import VpnP2p.Foundation.Loops
import VpnP2p.NodeInfo.Model

/-!
# Merging node lists

`node_merge` offers every node of `node2` to every node of `node1` and collects the
nodes under new ids in a list of its own, which it hangs behind `node1` at the end. Its
loops compute the keyed merge with the id for a key and the node count for a rank. The
IP lists are not copied: a node that was taken over shares its IPs with `node2`.
-/

namespace VpnP2p.NodeInfo

open Foundation

/-! ## The code -/

/-- The body of the inner loop, for `ptr1` and `ptr2`, with `flag`. -/
def offerNode (ptr2 ptr1 : Nat) (s : Mem NodeCell × Bool) : Result (Mem NodeCell × Bool) := do
  let c1 ← load s.1 (.addr ptr1)
  let c2 ← load s.1 (.addr ptr2)
  let id1 ← assigned c1.id
  let id2 ← assigned c2.id
  if id1 = id2 then
    let count1 ← assigned c1.nodeCount
    let count2 ← assigned c2.nodeCount
    if count1 < count2 then
      let nodes ← update s.1 (.addr ptr1) (fun c =>
        { c with nodeCount := some count2, reliable := c2.reliable, ipList := c2.ipList })
      .ok (nodes, false)
    else .ok (s.1, false)
  else .ok s

structure MergeState where
  nodes : Mem NodeCell
  p : Ptr
  prev : Ptr

/-- `remain` and `p` from `malloc`, with `prev = remain` and `remain->next_node = p`. -/
def MergeState.start (h : Heap) : MergeState where
  nodes := h.nodes ++
    [{ NodeCell.raw with nextNode := .addr (h.nodes.length + 1) }, NodeCell.raw]
  p := .addr (h.nodes.length + 1)
  prev := .addr h.nodes.length

theorem MergeState.start_prefix (h : Heap) : h.nodes <+: (MergeState.start h).nodes :=
  List.prefix_append _ _

/-- The body of the outer loop, for `ptr2`. -/
def mergeNode (fuel : Nat) (node1 : Ptr) (ptr2 : Nat) (s : MergeState) : Result MergeState := do
  let (nodes, flag) ← forChain Prod.fst NodeCell.nextNode (offerNode ptr2) fuel node1
    (s.nodes, true)
  if flag then
    let c2 ← load nodes (.addr ptr2)
    let p_next := Ptr.addr nodes.length
    let nodes ← update (nodes ++ [NodeCell.raw]) s.p
      (fun _ => ⟨c2.id, c2.nodeCount, c2.reliable, c2.ipList, p_next⟩)
    let prev ← load nodes s.prev
    .ok ⟨nodes, p_next, prev.nextNode⟩
  else .ok { s with nodes := nodes }

/-- `for (ptr1 = node1; ptr1->next_node != NULL; ptr1 = ptr1->next_node)`. -/
def lastNode (nodes : Mem NodeCell) (fuel : Nat) (node1 : Ptr) : Result Ptr :=
  lastCell NodeCell.nextNode nodes fuel node1

/-- `node_merge(node1, node2)`, which returns 0 whenever it returns. -/
def nodeMerge (h : Heap) (node1 node2 : Ptr) : Result Heap := do
  let start := MergeState.start h
  let remain := start.prev
  let fuel := h.nodes.length + 1
  let s ← forChain MergeState.nodes NodeCell.nextNode (mergeNode fuel node1) fuel node2 start
  let ptr1 ← lastNode s.nodes fuel node1
  let nodes ← update s.nodes s.prev (fun c => { c with nextNode := .null })
  let c ← load nodes remain
  let nodes ← update nodes ptr1 (fun c' => { c' with nextNode := c.nextNode })
  .ok { h with nodes := nodes }

/-! ## What it computes -/

/-- The count of a node decides which record of it is newer. -/
def Node.rank (n : Node) : Int := n.nodeCount.toInt

/-- The merge of two node lists. -/
abbrev mergeNodes (xs ys : List Node) : List Node := merge Node.id Node.rank xs ys

abbrev offerTo (y x : Node) : Node := offer Node.id Node.rank x y

section InnerLoop

variable {ips : Mem IPCell} {m m' : Mem NodeCell} {as : List Nat} {xs : List Node} {y : Node}
  {a b : Nat} {c2 : NodeCell} {flag : Bool}

theorem offerNode_spec {x : Node} {c1 : NodeCell} (hc1 : m[a]? = some c1) (hx : c1.Holds ips x)
    (hc2 : m[b]? = some c2) (hy : c2.Holds ips y) (flag : Bool) :
    ∃ m', offerNode b a (m, flag) = .ok (m', flag && x.id != y.id) ∧
      Rewritten NodeCell.nextNode [a] m m' ∧
      ∃ c, m'[a]? = some c ∧ c.Holds ips (offerTo y x) := by
  simp only [offerNode, load_addr hc1, load_addr hc2, hx.id, hy.id, assigned_some, ok_bind]
  by_cases hid : x.id = y.id
  · simp only [hx.nodeCount, hy.nodeCount, assigned_some, ok_bind, hid, bne_self_eq_false,
      Bool.and_false]
    by_cases hlt : x.nodeCount < y.nodeCount
    · let f := fun c : NodeCell => { c with
        nodeCount := some y.nodeCount, reliable := c2.reliable, ipList := c2.ipList }
      have hoffer : offerTo y x = y :=
        offer_of_lt hid (Int32.lt_iff_toInt_lt.mp hlt)
      simp only [if_pos hlt, update_addr (lt_of_getElem?_eq_some hc1), ok_bind]
      refine ⟨_, rfl, .modify m (by simp) (fun _ => rfl), f c1, getElem?_modify_same f hc1, ?_⟩
      rw [hoffer]
      exact ⟨hx.id.trans (congrArg some hid), rfl, hy.reliable, hy.ipList⟩
    · have hoffer : offerTo y x = x :=
        offer_of_le (not_lt.mp (fun h => hlt (Int32.lt_iff_toInt_lt.mpr h)))
      rw [if_neg hlt]
      refine ⟨m, rfl, .refl _ m, c1, hc1, ?_⟩
      rw [hoffer]
      exact hx
  · have hoffer : offerTo y x = x := offer_of_ne hid
    rw [if_neg hid]
    refine ⟨m, ?_, .refl _ m, c1, hc1, ?_⟩
    · simp [hid]
    · rw [hoffer]
      exact hx

theorem offerNode_sameLinks (bs : List Nat) {t t' : Mem NodeCell × Bool}
    (hrun : offerNode b a t = .ok t') : SameLinks NodeCell.nextNode bs t.1 t'.1 := by
  simp only [offerNode, bind_eq_ok] at hrun
  obtain ⟨c1, -, c2, -, id1, -, id2, -, hrun⟩ := hrun
  by_cases hid : id1 = id2
  · simp only [if_pos hid, bind_eq_ok] at hrun
    obtain ⟨count1, -, count2, -, hrun⟩ := hrun
    by_cases hlt : count1 < count2
    · simp only [if_pos hlt, bind_eq_ok] at hrun
      obtain ⟨nodes, hupd, hrun⟩ := hrun
      obtain ⟨d, hd, -, rfl⟩ := update_eq_ok.mp hupd
      cases hrun
      exact SameLinks.modify _ (fun _ _ => rfl)
    · rw [if_neg hlt] at hrun
      cases hrun
      exact SameLinks.refl _ _
  · rw [if_neg hid] at hrun
    cases hrun
    exact SameLinks.refl _ _

/-- One pass over `node1` offers it the node at `ptr2`. -/
theorem offerNode_fold (hcont : Contents (NodeCell.Holds ips) m as xs) (hnodup : as.Nodup)
    (hb : b ∉ as) (hc2 : m[b]? = some c2) (hy : c2.Holds ips y) (flag : Bool) :
    ∃ m', as.foldlM (fun s a => offerNode b a s) (m, flag) = .ok (m', flag && y.id ∉ ids xs) ∧
      Rewritten NodeCell.nextNode as m m' ∧
      Contents (NodeCell.Holds ips) m' as (xs.map (offerTo y)) := by
  induction as generalizing m xs flag with
  | nil =>
    cases hcont
    exact ⟨m, by simp [ids], .refl _ m, .nil⟩
  | cons a as ih =>
    obtain ⟨hanot, hnodup⟩ := List.nodup_cons.mp hnodup
    simp only [List.mem_cons, not_or] at hb
    cases hcont with
    | @cons _ x _ xs hax hcont =>
      obtain ⟨c1, hc1, hx⟩ := hax
      obtain ⟨m₁, hrun₁, hrew₁, hax₁⟩ := offerNode_spec hc1 hx hc2 hy flag
      have hcont₁ := hrew₁.contents (fun d hd => by simpa using ne_of_mem_of_not_mem hd hanot) hcont
      have hc2₁ := hrew₁.get (by simpa using hb.1) hc2
      obtain ⟨m₂, hrun₂, hrew₂, hcont₂⟩ :=
        ih hcont₁ hnodup hb.2 hc2₁ (flag && x.id != y.id)
      refine ⟨m₂, ?_, (hrew₁.mono (by simp)).trans (hrew₂.mono (by simp; tauto)), .cons ?_ hcont₂⟩
      · rw [List.foldlM_cons, hrun₁, ok_bind, hrun₂]
        have hflag : (flag && x.id != y.id && decide (y.id ∉ ids xs)) =
            (flag && decide (y.id ∉ ids (x :: xs))) := by
          by_cases hid : x.id = y.id
          · simp [ids, hid]
          · have hne : (x.id != y.id) = true := bne_iff_ne.mpr hid
            simp [ids, hne, Ne.symm hid]
        rw [hflag]
      · obtain ⟨c, hc, hx'⟩ := hax₁
        exact ⟨c, hrew₂.get hanot hc, hx'⟩

end InnerLoop

/-! ## The outer loop -/

/-- During the outer loop: `node1`, in its old cells, stands for `xs`, and the list
between `remain` and `p` for `r`. -/
structure Merging (h : Heap) (node1 : Ptr) (as : List Nat) (s : MergeState) (xs r : List Node)
    (prev p : Nat) (fs : List Nat) : Prop where
  pAt : s.p = .addr p
  prevAt : s.prev = .addr prev
  links : Seg NodeCell.nextNode s.nodes node1 as .null
  contents : Contents (NodeCell.Holds h.ips) s.nodes as xs
  growing : Growing NodeCell.nextNode h.nodes.length s.nodes h.nodes.length prev p fs
  fresh : Contents (NodeCell.Holds h.ips) s.nodes fs r
  old : ∀ a c, h.nodes[a]? = some c → a ∉ as → s.nodes[a]? = some c
  bound : ∀ a ∈ as, a < h.nodes.length

section OuterLoop

variable {h : Heap} {node1 : Ptr} {as bs : List Nat} {s : MergeState} {xs ys r : List Node}
  {prev p : Nat} {fs : List Nat} {y : Node} {b : Nat}

theorem Merging.start (hon : NodesOn h node1 as xs) :
    Merging h node1 as (MergeState.start h) xs [] h.nodes.length (h.nodes.length + 1) [] where
  pAt := rfl
  prevAt := rfl
  links := hon.links.sameLinks (SameLinks.of_prefix as (MergeState.start_prefix h))
  contents := hon.contents.of_prefix (MergeState.start_prefix h)
  growing := by
    refine Growing.start (c := { NodeCell.raw with nextNode := .addr (h.nodes.length + 1) }) ?_ rfl
      (by omega) ⟨by omega, Nat.le_refl _⟩ ?_
    · simp [MergeState.start]
    · simp [MergeState.start]
  fresh := .nil
  old := fun _ _ hc _ => getElem?_of_prefix (MergeState.start_prefix h) hc
  bound := hon.links.lt_length

/-- The loops over `node1` have rounds enough. -/
theorem Merging.lt_fuel (hM : Merging h node1 as s xs r prev p fs) :
    as.length < h.nodes.length + 1 := by
  have hsub : as ⊆ List.range h.nodes.length := fun a ha => List.mem_range.mpr (hM.bound a ha)
  have hle := (List.subperm_of_subset hM.links.nodup hsub).length_le
  rw [List.length_range] at hle
  exact Nat.lt_succ_of_le hle

theorem Merging.fresh_not_mem (hM : Merging h node1 as s xs r prev p fs) :
    ∀ a ∈ p :: h.nodes.length :: fs, a ∉ as := by
  intro a ha hmem
  have hlo : h.nodes.length ≤ a := by
    apply hM.growing.bound a
    simpa only [List.mem_cons] using ha
  exact absurd (hM.bound a hmem) (Nat.not_lt.mpr hlo)

/-- Rewriting cells of `node1` disturbs nothing else. -/
theorem Merging.rewrite (hM : Merging h node1 as s xs r prev p fs) {nodes : Mem NodeCell}
    {xs' : List Node} (hrew : Rewritten NodeCell.nextNode as s.nodes nodes)
    (hcont : Contents (NodeCell.Holds h.ips) nodes as xs') :
    Merging h node1 as { s with nodes := nodes } xs' r prev p fs where
  pAt := hM.pAt
  prevAt := hM.prevAt
  links := hM.links.sameLinks (hrew.sameLinks as)
  contents := hcont
  growing := hM.growing.transport (hrew.sameLinks _) (Nat.le_of_eq hrew.length.symm)
  fresh := hrew.contents (fun a ha => hM.fresh_not_mem a (by simp [ha])) hM.fresh
  old := fun a c hc ha => hrew.get ha (hM.old a c hc ha)
  bound := hM.bound

/-- A new node fills the cell at `p`. -/
theorem Merging.collect (hM : Merging h node1 as s xs r prev p fs) {c2 : NodeCell}
    (hy : c2.Holds h.ips y) :
    ∃ nodes d, update (s.nodes ++ [NodeCell.raw]) s.p (fun _ => ⟨c2.id, c2.nodeCount,
        c2.reliable, c2.ipList, .addr s.nodes.length⟩) = .ok nodes ∧
      load nodes s.prev = .ok d ∧
      Merging h node1 as ⟨nodes, .addr s.nodes.length, d.nextNode⟩ xs (r ++ [y]) p
        s.nodes.length (fs ++ [p]) := by
  let f := fun _ : NodeCell => (⟨c2.id, c2.nodeCount, c2.reliable, c2.ipList,
    .addr s.nodes.length⟩ : NodeCell)
  have hadv := hM.growing.advance (c := NodeCell.raw) (f := f) (fun _ => rfl)
  have hgrow := (hM.growing.of_prefix (List.prefix_append s.nodes [NodeCell.raw])).write_spare f
  obtain ⟨d, hd, hnext⟩ := hgrow.prev_next
  have hlt : p < (s.nodes ++ [NodeCell.raw]).length := by
    rw [List.length_append]
    exact Nat.lt_add_right _ hM.growing.live
  have hpnot : p ∉ as := hM.fresh_not_mem p (by simp)
  have hpold : h.nodes.length ≤ p := hM.growing.le_spare
  obtain ⟨e, he⟩ : ∃ e, (s.nodes ++ [NodeCell.raw])[p]? = some e :=
    ⟨_, List.getElem?_eq_getElem hlt⟩
  refine ⟨(s.nodes ++ [NodeCell.raw]).modify p f, d, ?_, ?_, ?_⟩
  · rw [hM.pAt, update_addr hlt]
  · rw [hM.prevAt, load_addr hd]
  · rw [hnext]
    have hpre := List.prefix_append s.nodes [NodeCell.raw]
    refine ⟨rfl, rfl, ?_, ?_, hadv, ?_, ?_, hM.bound⟩
    · exact (hM.links.sameLinks (SameLinks.of_prefix as hpre)).sameLinks
        (SameLinks.modify _ (fun hmem => absurd hmem hpnot))
    · exact (hM.contents.of_prefix hpre).modify_other hpnot f
    · have hold := (hM.fresh.of_prefix hpre).modify_other hM.growing.spare_not_done f
      exact hold.append (.cons ⟨f e, getElem?_modify_same f he, hy.id, hy.nodeCount, hy.reliable,
        hy.ipList⟩ .nil)
    · intro a c hc ha
      have hne : a ≠ p := Nat.ne_of_lt (Nat.lt_of_lt_of_le (lt_of_getElem?_eq_some hc) hpold)
      rw [getElem?_modify_of_ne f hne]
      exact getElem?_of_prefix hpre (hM.old a c hc ha)

/-- One round of the outer loop. -/
theorem Merging.step (hM : Merging h node1 as s xs r prev p fs) {c2 : NodeCell}
    (hc2 : h.nodes[b]? = some c2) (hb : b ∉ as) (hy : c2.Holds h.ips y) :
    ∃ s' prev' p' fs', mergeNode (h.nodes.length + 1) node1 b s = .ok s' ∧
      Merging h node1 as s' (mergeStep Node.id Node.rank (xs, r) y).1
        (mergeStep Node.id Node.rank (xs, r) y).2 prev' p' fs' := by
  have hb2 := hM.old b c2 hc2 hb
  obtain ⟨nodes, hfold, hrew, hcont⟩ :=
    offerNode_fold hM.contents hM.links.nodup hb hb2 hy true
  have hloop : forChain Prod.fst NodeCell.nextNode (offerNode b) (h.nodes.length + 1) node1
      (s.nodes, true) = .ok (nodes, decide (y.id ∉ ids xs)) := by
    have hlinks : Seg NodeCell.nextNode (Prod.fst (s.nodes, true)) node1 as .null := hM.links
    rw [forChain_eq_foldlM (fun _ => True) hlinks hM.lt_fuel trivial, hfold, Bool.true_and]
    exact fun a _ t t' _ hrun => ⟨trivial, offerNode_sameLinks as hrun⟩
  have hM' := hM.rewrite hrew hcont
  have hpair : mergeStep Node.id Node.rank (xs, r) y =
      (xs.map (offerTo y), if y.id ∈ ids xs then r else r ++ [y]) := rfl
  rw [hpair]
  by_cases hmem : y.id ∈ ids xs
  · refine ⟨{ s with nodes := nodes }, prev, p, fs, ?_, ?_⟩
    · simp only [mergeNode, hloop, ok_bind, hmem, not_true_eq_false, decide_false,
        Bool.false_eq_true, if_false]
    · rw [if_pos hmem]
      exact hM'
  · obtain ⟨nodes', d, hupd, hload, hM''⟩ := hM'.collect hy
    refine ⟨_, _, _, _, ?_, by rw [if_neg hmem]; exact hM''⟩
    simp only [mergeNode, hloop, ok_bind, hmem, not_false_eq_true, decide_true, if_true,
      load_addr (hrew.get hb hb2), hupd, hload]

theorem Merging.run (hM : Merging h node1 as s xs r prev p fs)
    (hcont : Contents (NodeCell.Holds h.ips) h.nodes bs ys) (hdisj : ∀ b ∈ bs, b ∉ as) :
    ∃ s' prev' p' fs',
      bs.foldlM (fun s b => mergeNode (h.nodes.length + 1) node1 b s) s = .ok s' ∧
      Merging h node1 as s' (ys.foldl (mergeStep Node.id Node.rank) (xs, r)).1
        (ys.foldl (mergeStep Node.id Node.rank) (xs, r)).2 prev' p' fs' := by
  induction hcont generalizing s xs r prev p fs with
  | nil => exact ⟨s, prev, p, fs, rfl, hM⟩
  | @cons b y bs ys hby _ ih =>
    obtain ⟨c2, hc2, hy⟩ := hby
    obtain ⟨s₁, prev₁, p₁, fs₁, hstep, hM₁⟩ := hM.step hc2 (hdisj b (by simp)) hy
    obtain ⟨s', prev', p', fs', hrun, hM'⟩ := ih hM₁ (fun d hd => hdisj d (by simp [hd]))
    exact ⟨s', prev', p', fs', by rw [List.foldlM_cons, hstep]; exact hrun, hM'⟩

/-- A round keeps the links of `node2`. -/
theorem Merging.sameLinks {t t' : MergeState} {xs' r' : List Node} {prev' p' : Nat}
    {fs' : List Nat} (hM : Merging h node1 as t xs r prev p fs)
    (hM' : Merging h node1 as t' xs' r' prev' p' fs')
    (hbs : ∀ b ∈ bs, b ∉ as ∧ ∃ c, h.nodes[b]? = some c) :
    SameLinks NodeCell.nextNode bs t.nodes t'.nodes := by
  intro b hb c hc
  obtain ⟨hnot, d, hd⟩ := hbs b hb
  have hd' := hM.old b d hd hnot
  rw [hc] at hd'
  cases hd'
  exact ⟨c, hM'.old b c hd hnot, rfl⟩

end OuterLoop

/-! ## The whole function -/

/-- The collected nodes are hung behind `node1`. -/
theorem Merging.finish {h : Heap} {node1 : Ptr} {as : List Nat} {s : MergeState}
    {xs r : List Node} {prev p : Nat} {fs : List Nat}
    (hM : Merging h node1 as s xs r prev p fs) (hne : as ≠ []) :
    ∃ ptr1 nodes c nodes', lastNode s.nodes (h.nodes.length + 1) node1 = .ok ptr1 ∧
      update s.nodes s.prev (fun c => { c with nextNode := .null }) = .ok nodes ∧
      load nodes (MergeState.start h).prev = .ok c ∧
      update nodes ptr1 (fun c' => { c' with nextNode := c.nextNode }) = .ok nodes' ∧
      NodesOn ⟨h.ips, nodes'⟩ node1 (as ++ fs) (xs ++ r) ∧
      ∀ a d, h.nodes[a]? = some d → a ∉ as → nodes'[a]? = some d := by
  obtain ⟨cs, a, rfl⟩ : ∃ cs a, as = cs ++ [a] := by
    rcases List.eq_nil_or_concat as with rfl | ⟨cs, a, rfl⟩
    · exact absurd rfl hne
    · exact ⟨cs, a, List.concat_eq_append⟩
  have hfuel : cs.length < h.nodes.length + 1 := by
    have := hM.lt_fuel
    rw [List.length_append] at this
    omega
  let cut := fun c : NodeCell => { c with nextNode := .null }
  let nodes := s.nodes.modify prev cut
  obtain ⟨c, hc, hfs⟩ := hM.growing.cut (f := cut) (fun _ => rfl)
  let link := fun c' : NodeCell => { c' with nextNode := c.nextNode }
  have hprev : h.nodes.length ≤ prev := hM.growing.le_prev
  have hprevnot : prev ∉ cs ++ [a] := fun hmem =>
    absurd (hM.bound prev hmem) (Nat.not_lt.mpr hprev)
  have hfsnot : ∀ b ∈ fs, b ∉ cs ++ [a] := fun b hb => hM.fresh_not_mem b (by simp [hb])
  have ha : a < nodes.length := by
    rw [List.length_modify]
    exact hM.links.lt_length a (by simp)
  -- The two writes change links only, so every cell keeps its node.
  have hkeep : ∀ {bs : List Nat} {zs : List Node}, Contents (NodeCell.Holds h.ips) s.nodes bs zs →
      Contents (NodeCell.Holds h.ips) (nodes.modify a link) bs zs := by
    intro bs zs hcont
    have hcut := hcont.modify_keep (f := cut) (fun _ _ hn => hn.relink) prev
    exact hcut.modify_keep (fun _ _ hn => hn.relink) a
  have hlast : lastNode s.nodes (h.nodes.length + 1) node1 = .ok (.addr a) :=
    lastCell_spec hM.links hfuel
  refine ⟨.addr a, nodes, c, nodes.modify a link, hlast, ?_,
    load_addr hc, update_addr ha link, ⟨?_, ?_⟩, ?_⟩
  · rw [hM.prevAt, update_addr hM.growing.prev_lt]
  · refine Seg.append_iff.mpr ⟨c.nextNode, ?_, ?_⟩
    · have hold : Seg NodeCell.nextNode nodes node1 (cs ++ [a]) .null :=
        hM.links.sameLinks (SameLinks.modify _ (fun hmem => absurd hmem hprevnot))
      exact hold.relink_last hM.links.nodup (fun _ => rfl)
    · exact hfs.sameLinks (SameLinks.modify _ (fun hmem => absurd (by simp) (hfsnot a hmem)))
  · exact (hkeep hM.contents).append (hkeep hM.fresh)
  · intro b d hd hb
    have hbprev : b ≠ prev := Nat.ne_of_lt (Nat.lt_of_lt_of_le (lt_of_getElem?_eq_some hd) hprev)
    have hba : b ≠ a := fun hba => hb (by simp [hba])
    rw [getElem?_modify_of_ne link hba, getElem?_modify_of_ne cut hbprev]
    exact hM.old b d hd hb

section Merge

variable {h : Heap} {node1 node2 : Ptr} {as bs : List Nat} {xs ys : List Node}
  (hx : NodesOn h node1 as xs) (hy : NodesOn h node2 bs ys)

include hx hy

/-- The outer loop goes through `node2` once. -/
theorem nodeMerge_loop (hdisj : ∀ b ∈ bs, b ∉ as) : ∃ s prev p fs,
    forChain MergeState.nodes NodeCell.nextNode (mergeNode (h.nodes.length + 1) node1)
      (h.nodes.length + 1) node2 (MergeState.start h) = .ok s ∧
    Merging h node1 as s (ys.foldl (mergeStep Node.id Node.rank) (xs, [])).1
      (ys.foldl (mergeStep Node.id Node.rank) (xs, [])).2 prev p fs := by
  have hM := Merging.start hx
  obtain ⟨s, prev, p, fs, hrun, hM'⟩ := hM.run hy.contents hdisj
  have hold : ∀ b ∈ bs, b ∉ as ∧ ∃ c, h.nodes[b]? = some c := fun b hb =>
    ⟨hdisj b hb, _, List.getElem?_eq_getElem (hy.links.lt_length b hb)⟩
  have hlinks := hy.links.sameLinks (SameLinks.of_prefix bs (MergeState.start_prefix h))
  have hfuel := Nat.lt_succ_of_le hy.links.length_le
  refine ⟨s, prev, p, fs, ?_, hM'⟩
  refine (forChain_eq_foldlM (fun t => ∃ xs r prev p fs, Merging h node1 as t xs r prev p fs)
    hlinks hfuel ⟨_, _, _, _, _, hM⟩ ?_).trans hrun
  rintro b hb t t' ⟨xs', r', prev', p', fs', ht⟩ hstep
  obtain ⟨y, -, c, hc, hyc⟩ := hy.contents.mem_left hb
  obtain ⟨t'', _, _, _, hstep', ht''⟩ := ht.step hc (hdisj b hb) hyc
  rw [hstep] at hstep'
  cases hstep'
  exact ⟨⟨_, _, _, _, _, ht''⟩, ht.sameLinks ht'' hold⟩

/-- On two separate lists, `node_merge` leaves their merge in the first and nothing else
changed. -/
theorem nodeMerge_spec (hne : xs ≠ []) (hdisj : ∀ b ∈ bs, b ∉ as) :
    ∃ h' fs, nodeMerge h node1 node2 = .ok h' ∧ NodesOn h' node1 (as ++ fs) (mergeNodes xs ys) ∧
      (∀ a ∈ fs, h.nodes.length ≤ a) ∧ h'.ips = h.ips ∧
      ∀ a c, h.nodes[a]? = some c → a ∉ as → h'.nodes[a]? = some c := by
  obtain ⟨s, prev, p, fs, hloop, hM⟩ := nodeMerge_loop hx hy hdisj
  obtain ⟨ptr1, nodes, c, nodes', hlast, hcut, hload, hlink, hon, hframe⟩ :=
    hM.finish (hx.cells_ne_nil hne)
  refine ⟨⟨h.ips, nodes'⟩, fs, ?_, ?_, fun a ha => hM.growing.bound a (by simp [ha]), rfl, hframe⟩
  · simp only [nodeMerge, hloop, hlast, hcut, hload, hlink, ok_bind]
  · rw [foldl_mergeStep, List.nil_append] at hon
    exact hon

end Merge

/-- Without a first list, `node_merge` follows a NULL behind the second. -/
theorem nodeMerge_null {h : Heap} {q : Ptr} {bs : List Nat} {ys : List Node}
    (hy : NodesOn h q bs ys) : nodeMerge h .null q = .error .nullDeref := by
  have hnull : NodesOn h .null [] [] := ⟨rfl, .nil⟩
  obtain ⟨s, prev, p, fs, hloop, -⟩ := nodeMerge_loop hnull hy (by simp)
  simp only [nodeMerge, hloop, ok_bind]
  rfl

end VpnP2p.NodeInfo
