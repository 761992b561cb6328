import VpnP2p.NodeInfo.Decode

/-!
# The node cursors of a decoder

Both decoders hang the nodes they have finished between `header` and the spare cell
`node_new`. `StrandAt holds base c done cell` says so for any notion `holds` of what a
node cell stands for that does not look at its link; the cells lie behind those of the
heap `base`.
-/

namespace VpnP2p.NodeInfo

open Foundation

variable {ρ : Type} {holds : NodeCell → ρ → Prop} {base : Heap} {c : Cursor} {done : List ρ}
  {cell : NodeCell}

/-- `done` is what was decoded since the heap `base`; `cell` is the cell `node_new`
points at. -/
structure StrandAt (holds : NodeCell → ρ → Prop) (base : Heap) (c : Cursor) (done : List ρ)
    (cell : NodeCell) (header prev spare : Nat) (as : List Nat) : Prop where
  headerAt : c.header = .addr header
  prevAt : c.prev = .addr prev
  nodeNewAt : c.nodeNew = .addr spare
  growing : Growing NodeCell.nextNode base.nodes.length c.heap.nodes header prev spare as
  contents : Contents holds c.heap.nodes as done
  spareCell : c.heap.nodes[spare]? = some cell
  nodes : base.nodes <+: c.heap.nodes

def Strand (holds : NodeCell → ρ → Prop) (base : Heap) (c : Cursor) (done : List ρ)
    (cell : NodeCell) : Prop :=
  ∃ header prev spare as, StrandAt holds base c done cell header prev spare as

namespace Strand

theorem mono (h : Strand holds base c done cell) {holds' : NodeCell → ρ → Prop}
    (hholds : ∀ d r, holds d r → holds' d r) : Strand holds' base c done cell := by
  obtain ⟨header, prev, spare, as, h⟩ := h
  exact ⟨header, prev, spare, as, h.headerAt, h.prevAt, h.nodeNewAt, h.growing,
    h.contents.mono hholds, h.spareCell, h.nodes⟩

/-- The IP cursors and their memory may be anything. -/
theorem with_ips (h : Strand holds base c done cell) (ips : Mem IPCell) (ipNew ipHeader : Ptr) :
    Strand holds base
      { c with heap := { c.heap with ips := ips }, ipNew := ipNew, ipHeader := ipHeader }
      done cell := by
  obtain ⟨header, prev, spare, as, h⟩ := h
  exact ⟨header, prev, spare, as, h.headerAt, h.prevAt, h.nodeNewAt, h.growing, h.contents,
    h.spareCell, h.nodes⟩

theorem writeNodeNew (h : Strand holds base c done cell) (f : NodeCell → NodeCell) :
    ∃ nodes, c.writeNodeNew f = .ok { c with heap := { c.heap with nodes := nodes } } ∧
      Strand holds base { c with heap := { c.heap with nodes := nodes } } done (f cell) := by
  obtain ⟨header, prev, spare, as, h⟩ := h
  refine ⟨c.heap.nodes.modify spare f, ?_, header, prev, spare, as, ?_⟩
  · simp only [Cursor.writeNodeNew, h.nodeNewAt, update_addr h.growing.live, ok_bind]
  · exact ⟨h.headerAt, h.prevAt, h.nodeNewAt, h.growing.write_spare f,
      h.contents.modify_other h.growing.spare_not_done f, getElem?_modify_same f h.spareCell,
      prefix_modify h.nodes h.growing.le_spare f⟩

/-- `end_node` turns the spare cell into a node, whatever it stands for. -/
theorem nextNode (h : Strand holds base c done cell) {r : ρ}
    (hr : ∀ p, holds { cell with nextNode := p } r) :
    ∃ nodes nodeNew prev, c.nextNode = .ok { c with
        heap := { c.heap with nodes := nodes }, nodeNew := nodeNew, prev := prev } ∧
      Strand holds base { c with
        heap := { c.heap with nodes := nodes }, nodeNew := nodeNew, prev := prev }
        (done ++ [r]) NodeCell.raw := by
  obtain ⟨header, prev, spare, as, h⟩ := h
  let f := fun n : NodeCell => { n with nextNode := .addr c.heap.nodes.length }
  have hadv := h.growing.advance (c := NodeCell.raw) (f := f) (fun _ => rfl)
  have hgrow := (h.growing.of_prefix (List.prefix_append c.heap.nodes [NodeCell.raw])).write_spare f
  obtain ⟨d, hd, hnext⟩ := hgrow.prev_next
  have hlt : spare < (c.heap.nodes ++ [NodeCell.raw]).length := by
    rw [List.length_append]
    exact Nat.lt_add_right _ h.growing.live
  have hOld : ∀ {a : Nat} {d : NodeCell}, c.heap.nodes[a]? = some d →
      (c.heap.nodes ++ [NodeCell.raw])[a]? = some d :=
    fun hd => getElem?_of_prefix (List.prefix_append _ _) hd
  refine ⟨(c.heap.nodes ++ [NodeCell.raw]).modify spare f, .addr c.heap.nodes.length, .addr spare,
    ?_, header, spare, c.heap.nodes.length, as ++ [spare], ?_⟩
  · have hload : load ((c.heap.nodes ++ [NodeCell.raw]).modify spare
        (fun n => { n with nextNode := .addr c.heap.nodes.length })) (.addr prev) = .ok d :=
      load_addr hd
    simp only [Cursor.nextNode, h.nodeNewAt, h.prevAt, update_addr hlt, ok_bind, hload, hnext, f]
  · refine ⟨h.headerAt, rfl, rfl, hadv, ?_, ?_, ?_⟩
    · have hold := (h.contents.of_prefix (List.prefix_append _ [NodeCell.raw])).modify_other
        h.growing.spare_not_done f
      exact hold.append (.cons ⟨f cell, getElem?_modify_same f (hOld h.spareCell), hr _⟩ .nil)
    · have hne : c.heap.nodes.length ≠ spare := (Nat.ne_of_lt h.growing.live).symm
      rw [getElem?_modify_of_ne f hne]
      simp
    · exact prefix_modify (h.nodes.trans (List.prefix_append _ _)) h.growing.le_spare f

/-- The end of the decoder hands over the finished nodes and drops the spare cell. -/
theorem finish (h : Strand holds base c done cell)
    (hrelink : ∀ d r p, holds d r → holds { d with nextNode := p } r) :
    ∃ nodes p as, c.finish = .ok (⟨c.heap.ips, nodes⟩, p) ∧
      Seg NodeCell.nextNode nodes p as .null ∧ Contents holds nodes as done ∧
      base.nodes <+: nodes ∧ ∀ a ∈ as, base.nodes.length ≤ a := by
  obtain ⟨header, prev, spare, as, h⟩ := h
  let f := fun n : NodeCell => { n with nextNode := .null }
  obtain ⟨d, hd, hlinks⟩ := h.growing.cut (f := f) (fun _ => rfl)
  refine ⟨c.heap.nodes.modify prev f, d.nextNode, as, ?_, hlinks,
    h.contents.modify_keep (fun d r hr => hrelink d r _ hr) prev,
    prefix_modify h.nodes h.growing.le_prev f, fun a ha => h.growing.bound a (by simp [ha])⟩
  simp only [Cursor.finish, h.prevAt, h.headerAt, update_addr h.growing.prev_lt, ok_bind]
  rw [load_addr hd]
  rfl

theorem mallocNodes {h : Heap} {c : Cursor} (hheader : c.header = .addr (h.nodes.length + 1))
    (hprev : c.prev = .addr (h.nodes.length + 1)) (hnew : c.nodeNew = .addr h.nodes.length)
    (hnodes : c.heap.nodes = mallocNodes h.nodes) : Strand holds h c [] NodeCell.raw := by
  refine ⟨_, _, _, [], hheader, hprev, hnew, ?_, .nil, ?_, ?_⟩
  · rw [hnodes]
    refine Growing.start (c := { NodeCell.raw with id := some 0, nextNode := .addr h.nodes.length })
      ?_ rfl (by omega) ⟨Nat.le_refl _, by omega⟩ ?_
    · simp [NodeInfo.mallocNodes]
    · simp [NodeInfo.mallocNodes]
  · rw [hnodes]
    simp [NodeInfo.mallocNodes]
  · rw [hnodes]
    exact List.prefix_append _ _

theorem fileCursor (h : Heap) : Strand holds h (fileCursor h) [] NodeCell.raw :=
  mallocNodes rfl rfl rfl rfl

theorem bufCursor (h : Heap) : Strand holds h (bufCursor h) [] NodeCell.raw :=
  mallocNodes rfl rfl rfl rfl

end Strand

end VpnP2p.NodeInfo
