import VpnP2p.NodeInfo.Strand

/-!
# The cursors during a run

`Spine` says where the node cursors stand: the nodes decoded so far hang between
`header` and the spare cell `node_new`, and their IP lists lie in a part of the memory
that later lines leave alone. `Listing` says the same of the IP cursors inside one
node. Every branch keeps what it should, a whole block of lines adds one node, and a
block cut short anywhere adds none or, from the third letter of `end_node` on, one.
-/

namespace VpnP2p.NodeInfo

open Foundation

/-! ## The node cursors -/

/-- `done` are the nodes decoded since the heap `base`, with their IPs in `snap`;
`cell` is the cell `node_new` points at. -/
structure SpineAt (base : Heap) (snap : Mem IPCell) (c : Cursor) (done : List Node)
    (cell : NodeCell) (header prev spare : Nat) (as : List Nat) : Prop where
  headerAt : c.header = .addr header
  prevAt : c.prev = .addr prev
  nodeNewAt : c.nodeNew = .addr spare
  growing : Growing NodeCell.nextNode base.nodes.length c.heap.nodes header prev spare as
  contents : Contents (NodeCell.Holds snap) c.heap.nodes as done
  spareCell : c.heap.nodes[spare]? = some cell
  nodes : base.nodes <+: c.heap.nodes
  ips : snap <+: c.heap.ips
  base_ips : base.ips <+: snap

def Spine (base : Heap) (snap : Mem IPCell) (c : Cursor) (done : List Node) (cell : NodeCell) :
    Prop := ∃ header prev spare as, SpineAt base snap c done cell header prev spare as

section Spine

variable {base : Heap} {snap snap' : Mem IPCell} {c : Cursor} {done : List Node}
  {cell : NodeCell}

/-- The node cursors of a spine, and what it says of the IP memory. -/
theorem spine_iff : Spine base snap c done cell ↔ Strand (NodeCell.Holds snap) base c done cell ∧
    snap <+: c.heap.ips ∧ base.ips <+: snap := by
  constructor
  · rintro ⟨header, prev, spare, as, h⟩
    exact ⟨⟨header, prev, spare, as, h.headerAt, h.prevAt, h.nodeNewAt, h.growing, h.contents,
      h.spareCell, h.nodes⟩, h.ips, h.base_ips⟩
  · rintro ⟨⟨header, prev, spare, as, h⟩, hips, hbase⟩
    exact ⟨header, prev, spare, as, h.headerAt, h.prevAt, h.nodeNewAt, h.growing, h.contents,
      h.spareCell, h.nodes, hips, hbase⟩

theorem Spine.snap_prefix (h : Spine base snap c done cell) : snap <+: c.heap.ips :=
  (spine_iff.mp h).2.1

/-- More of the IP memory may be taken as settled. -/
theorem Spine.mono (h : Spine base snap c done cell) (hsnap : snap <+: snap')
    (hips : snap' <+: c.heap.ips) : Spine base snap' c done cell := by
  obtain ⟨hstrand, -, hbase⟩ := spine_iff.mp h
  exact spine_iff.mpr ⟨hstrand.mono (fun _ _ hx => hx.of_prefix hsnap), hips, hbase.trans hsnap⟩

/-- The IP cursors may move and their memory grow behind what is settled. -/
theorem Spine.with_ips (h : Spine base snap c done cell) {ips : Mem IPCell}
    (hips : snap <+: ips) (ipNew ipHeader : Ptr) :
    Spine base snap
      { c with heap := { c.heap with ips := ips }, ipNew := ipNew, ipHeader := ipHeader }
      done cell := by
  obtain ⟨hstrand, -, hbase⟩ := spine_iff.mp h
  exact spine_iff.mpr ⟨hstrand.with_ips ips ipNew ipHeader, hips, hbase⟩

theorem Spine.writeNodeNew (h : Spine base snap c done cell) (f : NodeCell → NodeCell) :
    ∃ nodes, c.writeNodeNew f = .ok { c with heap := { c.heap with nodes := nodes } } ∧
      Spine base snap { c with heap := { c.heap with nodes := nodes } } done (f cell) := by
  obtain ⟨hstrand, hips, hbase⟩ := spine_iff.mp h
  obtain ⟨nodes, hrun, hstrand'⟩ := hstrand.writeNodeNew f
  exact ⟨nodes, hrun, spine_iff.mpr ⟨hstrand', hips, hbase⟩⟩

/-- `end_node` turns the spare cell into a node, whatever it stands for. -/
theorem Spine.nextNode (h : Spine base snap c done cell) {n : Node} (hn : cell.Holds snap n) :
    ∃ c', c.nextNode = .ok c' ∧ Spine base snap c' (done ++ [n]) NodeCell.raw := by
  obtain ⟨hstrand, hips, hbase⟩ := spine_iff.mp h
  obtain ⟨nodes, nodeNew, prev, hrun, hstrand'⟩ := hstrand.nextNode (r := n) (fun _ => hn.relink)
  exact ⟨_, hrun, spine_iff.mpr ⟨hstrand', hips, hbase⟩⟩

/-- The end of the decoder hands over the finished nodes and drops the spare cell. -/
theorem Spine.finish (h : Spine base snap c done cell) :
    ∃ h' p as, c.finish = .ok (h', p) ∧ NodesOn h' p as done ∧ base.Extends h' ∧
      ∀ a ∈ as, base.nodes.length ≤ a := by
  obtain ⟨hstrand, hips, hbase⟩ := spine_iff.mp h
  obtain ⟨nodes, p, as, hrun, hlinks, hcont, hnodes, hfresh⟩ :=
    hstrand.finish (fun _ _ _ hx => hx.relink)
  exact ⟨_, p, as, hrun, ⟨hlinks, hcont.mono (fun _ _ hx => hx.of_prefix hips)⟩,
    ⟨hbase.trans hips, hnodes⟩, hfresh⟩

theorem spine_fileCursor (h : Heap) : Spine h h.ips (fileCursor h) [] NodeCell.raw :=
  spine_iff.mpr ⟨.fileCursor h, List.prefix_append _ _, List.prefix_rfl⟩

theorem spine_bufCursor (h : Heap) : Spine h h.ips (bufCursor h) [] NodeCell.raw :=
  spine_iff.mpr ⟨.bufCursor h, List.prefix_rfl, List.prefix_rfl⟩

end Spine

/-! ## The IP cursors -/

/-- `xs` are the IPs decoded since `ip_list`, in cells behind `snap` that start at
`first`; `cell` is the cell `ip_new` points at. -/
structure ListingAt (snap : Mem IPCell) (c : Cursor) (first : Nat) (xs : List IP) (cell : IPCell)
    (header prev spare : Nat) (as : List Nat) : Prop where
  ipHeaderAt : c.ipHeader = .addr prev
  ipNewAt : c.ipNew = .addr spare
  growing : Growing IPCell.nextIp snap.length c.heap.ips header prev spare as
  contents : Contents IPCell.Holds c.heap.ips as xs
  firstAt : (as ++ [spare]).head? = some first
  spareCell : c.heap.ips[spare]? = some cell

def Listing (snap : Mem IPCell) (c : Cursor) (first : Nat) (xs : List IP) (cell : IPCell) : Prop :=
  ∃ header prev spare as, ListingAt snap c first xs cell header prev spare as

/-- What `ip_new` points at after `ip_list` and after each IP. -/
def IPCell.spare : IPCell := { IPCell.raw with nextIp := .null }

/-! What the branches do to IP cursors that lead somewhere. -/

theorem Cursor.writeIpNew_eq {c : Cursor} {a : Nat} (hnew : c.ipNew = .addr a)
    (ha : a < c.heap.ips.length) (f : IPCell → IPCell) : c.writeIpNew f =
      .ok { c with heap := { c.heap with ips := c.heap.ips.modify a f } } := by
  rw [Cursor.writeIpNew, hnew, update_addr ha]
  rfl

theorem Cursor.cutIps_eq {c : Cursor} {a : Nat} (hheader : c.ipHeader = .addr a)
    (ha : a < c.heap.ips.length) : c.cutIps = .ok { c with
      heap := { c.heap with
        ips := c.heap.ips.modify a (fun x => { x with nextIp := .null }) } } := by
  rw [Cursor.cutIps, hheader, update_addr ha]
  rfl

theorem Cursor.nextIp_eq {c : Cursor} {a : Nat} {header : IPCell} (hnew : c.ipNew = .addr a)
    (ha : a < c.heap.ips.length) (hheader : load c.heap.ips c.ipHeader = .ok header) :
    c.nextIp = .ok { c with
      heap := { c.heap with
        ips := (c.heap.ips ++ [IPCell.spare]).modify a
          (fun x => { x with nextIp := .addr c.heap.ips.length }) }
      ipHeader := header.nextIp
      ipNew := .addr c.heap.ips.length } := by
  have hlt : a < (c.heap.ips ++ [IPCell.spare]).length := by
    rw [List.length_append]
    exact Nat.lt_add_right _ ha
  rw [Cursor.nextIp, hheader, hnew]
  simp only [ok_bind]
  rw [update_addr (by exact hlt)]
  rfl

section Listing

variable {base : Heap} {snap : Mem IPCell} {c : Cursor} {done : List Node} {node : NodeCell}
  {first : Nat} {xs : List IP} {cell : IPCell}

theorem Spine.openIps (h : Spine base snap c done node) :
    ∃ c' first, c.openIps = .ok c' ∧
      Spine base c.heap.ips c' done { node with ipList := .addr first } ∧
      Listing c.heap.ips c' first [] IPCell.spare := by
  let ip_new := Ptr.addr c.heap.ips.length
  let ips := c.heap.ips ++
    [{ IPCell.raw with nextIp := .null }, { IPCell.raw with nextIp := ip_new }]
  have hips : c.heap.ips <+: ips := List.prefix_append _ _
  have hSettled := h.mono h.snap_prefix List.prefix_rfl
  obtain ⟨nodes, hrun, hspine⟩ := (hSettled.with_ips hips ip_new
    (.addr (c.heap.ips.length + 1))).writeNodeNew (fun n => { n with ipList := ip_new })
  refine ⟨_, c.heap.ips.length, hrun, hspine, c.heap.ips.length + 1, c.heap.ips.length + 1,
    c.heap.ips.length, [], rfl, rfl, ?_, .nil, rfl, ?_⟩
  · refine Growing.start (c := { IPCell.raw with nextIp := ip_new }) ?_ rfl (by omega)
      ⟨Nat.le_refl _, by omega⟩ ?_
    · simp [ips]
    · simp [ips]
  · simp [ips, IPCell.spare]

theorem Listing.writeIpNew (h : Listing snap c first xs cell)
    (hs : Spine base snap c done node) (f : IPCell → IPCell) :
    ∃ c', c.writeIpNew f = .ok c' ∧ Spine base snap c' done node ∧
      Listing snap c' first xs (f cell) := by
  obtain ⟨header, prev, spare, as, h⟩ := h
  have hpre := prefix_modify hs.snap_prefix h.growing.le_spare f
  refine ⟨_, Cursor.writeIpNew_eq h.ipNewAt h.growing.live f,
    hs.with_ips hpre c.ipNew c.ipHeader, header, prev, spare, as, ?_⟩
  exact ⟨h.ipHeaderAt, h.ipNewAt, h.growing.write_spare f,
    h.contents.modify_other h.growing.spare_not_done f, h.firstAt,
    getElem?_modify_same f h.spareCell⟩

theorem Listing.nextIp (h : Listing snap c first xs cell) (hs : Spine base snap c done node) :
    ∃ c', c.nextIp = .ok c' ∧ Spine base snap c' done node ∧
      ∀ x, cell.Holds x → Listing snap c' first (xs ++ [x]) IPCell.spare := by
  obtain ⟨header, prev, spare, as, h⟩ := h
  let f := fun x : IPCell => { x with nextIp := .addr c.heap.ips.length }
  have hadv := h.growing.advance (c := IPCell.spare) (f := f) (fun _ => rfl)
  obtain ⟨d, hd, hnext⟩ := h.growing.prev_next
  have hheader : load c.heap.ips c.ipHeader = .ok d := h.ipHeaderAt ▸ load_addr hd
  have hOld : ∀ {a : Nat} {d : IPCell}, c.heap.ips[a]? = some d →
      (c.heap.ips ++ [IPCell.spare])[a]? = some d :=
    fun hd => getElem?_of_prefix (List.prefix_append _ _) hd
  have hpre : snap <+: (c.heap.ips ++ [IPCell.spare]).modify spare f :=
    prefix_modify (hs.snap_prefix.trans (List.prefix_append _ _)) h.growing.le_spare f
  refine ⟨_, Cursor.nextIp_eq h.ipNewAt h.growing.live hheader, hs.with_ips hpre _ _,
    fun x hx => ⟨header, spare, c.heap.ips.length, as ++ [spare], hnext, rfl, hadv, ?_, ?_, ?_⟩⟩
  · have hold := (h.contents.of_prefix (List.prefix_append _ [IPCell.spare])).modify_other
      h.growing.spare_not_done f
    exact hold.append (.cons ⟨f cell, getElem?_modify_same f (hOld h.spareCell),
      hx.ip, hx.type, hx.sCount, hx.validity⟩ .nil)
  · have hfirst := h.firstAt
    cases as <;> simpa using hfirst
  · have hne : c.heap.ips.length ≠ spare := (Nat.ne_of_lt h.growing.live).symm
    rw [getElem?_modify_of_ne f hne]
    simp

/-- `ip_list_ends` drops the spare cell; with an IP before it, the list is complete. -/
theorem Listing.cutIps (h : Listing snap c first xs cell) (hs : Spine base snap c done node) :
    ∃ c', c.cutIps = .ok c' ∧ Spine base snap c' done node ∧
      (xs ≠ [] → IpsAt c'.heap.ips (.addr first) xs) := by
  obtain ⟨header, prev, spare, as, h⟩ := h
  let f := fun x : IPCell => { x with nextIp := .null }
  have hpre := prefix_modify hs.snap_prefix h.growing.le_prev f
  refine ⟨_, Cursor.cutIps_eq h.ipHeaderAt h.growing.prev_lt,
    hs.with_ips hpre c.ipNew c.ipHeader, fun hxs => ⟨as, ?_, ?_⟩⟩
  · obtain ⟨d, -, hlinks⟩ := h.growing.cut (f := f) (fun _ => rfl)
    cases as with
    | nil =>
      cases h.contents
      exact absurd rfl hxs
    | cons a as =>
      have hfirst : a = first := by simpa using h.firstAt
      rw [← hfirst, ← hlinks.1]
      exact hlinks
  · exact h.contents.modify_keep (f := f) (fun _ _ hx => hx.relink) prev

end Listing

/-! ## Whole blocks -/

def ipOps (x : IP) : List Op :=
  [.ip (.ok x.ip), .type (.ok x.type), .sCount (.ok x.sCount), .validity (.ok x.validity)]

def headOps (n : Node) : List Op :=
  [.skip, .id (.ok n.id), .nodeCount (.ok n.nodeCount), .reliable (.ok n.reliable), .ipList]

/-- What the lines of a node ask for. -/
def nodeOps (n : Node) : List Op :=
  headOps n ++ (n.ipList.flatMap ipOps ++ [.ipListEnds, .endNode])

section Block

variable {base : Heap} {snap : Mem IPCell} {c : Cursor} {done : List Node} {node : NodeCell}
  {first : Nat} {xs : List IP} {cell : IPCell}

theorem Spine.runHead (h : Spine base snap c done node) (n : Node) :
    ∃ c' snap' first, c.run (headOps n) = .ok c' ∧
      Spine base snap' c' done ⟨some n.id, some n.nodeCount, some n.reliable, .addr first,
        node.nextNode⟩ ∧ Listing snap' c' first [] IPCell.spare := by
  obtain ⟨nodes₁, h₁, hs₁⟩ := h.writeNodeNew (fun m => { m with id := some n.id })
  obtain ⟨nodes₂, h₂, hs₂⟩ := hs₁.writeNodeNew (fun m => { m with nodeCount := some n.nodeCount })
  obtain ⟨nodes₃, h₃, hs₃⟩ := hs₂.writeNodeNew (fun m => { m with reliable := some n.reliable })
  obtain ⟨c', first, h₄, hs₄, hlist⟩ := hs₃.openIps
  refine ⟨c', _, first, ?_, hs₄, hlist⟩
  simp only [headOps, Cursor.run_cons, Cursor.run_nil, Cursor.exec, ok_bind, h₁, h₂, h₃, h₄]

theorem Listing.runIp (h : Listing snap c first xs cell) (hs : Spine base snap c done node)
    (x : IP) : ∃ c', c.run (ipOps x) = .ok c' ∧ Spine base snap c' done node ∧
      Listing snap c' first (xs ++ [x]) IPCell.spare := by
  obtain ⟨c₁, h₁, hs₁, hl₁⟩ := h.writeIpNew hs (fun y => { y with ip := some x.ip })
  obtain ⟨c₂, h₂, hs₂, hl₂⟩ := hl₁.writeIpNew hs₁ (fun y => { y with type := some x.type })
  obtain ⟨c₃, h₃, hs₃, hl₃⟩ := hl₂.writeIpNew hs₂ (fun y => { y with sCount := some x.sCount })
  obtain ⟨c₄, h₄, hs₄, hl₄⟩ := hl₃.writeIpNew hs₃ (fun y => { y with validity := some x.validity })
  obtain ⟨c₅, h₅, hs₅, hl₅⟩ := hl₄.nextIp hs₄
  refine ⟨c₅, ?_, hs₅, hl₅ x ⟨rfl, rfl, rfl, rfl⟩⟩
  simp only [ipOps, Cursor.run_cons, Cursor.run_nil, Cursor.exec, ok_bind, h₁, h₂, h₃, h₄, h₅]

theorem Listing.runIps (h : Listing snap c first xs cell) (hs : Spine base snap c done node)
    (ys : List IP) : ∃ c' cell', c.run (ys.flatMap ipOps) = .ok c' ∧
      Spine base snap c' done node ∧ Listing snap c' first (xs ++ ys) cell' := by
  induction ys generalizing c xs cell with
  | nil => exact ⟨c, cell, rfl, hs, by simpa using h⟩
  | cons y ys ih =>
    obtain ⟨c₁, h₁, hs₁, hl₁⟩ := h.runIp hs y
    obtain ⟨c₂, cell₂, h₂, hs₂, hl₂⟩ := ih hl₁ hs₁
    refine ⟨c₂, cell₂, ?_, hs₂, by simpa using hl₂⟩
    rw [List.flatMap_cons, Cursor.run_append, h₁, ok_bind, h₂]

/-- The lines of one node add that node. -/
theorem Spine.runNode (h : Spine base snap c done node) {n : Node} (hips : n.ipList ≠ []) :
    ∃ c' snap' node', c.run (nodeOps n) = .ok c' ∧ Spine base snap' c' (done ++ [n]) node' := by
  obtain ⟨c₁, snap₁, first, h₁, hs₁, hl₁⟩ := h.runHead n
  obtain ⟨c₂, cell, h₂, hs₂, hl₂⟩ := hl₁.runIps hs₁ n.ipList
  obtain ⟨c₃, h₃, hs₃, hlist⟩ := hl₂.cutIps hs₂
  have hSettled := hs₃.mono hs₃.snap_prefix List.prefix_rfl
  obtain ⟨c₄, h₄, hs₄⟩ := hSettled.nextNode ⟨rfl, rfl, rfl, hlist (by simpa using hips)⟩
  refine ⟨c₄, _, _, ?_, hs₄⟩
  simp only [nodeOps, Cursor.run_append, Cursor.run_cons, Cursor.run_nil, Cursor.exec, h₁, h₂, h₃,
    h₄, ok_bind]

end Block

/-! ## Blocks cut short -/

/-- What may be left of a branch when its line is cut: nothing, the same branch with
another value, or `ip_list` where the line was `ip_list_ends`. -/
inductive Op.Cut : Op → Op → Prop where
  | lost (p : Op) : Op.Cut p .skip
  | id (r : Result Int32) (v : Int32) : Op.Cut (.id r) (.id (.ok v))
  | nodeCount (r : Result Int32) (v : Int32) : Op.Cut (.nodeCount r) (.nodeCount (.ok v))
  | reliable (r : Result Int32) (v : Int32) : Op.Cut (.reliable r) (.reliable (.ok v))
  | ipListEnds : Op.Cut .ipListEnds .ipListEnds
  | reopened : Op.Cut .ipListEnds .ipList
  | ip (r : Result (CStr 20)) (s : CStr 20) : Op.Cut (.ip r) (.ip (.ok s))
  | type (r : Result (CStr 20)) (s : CStr 20) : Op.Cut (.type r) (.type (.ok s))
  | sCount (r : Result Int32) (v : Int32) : Op.Cut (.sCount r) (.sCount (.ok v))
  | validity (r : Result Int32) (v : Int32) : Op.Cut (.validity r) (.validity (.ok v))
  | ipList : Op.Cut .ipList .ipList
  | endNode : Op.Cut .endNode .endNode

/-- `qs` are the first `k` of the branches `ops` and perhaps what is left of the next. -/
inductive CutRun : List Op → Nat → List Op → Prop where
  | stop (ops : List Op) : CutRun ops 0 []
  | cut {p q : Op} (ops : List Op) : Op.Cut p q → CutRun (p :: ops) 0 [q]
  | step {ops qs : List Op} {k : Nat} (p : Op) :
      CutRun ops k qs → CutRun (p :: ops) (k + 1) (p :: qs)

theorem cutRun_take (ops : List Op) {k : Nat} (hk : k ≤ ops.length) :
    CutRun ops k (ops.take k) := by
  induction ops generalizing k with
  | nil =>
    obtain rfl : k = 0 := by simpa using hk
    exact .stop []
  | cons p ops ih =>
    cases k with
    | zero => exact .stop _
    | succ k => exact .step p (ih (by simpa using hk))

theorem cutRun_take_cut {ops : List Op} {k : Nat} {p q : Op} (hp : ops[k]? = some p)
    (hcut : Op.Cut p q) : CutRun ops k (ops.take k ++ [q]) := by
  induction ops generalizing k with
  | nil => simp at hp
  | cons p' ops ih =>
    cases k with
    | zero =>
      obtain rfl : p' = p := by simpa using hp
      exact .cut ops hcut
    | succ k => exact .step p' (ih (by simpa using hp))

theorem CutRun.append_cases {as bs qs : List Op} {k : Nat} (h : CutRun (as ++ bs) k qs) :
    (k < as.length ∧ CutRun as k qs) ∨
      ∃ k' qs', k = as.length + k' ∧ qs = as ++ qs' ∧ CutRun bs k' qs' := by
  induction as generalizing k qs with
  | nil => exact Or.inr ⟨k, qs, by simp, rfl, h⟩
  | cons a as ih =>
    cases h with
    | stop => exact Or.inl ⟨by simp, .stop _⟩
    | cut _ hcut => exact Or.inl ⟨by simp, .cut as hcut⟩
    | step _ h =>
      rcases ih h with ⟨hlt, hHead⟩ | ⟨k', qs', rfl, rfl, hTail⟩
      · exact Or.inl ⟨by simpa using hlt, .step a hHead⟩
      · exact Or.inr ⟨k', qs', by simp; omega, rfl, hTail⟩

/-- What cutting keeps true of a branch holds of every branch of a cut run. -/
theorem CutRun.forall_mem {ops qs : List Op} {k : Nat} (h : CutRun ops k qs) {P : Op → Prop}
    (hcut : ∀ p q, Op.Cut p q → P p → P q) (hops : ∀ p ∈ ops, P p) : ∀ q ∈ qs, P q := by
  induction h with
  | stop => simp
  | cut _ hpq => simpa using hcut _ _ hpq (hops _ (by simp))
  | step p _ ih =>
    intro q hq
    rcases List.mem_cons.mp hq with rfl | hq
    · exact hops _ (by simp)
    · exact ih (fun p hp => hops p (by simp [hp])) q hq

/-- The branches of the first lines of a node. -/
inductive Op.InHead : Op → Prop where
  | skip : Op.InHead .skip
  | id (v : Int32) : Op.InHead (.id (.ok v))
  | nodeCount (v : Int32) : Op.InHead (.nodeCount (.ok v))
  | reliable (v : Int32) : Op.InHead (.reliable (.ok v))
  | ipList : Op.InHead .ipList

theorem Op.Cut.inHead {p q : Op} (h : Op.Cut p q) (hp : p.InHead) : q.InHead := by
  cases hp <;> cases h <;> constructor

/-- The branches that fill in `ip_new`. -/
inductive Op.InIp : Op → Prop where
  | skip : Op.InIp .skip
  | ip (s : CStr 20) : Op.InIp (.ip (.ok s))
  | type (s : CStr 20) : Op.InIp (.type (.ok s))
  | sCount (v : Int32) : Op.InIp (.sCount (.ok v))

theorem Op.Cut.inIp {p q : Op} (h : Op.Cut p q) (hp : p.InIp) : q.InIp := by
  cases hp <;> cases h <;> constructor

section Cut

variable {base : Heap} {snap : Mem IPCell} {c : Cursor} {done : List Node} {node : NodeCell}
  {first : Nat} {xs : List IP} {cell : IPCell} {n : Node} {k : Nat} {qs : List Op}

theorem Spine.exec_inHead (h : Spine base snap c done node) {op : Op} (hop : op.InHead) :
    ∃ c' snap' node', c.exec op = .ok c' ∧ Spine base snap' c' done node' := by
  cases hop with
  | skip => exact ⟨c, snap, node, rfl, h⟩
  | id v =>
    obtain ⟨nodes, hrun, hs⟩ := h.writeNodeNew (fun n => { n with id := some v })
    exact ⟨_, _, _, hrun, hs⟩
  | nodeCount v =>
    obtain ⟨nodes, hrun, hs⟩ := h.writeNodeNew (fun n => { n with nodeCount := some v })
    exact ⟨_, _, _, hrun, hs⟩
  | reliable v =>
    obtain ⟨nodes, hrun, hs⟩ := h.writeNodeNew (fun n => { n with reliable := some v })
    exact ⟨_, _, _, hrun, hs⟩
  | ipList =>
    obtain ⟨c', first, hrun, hs, -⟩ := h.openIps
    exact ⟨c', _, _, hrun, hs⟩

theorem Spine.runHead_cut (h : Spine base snap c done node) (hcut : CutRun (headOps n) k qs) :
    ∃ c' snap' node', c.run qs = .ok c' ∧ Spine base snap' c' done node' := by
  have hqs : ∀ q ∈ qs, q.InHead := by
    apply hcut.forall_mem (fun p q hpq hp => hpq.inHead hp)
    simp only [headOps, List.forall_mem_cons, List.not_mem_nil, false_implies, implies_true,
      and_true]
    exact ⟨.skip, .id _, .nodeCount _, .reliable _, .ipList⟩
  obtain ⟨c', hrun, snap', node', hs⟩ := foldlM_total
    (f := Cursor.exec) (fun c => ∃ snap node, Spine base snap c done node) ⟨snap, node, h⟩
    (fun q hq t ⟨snap, node, ht⟩ => by
      obtain ⟨t', snap', node', hstep, ht'⟩ := ht.exec_inHead (hqs q hq)
      exact ⟨t', hstep, snap', node', ht'⟩)
  exact ⟨c', snap', node', hrun, hs⟩

theorem Listing.exec_inIp (h : Listing snap c first xs cell) (hs : Spine base snap c done node)
    {op : Op} (hop : op.InIp) : ∃ c' cell', c.exec op = .ok c' ∧ Spine base snap c' done node ∧
      Listing snap c' first xs cell' := by
  cases hop with
  | skip => exact ⟨c, cell, rfl, hs, h⟩
  | ip s =>
    obtain ⟨c', hrun, hs', h'⟩ := h.writeIpNew hs (fun x => { x with ip := some s })
    exact ⟨c', _, hrun, hs', h'⟩
  | type s =>
    obtain ⟨c', hrun, hs', h'⟩ := h.writeIpNew hs (fun x => { x with type := some s })
    exact ⟨c', _, hrun, hs', h'⟩
  | sCount v =>
    obtain ⟨c', hrun, hs', h'⟩ := h.writeIpNew hs (fun x => { x with sCount := some v })
    exact ⟨c', _, hrun, hs', h'⟩

theorem Listing.run_inIp (h : Listing snap c first xs cell) (hs : Spine base snap c done node)
    (hqs : ∀ q ∈ qs, q.InIp) : ∃ c' cell', c.run qs = .ok c' ∧ Spine base snap c' done node ∧
      Listing snap c' first xs cell' := by
  obtain ⟨c', hrun, hs', cell', h'⟩ := foldlM_total (f := Cursor.exec)
    (fun c => Spine base snap c done node ∧ ∃ cell, Listing snap c first xs cell) ⟨hs, cell, h⟩
    (fun q hq t ⟨ht, cell, hl⟩ => by
      obtain ⟨t', cell', hstep, ht', hl'⟩ := hl.exec_inIp ht (hqs q hq)
      exact ⟨t', hstep, ht', cell', hl'⟩)
  exact ⟨c', cell', hrun, hs', h'⟩

theorem Listing.exec_validity (h : Listing snap c first xs cell)
    (hs : Spine base snap c done node) (v : Int32) :
    ∃ c', c.exec (.validity (.ok v)) = .ok c' ∧ Spine base snap c' done node := by
  obtain ⟨c₁, h₁, hs₁, hl₁⟩ := h.writeIpNew hs (fun x => { x with validity := some v })
  obtain ⟨c₂, h₂, hs₂, -⟩ := hl₁.nextIp hs₁
  exact ⟨c₂, by simp only [Cursor.exec, ok_bind, h₁, h₂], hs₂⟩

theorem Listing.runIp_cut (h : Listing snap c first xs cell) (hs : Spine base snap c done node)
    {x : IP} (hcut : CutRun (ipOps x) k qs) :
    ∃ c', c.run qs = .ok c' ∧ Spine base snap c' done node := by
  let fields := [Op.ip (.ok x.ip), .type (.ok x.type), .sCount (.ok x.sCount)]
  have hfields : ∀ p ∈ fields, p.InIp := by
    simp only [fields, List.forall_mem_cons, List.not_mem_nil, false_implies, implies_true,
      and_true]
    exact ⟨.ip _, .type _, .sCount _⟩
  have hsplit : ipOps x = fields ++ [.validity (.ok x.validity)] := rfl
  rw [hsplit] at hcut
  rcases hcut.append_cases with ⟨-, hHead⟩ | ⟨k', qs', -, rfl, hTail⟩
  · obtain ⟨c', _, hrun, hs', -⟩ := h.run_inIp hs
      (hHead.forall_mem (fun p q hpq hp => hpq.inIp hp) hfields)
    exact ⟨c', hrun, hs'⟩
  · obtain ⟨c₁, _, h₁, hs₁, hl₁⟩ := h.run_inIp hs hfields
    rw [Cursor.run_append, h₁, ok_bind]
    cases hTail with
    | stop => exact ⟨c₁, rfl, hs₁⟩
    | cut _ hpq =>
      cases hpq with
      | lost => exact ⟨c₁, rfl, hs₁⟩
      | validity _ v =>
        obtain ⟨c₂, h₂, hs₂⟩ := hl₁.exec_validity hs₁ v
        exact ⟨c₂, by rw [Cursor.run_cons, h₂]; rfl, hs₂⟩
    | step _ hrest =>
      cases hrest
      obtain ⟨c₂, h₂, hs₂⟩ := hl₁.exec_validity hs₁ x.validity
      exact ⟨c₂, by rw [Cursor.run_cons, h₂]; rfl, hs₂⟩

theorem Listing.runIps_cut (h : Listing snap c first xs cell) (hs : Spine base snap c done node)
    {ys : List IP} (hcut : CutRun (ys.flatMap ipOps) k qs) :
    ∃ c', c.run qs = .ok c' ∧ Spine base snap c' done node := by
  induction ys generalizing c xs cell k qs with
  | nil =>
    cases hcut
    exact ⟨c, rfl, hs⟩
  | cons y ys ih =>
    rw [List.flatMap_cons] at hcut
    rcases hcut.append_cases with ⟨-, hHead⟩ | ⟨k', qs', -, rfl, hTail⟩
    · exact h.runIp_cut hs hHead
    · obtain ⟨c₁, h₁, hs₁, hl₁⟩ := h.runIp hs y
      obtain ⟨c₂, h₂, hs₂⟩ := ih hl₁ hs₁ hTail
      exact ⟨c₂, by rw [Cursor.run_append, h₁, ok_bind, h₂], hs₂⟩

/-- A node whose lines are cut short is not decoded, or it is decoded whole. -/
theorem Spine.runNode_cut (h : Spine base snap c done node) (hips : n.ipList ≠ [])
    (hlt : k < (nodeOps n).length) (hcut : CutRun (nodeOps n) k qs) :
    ∃ c' snap' node' done', c.run qs = .ok c' ∧ Spine base snap' c' done' node' ∧
      (done' = done ∨ done' = done ++ [n]) := by
  rcases hcut.append_cases with ⟨-, hHead⟩ | ⟨k', qs', rfl, rfl, hTail⟩
  · obtain ⟨c', snap', node', hrun, hs⟩ := h.runHead_cut hHead
    exact ⟨c', snap', node', done, hrun, hs, Or.inl rfl⟩
  obtain ⟨c₁, snap₁, first, h₁, hs₁, hl₁⟩ := h.runHead n
  rw [Cursor.run_append, h₁, ok_bind]
  rcases hTail.append_cases with ⟨-, hIps⟩ | ⟨k'', qs'', rfl, rfl, hEnd⟩
  · obtain ⟨c', hrun, hs⟩ := hl₁.runIps_cut hs₁ hIps
    exact ⟨c', _, _, done, hrun, hs, Or.inl rfl⟩
  obtain ⟨c₂, cell, h₂, hs₂, hl₂⟩ := hl₁.runIps hs₁ n.ipList
  rw [Cursor.run_append, h₂, ok_bind]
  obtain ⟨c₃, h₃, hs₃, hlist⟩ := hl₂.cutIps hs₂
  have hEnds : c₂.exec .ipListEnds = .ok c₃ := h₃
  cases hEnd with
  | stop => exact ⟨c₂, _, _, done, rfl, hs₂, Or.inl rfl⟩
  | cut _ hpq =>
    cases hpq with
    | lost => exact ⟨c₂, _, _, done, rfl, hs₂, Or.inl rfl⟩
    | ipListEnds => exact ⟨c₃, _, _, done, by rw [Cursor.run_cons, hEnds]; rfl, hs₃, Or.inl rfl⟩
    | reopened =>
      obtain ⟨c₄, _, h₄, hs₄, -⟩ := hs₂.openIps
      have hOpen : c₂.exec .ipList = .ok c₄ := h₄
      exact ⟨c₄, _, _, done, by rw [Cursor.run_cons, hOpen]; rfl, hs₄, Or.inl rfl⟩
  | step _ hLast =>
    rw [Cursor.run_cons, hEnds, ok_bind]
    have hSettled := hs₃.mono hs₃.snap_prefix List.prefix_rfl
    obtain ⟨c₄, h₄, hs₄⟩ := hSettled.nextNode ⟨rfl, rfl, rfl, hlist (by simpa using hips)⟩
    have hEndNode : c₃.exec .endNode = .ok c₄ := h₄
    cases hLast with
    | stop => exact ⟨c₃, _, _, done, rfl, hs₃, Or.inl rfl⟩
    | cut _ hpq =>
      cases hpq with
      | lost => exact ⟨c₃, _, _, done, rfl, hs₃, Or.inl rfl⟩
      | endNode =>
        exact ⟨c₄, _, _, _, by rw [Cursor.run_cons, hEndNode]; rfl, hs₄, Or.inr rfl⟩
    | step _ hrest =>
      simp only [nodeOps, List.length_append, List.length_cons, List.length_nil] at hlt
      omega

/-- A cut run over the lines of `l` decodes a prefix of `l` that has every node whose
lines are all there. -/
theorem Spine.runNodes_cut (h : Spine base snap c done node) {l : List Node}
    (hips : ∀ n ∈ l, n.ipList ≠ []) (hcut : CutRun (l.flatMap nodeOps) k qs) :
    ∃ c' snap' node' m, c.run qs = .ok c' ∧ Spine base snap' c' (done ++ l.take m) node' ∧
      m ≤ l.length ∧
      ∀ j ≤ l.length, ((l.take j).flatMap nodeOps).length ≤ k → j ≤ m := by
  induction l generalizing c snap done node k qs with
  | nil =>
    cases hcut
    exact ⟨c, snap, node, 0, rfl, by simpa using h, by simp, fun j hj _ => hj⟩
  | cons n l ih =>
    rw [List.flatMap_cons] at hcut
    rcases hcut.append_cases with ⟨hlt, hHead⟩ | ⟨k', qs', rfl, rfl, hTail⟩
    · -- The cut falls into the lines of `n`, so no block is whole.
      obtain ⟨c', snap', node', done', hrun, hs, hdone⟩ :=
        h.runNode_cut (hips n (by simp)) hlt hHead
      have hzero : ∀ j, (((n :: l).take j).flatMap nodeOps).length ≤ k → j = 0 := by
        intro j hj
        cases j with
        | zero => rfl
        | succ j =>
          simp only [List.take_succ_cons, List.flatMap_cons, List.length_append] at hj
          omega
      rcases hdone with rfl | rfl
      · exact ⟨c', snap', node', 0, hrun, by simpa using hs, by simp,
          fun j _ hj => Nat.le_of_eq (hzero j hj)⟩
      · refine ⟨c', snap', node', 1, hrun, by simpa using hs, by simp, fun j _ hj => ?_⟩
        rw [hzero j hj]
        exact Nat.zero_le 1
    · obtain ⟨c₁, snap₁, node₁, h₁, hs₁⟩ := h.runNode (hips n (by simp))
      obtain ⟨c', snap', node', m, hrun, hs, hm, hwhole⟩ :=
        ih hs₁ (fun n hn => hips n (by simp [hn])) hTail
      refine ⟨c', snap', node', m + 1, by rw [Cursor.run_append, h₁, ok_bind, hrun],
        by simpa using hs, by simpa using hm, ?_⟩
      intro j hj hlen
      cases j with
      | zero => exact Nat.zero_le _
      | succ j =>
        simp only [List.take_succ_cons, List.flatMap_cons, List.length_append] at hlen
        have := hwhole j (by simpa using hj) (by omega)
        omega

end Cut

end VpnP2p.NodeInfo
