import VpnP2p.Foundation.Growing
import VpnP2p.Foundation.KeyedMerge
import VpnP2p.Foundation.Decimal

/-!
# Nodes and IPs, as values and in memory

`IP` and `Node` are the values of `struct IP` and `struct Node`; the strings fit their
arrays, so a value that does not fit cannot be formed. In memory they are cells with
link fields, and a field of a cell that came from `malloc` holds nothing until it is
assigned. `NodesOn h p as ns` says that the list at `p` consists of the node cells `as`
and stands for the nodes `ns`; IP cells may be shared between node cells, as they are
after a merge.
-/

namespace VpnP2p.NodeInfo

open Foundation

/-! ## Values -/

structure IP where
  ip : CStr 20
  type : CStr 20
  sCount : Int32
  validity : Int32
deriving DecidableEq

structure Node where
  id : Int32
  nodeCount : Int32
  reliable : Int32
  ipList : List IP
deriving DecidableEq

def reliableMark : Int32 := 1

def ids (l : List Node) : List Int32 := l.map Node.id

/-- `strip` of node_info.c: the string without its tabs and newlines. -/
def strip (s : Text) : Text := s.filter (fun c => c ≠ tab && c ≠ newline)

theorem strip_length_le (s : Text) : (strip s).length ≤ s.length := List.length_filter_le ..

theorem newline_not_mem_strip (s : Text) : newline ∉ strip s := by
  simp [strip]

theorem zero_not_mem_strip {s : Text} (h : 0 ∉ s) : 0 ∉ strip s :=
  fun hmem => h (List.mem_of_mem_filter hmem)

theorem strip_eq_self {s : Text} (htab : tab ∉ s) (hnl : newline ∉ s) : strip s = s := by
  unfold strip
  rw [List.filter_eq_self]
  intro c hc
  have h1 : c ≠ tab := fun h => htab (h ▸ hc)
  have h2 : c ≠ newline := fun h => hnl (h ▸ hc)
  simp [h1, h2]

def stripStr {n : Nat} (s : CStr n) : CStr n :=
  ⟨strip s.val, zero_not_mem_strip s.noNul, Nat.lt_of_le_of_lt (strip_length_le _) s.fits⟩

/-- What the file decoder makes of an IP: its strings lose their tabs. -/
def IP.stripped (x : IP) : IP := { x with ip := stripStr x.ip, type := stripStr x.type }

def Node.stripped (n : Node) : Node := { n with ipList := n.ipList.map IP.stripped }

/-- No string of the node has a newline in it, and it has an IP. -/
structure Node.OneLine (n : Node) : Prop where
  ips : n.ipList ≠ []
  lines : ∀ x ∈ n.ipList, newline ∉ x.ip.val ∧ newline ∉ x.type.val

theorem Node.OneLine.stripped {n : Node} (h : n.OneLine) : n.stripped.OneLine where
  ips := by simpa [Node.stripped] using h.ips
  lines := by
    intro x hx
    obtain ⟨y, -, rfl⟩ := List.mem_map.mp hx
    exact ⟨newline_not_mem_strip y.ip.val, newline_not_mem_strip y.type.val⟩

theorem oneLine_map_stripped {l : List Node} (hl : ∀ n ∈ l, n.OneLine) :
    ∀ n ∈ l.map Node.stripped, n.OneLine := by
  intro n hn
  obtain ⟨m, hm, rfl⟩ := List.mem_map.mp hn
  exact (hl m hm).stripped

/-- The node can be written and read back: it has an IP, and no tab or newline. -/
structure Node.Plain (n : Node) : Prop extends n.OneLine where
  tabs : ∀ x ∈ n.ipList, tab ∉ x.ip.val ∧ tab ∉ x.type.val

theorem Node.Plain.stripped_eq {n : Node} (h : n.Plain) : n.stripped = n := by
  have hips : n.ipList.map IP.stripped = n.ipList := by
    conv_rhs => rw [← List.map_id n.ipList]
    apply List.map_congr_left
    intro x hx
    have hip : stripStr x.ip = x.ip :=
      CStr.ext' (strip_eq_self (h.tabs x hx).1 (h.lines x hx).1)
    have htype : stripStr x.type = x.type :=
      CStr.ext' (strip_eq_self (h.tabs x hx).2 (h.lines x hx).2)
    simp [IP.stripped, hip, htype]
  simp [Node.stripped, hips]

theorem map_stripped_of_plain {l : List Node} (h : ∀ n ∈ l, n.Plain) :
    l.map Node.stripped = l := by
  conv_rhs => rw [← List.map_id l]
  exact List.map_congr_left (fun n hn => (h n hn).stripped_eq)

def clientIP : CStr 20 := ⟨lit "clientIP", by decide, by decide⟩

def serverIP : CStr 20 := ⟨lit "serverIP", by decide, by decide⟩

def sampleHere : CStr 20 := ⟨lit "127.0.0.1", by decide, by decide⟩

def sampleThere : CStr 20 := ⟨lit "127.0.0.2", by decide, by decide⟩

/-- The first node of test_info.txt. -/
def sampleNode : Node where
  id := 123
  nodeCount := 1
  reliable := reliableMark
  ipList := [⟨sampleHere, clientIP, 1, 1⟩]

theorem sampleNode_plain : sampleNode.Plain where
  ips := by simp [sampleNode]
  lines := by decide
  tabs := by decide

/-- The sample node under other ids. -/
def sampleNodes (l : List Int32) : List Node := l.map (fun id => { sampleNode with id := id })

theorem sampleNodes_plain (l : List Int32) : ∀ n ∈ sampleNodes l, n.Plain := by
  intro n hn
  obtain ⟨id, -, rfl⟩ := List.mem_map.mp hn
  exact ⟨⟨sampleNode_plain.ips, sampleNode_plain.lines⟩, sampleNode_plain.tabs⟩

/-! ## Memory -/

/-- `struct IP`; `none` and `unassigned` mark what nobody wrote. -/
structure IPCell where
  ip : Option (CStr 20)
  type : Option (CStr 20)
  sCount : Option Int32
  validity : Option Int32
  nextIp : Ptr
deriving DecidableEq

/-- `struct Node`. -/
structure NodeCell where
  id : Option Int32
  nodeCount : Option Int32
  reliable : Option Int32
  ipList : Ptr
  nextNode : Ptr
deriving DecidableEq

/-- What `malloc(sizeof(struct IP))` returns. -/
def IPCell.raw : IPCell := ⟨none, none, none, none, .unassigned⟩

/-- What `malloc(sizeof(struct Node))` returns. -/
def NodeCell.raw : NodeCell := ⟨none, none, none, .unassigned, .unassigned⟩

structure Heap where
  ips : Mem IPCell
  nodes : Mem NodeCell
deriving DecidableEq

def Heap.empty : Heap := ⟨[], []⟩

/-- The cells of `h` are still there, unchanged, in `h'`. -/
structure Heap.Extends (h h' : Heap) : Prop where
  ips : h.ips <+: h'.ips
  nodes : h.nodes <+: h'.nodes

theorem Heap.Extends.refl (h : Heap) : h.Extends h := ⟨List.prefix_rfl, List.prefix_rfl⟩

theorem Heap.Extends.trans {h₁ h₂ h₃ : Heap} (h₁₂ : h₁.Extends h₂) (h₂₃ : h₂.Extends h₃) :
    h₁.Extends h₃ := ⟨h₁₂.ips.trans h₂₃.ips, h₁₂.nodes.trans h₂₃.nodes⟩

theorem Heap.Extends.malloc (h : Heap) (c : NodeCell) :
    h.Extends { h with nodes := h.nodes ++ [c] } := ⟨List.prefix_rfl, List.prefix_append _ _⟩

/-! ## What a cell stands for -/

structure IPCell.Holds (c : IPCell) (x : IP) : Prop where
  ip : c.ip = some x.ip
  type : c.type = some x.type
  sCount : c.sCount = some x.sCount
  validity : c.validity = some x.validity

/-- The NULL-terminated IP list at `p` stands for `xs`. -/
def IpsAt (m : Mem IPCell) (p : Ptr) (xs : List IP) : Prop :=
  ∃ as, Seg IPCell.nextIp m p as .null ∧ Contents IPCell.Holds m as xs

structure NodeCell.Holds (ips : Mem IPCell) (c : NodeCell) (n : Node) : Prop where
  id : c.id = some n.id
  nodeCount : c.nodeCount = some n.nodeCount
  reliable : c.reliable = some n.reliable
  ipList : IpsAt ips c.ipList n.ipList

/-- The NULL-terminated node list at `p` has the cells `as` and stands for `ns`. -/
structure NodesOn (h : Heap) (p : Ptr) (as : List Nat) (ns : List Node) : Prop where
  links : Seg NodeCell.nextNode h.nodes p as .null
  contents : Contents (NodeCell.Holds h.ips) h.nodes as ns

def NodesAt (h : Heap) (p : Ptr) (ns : List Node) : Prop := ∃ as, NodesOn h p as ns

theorem IPCell.Holds.unique {c : IPCell} {x y : IP} (hx : c.Holds x) (hy : c.Holds y) :
    x = y := by
  obtain ⟨h1, h2, h3, h4⟩ := hx
  obtain ⟨k1, k2, k3, k4⟩ := hy
  rw [h1, Option.some.injEq] at k1
  rw [h2, Option.some.injEq] at k2
  rw [h3, Option.some.injEq] at k3
  rw [h4, Option.some.injEq] at k4
  cases x
  cases y
  simp_all

/-- A write to the link of a cell keeps its IP. -/
theorem IPCell.Holds.relink {p : Ptr} {c : IPCell} {x : IP} (h : c.Holds x) :
    { c with nextIp := p }.Holds x := ⟨h.ip, h.type, h.sCount, h.validity⟩

theorem IpsAt.unique {m : Mem IPCell} {p : Ptr} {xs ys : List IP} (hx : IpsAt m p xs)
    (hy : IpsAt m p ys) : xs = ys := by
  obtain ⟨as, hlinks, hcont⟩ := hx
  obtain ⟨bs, hlinks', hcont'⟩ := hy
  obtain rfl := hlinks.unique hlinks'
  exact hcont.unique (fun _ _ _ h h' => h.unique h') hcont'

theorem IpsAt.of_prefix {m m' : Mem IPCell} {p : Ptr} {xs : List IP} (h : IpsAt m p xs)
    (hpre : m <+: m') : IpsAt m' p xs := by
  obtain ⟨as, hlinks, hcont⟩ := h
  exact ⟨as, hlinks.sameLinks (SameLinks.of_prefix _ hpre), hcont.of_prefix hpre⟩

theorem NodeCell.Holds.of_prefix {m m' : Mem IPCell} {c : NodeCell} {n : Node}
    (h : c.Holds m n) (hpre : m <+: m') : c.Holds m' n :=
  ⟨h.id, h.nodeCount, h.reliable, h.ipList.of_prefix hpre⟩

/-- A write to the link of a cell keeps its node. -/
theorem NodeCell.Holds.relink {m : Mem IPCell} {p : Ptr} {c : NodeCell} {n : Node}
    (h : c.Holds m n) : { c with nextNode := p }.Holds m n :=
  ⟨h.id, h.nodeCount, h.reliable, h.ipList⟩

theorem NodeCell.Holds.unique {m : Mem IPCell} {c : NodeCell} {n n' : Node}
    (h : c.Holds m n) (h' : c.Holds m n') : n = n' := by
  have h1 := h.id.symm.trans h'.id
  have h2 := h.nodeCount.symm.trans h'.nodeCount
  have h3 := h.reliable.symm.trans h'.reliable
  have h4 := h.ipList.unique h'.ipList
  simp only [Option.some.injEq] at h1 h2 h3
  cases n
  cases n'
  simp_all

theorem NodesOn.unique {h : Heap} {p : Ptr} {as bs : List Nat} {ns ns' : List Node}
    (hn : NodesOn h p as ns) (hn' : NodesOn h p bs ns') : as = bs ∧ ns = ns' := by
  obtain rfl := hn.links.unique hn'.links
  exact ⟨rfl, hn.contents.unique (fun _ _ _ h h' => h.unique h') hn'.contents⟩

/-- A pointer stands for one list at most. -/
theorem NodesAt.unique {h : Heap} {p : Ptr} {ns ns' : List Node} (hn : NodesAt h p ns)
    (hn' : NodesAt h p ns') : ns = ns' := by
  obtain ⟨as, hn⟩ := hn
  obtain ⟨bs, hn'⟩ := hn'
  exact (hn.unique hn').2

theorem NodesOn.of_extends {h h' : Heap} {p : Ptr} {as : List Nat} {ns : List Node}
    (hn : NodesOn h p as ns) (hext : h.Extends h') : NodesOn h' p as ns where
  links := hn.links.sameLinks (SameLinks.of_prefix _ hext.nodes)
  contents := (hn.contents.of_prefix hext.nodes).mono (fun _ _ hx => hx.of_prefix hext.ips)

/-- What lies behind the memory of a list has none of its cells. -/
theorem NodesOn.disjoint {h : Heap} {p : Ptr} {as bs : List Nat} {ns : List Node}
    (hn : NodesOn h p as ns) (hfresh : ∀ b ∈ bs, h.nodes.length ≤ b) : as.Disjoint bs :=
  fun a ha hb => absurd (hn.links.lt_length a ha) (Nat.not_lt.mpr (hfresh a hb))

theorem NodesOn.cells_ne_nil {h : Heap} {p : Ptr} {as : List Nat} {ns : List Node}
    (hn : NodesOn h p as ns) (hne : ns ≠ []) : as ≠ [] := by
  rintro rfl
  cases hn.contents
  exact hne rfl

/-- A list whose cells and IPs are unchanged is unchanged. -/
theorem NodesOn.frame {h h' : Heap} {p : Ptr} {as : List Nat} {ns : List Node}
    (hn : NodesOn h p as ns) (hips : h'.ips = h.ips)
    (hcells : ∀ a ∈ as, ∀ c, h.nodes[a]? = some c → h'.nodes[a]? = some c) :
    NodesOn h' p as ns where
  links := hn.links.sameLinks (fun a ha c hc => ⟨c, hcells a ha c hc, rfl⟩)
  contents := hn.contents.transport (fun a ha c _ hc hx => ⟨c, hcells a ha c hc, hips ▸ hx⟩)

/-- The node at `p`. -/
def NodeAt (h : Heap) (p : Ptr) (n : Node) : Prop := ∃ c, load h.nodes p = .ok c ∧ c.Holds h.ips n

theorem NodesAt.nodeAt {h : Heap} {p : Ptr} {n : Node} (hn : NodesAt h p [n]) :
    NodeAt h p n := by
  obtain ⟨as, hlinks, hcont⟩ := hn
  cases hcont with
  | cons ha hrest =>
    obtain ⟨c, hc, hholds⟩ := ha
    obtain ⟨rfl, -⟩ := hlinks
    exact ⟨c, load_addr hc, hholds⟩

/-! ## Laying out a list -/

def allocIps (m : Mem IPCell) : List IP → Mem IPCell × Ptr
  | [] => (m, .null)
  | x :: xs =>
    let (m, p) := allocIps m xs
    (m ++ [⟨some x.ip, some x.type, some x.sCount, some x.validity, p⟩], .addr m.length)

/-- Every list can be put into memory behind what is there. -/
def Heap.alloc (h : Heap) : List Node → Heap × Ptr
  | [] => (h, .null)
  | n :: ns =>
    let (h, p) := h.alloc ns
    let (ips, q) := allocIps h.ips n.ipList
    (⟨ips, h.nodes ++ [⟨some n.id, some n.nodeCount, some n.reliable, q, p⟩]⟩,
      .addr h.nodes.length)

theorem allocIps_spec (m : Mem IPCell) (xs : List IP) :
    m <+: (allocIps m xs).1 ∧ IpsAt (allocIps m xs).1 (allocIps m xs).2 xs := by
  induction xs with
  | nil => exact ⟨List.prefix_rfl, [], rfl, .nil⟩
  | cons x xs ih =>
    obtain ⟨hpre, as, hlinks, hcont⟩ := ih
    have hcell : (allocIps m (x :: xs)).1[(allocIps m xs).1.length]? =
        some ⟨some x.ip, some x.type, some x.sCount, some x.validity, (allocIps m xs).2⟩ := by
      simp [allocIps]
    have hold : (allocIps m xs).1 <+: (allocIps m (x :: xs)).1 := List.prefix_append _ _
    exact ⟨hpre.trans hold, (allocIps m xs).1.length :: as,
      ⟨rfl, _, hcell, hlinks.sameLinks (SameLinks.of_prefix as hold)⟩,
      .cons ⟨_, hcell, rfl, rfl, rfl, rfl⟩ (hcont.of_prefix hold)⟩

theorem Heap.alloc_spec (h : Heap) (l : List Node) :
    h.Extends (h.alloc l).1 ∧ ∃ as, NodesOn (h.alloc l).1 (h.alloc l).2 as l ∧
      ∀ a ∈ as, h.nodes.length ≤ a := by
  induction l with
  | nil => exact ⟨.refl h, [], ⟨rfl, .nil⟩, by simp⟩
  | cons n l ih =>
    obtain ⟨hext, as, hon, hfresh⟩ := ih
    obtain ⟨hips, hlist⟩ := allocIps_spec (h.alloc l).1.ips n.ipList
    have hold : (h.alloc l).1.Extends (h.alloc (n :: l)).1 := ⟨hips, List.prefix_append _ _⟩
    have hcell : (h.alloc (n :: l)).1.nodes[(h.alloc l).1.nodes.length]? =
        some ⟨some n.id, some n.nodeCount, some n.reliable,
          (allocIps (h.alloc l).1.ips n.ipList).2, (h.alloc l).2⟩ := by
      simp [Heap.alloc]
    have hon' := hon.of_extends hold
    refine ⟨hext.trans hold, (h.alloc l).1.nodes.length :: as,
      ⟨⟨rfl, _, hcell, hon'.links⟩, .cons ⟨_, hcell, rfl, rfl, rfl, hlist⟩ hon'.contents⟩, ?_⟩
    intro a ha
    rcases List.mem_cons.mp ha with rfl | ha
    · exact hext.nodes.length_le
    · exact hfresh a ha

/-- A list that is laid out stays apart from what is there. -/
theorem Heap.alloc_apart {h : Heap} {p : Ptr} {as : List Nat} {ns : List Node}
    (hn : NodesOn h p as ns) (l : List Node) : NodesOn (h.alloc l).1 p as ns ∧
      ∃ bs, NodesOn (h.alloc l).1 (h.alloc l).2 bs l ∧ as.Disjoint bs ∧
        ∀ b ∈ bs, h.nodes.length ≤ b := by
  obtain ⟨hext, bs, hon, hfresh⟩ := h.alloc_spec l
  exact ⟨hn.of_extends hext, bs, hon, hn.disjoint hfresh, hfresh⟩

theorem Heap.alloc_nodesAt (h : Heap) (l : List Node) : NodesAt (h.alloc l).1 (h.alloc l).2 l := by
  obtain ⟨-, as, hon, -⟩ := h.alloc_spec l
  exact ⟨as, hon⟩

end VpnP2p.NodeInfo
