import VpnP2p.Foundation.Loops
import VpnP2p.NodeInfo.Model

/-!
# Comparing two nodes

`node_is_identical` walks two IP lists side by side and takes `!strcmp` for "different".
So it answers 1 for lists of which all strings differ, and two lists that are equal and
not empty are not identical for it.
-/

namespace VpnP2p.NodeInfo

open Foundation

/-! ## The code -/

/-- `!strcmp(s, t)`. -/
def sameString (s t : Option (CStr 20)) : Result Bool := do
  let s ← assigned s
  let t ← assigned t
  .ok (s = t)

/-- A round of the loop, on the cells behind `ip1` and `ip2`: whether it returns 0. -/
def tellsApart (c1 c2 : IPCell) : Result Bool := do
  if ← sameString c1.ip c2.ip then .ok true
  else if ← sameString c1.type c2.type then .ok true
  else do
    let s_count1 ← assigned c1.sCount
    let s_count2 ← assigned c2.sCount
    .ok (s_count1 ≠ s_count2)

/-- `while (1)`, from `ip1` and `ip2` on. -/
def identicalFrom (ips : Mem IPCell) : Nat → Ptr → Ptr → Result Int32
  | 0, _, _ => .error .diverges
  | fuel + 1, ip1, ip2 =>
    match ip1, ip2 with
    | .unassigned, _ => .error .unassigned
    | _, .unassigned => .error .unassigned
    | .null, .null => .ok 1
    | .null, .addr _ => .ok 0
    | .addr _, .null => .ok 0
    | .addr a, .addr b => do
      let c1 ← load ips (.addr a)
      let c2 ← load ips (.addr b)
      if ← tellsApart c1 c2 then .ok 0
      else identicalFrom ips fuel c1.nextIp c2.nextIp

def nodeIsIdentical (h : Heap) (node1 node2 : Ptr) : Result Int32 := do
  let c1 ← load h.nodes node1
  let c2 ← load h.nodes node2
  let id1 ← assigned c1.id
  let id2 ← assigned c2.id
  if id1 ≠ id2 then .ok 0
  else do
    let node_count1 ← assigned c1.nodeCount
    let node_count2 ← assigned c2.nodeCount
    if node_count1 ≠ node_count2 then .ok 0
    else identicalFrom h.ips (h.ips.length + 1) c1.ipList c2.ipList

/-! ## What it computes -/

/-- The IPs are equal, as far as nodes are compared. -/
def IP.Twin (x y : IP) : Prop := x.ip = y.ip ∧ x.type = y.type ∧ x.sCount = y.sCount

/-- What the loop goes on at. -/
def IP.Opposite (x y : IP) : Prop := x.ip ≠ y.ip ∧ x.type ≠ y.type ∧ x.sCount = y.sCount

instance (x y : IP) : Decidable (x.Twin y) := inferInstanceAs (Decidable (_ ∧ _ ∧ _))

instance (x y : IP) : Decidable (x.Opposite y) := inferInstanceAs (Decidable (_ ∧ _ ∧ _))

/-- The nodes have the same id and count. -/
def Node.SameHead (m n : Node) : Prop := m.id = n.id ∧ m.nodeCount = n.nodeCount

instance (m n : Node) : Decidable (m.SameHead n) := inferInstanceAs (Decidable (_ ∧ _))

section Loop

variable {ips : Mem IPCell} {p q : Ptr} {as bs : List Nat} {xs ys : List IP} {fuel : Nat}

theorem tellsApart_eq {c d : IPCell} {x y : IP} (hx : c.Holds x) (hy : d.Holds y) :
    tellsApart c d = .ok (¬ x.Opposite y) := by
  unfold tellsApart sameString IP.Opposite
  rw [hx.ip, hy.ip, hx.type, hy.type, hx.sCount, hy.sCount]
  simp only [assigned_some, ok_bind]
  by_cases hip : x.ip = y.ip
  · simp [hip]
  · by_cases htype : x.type = y.type
    · simp [hip, htype]
    · simp [hip, htype]

/-- The loop answers 1 for lists of the same length that are opposite everywhere. -/
theorem identicalFrom_eq (hp : Seg IPCell.nextIp ips p as .null)
    (hx : Contents IPCell.Holds ips as xs) (hq : Seg IPCell.nextIp ips q bs .null)
    (hy : Contents IPCell.Holds ips bs ys) (hfuel : as.length < fuel) :
    identicalFrom ips fuel p q = .ok (if List.Forall₂ IP.Opposite xs ys then 1 else 0) := by
  induction hx generalizing p q bs ys fuel with
  | nil =>
    obtain ⟨fuel, rfl⟩ := Nat.exists_eq_add_of_lt hfuel
    obtain rfl : p = .null := hp
    cases hy with
    | nil =>
      obtain rfl : q = .null := hq
      rw [if_pos .nil]
      rfl
    | cons hb hy =>
      obtain ⟨rfl, -⟩ := hq
      rw [if_neg (fun h => by cases h)]
      rfl
  | @cons a x as xs ha _ ih =>
    obtain ⟨fuel, rfl⟩ : ∃ n, fuel = n + 1 := ⟨fuel - 1, by omega⟩
    obtain ⟨rfl, c, hc, hcx, hrest⟩ := hp.first_cell ha
    cases hy with
    | nil =>
      obtain rfl : q = .null := hq
      rw [if_neg (fun h => by cases h)]
      rfl
    | @cons b y bs ys hb hy =>
      obtain ⟨rfl, d, hd, hdy, hrest'⟩ := hq.first_cell hb
      rw [identicalFrom, load_addr hc, ok_bind, load_addr hd, ok_bind, tellsApart_eq hcx hdy,
        ok_bind]
      by_cases hop : x.Opposite y
      · rw [ih hrest hrest' hy (by simpa using hfuel)]
        simp [hop]
      · simp [hop]

end Loop

/-- What the function takes for identical. -/
def Node.Alike (m n : Node) : Prop := m.SameHead n ∧ List.Forall₂ IP.Opposite m.ipList n.ipList

instance (m n : Node) : Decidable (m.Alike n) := inferInstanceAs (Decidable (_ ∧ _))

theorem nodeIsIdentical_eq {h : Heap} {p q : Ptr} {m n : Node} (hp : NodeAt h p m)
    (hq : NodeAt h q n) : nodeIsIdentical h p q = .ok (if m.Alike n then 1 else 0) := by
  obtain ⟨c, hc, hm⟩ := hp
  obtain ⟨d, hd, hn⟩ := hq
  obtain ⟨as, hlinks, hcont⟩ := hm.ipList
  obtain ⟨bs, hlinks', hcont'⟩ := hn.ipList
  rw [nodeIsIdentical, hc, ok_bind, hd, ok_bind, hm.id, assigned_some, ok_bind, hn.id,
    assigned_some, ok_bind]
  by_cases hid : m.id = n.id
  · rw [if_neg (not_not.mpr hid), hm.nodeCount, assigned_some, ok_bind, hn.nodeCount,
      assigned_some, ok_bind]
    by_cases hcount : m.nodeCount = n.nodeCount
    · rw [if_neg (not_not.mpr hcount), identicalFrom_eq hlinks hcont hlinks' hcont'
        (Nat.lt_succ_of_le hlinks.length_le)]
      simp [Node.Alike, Node.SameHead, hid, hcount]
    · simp [Node.Alike, Node.SameHead, hcount]
  · simp [Node.Alike, Node.SameHead, hid]

/-! ## Equality -/

/-- The nodes are equal, as far as nodes are compared. -/
def Node.Same (m n : Node) : Prop := m.SameHead n ∧ List.Forall₂ IP.Twin m.ipList n.ipList

instance (m n : Node) : Decidable (m.Same n) := inferInstanceAs (Decidable (_ ∧ _))

/-- A node in memory, with its address. -/
abbrev Placed := Ptr × Node

/-- The function answers 1 for these two. -/
def Identical (h : Heap) (a b : Placed) : Prop := nodeIsIdentical h a.1 b.1 = .ok 1

/-- The function answers 1 for these two if they are equal, and 0 if they are not. -/
def Decides (h : Heap) (a b : Placed) : Prop :=
  nodeIsIdentical h a.1 b.1 = .ok (if a.2.Same b.2 then 1 else 0)

/-- The function decides equality between the nodes of `S`, and what it takes for identical
is an equivalence between them. -/
structure DecidesEquality (h : Heap) (S : Set Placed) : Prop where
  decides : ∀ a ∈ S, ∀ b ∈ S, Decides h a b
  refl : ∀ a ∈ S, Identical h a a
  symm : ∀ a ∈ S, ∀ b ∈ S, Identical h a b → Identical h b a
  trans : ∀ a ∈ S, ∀ b ∈ S, ∀ c ∈ S, Identical h a b → Identical h b c → Identical h a c

theorem IP.Twin.symm {x y : IP} (h : x.Twin y) : y.Twin x :=
  ⟨h.1.symm, h.2.1.symm, h.2.2.symm⟩

theorem IP.Twin.trans {x y z : IP} (h : x.Twin y) (h' : y.Twin z) : x.Twin z :=
  ⟨h.1.trans h'.1, h.2.1.trans h'.2.1, h.2.2.trans h'.2.2⟩

theorem Node.Same.refl (n : Node) : n.Same n :=
  ⟨⟨rfl, rfl⟩, List.forall₂_same.mpr (fun _ _ => ⟨rfl, rfl, rfl⟩)⟩

theorem Node.Same.symm {m n : Node} (h : m.Same n) : n.Same m :=
  ⟨⟨h.1.1.symm, h.1.2.symm⟩, h.2.flip.imp (fun _ _ => IP.Twin.symm)⟩

theorem forall₂_twin_trans {xs ys zs : List IP} (h : List.Forall₂ IP.Twin xs ys)
    (h' : List.Forall₂ IP.Twin ys zs) : List.Forall₂ IP.Twin xs zs := by
  induction h generalizing zs with
  | nil => exact h'
  | cons hx _ ih =>
    cases h' with
    | cons hy hs => exact .cons (hx.trans hy) (ih hs)

theorem Node.Same.trans {m n k : Node} (h : m.Same n) (h' : n.Same k) : m.Same k :=
  ⟨⟨h.1.1.trans h'.1.1, h.1.2.trans h'.1.2⟩, forall₂_twin_trans h.2 h'.2⟩

/-- Only empty lists are both equal and opposite. -/
theorem eq_nil_of_twin_opposite {xs ys : List IP} (ht : List.Forall₂ IP.Twin xs ys)
    (ho : List.Forall₂ IP.Opposite xs ys) : xs = [] ∧ ys = [] := by
  cases ht with
  | nil => exact ⟨rfl, rfl⟩
  | cons h ht =>
    cases ho with
    | cons h' ho => exact absurd h.1 h'.1

/-- Where what is compared and what is taken for it agree. -/
theorem alike_iff_same {m n : Node} : (m.Alike n ↔ m.Same n) ↔
    (¬ m.SameHead n ∨ (m.ipList = [] ∧ n.ipList = []) ∨
      ¬ List.Forall₂ IP.Twin m.ipList n.ipList ∧
        ¬ List.Forall₂ IP.Opposite m.ipList n.ipList) := by
  unfold Node.Alike Node.Same
  constructor
  · intro h
    by_cases hhead : m.SameHead n
    · by_cases ht : List.Forall₂ IP.Twin m.ipList n.ipList
      · exact .inr (.inl (eq_nil_of_twin_opposite ht (h.mpr ⟨hhead, ht⟩).2))
      · exact .inr (.inr ⟨ht, fun ho => ht (h.mp ⟨hhead, ho⟩).2⟩)
    · exact .inl hhead
  · rintro (hhead | ⟨hm, hn⟩ | ⟨ht, ho⟩)
    · exact ⟨fun h => absurd h.1 hhead, fun h => absurd h.1 hhead⟩
    · rw [hm, hn]
      exact ⟨fun h => ⟨h.1, .nil⟩, fun h => ⟨h.1, .nil⟩⟩
    · exact ⟨fun h => absurd h.2 ho, fun h => absurd h.2 ht⟩

section Answers

variable {h : Heap} {S : Set Placed}

theorem decides_iff {a b : Placed} (ha : NodeAt h a.1 a.2) (hb : NodeAt h b.1 b.2) :
    Decides h a b ↔ (a.2.Alike b.2 ↔ a.2.Same b.2) := by
  rw [Decides, nodeIsIdentical_eq ha hb, Except.ok.injEq]
  exact ite_eq_ite_iff (by decide)

theorem Decides.identical_iff {a b : Placed} (hab : Decides h a b) :
    Identical h a b ↔ a.2.Same b.2 := by
  rw [Identical, hab]
  by_cases hsame : a.2.Same b.2
  · simp [hsame]
  · simp [hsame]

/-- What decides equality is an equivalence. -/
theorem DecidesEquality.of_decides (hdec : ∀ a ∈ S, ∀ b ∈ S, Decides h a b) :
    DecidesEquality h S where
  decides := hdec
  refl := fun a ha => (hdec a ha a ha).identical_iff.mpr (.refl _)
  symm := by
    intro a ha b hb hab
    rw [(hdec a ha b hb).identical_iff] at hab
    exact (hdec b hb a ha).identical_iff.mpr hab.symm
  trans := by
    intro a ha b hb c hc hab hbc
    rw [(hdec a ha b hb).identical_iff] at hab
    rw [(hdec b hb c hc).identical_iff] at hbc
    exact (hdec a ha c hc).identical_iff.mpr (hab.trans hbc)

/-- Two nodes are compared rightly iff their ids or counts differ, or both lists are empty, or
the lists are neither equal nor opposite everywhere; so equality is decided only between
nodes that have no IPs. -/
theorem nodeIsIdentical_decidesEquality_iff (hS : ∀ a ∈ S, NodeAt h a.1 a.2) :
    (∀ a ∈ S, ∀ b ∈ S, Decides h a b ↔
      ¬ a.2.SameHead b.2 ∨ (a.2.ipList = [] ∧ b.2.ipList = []) ∨
        ¬ List.Forall₂ IP.Twin a.2.ipList b.2.ipList ∧
          ¬ List.Forall₂ IP.Opposite a.2.ipList b.2.ipList) ∧
      (DecidesEquality h S ↔ ∀ a ∈ S, a.2.ipList = []) := by
  have hpair : ∀ a ∈ S, ∀ b ∈ S, Decides h a b ↔ _ := fun a ha b hb =>
    (decides_iff (hS a ha) (hS b hb)).trans alike_iff_same
  refine ⟨hpair, ?_, ?_⟩
  · intro hdec a ha
    -- A node is the same as itself, so the function has to find it opposite to itself.
    have hsame : a.2.Alike a.2 :=
      ((decides_iff (hS a ha) (hS a ha)).mp (hdec.decides a ha a ha)).mpr (.refl _)
    exact (eq_nil_of_twin_opposite (Node.Same.refl a.2).2 hsame.2).1
  · intro hnil
    exact .of_decides (fun a ha b hb => (hpair a ha b hb).mpr (.inr (.inl ⟨hnil a ha, hnil b hb⟩)))

end Answers

/-- A node of one IP in memory. -/
def samplePlaced : Placed := ((Heap.empty.alloc [sampleNode]).2, sampleNode)

theorem samplePlaced_nodeAt : ∀ a ∈ ({samplePlaced} : Set Placed),
    NodeAt (Heap.empty.alloc [sampleNode]).1 a.1 a.2 := by
  intro a ha
  obtain rfl := Set.mem_singleton_iff.mp ha
  exact (Heap.empty.alloc_nodesAt [sampleNode]).nodeAt

theorem decidesEquality_samplePlaced_iff :
    DecidesEquality (Heap.empty.alloc [sampleNode]).1 {samplePlaced} ↔
      ∀ a ∈ ({samplePlaced} : Set Placed), a.2.ipList = [] :=
  (nodeIsIdentical_decidesEquality_iff samplePlaced_nodeAt).2

/-- A node of one IP is not identical to itself. -/
theorem not_identical_self :
    NodeAt (Heap.empty.alloc [sampleNode]).1 samplePlaced.1 sampleNode ∧
      nodeIsIdentical (Heap.empty.alloc [sampleNode]).1 samplePlaced.1 samplePlaced.1 = .ok 0 ∧
      ¬ DecidesEquality (Heap.empty.alloc [sampleNode]).1 {samplePlaced} := by
  have hat := samplePlaced_nodeAt samplePlaced (Set.mem_singleton _)
  have hrun : nodeIsIdentical (Heap.empty.alloc [sampleNode]).1 samplePlaced.1 samplePlaced.1 =
      .ok 0 := by
    rw [nodeIsIdentical_eq hat hat, if_neg (by decide)]
  refine ⟨hat, hrun, ?_⟩
  intro hdec
  have hself := hdec.refl samplePlaced (Set.mem_singleton _)
  rw [Identical, hrun] at hself
  cases hself

end VpnP2p.NodeInfo
