import VpnP2p.CronJob.Threads
import VpnP2p.NodeInfo.Received

/-!
# The memory that the two threads share

Between `generate_local_node` and the comparison of the IP lists, the one entry of the new
node can still be marked. Until then the other thread may merge the new node with others,
so a list is followed for every value of that entry at once: it is in the list of
`local_node`, at its head, or nowhere.
-/

namespace VpnP2p.CronJob

open Foundation NodeInfo Util Server

/-! ## The entry that may still be marked -/

/-- The cell of a list of one IP. -/
def singleCell (x : IP) : IPCell :=
  ⟨some x.ip, some x.type, some x.sCount, some x.validity, .null⟩

def withIp (h : Heap) (b : Nat) (x : IP) : Heap :=
  { h with ips := h.ips.modify b (fun _ => singleCell x) }

/-- The memory with `x` for the new entry, as long as this can still be marked. -/
def Timer.memory (c : Timer) (h : Heap) (x : IP) : Heap :=
  match c with
  | .generated (.addr b) => withIp h b x
  | _ => h

/-- Whatever the new entry is, the list at `p` is made of the cells `as` and stands for
`F` of it. -/
def OnAll (c : Timer) (h : Heap) (p : Ptr) (as : List Nat) (F : IP → List Node) : Prop :=
  ∀ x, NodesOn (c.memory h x) p as (F x)

section Memory

variable {c : Timer} {h h' : Heap} {p q : Ptr} {as bs : List Nat} {x : IP} {l m : List Node}

@[simp] theorem Timer.memory_nodes : (c.memory h x).nodes = h.nodes := by
  unfold Timer.memory
  split <;> rfl

@[simp] theorem Timer.memory_with_nodes (nodes : Mem NodeCell) :
    c.memory { h with nodes := nodes } x = { c.memory h x with nodes := nodes } := by
  unfold Timer.memory
  split <;> rfl

theorem ipsAt_singleCell {m : Mem IPCell} : IpsAt m p [x] ↔
    ∃ b, p = .addr b ∧ m[b]? = some (singleCell x) := by
  constructor
  · rintro ⟨as, hlinks, hcont⟩
    obtain ⟨b, bs, ⟨d, hd, hx⟩, hrest, rfl⟩ := List.forall₂_cons_right_iff.mp hcont
    obtain rfl := List.forall₂_nil_right_iff.mp hrest
    obtain ⟨rfl, d', hd', hend⟩ := hlinks
    rw [hd] at hd'
    cases hd'
    refine ⟨b, rfl, hd.trans (congrArg some ?_)⟩
    obtain ⟨hip, htype, hcount, hvalid⟩ := hx
    cases d
    cases hip
    cases htype
    cases hcount
    cases hvalid
    cases hend
    rfl
  · rintro ⟨b, rfl, hb⟩
    exact ⟨[b], ⟨rfl, _, hb, rfl⟩, .cons ⟨_, hb, rfl, rfl, rfl, rfl⟩ .nil⟩

theorem modify_self {m : Mem IPCell} {b : Nat} {d : IPCell} (hb : m[b]? = some d) :
    m.modify b (fun _ => d) = m := by
  ext1 i
  by_cases hi : i = b
  · rw [hi, getElem?_modify_same _ hb, hb]
  · rw [getElem?_modify_of_ne _ hi]

theorem withIp_self {b : Nat} (hb : h.ips[b]? = some (singleCell x)) : withIp h b x = h := by
  rw [withIp, modify_self hb]

/-- More memory is more memory for every entry. -/
theorem withIp_extends (hext : h.Extends h') {b : Nat} (hb : b < h.ips.length) (x : IP) :
    (withIp h b x).Extends (withIp h' b x) := by
  refine ⟨?_, hext.nodes⟩
  obtain ⟨ips, hips⟩ := hext.ips
  refine ⟨ips, ?_⟩
  show h.ips.modify b _ ++ ips = h'.ips.modify b _
  rw [← hips, modify_append_left _ _ hb]

/-- An entry behind what is there touches nothing of it. -/
theorem extends_withIp (hext : h.Extends h') {b : Nat} (hb : h.ips.length ≤ b) (x : IP) :
    h.Extends (withIp h' b x) := ⟨prefix_modify hext.ips hb _, hext.nodes⟩

/-- An entry that a list does not lead to may be anything. -/
theorem NodesOn.withIp {b : Nat} (hon : NodesOn h p as l)
    (hb : ∀ a ∈ as, ∀ d, h.nodes[a]? = some d → ∀ is, Seg IPCell.nextIp h.ips d.ipList is .null →
      b ∉ is) (x : IP) : NodesOn (CronJob.withIp h b x) p as l where
  links := hon.links
  contents := by
    refine hon.contents.transport (fun a ha d n hd hn => ?_)
    obtain ⟨is, hlinks, hcont⟩ := hn.ipList
    have hnot := hb a ha d hd is hlinks
    exact ⟨d, hd, hn.id, hn.nodeCount, hn.reliable, is,
      hlinks.sameLinks (SameLinks.modify _ (fun hmem => absurd hmem hnot)),
      hcont.modify_other hnot _⟩

theorem Timer.memory_extends (hext : h.Extends h')
    (hc : ∀ b, c = .generated (.addr b) → b < h.ips.length) (x : IP) :
    (c.memory h x).Extends (c.memory h' x) := by
  unfold Timer.memory
  split
  · exact withIp_extends hext (hc _ rfl) x
  · exact hext

theorem OnAll.of_extends {F : IP → List Node} (hon : OnAll c h p as F) (hext : h.Extends h')
    (hc : ∀ b, c = .generated (.addr b) → b < h.ips.length) : OnAll c h' p as F :=
  fun x => (hon x).of_extends (Timer.memory_extends hext hc x)

/-- What a decoder returns does not lead to an older entry. -/
theorem OnAll.of_tidy {base : Heap} {k : Cursor} (htidy : Tidy base k)
    (hfin : k.finish = .ok (h, p)) (hon : NodesOn h p as l)
    (hc : ∀ b, c = .generated (.addr b) → b < base.ips.length) :
    OnAll c h p as (fun _ => l) := by
  obtain ⟨-, hp, hnodes, hips⟩ := htidy.finish hfin
  have hcells := hon.links.behind hnodes (fun d hd => hd.nextNode) hp
  intro x
  unfold Timer.memory
  split
  · rename_i b
    refine NodesOn.withIp hon (fun a ha d hd is his hmem => ?_) x
    have hfresh := hnodes a d (hcells a ha) hd
    have hle := his.behind hips (fun e he => he.nextIp) hfresh.ipList b hmem
    exact absurd (hc b rfl) (Nat.not_lt.mpr hle)
  · exact hon

/-- The merge does not look at IPs. -/
theorem nodeMerge_ips (ips : Mem IPCell) (hrun : nodeMerge h p q = .ok h') :
    nodeMerge { h with ips := ips } p q = .ok { h' with ips := ips } := by
  obtain ⟨s, hs, hrun⟩ := bind_eq_ok.mp hrun
  obtain ⟨ptr1, hlast, hrun⟩ := bind_eq_ok.mp hrun
  obtain ⟨nodes, hcut, hrun⟩ := bind_eq_ok.mp hrun
  obtain ⟨d, hd, hrun⟩ := bind_eq_ok.mp hrun
  obtain ⟨nodes', hlink, hrun⟩ := bind_eq_ok.mp hrun
  cases hrun
  have hs' : forChain MergeState.nodes NodeCell.nextNode (mergeNode (h.nodes.length + 1) p)
      (h.nodes.length + 1) q (MergeState.start { h with ips := ips }) = .ok s := hs
  have hd' : load nodes (MergeState.start { h with ips := ips }).prev = .ok d := hd
  simp only [nodeMerge, hs', hlast, hcut, hd', hlink, ok_bind]

theorem Timer.memory_eq (c : Timer) (h : Heap) (x : IP) :
    c.memory h x = { h with ips := (c.memory h x).ips } := by
  unfold Timer.memory
  split <;> rfl

theorem OnAll.merge {F : IP → List Node} (hl : OnAll c h p as F)
    (hm : OnAll c h q bs (fun _ => m)) (hne : ∀ x, F x ≠ []) (hdisj : ∀ b ∈ bs, b ∉ as) :
    ∃ h' cs, nodeMerge h p q = .ok h' ∧ h'.ips = h.ips ∧
      OnAll c h' p cs (fun x => mergeNodes (F x) m) := by
  have hrun : ∀ x, ∃ h' fs, nodeMerge (c.memory h x) p q = .ok h' ∧
      NodesOn h' p (as ++ fs) (mergeNodes (F x) m) ∧ h'.ips = (c.memory h x).ips := by
    intro x
    obtain ⟨h', fs, hrun, hon, -, hips, -⟩ := nodeMerge_spec (hl x) (hm x) (hne x) hdisj
    exact ⟨h', fs, hrun, hon, hips⟩
  -- For every entry it does the same to the node cells.
  obtain ⟨h₀, fs, hrun₀, hon₀, hips₀⟩ := hrun ⟨noString, noString, 0, 0⟩
  have hsame : ∀ ips, nodeMerge { h with ips := ips } p q = .ok { h₀ with ips := ips } := by
    intro ips
    rw [Timer.memory_eq] at hrun₀
    have hmerge := nodeMerge_ips ips hrun₀
    exact hmerge
  refine ⟨{ h₀ with ips := h.ips }, as ++ fs, hsame h.ips, rfl, fun x => ?_⟩
  obtain ⟨h', fs', hrun', hon', hips'⟩ := hrun x
  rw [Timer.memory_eq, hsame] at hrun'
  cases hrun'
  have hcells : as ++ fs = as ++ fs' := hon₀.links.unique hon'.links
  have hmemory : c.memory { h₀ with ips := h.ips } x = { h₀ with ips := (c.memory h x).ips } := by
    have hnodes := Timer.memory_with_nodes (c := c) (h := h) (x := x) h₀.nodes
    rw [Timer.memory_eq c h x] at hnodes
    exact hnodes
  rw [hmemory, hcells]
  exact hon'

end Memory

/-! ## The new entry in the local list -/

/-- A record keeps its IPs against all offers, or against none of them matters what they are. -/
theorem offerAll_entry (n : Node) (m : List Node) :
    (∀ xs, offerAll Node.id Node.rank { n with ipList := xs } m =
      offerAll Node.id Node.rank n m) ∨
    ∀ xs, offerAll Node.id Node.rank { n with ipList := xs } m =
      { offerAll Node.id Node.rank n m with ipList := xs } := by
  induction m generalizing n with
  | nil => exact .inr (fun xs => rfl)
  | cons y m ih =>
    simp only [offerAll_cons]
    by_cases hy : n.id = y.id ∧ n.rank < y.rank
    · refine .inl (fun xs => ?_)
      have hn : offer Node.id Node.rank n y = y := if_pos hy
      have hxs : offer Node.id Node.rank { n with ipList := xs } y = y := if_pos hy
      rw [hn, hxs]
    · have hn : offer Node.id Node.rank n y = n := if_neg hy
      have hxs : ∀ xs, offer Node.id Node.rank { n with ipList := xs } y =
          { n with ipList := xs } := fun xs => if_neg hy
      simp only [hn, hxs]
      exact ih n

/-- The list `l` at `local_node`, in the cells `as`. Its first node may have got the entry
that can still be marked. -/
inductive Local (c : Timer) (h : Heap) (p : Ptr) (x : IP) : List Node → List Nat → Prop
  | unknown : Local c h p x [] []
  | apart {l : List Node} {as : List Nat} : l ≠ [] → OnAll c h p as (fun _ => l) →
      Local c h p x l as
  | shared {e : Ptr} {n : Node} {l : List Node} {as : List Nat} : c = .generated e →
      n.ipList = [x] → OnAll c h p as (fun y => { n with ipList := [y] } :: l) →
      Local c h p x (n :: l) as

/-- The entry `x` is in memory, alone in a list. -/
def Timer.Has (c : Timer) (h : Heap) (x : IP) : Prop :=
  match c with
  | .sleeping => True
  | .generated e | .compared e => x.Clean ∧ ∃ b, e = .addr b ∧ h.ips[b]? = some (singleCell x)

/-- The list `m` is at `recv_node`, where this is still of use. -/
def Receiver.Has (r : Receiver) (c : Timer) (h : Heap) (m : List Node) (bs : List Nat) : Prop :=
  match r with
  | .decoded q | .loaded q => OnAll c h q bs (fun _ => m) ∧ ∀ n ∈ m, n.OneLine
  | _ => bs = []

section Local

variable {c : Timer} {h h' : Heap} {p q : Ptr} {x : IP} {l m : List Node} {as bs : List Nat}

theorem Timer.Has.lt_length (hc : c.Has h x) :
    ∀ b, c = .generated (.addr b) → b < h.ips.length := by
  rintro b rfl
  obtain ⟨-, b', heq, hb⟩ := hc
  cases heq
  exact lt_of_getElem?_eq_some hb

theorem Timer.Has.memory_self (hc : c.Has h x) : c.memory h x = h := by
  unfold Timer.memory
  split
  · obtain ⟨-, b', heq, hb⟩ := hc
    cases heq
    exact withIp_self hb
  · rfl

theorem Timer.Has.of_extends (hc : c.Has h x) (hext : h.Extends h') : c.Has h' x := by
  unfold Timer.Has at hc ⊢
  split at hc
  · trivial
  · obtain ⟨hclean, b, rfl, hb⟩ := hc
    exact ⟨hclean, b, rfl, getElem?_of_prefix hext.ips hb⟩
  · obtain ⟨hclean, b, rfl, hb⟩ := hc
    exact ⟨hclean, b, rfl, getElem?_of_prefix hext.ips hb⟩

theorem Local.of_extends (hl : Local c h p x l as) (hc : c.Has h x) (hext : h.Extends h') :
    Local c h' p x l as := by
  cases hl with
  | unknown => exact .unknown
  | apart hne hon => exact .apart hne (hon.of_extends hext hc.lt_length)
  | shared he hn hon => exact .shared he hn (hon.of_extends hext hc.lt_length)

theorem Receiver.Has.mono {r : Receiver} {c' : Timer} (hr : r.Has c h m bs)
    (hon : ∀ q, OnAll c h q bs (fun _ => m) → OnAll c' h' q bs (fun _ => m)) :
    r.Has c' h' m bs := by
  unfold Receiver.Has at hr ⊢
  split at hr
  · exact ⟨hon _ hr.1, hr.2⟩
  · exact ⟨hon _ hr.1, hr.2⟩
  · exact hr

theorem Receiver.Has.lt_length {r : Receiver} (hr : r.Has c h m bs) :
    ∀ b ∈ bs, b < h.nodes.length := by
  have hlt : ∀ q, OnAll c h q bs (fun _ => m) → ∀ b ∈ bs, b < h.nodes.length := by
    intro q hon
    have hlt := (hon ⟨noString, noString, 0, 0⟩).links.lt_length
    rwa [Timer.memory_nodes] at hlt
  unfold Receiver.Has at hr
  split at hr
  · exact hlt _ hr.1
  · exact hlt _ hr.1
  · simp [hr]

theorem entry_self {n : Node} (hn : n.ipList = [x]) : { n with ipList := [x] } = n := by
  cases n
  cases hn
  rfl

/-- The list as it is now. -/
theorem Local.nodesOn (hl : Local c h p x l as) (hc : c.Has h x) (hne : l ≠ []) :
    NodesOn h p as l := by
  cases hl with
  | unknown => exact absurd rfl hne
  | apart _ hon =>
    have hx := hon x
    rwa [hc.memory_self] at hx
  | @shared _ n l _ _ hn hon =>
    have hx : NodesOn (c.memory h x) p as ({ n with ipList := [x] } :: l) := hon x
    rwa [hc.memory_self, entry_self hn] at hx

theorem Local.lt_length (hl : Local c h p x l as) : ∀ a ∈ as, a < h.nodes.length := by
  cases hl with
  | unknown => simp
  | apart _ hon =>
    have hlt := (hon x).links.lt_length
    rwa [Timer.memory_nodes] at hlt
  | shared _ _ hon =>
    have hlt := (hon x).links.lt_length
    rwa [Timer.memory_nodes] at hlt

theorem Local.merge (hl : Local c h p x l as) (hne : l ≠ [])
    (hm : OnAll c h q bs (fun _ => m)) (hdisj : ∀ b ∈ bs, b ∉ as) :
    ∃ h' cs, nodeMerge h p q = .ok h' ∧ h'.ips = h.ips ∧
      Local c h' p x (mergeNodes l m) cs := by
  cases hl with
  | unknown => exact absurd rfl hne
  | apart _ hon =>
    obtain ⟨h', cs, hrun, hips, hon'⟩ := hon.merge hm (fun _ => hne) hdisj
    exact ⟨h', cs, hrun, hips, .apart (merge_ne_nil hne) hon'⟩
  | @shared e n l _ he hn hon =>
    obtain ⟨h', cs, hrun, hips, hon'⟩ := hon.merge hm (fun _ => List.cons_ne_nil _ _) hdisj
    refine ⟨h', cs, hrun, hips, ?_⟩
    have hmerge : ∀ xs, mergeNodes ({ n with ipList := xs } :: l) m =
        offerAll Node.id Node.rank { n with ipList := xs } m ::
          (l.map (fun z => offerAll Node.id Node.rank z m) ++ fresh Node.id (n :: l) m) :=
      fun xs => rfl
    have hself : mergeNodes (n :: l) m = offerAll Node.id Node.rank n m ::
        (l.map (fun z => offerAll Node.id Node.rank z m) ++ fresh Node.id (n :: l) m) := rfl
    rcases offerAll_entry n m with hkeep | hkeep
    · refine .apart (merge_ne_nil (List.cons_ne_nil _ _)) (fun y => ?_)
      have hy : NodesOn (c.memory h' y) p cs (mergeNodes ({ n with ipList := [y] } :: l) m) :=
        hon' y
      rwa [hmerge, hkeep, ← hself] at hy
    · have hx := hkeep [x]
      rw [entry_self hn] at hx
      rw [hself]
      refine .shared he (congrArg Node.ipList hx) (fun y => ?_)
      have hy : NodesOn (c.memory h' y) p cs (mergeNodes ({ n with ipList := [y] } :: l) m) :=
        hon' y
      rwa [hmerge, hkeep] at hy

end Local

/-! ## The calls of the refresh -/

section Refresh

variable {rand : UInt32 → Nat} {host : Host} {h : Heap} {m : Mem IPCell} {p q : Ptr} {x : IP}
  {ys : List IP} {b : Nat} {l : List Node} {as bs : List Nat}

/-- Exactly what the generator puts behind the memory. -/
theorem generateLocalNode_of_served (rand : UInt32 → Nat) (hs : host.Served) (h : Heap) :
    generateLocalNode rand host h = .ok (⟨h.ips ++ [singleCell (host.ip 1)],
      h.nodes ++ [⟨some (generateId rand host.time), some 1, some reliableMark,
        .addr h.ips.length, .null⟩]⟩, .addr h.nodes.length, generateId rand host.time) := by
  obtain ⟨list, hlist, hfill⟩ := bind_eq_ok.mp (hs.fill setValid h.ips)
  have hcell : host.fillIp setValid .zero = singleCell (host.ip 1) := by
    unfold Host.fillIp Host.ip
    cases host.addresses <;> rfl
  rw [hcell] at hfill
  rw [generateLocalNode_eq, hlist, ok_bind, localNodeFrom, hfill, ok_bind, Host.mallocNode,
    if_pos hs.cleared]
  rfl

theorem markIp_singleCell (hb : m[b]? = some (singleCell x)) (hq : IpsAt m q ys) :
    markIp q b m = .ok (m.modify b (fun _ => singleCell (if x.ip ∈ ipStrings ys
      then { x with validity := 0 } else { x with type := unknownIP, validity := 1 }))) := by
  have hmodify : ∀ f : IPCell → IPCell,
      m.modify b f = m.modify b (fun _ => f (singleCell x)) := by
    intro f
    ext1 i
    by_cases hi : i = b
    · rw [hi, getElem?_modify_same f hb, getElem?_modify_same _ hb]
    · rw [getElem?_modify_of_ne _ hi, getElem?_modify_of_ne _ hi]
  have hip : assigned (singleCell x).ip = .ok x.ip := rfl
  rw [markIp, load_addr hb, ok_bind, hip, ok_bind, containIp_eq hq, ok_bind]
  by_cases hmem : x.ip ∈ ipStrings ys
  · rw [if_pos hmem, if_pos (by decide), if_pos hmem, update_addr (lt_of_getElem?_eq_some hb),
      hmodify]
    rfl
  · rw [if_neg hmem, if_neg (by decide), if_neg hmem, update_addr (lt_of_getElem?_eq_some hb),
      hmodify]
    rfl

/-- The loop over a list of one. -/
theorem forChain_markIp (hb : m[b]? = some (singleCell x)) {m' : Mem IPCell} {d : IPCell}
    (hmark : markIp q b m = .ok m') (hd : m'[b]? = some d) (hend : d.nextIp = .null) :
    forChain id IPCell.nextIp (markIp q) (m.length + 1) (.addr b) m = .ok m' := by
  obtain ⟨k, hk⟩ := Nat.exists_eq_succ_of_ne_zero
    (Nat.ne_zero_of_lt (lt_of_getElem?_eq_some hb))
  have hload : load (id m') (.addr b) = .ok d := load_addr hd
  rw [hk, forChain, hmark, ok_bind, hload, ok_bind, hend, forChain]

theorem compare_spec (hb : m[b]? = some (singleCell x)) (hq : IpsAt m q ys) :
    (do
      let identical ← ipListIdentical m (.addr b) q
      if identical = 0 then
        forChain id IPCell.nextIp (markIp q) (m.length + 1) (.addr b) m
      else .ok m) = .ok (m.modify b (fun _ => singleCell (marked ys x))) := by
  have hone : IpsAt m (.addr b) [x] := ipsAt_singleCell.mpr ⟨b, rfl, hb⟩
  have hsub : ipStrings [x] ⊆ ipStrings ys ↔ x.ip ∈ ipStrings ys := by simp [ipStrings]
  have hidentical : ipListIdentical m (.addr b) q =
      .ok (if Int32.ofNat 1 = Int32.ofNat ys.length ∧ x.ip ∈ ipStrings ys then 1 else 0) := by
    rw [ipListIdentical_eq hone hq]
    exact congrArg Except.ok (if_congr (and_congr_right' hsub) rfl rfl)
  rw [hidentical, ok_bind, marked]
  by_cases hsame : Int32.ofNat 1 = Int32.ofNat ys.length ∧ x.ip ∈ ipStrings ys
  · rw [if_pos hsame, if_neg (by decide), if_pos hsame, modify_self hb]
  · have hmark := markIp_singleCell hb hq
    rw [if_neg hsame, if_pos rfl, if_neg hsame]
    exact forChain_markIp hb hmark (getElem?_modify_same _ hb) rfl

theorem unknownIP_clean : newline ∉ unknownIP.val ∧ tab ∉ unknownIP.val := by decide

theorem marked_clean (hx : x.Clean) (ys : List IP) : (marked ys x).Clean := by
  unfold marked
  split
  · exact hx
  · split
    · exact hx
    · exact ⟨hx.1, unknownIP_clean⟩

/-- An entry is not marked against itself. -/
theorem marked_self (x : IP) : marked [x] x = x := if_pos ⟨rfl, by simp [ipStrings]⟩

/-- What `local_node->ip_list` leads to. -/
theorem head_of_nodesOn (hon : NodesOn h p as l) (hne : l ≠ []) :
    ∃ c, load h.nodes p = .ok c ∧ IpsAt h.ips c.ipList (headIps l) := by
  obtain ⟨hlinks, hcont⟩ := hon
  cases hcont with
  | nil => exact absurd rfl hne
  | cons ha hcont =>
    obtain ⟨c, hc, hn⟩ := ha
    obtain ⟨rfl, -⟩ := hlinks
    exact ⟨c, load_addr hc, hn.ipList⟩

end Refresh

end VpnP2p.CronJob
