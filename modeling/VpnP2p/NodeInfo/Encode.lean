import VpnP2p.Foundation.Lines
import VpnP2p.NodeInfo.Model

/-!
# Writing a node list

`struct2file` and `convert_node_to_buf` walk the same list and print the same lines;
they differ in where a printed piece goes. `fprintf` appends to a file, `sprintf` to an
array that has to hold the piece and its terminator. Both loops end on a list of fully
assigned cells and nowhere else, with the text `encode` of the nodes.
-/

namespace VpnP2p.NodeInfo

open Foundation

/-! ## The code -/

/-- Appending a piece to what was printed so far. -/
abbrev Emit := Text → Text → Result Text

def fprintf : Emit := fun out piece => .ok (out ++ piece)

/-- `sprintf(buf + offset, piece)` into `char buf[cap]`, of which `out` is used. -/
def sprintf (cap : Nat) : Emit := fun out piece =>
  if out.length + piece.length < cap then .ok (out ++ piece) else .error .outOfBounds

def writeIp (emit : Emit) (ips : Mem IPCell) (out : Text) (ip : Nat) : Result Text := do
  let c ← load ips (.addr ip)
  let s ← assigned c.ip
  let out ← emit out (lit "ip: " ++ s.val ++ lit "\n")
  let t ← assigned c.type
  let out ← emit out (lit "ip_type: " ++ t.val ++ lit "\n")
  let s_count ← assigned c.sCount
  let out ← emit out (lit "s_count: " ++ decimal s_count ++ lit "\n")
  let validity ← assigned c.validity
  emit out (lit "validity: " ++ decimal validity ++ lit "\n")

def writeNode (emit : Emit) (h : Heap) (out : Text) (p : Nat) : Result Text := do
  let c ← load h.nodes (.addr p)
  let out ← emit out (lit "NODE\n")
  let id ← assigned c.id
  let out ← emit out (lit "id: " ++ decimal id ++ lit "\n")
  let node_count ← assigned c.nodeCount
  let out ← emit out (lit "node_count: " ++ decimal node_count ++ lit "\n")
  let reliable ← assigned c.reliable
  let out ← emit out (lit "reliable: " ++ decimal reliable ++ lit "\n")
  let out ← emit out (lit "ip_list\n")
  let out ← forChain (fun _ => h.ips) IPCell.nextIp (fun ip out => writeIp emit h.ips out ip)
    (h.ips.length + 1) c.ipList out
  let out ← emit out (lit "ip_list_ends\n")
  emit out (lit "end_node\n")

def writeNodes (emit : Emit) (h : Heap) (node : Ptr) : Result Text :=
  forChain (fun _ => h.nodes) NodeCell.nextNode (fun p out => writeNode emit h out p)
    (h.nodes.length + 1) node []

/-- The contents `struct2file` leaves in the file. -/
def struct2file (h : Heap) (node : Ptr) : Result Text := writeNodes fprintf h node

/-- The text `convert_node_to_buf` leaves in `char buf[cap]`, and its return value. -/
def convertNodeToBuf (cap : Nat) (h : Heap) (node : Ptr) : Result (Text × Nat) :=
  (fun out => (out, out.length)) <$> writeNodes (sprintf cap) h node

/-! ## The text -/

def ipLines (x : IP) : List Text :=
  [lit "ip: " ++ x.ip.val, lit "ip_type: " ++ x.type.val,
    lit "s_count: " ++ decimal x.sCount, lit "validity: " ++ decimal x.validity]

def headLines (n : Node) : List Text :=
  [lit "NODE", lit "id: " ++ decimal n.id, lit "node_count: " ++ decimal n.nodeCount,
    lit "reliable: " ++ decimal n.reliable, lit "ip_list"]

def nodeLines (n : Node) : List Text :=
  headLines n ++ n.ipList.flatMap ipLines ++ [lit "ip_list_ends", lit "end_node"]

def encode (l : List Node) : Text := unlines (l.flatMap nodeLines)

/-- Neither strings nor numbers have a NUL. -/
theorem noNul_nodeLines (n : Node) : ∀ w ∈ nodeLines n, 0 ∉ w := by
  have hfield : ∀ key d : Text, 0 ∉ key → 0 ∉ d → 0 ∉ key ++ d := by
    intro key d hkey hd h
    exact (List.mem_append.mp h).elim hkey hd
  have hdecimal : ∀ v, 0 ∉ decimal v := fun v h => (decimal_bytes v 0 h).1 rfl
  intro w hw
  simp only [nodeLines, headLines, List.mem_append, List.mem_cons, List.not_mem_nil, or_false,
    List.mem_flatMap] at hw
  rcases hw with ((rfl | rfl | rfl | rfl | rfl) | ⟨x, -, hw⟩) | (rfl | rfl)
  · decide
  · exact hfield _ _ (by decide) (hdecimal _)
  · exact hfield _ _ (by decide) (hdecimal _)
  · exact hfield _ _ (by decide) (hdecimal _)
  · decide
  · simp only [ipLines, List.mem_cons, List.not_mem_nil, or_false] at hw
    rcases hw with rfl | rfl | rfl | rfl
    · exact hfield _ _ (by decide) x.ip.noNul
    · exact hfield _ _ (by decide) x.type.noNul
    · exact hfield _ _ (by decide) (hdecimal _)
    · exact hfield _ _ (by decide) (hdecimal _)
  · decide
  · decide

theorem noNul_encode (l : List Node) : 0 ∉ encode l := by
  intro h
  obtain ⟨w, hw, h⟩ := List.mem_flatMap.mp h
  obtain ⟨n, -, hw⟩ := List.mem_flatMap.mp hw
  rcases List.mem_append.mp h with h | h
  · exact noNul_nodeLines n w hw h
  · exact absurd (List.mem_singleton.mp h) (by decide)

theorem encode_append (l l' : List Node) : encode (l ++ l') = encode l ++ encode l' := by
  simp [encode]

theorem encode_take_isPrefix (l : List Node) (j : Nat) : encode (l.take j) <+: encode l := by
  conv_rhs => rw [← List.take_append_drop j l, encode_append]
  exact List.prefix_append _ _

theorem encode_eq_flatMap (l : List Node) :
    encode l = l.flatMap (fun n => unlines (nodeLines n)) := by
  induction l with
  | nil => rfl
  | cons n l ih => simp only [encode, List.flatMap_cons, unlines_append] at ih ⊢; rw [ih]

theorem unlines_flatMap_ipLines (xs : List IP) :
    unlines (xs.flatMap ipLines) = xs.flatMap (fun x => unlines (ipLines x)) := by
  induction xs with
  | nil => rfl
  | cons x xs ih => rw [List.flatMap_cons, unlines_append, ih, List.flatMap_cons]

/-! ## The loops print that text -/

/-- `emit` appends, as long as the output stays within `fits`. -/
structure Emits (fits : Text → Prop) (emit : Emit) : Prop where
  ok : ∀ out piece out', emit out piece = .ok out' ↔ out' = out ++ piece ∧ fits out'
  pre : ∀ s t, fits (s ++ t) → fits s
  nil : fits []

theorem emits_fprintf : Emits (fun _ => True) fprintf where
  ok := by simp [fprintf, eq_comm]
  pre := fun _ _ _ => trivial
  nil := trivial

theorem emits_sprintf {cap : Nat} (hcap : 0 < cap) :
    Emits (fun s => s.length < cap) (sprintf cap) where
  ok := by
    intro out piece out'
    unfold sprintf
    constructor
    · intro h
      split at h
      · rename_i hlt
        cases h
        exact ⟨rfl, by simpa using hlt⟩
      · cases h
    · rintro ⟨rfl, hlt⟩
      rw [List.length_append] at hlt
      rw [if_pos hlt]
  pre := by
    intro s t h
    rw [List.length_append] at h
    omega
  nil := by simpa using hcap

section Printing

variable {fits : Text → Prop} {emit : Emit} (hemit : Emits fits emit)

include hemit

theorem writeIp_eq_ok (ips : Mem IPCell) (ip : Nat) (out out' : Text) :
    writeIp emit ips out ip = .ok out' ↔
      ∃ x, (∃ c, ips[ip]? = some c ∧ c.Holds x) ∧ out' = out ++ unlines (ipLines x) ∧
        fits out' := by
  have hText : ∀ (s t u v o : Text), o = out ++ (lit "ip: " ++ s ++ lit "\n") ++
      (lit "ip_type: " ++ t ++ lit "\n") ++ (lit "s_count: " ++ u ++ lit "\n") ++
      (lit "validity: " ++ v ++ lit "\n") ↔
      o = out ++ unlines [lit "ip: " ++ s, lit "ip_type: " ++ t, lit "s_count: " ++ u,
        lit "validity: " ++ v] := by
    intro s t u v o
    have hnl : lit "\n" = [newline] := rfl
    simp [hnl]
  simp only [writeIp, bind_eq_ok, load_eq_ok, assigned_eq_ok, hemit.ok]
  constructor
  · rintro ⟨c, ⟨a, ha, hc⟩, s, hs, _, ⟨rfl, -⟩, t, ht, _, ⟨rfl, -⟩, u, hu, _, ⟨rfl, -⟩, v, hv,
      rfl, hfits⟩
    cases ha
    exact ⟨⟨s, t, u, v⟩, ⟨c, hc, hs, ht, hu, hv⟩, (hText _ _ _ _ _).mp rfl, hfits⟩
  · rintro ⟨x, ⟨c, hc, hx⟩, hout, hfits⟩
    have h4 := (hText _ _ _ _ _).mpr hout
    rw [h4] at hfits
    have h3 := hemit.pre _ _ hfits
    have h2 := hemit.pre _ _ h3
    have h1 := hemit.pre _ _ h2
    exact ⟨c, ⟨ip, rfl, hc⟩, _, hx.ip, _, ⟨rfl, h1⟩, _, hx.type, _, ⟨rfl, h2⟩, _, hx.sCount, _,
      ⟨rfl, h3⟩, _, hx.validity, h4, h4 ▸ hfits⟩

theorem writeIps_eq_ok {ips : Mem IPCell} {out out' : Text} {p : Ptr} (hout : fits out) :
    forChain (fun _ => ips) IPCell.nextIp (fun ip out => writeIp emit ips out ip)
        (ips.length + 1) p out = .ok out' ↔
      ∃ xs, IpsAt ips p xs ∧ out' = out ++ unlines (xs.flatMap ipLines) ∧ fits out' := by
  rw [forChain_read_eq_ok]
  have hFold : ∀ as : List Nat, as.foldlM (fun t a => writeIp emit ips t a) out = .ok out' ↔
      ∃ xs, Contents IPCell.Holds ips as xs ∧ out' = out ++ unlines (xs.flatMap ipLines) ∧
        fits out' := by
    intro as
    simp only [unlines_flatMap_ipLines]
    exact foldlM_emit hemit.pre (writeIp_eq_ok hemit ips) hout
  simp only [hFold]
  constructor
  · rintro ⟨as, hlinks, xs, hcont, hrest⟩
    exact ⟨xs, ⟨as, hlinks, hcont⟩, hrest⟩
  · rintro ⟨xs, ⟨as, hlinks, hcont⟩, hrest⟩
    exact ⟨as, hlinks, xs, hcont, hrest⟩

theorem writeNode_eq_ok (h : Heap) (p : Nat) (out out' : Text) :
    writeNode emit h out p = .ok out' ↔
      ∃ n, (∃ c, h.nodes[p]? = some c ∧ c.Holds h.ips n) ∧
        out' = out ++ unlines (nodeLines n) ∧ fits out' := by
  have hText : ∀ (i j k m o : Text), o = out ++ lit "NODE\n" ++ (lit "id: " ++ i ++ lit "\n") ++
      (lit "node_count: " ++ j ++ lit "\n") ++ (lit "reliable: " ++ k ++ lit "\n") ++
      lit "ip_list\n" ++ m ++ lit "ip_list_ends\n" ++ lit "end_node\n" ↔
      o = out ++ (unlines [lit "NODE", lit "id: " ++ i, lit "node_count: " ++ j,
        lit "reliable: " ++ k, lit "ip_list"] ++ m ++
        unlines [lit "ip_list_ends", lit "end_node"]) := by
    intro i j k m o
    have hnl : lit "\n" = [newline] := rfl
    have h1 : lit "NODE\n" = lit "NODE" ++ [newline] := rfl
    have h2 : lit "ip_list\n" = lit "ip_list" ++ [newline] := rfl
    have h3 : lit "ip_list_ends\n" = lit "ip_list_ends" ++ [newline] := rfl
    have h4 : lit "end_node\n" = lit "end_node" ++ [newline] := rfl
    simp [hnl, h1, h2, h3, h4]
  have hLines : ∀ n : Node, unlines (nodeLines n) =
      unlines (headLines n) ++ unlines (n.ipList.flatMap ipLines) ++
        unlines [lit "ip_list_ends", lit "end_node"] := by
    intro n
    simp [nodeLines]
  simp only [writeNode, bind_eq_ok, load_eq_ok, assigned_eq_ok, hemit.ok]
  constructor
  · rintro ⟨c, ⟨a, ha, hc⟩, _, ⟨rfl, -⟩, i, hi, _, ⟨rfl, -⟩, j, hj, _, ⟨rfl, -⟩, k, hk, _,
      ⟨rfl, -⟩, _, ⟨rfl, h5⟩, _, hips, _, ⟨rfl, -⟩, rfl, hfits⟩
    cases ha
    obtain ⟨xs, hxs, rfl, -⟩ := (writeIps_eq_ok hemit h5).mp hips
    refine ⟨⟨i, j, k, xs⟩, ⟨c, hc, hi, hj, hk, hxs⟩, ?_, hfits⟩
    rw [hLines]
    exact (hText _ _ _ _ _).mp rfl
  · rintro ⟨n, ⟨c, hc, hn⟩, hout, hfits⟩
    rw [hLines] at hout
    have h8 := (hText _ _ _ _ _).mpr hout
    rw [h8] at hfits
    have h7 := hemit.pre _ _ hfits
    have h6 := hemit.pre _ _ h7
    have h5 := hemit.pre _ _ h6
    have h4 := hemit.pre _ _ h5
    have h3 := hemit.pre _ _ h4
    have h2 := hemit.pre _ _ h3
    have h1 := hemit.pre _ _ h2
    exact ⟨c, ⟨p, rfl, hc⟩, _, ⟨rfl, h1⟩, _, hn.id, _, ⟨rfl, h2⟩, _, hn.nodeCount, _, ⟨rfl, h3⟩,
      _, hn.reliable, _, ⟨rfl, h4⟩, _, ⟨rfl, h5⟩, _,
      (writeIps_eq_ok hemit h5).mpr ⟨n.ipList, hn.ipList, rfl, h6⟩, _, ⟨rfl, h7⟩, h8, h8 ▸ hfits⟩

/-- The loops end with a text exactly on lists of assigned cells, and it is theirs. -/
theorem writeNodes_eq_ok {h : Heap} {p : Ptr} {out : Text} :
    writeNodes emit h p = .ok out ↔ ∃ l, NodesAt h p l ∧ out = encode l ∧ fits out := by
  rw [writeNodes, forChain_read_eq_ok]
  have hFold : ∀ as : List Nat, as.foldlM (fun t a => writeNode emit h t a) [] = .ok out ↔
      ∃ l, Contents (NodeCell.Holds h.ips) h.nodes as l ∧ out = encode l ∧ fits out := by
    intro as
    simp only [encode_eq_flatMap]
    exact foldlM_emit hemit.pre (writeNode_eq_ok hemit h) hemit.nil
  simp only [hFold]
  constructor
  · rintro ⟨as, hlinks, l, hcont, hrest⟩
    exact ⟨l, ⟨as, hlinks, hcont⟩, hrest⟩
  · rintro ⟨l, ⟨as, hlinks, hcont⟩, hrest⟩
    exact ⟨as, hlinks, l, hcont, hrest⟩

end Printing

theorem struct2file_eq_ok {h : Heap} {p : Ptr} {out : Text} :
    struct2file h p = .ok out ↔ ∃ l, NodesAt h p l ∧ out = encode l := by
  unfold struct2file
  simpa only [and_true] using writeNodes_eq_ok emits_fprintf

theorem struct2file_nodesAt {h : Heap} {p : Ptr} {l : List Node} (hl : NodesAt h p l) :
    struct2file h p = .ok (encode l) := struct2file_eq_ok.mpr ⟨l, hl, rfl⟩

theorem convertNodeToBuf_eq_ok {cap : Nat} (hcap : 0 < cap) {h : Heap} {p : Ptr} {out : Text}
    {offset : Nat} : convertNodeToBuf cap h p = .ok (out, offset) ↔
      ∃ l, NodesAt h p l ∧ out = encode l ∧ out.length < cap ∧ offset = out.length := by
  rw [convertNodeToBuf, map_eq_ok]
  constructor
  · rintro ⟨t, ht, heq⟩
    cases heq
    obtain ⟨l, hl, rfl, hlt⟩ := (writeNodes_eq_ok (emits_sprintf hcap)).mp ht
    exact ⟨l, hl, rfl, hlt, rfl⟩
  · rintro ⟨l, hl, rfl, hlt, rfl⟩
    exact ⟨_, (writeNodes_eq_ok (emits_sprintf hcap)).mpr ⟨l, hl, rfl, hlt⟩, rfl⟩

end VpnP2p.NodeInfo
