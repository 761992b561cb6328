import VpnP2p.NodeInfo.Encode

/-!
# Generating a node

`generate_local_node` and `generate_node_info` fill a new node with the host's addresses.
Both walk the array of `get_local_ip`, whose slots behind the last address nobody assigned,
and both put the second IP into a variable of the loop's inner block, whose life ends with
the block. So they work only with one address, and where `malloc` returns zeros.
-/

namespace VpnP2p.NodeInfo

open Foundation

/-! ## The host -/

/-- What `inet_ntoa` prints. -/
structure Address where
  text : Text
  chars : ∀ b ∈ text, isDigit b = true ∨ b = 46
  fits : text.length < 16

/-- What a process finds at the moment it generates a node; `cleared` says that the memory
it gets from `malloc` is zero. -/
structure Host where
  time : Nat
  addresses : List Address
  cleared : Bool

theorem Address.char_ne (a : Address) : 0 ∉ a.text ∧ tab ∉ a.text ∧ newline ∉ a.text := by
  have hne : ∀ c : Byte, isDigit c = false → c ≠ 46 → c ∉ a.text := by
    intro c hc hdot hmem
    rcases a.chars c hmem with h | h
    · rw [hc] at h
      cases h
    · exact hdot h
  exact ⟨hne 0 (by decide) (by decide), hne tab (by decide) (by decide),
    hne newline (by decide) (by decide)⟩

/-- The address in an array of 20. -/
def Address.ip (a : Address) : CStr 20 := ⟨a.text, a.char_ne.1, a.fits.trans (by decide)⟩

def unknownIP : CStr 20 := ⟨lit "unknownIP", by decide, by decide⟩

def noString : CStr 20 := ⟨[], by decide, by decide⟩

/-- A cell of zeros. -/
def IPCell.zero : IPCell := ⟨some noString, some noString, some 0, some 0, .null⟩

def NodeCell.zero : NodeCell := ⟨some 0, some 0, some 0, .null, .null⟩

/-- What `malloc(sizeof(struct IP))` returns on this host. -/
def Host.mallocIp (host : Host) : IPCell := if host.cleared then .zero else .raw

def Host.mallocNode (host : Host) : NodeCell := if host.cleared then .zero else .raw

/-! ## util.c -/

/-- `generate_id()`, where `rand` is what `rand()` returns after `srand`. -/
def generateId (rand : UInt32 → Nat) (time : Nat) : Int32 :=
  .ofNat (rand (.ofNat time) % 10000 + 1)

def isIntranet (_ : Address) : Int32 := 1

def ipListSize : Nat := 10

/-- An element of `local_ip_list`. -/
inductive Slot where
  | unassigned
  | null
  | ip (a : Address)

def Host.mallocSlot (host : Host) : Slot := if host.cleared then .null else .unassigned

/-- `local_ip_list[length] = ip; length++`. -/
def putIp : List Slot × Nat → Address → Result (List Slot × Nat)
  | (local_ip_list, length), ip =>
    if length < ipListSize then .ok (local_ip_list.set length (.ip ip), length + 1)
    else .error .outOfBounds

/-- `get_local_ip()`. -/
def getLocalIp (host : Host) : Result (List Slot) :=
  Prod.fst <$> host.addresses.foldlM putIp (List.replicate ipListSize host.mallocSlot, 0)

/-- `local_ip_list[i]`. -/
def readSlot (local_ip_list : List Slot) (i : Nat) : Result (Option Address) :=
  match local_ip_list[i]? with
  | none => .error .outOfBounds
  | some .unassigned => .error .unassigned
  | some .null => .ok none
  | some (.ip a) => .ok (some a)

/-! ## The generators -/

/-- The loop over `local_ip_list` from `i` on; `mark` is what is written besides the ip, the
type and the count. -/
def fillIps (mark : IPCell → IPCell) (local_ip_list : List Slot) :
    Nat → Nat → Mem IPCell → Ptr → Result (Mem IPCell × Ptr)
  | 0, _, ips, ip => .ok (ips, ip)
  | rounds + 1, i, ips, ip => do
    match ← readSlot local_ip_list i with
    | none => .ok (ips, ip)
    | some a => do
      let type := if isIntranet a ≠ 0 then clientIP else unknownIP
      let ips ← update ips ip (fun c =>
        mark { c with ip := some a.ip, type := some type, sCount := some 0 })
      match ← readSlot local_ip_list (i + 1) with
      | none => fillIps mark local_ip_list rounds (i + 1) ips ip
      | some _ => do
        -- `ip_new` is gone when its block ends, and so is every pointer to it.
        let ips ← update ips ip (fun c => { c with nextIp := .unassigned })
        fillIps mark local_ip_list rounds (i + 1) ips .unassigned

/-- `ip->validity = 1`. -/
def setValid (c : IPCell) : IPCell := { c with validity := some 1 }

/-- `generate_local_node()`, with the node and its id, which it leaves in `local_node` and
`local_node_id`. -/
def generateLocalNode (rand : UInt32 → Nat) (host : Host) (h : Heap) :
    Result (Heap × Ptr × Int32) := do
  let id := generateId rand host.time
  let ip := Ptr.addr h.ips.length
  let node := Ptr.addr h.nodes.length
  let nodes := h.nodes ++ [{ host.mallocNode with
    id := some id, nodeCount := some 1, reliable := some reliableMark, ipList := ip }]
  let local_ip_list ← getLocalIp host
  let (ips, _) ← fillIps setValid local_ip_list ipListSize 0
    (h.ips ++ [host.mallocIp]) ip
  .ok (⟨ips, nodes⟩, node, id)

/-- `generate_node_info(server_ip)`, with the infofile it writes. -/
def generateNodeInfo (rand : UInt32 → Nat) (host : Host) (server_ip : Address) : Result Text := do
  let tmp_node := { NodeCell.zero with
    id := some (generateId rand host.time), nodeCount := some 1, reliable := some reliableMark
    ipList := .addr 0 }
  let local_ip_list ← getLocalIp host
  let (ips, ip) ← fillIps id local_ip_list ipListSize 0 [host.mallocIp] (.addr 0)
  let ip_server := Ptr.addr ips.length
  let ips := ips ++ [{ host.mallocIp with
    type := some serverIP, ip := some server_ip.ip, sCount := some 0 }]
  let ips ← update ips ip (fun c => { c with nextIp := ip_server })
  struct2file ⟨ips, [tmp_node]⟩ (.addr 0)

/-- `generate_local_node()` on the array it gets. -/
def localNodeFrom (rand : UInt32 → Nat) (host : Host) (h : Heap) (local_ip_list : List Slot) :
    Result (Heap × Ptr × Int32) := do
  let id := generateId rand host.time
  let ip := Ptr.addr h.ips.length
  let node := Ptr.addr h.nodes.length
  let nodes := h.nodes ++ [{ host.mallocNode with
    id := some id, nodeCount := some 1, reliable := some reliableMark, ipList := ip }]
  let (ips, _) ← fillIps setValid local_ip_list ipListSize 0
    (h.ips ++ [host.mallocIp]) ip
  .ok (⟨ips, nodes⟩, node, id)

/-- `generate_node_info(server_ip)` on the array it gets, up to the node it hands to
`struct2file`. -/
def nodeInfoFrom (rand : UInt32 → Nat) (host : Host) (server_ip : Address)
    (local_ip_list : List Slot) : Result (Heap × Ptr) := do
  let tmp_node := { NodeCell.zero with
    id := some (generateId rand host.time), nodeCount := some 1, reliable := some reliableMark
    ipList := .addr 0 }
  let (ips, ip) ← fillIps id local_ip_list ipListSize 0 [host.mallocIp] (.addr 0)
  let ip_server := Ptr.addr ips.length
  let ips := ips ++ [{ host.mallocIp with
    type := some serverIP, ip := some server_ip.ip, sCount := some 0 }]
  let ips ← update ips ip (fun c => { c with nextIp := ip_server })
  .ok (⟨ips, [tmp_node]⟩, .addr 0)

theorem generateLocalNode_eq (rand : UInt32 → Nat) (host : Host) (h : Heap) :
    generateLocalNode rand host h = getLocalIp host >>= localNodeFrom rand host h := rfl

theorem generateNodeInfo_eq (rand : UInt32 → Nat) (host : Host) (server_ip : Address) :
    generateNodeInfo rand host server_ip = (do
      let local_ip_list ← getLocalIp host
      let (h, node) ← nodeInfoFrom rand host server_ip local_ip_list
      struct2file h node) := by
  simp only [generateNodeInfo, nodeInfoFrom, bind_assoc, ok_bind]

/-! ## The addresses -/

theorem getLocalIp_eq (host : Host) : getLocalIp host =
    if host.addresses.length ≤ ipListSize then
      .ok (host.addresses.map .ip ++
        List.replicate (ipListSize - host.addresses.length) host.mallocSlot)
    else .error .outOfBounds := by
  have hfold := foldlM_fill (f := putIp) (fun _ _ _ => rfl) host.mallocSlot host.addresses []
    ipListSize rfl
  rw [List.nil_append, List.length_nil] at hfold
  rw [getLocalIp, hfold]
  split <;> rfl

/-! ## What the loop over them leaves -/

/-- The generators do what they look like: the memory they get is zero, so that the first
unused slot ends the loop and the last IP ends the list, and there is no second address. -/
structure Host.Served (host : Host) : Prop where
  cleared : host.cleared = true
  single : host.addresses.length ≤ 1

instance (host : Host) : Decidable host.Served :=
  decidable_of_iff (host.cleared = true ∧ host.addresses.length ≤ 1)
    ⟨fun h => ⟨h.1, h.2⟩, fun h => ⟨h.cleared, h.single⟩⟩

theorem Host.Served.addresses {host : Host} (h : host.Served) :
    host.addresses = [] ∨ ∃ a, host.addresses = [a] := by
  have hle := h.single
  cases has : host.addresses with
  | nil => exact .inl rfl
  | cons a as =>
    rw [has, List.length_cons] at hle
    have hnil : as = [] := List.eq_nil_of_length_eq_zero (by omega)
    exact .inr ⟨a, by rw [hnil]⟩

def Host.fillIp (host : Host) (mark : IPCell → IPCell) (c : IPCell) : IPCell :=
  match host.addresses with
  | [] => c
  | a :: _ => mark { c with ip := some a.ip, type := some clientIP, sCount := some 0 }

section Fill

variable {mark : IPCell → IPCell} {ips : Mem IPCell} {ip : Ptr} {host : Host}

/-- With one address in front of NULL the loop fills the cell it was given. -/
theorem fillIps_one {b : Nat} (hb : b < ips.length) (a : Address) (list : List Slot) :
    fillIps mark (.ip a :: .null :: list) ipListSize 0 ips (.addr b) =
      .ok (ips.modify b (fun c =>
        mark { c with ip := some a.ip, type := some clientIP, sCount := some 0 }), .addr b) := by
  show (update ips (.addr b) _ >>= fun ips => .ok (ips, Ptr.addr b)) = _
  rw [update_addr hb, ok_bind]
  rfl

/-- With two it follows a pointer into a block that has ended. -/
theorem fillIps_two {a a' : Address} {list : List Slot} {r : Mem IPCell × Ptr} :
    fillIps mark (.ip a :: .ip a' :: list) ipListSize 0 ips ip ≠ .ok r := by
  intro hrun
  obtain ⟨slot, hslot, hrun⟩ := bind_eq_ok.mp hrun
  cases hslot
  obtain ⟨ips₁, -, hrun⟩ := bind_eq_ok.mp hrun
  obtain ⟨slot', hslot', hrun⟩ := bind_eq_ok.mp hrun
  cases hslot'
  obtain ⟨ips₂, -, hrun⟩ := bind_eq_ok.mp hrun
  -- The second round writes through `ip_new`.
  cases hrun

theorem Host.Served.fillIps (h : host.Served) {b : Nat} (hb : b < ips.length) :
    (do
      let local_ip_list ← getLocalIp host
      fillIps mark local_ip_list ipListSize 0 ips (.addr b)) =
      .ok (ips.modify b (host.fillIp mark), .addr b) := by
  have hle : host.addresses.length ≤ ipListSize := h.single.trans (by decide)
  rw [getLocalIp_eq, if_pos hle, Host.mallocSlot, if_pos h.cleared, ok_bind]
  rcases h.addresses with has | ⟨a, has⟩
  · have hkeep : host.fillIp mark = id := by
      ext1 c
      rw [Host.fillIp, has]
      rfl
    rw [has, hkeep, List.modify_id]
    rfl
  · have hfill : host.fillIp mark =
        fun c => mark { c with ip := some a.ip, type := some clientIP, sCount := some 0 } := by
      ext1 c
      rw [Host.fillIp, has]
    rw [has, hfill]
    exact fillIps_one hb a _

/-- The loop only ends where it works: past the last address it reads a slot nobody
assigned, or at a second address it follows a pointer into a block that has ended. -/
theorem served_of_fillIps {r : Mem IPCell × Ptr}
    (hrun : (do
      let local_ip_list ← getLocalIp host
      fillIps mark local_ip_list ipListSize 0 ips ip) = .ok r) : host.Served := by
  rw [getLocalIp_eq] at hrun
  split at hrun
  swap
  · cases hrun
  rw [ok_bind] at hrun
  cases has : host.addresses with
  | nil =>
    rw [has] at hrun
    refine ⟨?_, by simp [has]⟩
    by_contra hraw
    rw [Host.mallocSlot, if_neg hraw] at hrun
    cases hrun
  | cons a as =>
    rw [has] at hrun
    cases as with
    | nil =>
      refine ⟨?_, by simp [has]⟩
      by_contra hraw
      rw [Host.mallocSlot, if_neg hraw] at hrun
      obtain ⟨slot, hslot, hrun⟩ := bind_eq_ok.mp hrun
      cases hslot
      obtain ⟨ips', -, hrun⟩ := bind_eq_ok.mp hrun
      cases hrun
    | cons a' as => exact absurd hrun fillIps_two

end Fill

/-! ## The node -/

/-- The IP of the host, as the generators write it: without an address it is all zeros. -/
def Host.ip (host : Host) (validity : Int32) : IP :=
  match host.addresses with
  | [] => ⟨noString, noString, 0, 0⟩
  | a :: _ => ⟨a.ip, clientIP, 0, validity⟩

/-- The node of `generate_local_node`. -/
def Host.localNode (host : Host) (id : Int32) : Node := ⟨id, 1, reliableMark, [host.ip 1]⟩

/-- The node of `generate_node_info`. -/
def Host.nodeInfo (host : Host) (id : Int32) (server_ip : Address) : Node :=
  ⟨id, 1, reliableMark, [host.ip 0, ⟨server_ip.ip, serverIP, 0, 0⟩]⟩

theorem Host.fillIp_setValid (host : Host) : (host.fillIp setValid .zero).Holds (host.ip 1) ∧
    (host.fillIp setValid .zero).nextIp = .null := by
  unfold Host.fillIp Host.ip
  cases host.addresses with
  | nil => exact ⟨⟨rfl, rfl, rfl, rfl⟩, rfl⟩
  | cons a as => exact ⟨⟨rfl, rfl, rfl, rfl⟩, rfl⟩

theorem Host.fillIp_id (host : Host) : (host.fillIp id .zero).Holds (host.ip 0) := by
  unfold Host.fillIp Host.ip
  cases host.addresses with
  | nil => exact ⟨rfl, rfl, rfl, rfl⟩
  | cons a as => exact ⟨rfl, rfl, rfl, rfl⟩

theorem Host.Served.fill {host : Host} (hs : host.Served) (mark : IPCell → IPCell)
    (m : Mem IPCell) :
    (do
      let local_ip_list ← getLocalIp host
      NodeInfo.fillIps mark local_ip_list ipListSize 0 (m ++ [host.mallocIp]) (.addr m.length)) =
      .ok (m ++ [host.fillIp mark .zero], .addr m.length) := by
  rw [hs.fillIps (by simp), modify_concat, Host.mallocIp, if_pos hs.cleared]

/-- What the loop leaves is the node's list, if it ends. -/
theorem localNodeFrom_of_fill (rand : UInt32 → Nat) {host : Host} {h : Heap} {list : List Slot}
    {c : IPCell} {x : IP} (hclear : host.cleared = true)
    (hfill : fillIps setValid list ipListSize 0 (h.ips ++ [host.mallocIp]) (.addr h.ips.length) =
      .ok (h.ips ++ [c], .addr h.ips.length)) (hc : c.Holds x) (hend : c.nextIp = .null) :
    ∃ h', localNodeFrom rand host h list =
        .ok (h', .addr h.nodes.length, generateId rand host.time) ∧ h.Extends h' ∧
      NodesOn h' (.addr h.nodes.length) [h.nodes.length]
        [⟨generateId rand host.time, 1, reliableMark, [x]⟩] := by
  have hipAt : IpsAt (h.ips ++ [c]) (.addr h.ips.length) [x] :=
    ⟨[h.ips.length], ⟨rfl, _, List.getElem?_concat_length, hend⟩,
      .cons ⟨_, List.getElem?_concat_length, hc⟩ .nil⟩
  refine ⟨⟨h.ips ++ [c], h.nodes ++ [{ NodeCell.zero with
    id := some (generateId rand host.time), nodeCount := some 1, reliable := some reliableMark
    ipList := .addr h.ips.length }]⟩, ?_, ⟨List.prefix_append _ _, List.prefix_append _ _⟩, ?_, ?_⟩
  · simp only [localNodeFrom, Host.mallocNode, if_pos hclear, hfill, ok_bind]
  · exact ⟨rfl, _, List.getElem?_concat_length, rfl⟩
  · exact .cons ⟨_, List.getElem?_concat_length, rfl, rfl, rfl, hipAt⟩ .nil

/-- The server's IP is put behind what the loop leaves. -/
theorem nodeInfoFrom_of_fill (rand : UInt32 → Nat) {host : Host} (server_ip : Address)
    {list : List Slot} {c : IPCell} {x : IP} (hclear : host.cleared = true)
    (hfill : fillIps id list ipListSize 0 [host.mallocIp] (.addr 0) = .ok ([c], .addr 0))
    (hc : c.Holds x) :
    ∃ h', nodeInfoFrom rand host server_ip list = .ok (h', .addr 0) ∧
      NodesAt h' (.addr 0) [⟨generateId rand host.time, 1, reliableMark,
        [x, ⟨server_ip.ip, serverIP, 0, 0⟩]⟩] := by
  simp only [nodeInfoFrom, hfill, ok_bind]
  rw [Host.mallocIp, if_pos hclear]
  refine ⟨_, rfl, [0], ⟨rfl, _, rfl, rfl⟩, .cons ⟨_, rfl, rfl, rfl, rfl, [0, 1], ?_, ?_⟩ .nil⟩
  · exact ⟨rfl, _, rfl, rfl, _, rfl, rfl⟩
  · exact .cons ⟨_, rfl, hc.relink⟩ (.cons ⟨_, rfl, rfl, rfl, rfl, rfl⟩ .nil)

theorem served_of_generateLocalNode {rand : UInt32 → Nat} {host : Host} {h : Heap}
    {r : Heap × Ptr × Int32} (hrun : generateLocalNode rand host h = .ok r) : host.Served := by
  obtain ⟨list, hlist, hrun⟩ := bind_eq_ok.mp hrun
  obtain ⟨f, hfill, -⟩ := bind_eq_ok.mp hrun
  exact served_of_fillIps (bind_eq_ok.mpr ⟨list, hlist, hfill⟩)

theorem Host.Served.generateLocalNode {host : Host} (hs : host.Served) (rand : UInt32 → Nat)
    (h : Heap) : ∃ h', generateLocalNode rand host h =
        .ok (h', .addr h.nodes.length, generateId rand host.time) ∧ h.Extends h' ∧
      NodesOn h' (.addr h.nodes.length) [h.nodes.length]
        [host.localNode (generateId rand host.time)] := by
  obtain ⟨list, hlist, hfill⟩ := bind_eq_ok.mp (hs.fill setValid h.ips)
  obtain ⟨hip, hend⟩ := host.fillIp_setValid
  rw [generateLocalNode_eq, hlist, ok_bind]
  exact localNodeFrom_of_fill rand hs.cleared hfill hip hend

theorem served_of_generateNodeInfo {rand : UInt32 → Nat} {host : Host} {server_ip : Address}
    {text : Text} (hrun : generateNodeInfo rand host server_ip = .ok text) : host.Served := by
  obtain ⟨list, hlist, hrun⟩ := bind_eq_ok.mp hrun
  obtain ⟨f, hfill, -⟩ := bind_eq_ok.mp hrun
  exact served_of_fillIps (bind_eq_ok.mpr ⟨list, hlist, hfill⟩)

theorem Host.Served.generateNodeInfo {host : Host} (hs : host.Served) (rand : UInt32 → Nat)
    (server_ip : Address) : generateNodeInfo rand host server_ip =
      .ok (encode [host.nodeInfo (generateId rand host.time) server_ip]) := by
  obtain ⟨list, hlist, hfill⟩ := bind_eq_ok.mp (hs.fill id [])
  obtain ⟨h', hrun, hnode⟩ := nodeInfoFrom_of_fill rand server_ip hs.cleared hfill
    host.fillIp_id
  rw [generateNodeInfo_eq, hlist, ok_bind, hrun, ok_bind]
  exact struct2file_nodesAt hnode

/-! ## What is written can be read -/

theorem generateId_range (rand : UInt32 → Nat) (time : Nat) :
    1 ≤ (generateId rand time).toInt ∧ (generateId rand time).toInt ≤ 10000 := by
  have hlt : rand (.ofNat time) % 10000 < 10000 := Nat.mod_lt _ (by decide)
  rw [generateId, Int32.toInt_ofNat_of_lt (by omega)]
  omega

theorem marks_clean : ∀ s ∈ [noString, clientIP, serverIP], newline ∉ s.val ∧ tab ∉ s.val := by
  decide

/-- An IP whose strings have neither newlines nor tabs. -/
def IP.Clean (x : IP) : Prop :=
  (newline ∉ x.ip.val ∧ tab ∉ x.ip.val) ∧ newline ∉ x.type.val ∧ tab ∉ x.type.val

theorem Address.clean (a : Address) : newline ∉ a.ip.val ∧ tab ∉ a.ip.val :=
  ⟨a.char_ne.2.2, a.char_ne.2.1⟩

theorem Host.ip_clean (host : Host) (validity : Int32) : (host.ip validity).Clean := by
  unfold Host.ip
  cases host.addresses with
  | nil => exact ⟨marks_clean noString (by simp), marks_clean noString (by simp)⟩
  | cons a as => exact ⟨a.clean, marks_clean clientIP (by simp)⟩

theorem plain_of_clean {n : Node} (hne : n.ipList ≠ []) (hips : ∀ x ∈ n.ipList, x.Clean) :
    n.Plain where
  ips := hne
  lines := fun x hx => ⟨(hips x hx).1.1, (hips x hx).2.1⟩
  tabs := fun x hx => ⟨(hips x hx).1.2, (hips x hx).2.2⟩

theorem Host.localNode_plain (host : Host) (id : Int32) : (host.localNode id).Plain := by
  apply plain_of_clean (List.cons_ne_nil _ _)
  intro x hx
  obtain rfl := List.mem_singleton.mp hx
  exact host.ip_clean 1

theorem Host.localNode_oneLine (host : Host) (id : Int32) :
    ∀ n ∈ [host.localNode id], n.OneLine := by
  intro n hn
  obtain rfl := List.mem_singleton.mp hn
  exact (host.localNode_plain _).toOneLine

theorem Host.nodeInfo_plain (host : Host) (id : Int32) (server_ip : Address) :
    (host.nodeInfo id server_ip).Plain := by
  apply plain_of_clean (List.cons_ne_nil _ _)
  intro x hx
  rcases List.mem_cons.mp hx with rfl | hx
  · exact host.ip_clean 0
  · obtain rfl := List.mem_singleton.mp hx
    exact ⟨server_ip.clean, marks_clean serverIP (by simp)⟩

def sampleAddress : Address := ⟨lit "10.0.0.1", by simp [lit, isDigit], by decide⟩

/-- A host with one address, and with memory that is zero. -/
def sampleHost : Host := ⟨0, [sampleAddress], true⟩

theorem sampleHost_served : sampleHost.Served := by decide

end VpnP2p.NodeInfo
