import VpnP2p.Join.Recheck
import VpnP2p.NodeInfo.Generate
import VpnP2p.Server.Dispatch

/-!
# Joining a cluster

`join` generates the local node and its infofile where there is none, and otherwise only
says that there is one: `local_node` stays NULL. In both cases the server's reply goes
over the infofile before it is merged; so with an infofile its nodes are gone by the time
`node_merge` follows the NULL.
-/

namespace VpnP2p.Join

open Foundation NodeInfo Util Server

/-! ## util.c -/

def ipListContains (ip_list : List Slot) (ip : CStr 20) : Nat → Nat → Result Bool
  | 0, _ => .ok false
  | rounds + 1, i => do
    match ← readSlot ip_list i with
    | none => .error .nullDeref
    | some a => if a.text = ip.val then .ok true else ipListContains ip_list ip rounds (i + 1)

/-- The first loop of `ip_match`. -/
def countSlots (local_ip_list : List Slot) : Nat → Nat → Result Nat
  | 0, i => .ok i
  | rounds + 1, i => do
    match ← readSlot local_ip_list i with
    | none => .ok i
    | some _ => countSlots local_ip_list rounds (i + 1)

/-- `ip_match(ip_list, length)`. -/
def ipMatch (host : Host) (ip_list : List (CStr 20)) : Result Bool := do
  let local_ip_list ← getLocalIp host
  let local_ip_list_length ← countSlots local_ip_list ipListSize 0
  if ip_list.length ≠ local_ip_list_length then .ok false
  else ip_list.foldlM (fun found ip =>
    if found then ipListContains local_ip_list ip local_ip_list_length 0 else .ok false) true

/-! ## node_join.c -/

/-- The first half of `register_node`: it sends what is in the infofile. -/
def sendInfofile : Option Text → Result (List Buf)
  | none => .error .nullDeref
  | some infofile => (Request.register infofile).sends

/-- The rest of it, from the reply on. -/
def saveReply (stale : Nat → Byte) (s : ServerState) (reply_msg : Message) :
    Result (ServerState × Ptr) := do
  let file ← writeBufToFile stale reply_msg (sizeT (reply_msg.size - 1))
  let h := { s.heap with nodes := s.heap.nodes ++ [NodeCell.raw] }
  let (h, ret_node) ← convertBufToNode h reply_msg.buf.bytes
  .ok (⟨h, some file, s.localNode⟩, ret_node)

/-- `register_node`, where `reply` is what the server has to say; without a value the
process exits. -/
def registerNode (stale : Nat → Byte) (reply : Socket) (s : ServerState) :
    Result (Option (ServerState × Ptr)) := do
  let _ ← sendInfofile s.file
  let (ret, reply_msg) ← recvMsgOverSocket (.raw 0) reply
  if ret < 0 then .ok none else some <$> saveReply stale s reply_msg

/-- The body of the loop in `judge_local_ip`, which stores a pointer to the string. -/
def collectIp (ips : Mem IPCell) (ip : Nat) (node_ip_list : List (CStr 20)) :
    Result (List (CStr 20)) := do
  let c ← load ips (.addr ip)
  let s ← assigned c.ip
  if node_ip_list.length < ipListSize then .ok (node_ip_list ++ [s]) else .error .outOfBounds

def judgeLocalIp (host : Host) (h : Heap) (local_node : Ptr) : Result Bool := do
  let c ← load h.nodes local_node
  let node_ip_list ← forChain (fun _ => h.ips) IPCell.nextIp (collectIp h.ips) (h.ips.length + 1)
    c.ipList []
  ipMatch host node_ip_list

/-- What `use_cache` asks for. -/
def checkCache (host : Host) (s : ServerState) : Result ServerState := do
  if ← judgeLocalIp host s.heap s.localNode then .ok s
  else do
    let c ← load s.heap.nodes s.localNode
    let node_count ← assigned c.nodeCount
    let nodes ← update s.heap.nodes s.localNode (fun c =>
      { c with nodeCount := some (node_count + 1), ipList := .null, nextNode := .null })
    let h := { s.heap with nodes := nodes }
    let text ← struct2file h s.localNode
    .ok ⟨h, some text, s.localNode⟩

/-- What the second loop does with the servers that it contacts. -/
def contactAll (stale : Nat → Byte) : List Socket → ServerState → Result (Option ServerState)
  | [], s => .ok (some s)
  | reply :: replies, s => do
    match ← registerNode stale reply s with
    | none => .ok none
    | some (s, tmp_node) => do
      let (h, _) ← mergeReply s.heap s.localNode tmp_node
      contactAll stale replies { s with heap := h }

/-- `join` in front of `use_cache`. -/
def findInfofile (rand : UInt32 → Nat) (host : Host) (s : ServerState) : Result ServerState :=
  match s.file with
  | none => do
    let (h, local_node, _) ← generateLocalNode rand host s.heap
    let text ← struct2file h local_node
    .ok ⟨h, some text, local_node⟩
  | some _ => .ok s

/-- `join` from the merge on. -/
def mergeAnswer (stale : Nat → Byte) (replies : List Socket) (s : ServerState)
    (server_node : Ptr) : Result (Option ServerState) := do
  let h ← nodeMerge s.heap s.localNode server_node
  let h := { h with nodes := h.nodes ++ [NodeCell.raw] }
  match ← contactAll stale replies { s with heap := h } with
  | none => .ok none
  | some s => do
    let text ← struct2file s.heap s.localNode
    .ok (some { s with file := some text })

/-- `join(server_ip, use_cache)`, where `reply` comes from the server. The second loop
takes the string `server_ip` for a node, so whom it contacts is up to what is there in
memory; `replies` are what these servers answer. -/
def join (rand : UInt32 → Nat) (host : Host) (stale : Nat → Byte) (reply : Socket)
    (replies : List Socket) (use_cache : Int32) (s : ServerState) :
    Result (Option ServerState) := do
  let s ← findInfofile rand host s
  let s ← if use_cache ≠ 0 then checkCache host s else .ok s
  match ← registerNode stale reply s with
  | none => .ok none
  | some (s, server_node) => mergeAnswer stale replies s server_node

/-! ## What should hold -/

/-- A process that starts with the list of `cache` in its infofile, or without one. -/
def start (cache : Option (List Node)) : ServerState := ⟨.empty, cache.map encode, .null⟩

/-- `join` ends, and the infofile has the merge of the cached or generated list with `R`. -/
def KeepsCache (rand : UInt32 → Nat) (host : Host) (stale : Nat → Byte) (reply : Socket)
    (cache : Option (List Node)) (R : List Node) : Prop :=
  ∃ s, join rand host stale reply [] 0 (start cache) = .ok (some s) ∧
    s.file = some (encode (mergeNodes
      (cache.getD [host.localNode (generateId rand host.time)]) R))

/-! ## Registering -/

/-- Any infofile that fits the message can be sent, with NULs in it, too. -/
theorem sendInfofile_fits {infofile : Text} (hlen : infofile.length < bufSize) :
    ∃ sends, sendInfofile (some infofile) = .ok sends := by
  obtain ⟨type, htype, -⟩ := (CArray.raw typeSize).store_fits (s := lit "Register") (by decide)
  obtain ⟨buf, hbuf, -⟩ := (CArray.raw bufSize).store_fits hlen
  have hsize : (Int32.ofNat (infofile.length + 1)).toInt = infofile.length + 1 :=
    Int32.toInt_ofNat_of_lt (by unfold bufSize at hlen; omega)
  obtain ⟨sends, hsend⟩ : ∃ sends,
      sendMsgOverSocket ⟨type, buf, .ofNat (infofile.length + 1)⟩ = .ok sends := by
    refine ⟨_, sendMsgOverSocket_eq_ok.mpr ⟨?_, rfl⟩⟩
    show 0 ≤ (Int32.ofNat (infofile.length + 1)).toInt ∧
      (Int32.ofNat (infofile.length + 1)).toInt ≤ bufSize
    omega
  refine ⟨sends, Eq.trans ?_ hsend⟩
  simp only [sendInfofile, Request.sends, Message.raw, htype, ok_bind, readFileToBuf, hbuf]

section Register

variable {stale : Nat → Byte} {reply : Socket} {reply_msg : Message} {R : List Node}
  (hreply : recvMsgOverSocket (.raw 0) reply = .ok (0, reply_msg))
  (hR : ∀ s : ServerState, Decodes s reply_msg.buf.bytes R)

include hreply

theorem registerNode_eq_ok {s : ServerState} {r : Option (ServerState × Ptr)} :
    registerNode stale reply s = .ok r ↔
      (∃ sends, sendInfofile s.file = .ok sends) ∧
        ∃ r', saveReply stale s reply_msg = .ok r' ∧ some r' = r := by
  have hcond : ¬ (0 : Int32) < 0 := by decide
  rw [registerNode, bind_eq_ok]
  simp only [hreply, ok_bind, if_neg hcond, map_eq_ok, exists_and_right]

omit hreply in
theorem saveReply_inv {s : ServerState} {r : ServerState × Ptr}
    (hrun : saveReply stale s reply_msg = .ok r) :
    (1 ≤ reply_msg.size.toInt ∧ reply_msg.size.toInt ≤ bufSize + 1) ∧
      r.1.localNode = s.localNode := by
  obtain ⟨file, hfile, hrun⟩ := bind_eq_ok.mp hrun
  obtain ⟨h, -, hrun⟩ := bind_eq_ok.mp hrun
  cases hrun
  refine ⟨?_, rfl⟩
  unfold writeBufToFile at hfile
  split at hfile
  · rename_i hle
    exact sizeT_pred_le.mp hle
  · cases hfile

include hR

/-- With an infofile that fits and a size that fits, the reply is decoded behind what is
in memory. -/
theorem registerNode_spec (stale : Nat → Byte) {s : ServerState} {infofile : Text}
    (hfile : s.file = some infofile) (hlen : infofile.length < bufSize)
    (hsize : 1 ≤ reply_msg.size.toInt ∧ reply_msg.size.toInt ≤ bufSize + 1) :
    ∃ s' p bs, registerNode stale reply s = .ok (some (s', p)) ∧ s'.localNode = s.localNode ∧
      s.heap.Extends s'.heap ∧ NodesOn s'.heap p bs R ∧ ∀ b ∈ bs, s.heap.nodes.length ≤ b := by
  obtain ⟨sends, hsends⟩ := sendInfofile_fits hlen
  let h₁ : Heap := { s.heap with nodes := s.heap.nodes ++ [NodeCell.raw] }
  obtain ⟨h₂, p, hrun, bs, hon⟩ := hR ⟨h₁, none, .null⟩
  obtain ⟨hext, hfresh⟩ := convertBufToNode_fresh hrun
  have hgrow : s.heap.Extends h₁ := .malloc s.heap _
  obtain ⟨file, hwrite⟩ : ∃ file,
      writeBufToFile stale reply_msg (sizeT (reply_msg.size - 1)) = .ok file :=
    ⟨_, if_pos (sizeT_pred_le.mpr hsize)⟩
  have hsave : saveReply stale s reply_msg = .ok (⟨h₂, some file, s.localNode⟩, p) := by
    rw [saveReply, hwrite, ok_bind]
    show (convertBufToNode h₁ reply_msg.buf.bytes >>= _) = _
    rw [hrun, ok_bind]
  have hsent : sendInfofile s.file = .ok sends := by
    rw [hfile]
    exact hsends
  exact ⟨_, p, bs, (registerNode_eq_ok hreply).mpr ⟨⟨sends, hsent⟩, _, hsave, rfl⟩, rfl,
    hgrow.trans hext, hon, fun b hb => hgrow.nodes.length_le.trans ((hfresh bs R hon).2 b hb)⟩

end Register

/-! ## Merging -/

theorem not_nodeMerge_null {h h' : Heap} {q : Ptr} : nodeMerge h .null q ≠ .ok h' := by
  intro hrun
  obtain ⟨s, -, hrun⟩ := bind_eq_ok.mp hrun
  obtain ⟨p, hlast, -⟩ := bind_eq_ok.mp hrun
  cases hlast

theorem mergeAnswer_spec (stale : Nat → Byte) {s : ServerState} {server_node : Ptr}
    {as bs : List Nat} {xs ys : List Node} (hx : NodesOn s.heap s.localNode as xs)
    (hy : NodesOn s.heap server_node bs ys) (hne : xs ≠ []) (hapart : ∀ b ∈ bs, b ∉ as) :
    ∃ s', mergeAnswer stale [] s server_node = .ok (some s') ∧
      s'.file = some (encode (mergeNodes xs ys)) := by
  obtain ⟨h, fs, hmerge, hmerged, -⟩ := nodeMerge_spec hx hy hne hapart
  let h' : Heap := { h with nodes := h.nodes ++ [NodeCell.raw] }
  have hgrow : h.Extends h' := .malloc h _
  have hsaved := struct2file_nodesAt ⟨_, hmerged.of_extends hgrow⟩
  refine ⟨⟨h', some (encode (mergeNodes xs ys)), s.localNode⟩, ?_, rfl⟩
  rw [mergeAnswer, hmerge, ok_bind]
  show (struct2file h' s.localNode >>= _) = _
  rw [hsaved, ok_bind]

/-! ## Joining -/

section Joining

variable {rand : UInt32 → Nat} {host : Host} {stale : Nat → Byte} {reply : Socket}
  {reply_msg : Message} {R : List Node}
  (hreply : recvMsgOverSocket (.raw 0) reply = .ok (0, reply_msg))

include hreply

/-- Where `join` ends, it had no infofile. -/
theorem join_inv {cache : Option (List Node)} {s : ServerState}
    (hrun : join rand host stale reply [] 0 (start cache) = .ok (some s)) :
    cache = none ∧ host.Served ∧
      1 ≤ reply_msg.size.toInt ∧ reply_msg.size.toInt ≤ bufSize + 1 := by
  obtain ⟨s₁, hfind, hrun⟩ := bind_eq_ok.mp hrun
  rw [if_neg (by decide), ok_bind] at hrun
  obtain ⟨r, hregister, hrun⟩ := bind_eq_ok.mp hrun
  obtain ⟨-, r', hsave, rfl⟩ := (registerNode_eq_ok hreply).mp hregister
  obtain ⟨hsize, hlocal⟩ := saveReply_inv hsave
  obtain ⟨h, hmerge, -⟩ := bind_eq_ok.mp (show mergeAnswer stale [] r'.1 r'.2 = _ from hrun)
  cases cache with
  | none =>
    obtain ⟨g, hgen, -⟩ := bind_eq_ok.mp hfind
    exact ⟨rfl, served_of_generateLocalNode hgen, hsize⟩
  | some L =>
    -- `local_node` was never assigned.
    cases hfind
    rw [hlocal] at hmerge
    exact absurd hmerge not_nodeMerge_null

omit hreply in
/-- Without an infofile there is one afterwards, with the node in `local_node`. -/
theorem findInfofile_spec (rand : UInt32 → Nat) (hs : host.Served) :
    ∃ s, findInfofile rand host (start none) = .ok s ∧
    s.file = some (encode [host.localNode (generateId rand host.time)]) ∧
    NodesAt s.heap s.localNode [host.localNode (generateId rand host.time)] := by
  obtain ⟨h, hgen, -, hlocal⟩ := hs.generateLocalNode rand .empty
  refine ⟨⟨h, some _, _⟩, ?_, rfl, _, hlocal⟩
  show (generateLocalNode rand host .empty >>= _) = _
  rw [hgen, ok_bind]
  show (struct2file h _ >>= _) = _
  rw [struct2file_nodesAt ⟨_, hlocal⟩]
  rfl

omit hreply in
/-- The infofile of a new node fits a message. -/
theorem length_encode_localNode (host : Host) (id : Int32) :
    (encode [host.localNode id]).length < bufSize := by
  have hle := length_encode_le (host.localNode_oneLine id)
  have hcount : lineCount [host.localNode id] = 11 := rfl
  unfold bufSize
  omega

theorem join_spec (hR : ∀ s : ServerState, Decodes s reply_msg.buf.bytes R) (hs : host.Served)
    (hsize : 1 ≤ reply_msg.size.toInt ∧ reply_msg.size.toInt ≤ bufSize + 1) :
    KeepsCache rand host stale reply none R := by
  obtain ⟨s₁, hfind, hfile, as, hlocal⟩ := findInfofile_spec rand hs
  obtain ⟨s₂, p, bs, hregister, hsame, hext, hon, hfresh⟩ :=
    registerNode_spec hreply hR stale hfile (length_encode_localNode host _) hsize
  have hapart : ∀ b ∈ bs, b ∉ as := fun b hb hmem => hlocal.disjoint hfresh hmem hb
  have hlocal₂ := hlocal.of_extends hext
  rw [← hsame] at hlocal₂
  obtain ⟨s₃, hanswer, hmerged⟩ :=
    mergeAnswer_spec stale hlocal₂ hon (List.cons_ne_nil _ _) hapart
  refine ⟨s₃, ?_, hmerged⟩
  simp only [join, hfind, ok_bind]
  rw [if_neg (by decide), hregister, ok_bind]
  exact hanswer

/-- `join` keeps what was cached exactly if nothing was, the generator works, and the size
of the reply is one that `Message.buf` has. -/
theorem keepsCache_iff (hR : ∀ s : ServerState, Decodes s reply_msg.buf.bytes R)
    (cache : Option (List Node)) : KeepsCache rand host stale reply cache R ↔
      cache = none ∧ host.Served ∧
        1 ≤ reply_msg.size.toInt ∧ reply_msg.size.toInt ≤ bufSize + 1 := by
  constructor
  · rintro ⟨s, hrun, -⟩
    exact join_inv hreply hrun
  · rintro ⟨rfl, hs, hsize⟩
    exact join_spec hreply hR hs hsize

end Joining

/-- A server that holds the sample node. -/
theorem sample_reply : ∃ reply reply_msg,
    recvMsgOverSocket (.raw 0) reply = .ok (0, reply_msg) ∧
      (∀ s : ServerState, Decodes s reply_msg.buf.bytes sampleA) ∧
      1 ≤ reply_msg.size.toInt ∧ reply_msg.size.toInt ≤ bufSize + 1 := by
  have hlines := sound_sampleA.oneLine
  have hlen : (encode sampleA).length < bufSize := by
    have hle := length_encode_le hlines
    have hcount : lineCount sampleA = 11 := rfl
    unfold bufSize
    omega
  have hcarries := carries_ofStrings ⟨rRegister, by decide, by decide⟩
    ⟨encode sampleA, noNul_encode sampleA, hlen⟩
  obtain ⟨sends, reply_msg, -, hrecv, hcarried, -⟩ :=
    roundTrips_short hcarries (by decide) (by decide) (.raw 0)
  refine ⟨_, reply_msg, hrecv, fun s => ?_, ?_, ?_⟩
  · obtain ⟨h, p, as, hrun, hon, -⟩ :=
      convertBufToNode_encode hlines sampleNode_fits hcarried.buf s.heap
    exact ⟨h, p, hrun, as, hon⟩
  · rw [hcarried.size]
    omega
  · exact hcarried.size_le.trans (by omega)

theorem keepsCache_iff_sample : ∃ reply reply_msg,
    recvMsgOverSocket (.raw 0) reply = .ok (0, reply_msg) ∧
      (KeepsCache UInt32.toNat sampleHost (fun _ => 0) reply none sampleA ↔
        (none : Option (List Node)) = none ∧ sampleHost.Served ∧
          1 ≤ reply_msg.size.toInt ∧ reply_msg.size.toInt ≤ bufSize + 1) := by
  obtain ⟨reply, reply_msg, hreply, hR, -⟩ := sample_reply
  exact ⟨reply, reply_msg, hreply, keepsCache_iff hreply hR none⟩

/-- With the sample node in the infofile, too. -/
theorem not_keepsCache_cached : ∃ reply reply_msg,
    recvMsgOverSocket (.raw 0) reply = .ok (0, reply_msg) ∧
      (∀ s : ServerState, Decodes s reply_msg.buf.bytes sampleA) ∧ (ids sampleA).Nodup ∧
      (1 ≤ reply_msg.size.toInt ∧ reply_msg.size.toInt ≤ bufSize + 1) ∧
      ¬ KeepsCache UInt32.toNat sampleHost (fun _ => 0) reply (some sampleA) sampleA := by
  obtain ⟨reply, reply_msg, hreply, hR, hsize⟩ := sample_reply
  refine ⟨reply, reply_msg, hreply, hR, by decide, hsize, ?_⟩
  rintro ⟨s, hrun, -⟩
  have hinv := join_inv hreply hrun
  cases hinv.1

end VpnP2p.Join
