import VpnP2p.Foundation.Lasting
import VpnP2p.Join.Replies

/-!
# The commands of a machine

`start` and `join`, and a register message at the machine's server, as programs over the
infofile: whatever of it a process has written is there when it stops. `struct2file` and
`write_buf_to_file` open the infofile, which empties it, before they write. Where a program
returns, it has done what the functions without this distinction say.
-/

namespace VpnP2p.Join.Commands

open Foundation NodeInfo Util Server

/-! ## Programs -/

/-- Why a process is there no more: it called `exit`, or it went wrong. -/
inductive Stop where
  | exit
  | fault (f : Fault)

/-- A process over what is under `FILENAME`. -/
abbrev Program (α : Type) := Lasting (Option Text) Stop α

/-- Code that does not touch the infofile. -/
def code {α : Type} (r : Result α) : Program α := Lasting.code (r.mapError Stop.fault)

section Code

variable {α β : Type} {r : Result α} {file : Option Text}

theorem exec_code_ok {a : α} (h : r = .ok a) (f : α → Program β) :
    (code r >>= f).exec file = (f a).exec file := by
  rw [h]
  exact Lasting.exec_code_ok_bind a

theorem exec_code_error {e : Fault} (h : r = .error e) (f : α → Program β) :
    (code r >>= f).exec file = (.error (.fault e), file) := by
  rw [h]
  exact Lasting.exec_code_error_bind (Stop.fault e)

end Code

/-- `struct2file(node, FILENAME)`. -/
def saveNodes (h : Heap) (node : Ptr) : Program Unit := do
  set (some ([] : Text))
  let text ← code (struct2file h node)
  set (some text)

/-! ## node_start.c -/

/-- `start(server_ip, use_cache)`. -/
def start (rand : UInt32 → Nat) (host : Host) (server_ip : Address) : Program Unit := do
  match ← get with
  | some _ => pure ()
  | none => do
    let local_ip_list ← code (getLocalIp host)
    let (h, tmp_node) ← code (nodeInfoFrom rand host server_ip local_ip_list)
    saveNodes h tmp_node

/-! ## node_join.c -/

/-- `register_node` from the reply on. -/
def takeReply (stale : Nat → Byte) (c : Connection) (h : Heap) : Program (Heap × Ptr) := do
  let (ret, reply_msg) ← code (recvMsgOverSocketOn c.behind (.raw 0) c.reply)
  if ret < 0 then throw .exit
  else do
    set (some ([] : Text))
    let file ← code (writeBufToFile stale reply_msg (sizeT (reply_msg.size - 1)))
    set (some file)
    code (convertBufToNode { h with nodes := h.nodes ++ [NodeCell.raw] } reply_msg.buf.bytes)

/-- `register_node(target_ip)`, where `target` is the connection, if there is one. -/
def registerNode (stale : Nat → Byte) (target : Option Connection) (h : Heap) :
    Program (Heap × Ptr) := do
  match target with
  | none => throw .exit
  | some c => do
    let file ← get
    let _ ← code (sendInfofile file)
    takeReply stale c h

/-- What `use_cache` asks for. -/
def checkCache (host : Host) (h : Heap) (local_node : Ptr) : Program Heap := do
  if ← code (judgeLocalIp host h local_node) then pure h
  else do
    let c ← code (load h.nodes local_node)
    let node_count ← code (assigned c.nodeCount)
    let nodes ← code (update h.nodes local_node (fun c =>
      { c with nodeCount := some (node_count + 1), ipList := .null, nextNode := .null }))
    saveNodes { h with nodes := nodes } local_node
    pure { h with nodes := nodes }

/-- What the second loop of `join` does with the servers that it contacts. -/
def contactAll (stale : Nat → Byte) (local_node : Ptr) :
    List (Option Connection) → Heap → Program Heap
  | [], h => pure h
  | target :: targets, h => do
    let (h, tmp_node) ← registerNode stale target h
    let (h, _) ← code (mergeReply h local_node tmp_node)
    contactAll stale local_node targets h

/-- `join` in front of `use_cache`. -/
def findInfofile (rand : UInt32 → Nat) (host : Host) : Program (Heap × Ptr) := do
  match ← get with
  | some _ => pure (.empty, .null)
  | none => do
    let (h, local_node, _) ← code (generateLocalNode rand host .empty)
    saveNodes h local_node
    pure (h, local_node)

/-- Where the second loop gets to from the string `server_ip`, which it takes for a node:
the servers it contacts, and whether its pointers end in NULL. -/
structure Walk where
  contacted : List (Option Connection)
  ends : Bool

/-- `join` from the merge on. -/
def mergeAnswer (stale : Nat → Byte) (walk : Walk) (h : Heap) (local_node server_node : Ptr) :
    Program Unit := do
  let h ← code (nodeMerge h local_node server_node)
  let h ← contactAll stale local_node walk.contacted { h with nodes := h.nodes ++ [NodeCell.raw] }
  if walk.ends then saveNodes h local_node else throw (.fault .outOfBounds)

/-- `join(server_ip, use_cache)`. -/
def join (rand : UInt32 → Nat) (host : Host) (stale : Nat → Byte) (server : Option Connection)
    (walk : Walk) (use_cache : Int32) : Program Unit := do
  let (h, local_node) ← findInfofile rand host
  let h ← if use_cache ≠ 0 then checkCache host h local_node else pure h
  let (h, server_node) ← registerNode stale server h
  mergeAnswer stale walk h local_node server_node

/-! ## server.c -/

/-- `handle_register`, over the memory `h` of the server. -/
def handleRegister (h : Heap) (buf : Buf) : Program Unit := do
  let (h, recv_node) ← code (convertBufToNode h buf)
  let file ← get
  let (h, local_node) ← code (file2struct h file)
  let h ← code (nodeMerge h local_node recv_node)
  saveNodes h local_node
  let reply_msg ← code (registerReply ⟨h, none, local_node⟩)
  let _ ← code (sendMsgOverSocket reply_msg)

/-! ## What they return -/

/-- How a program ends, without what it left when it stopped. -/
def ending {α : Type} (c : Program α) (file : Option Text) : Result (Option (α × Option Text)) :=
  match c.exec file with
  | (.ok a, file) => .ok (some (a, file))
  | (.error .exit, _) => .ok none
  | (.error (.fault e), _) => .error e

section Ending

variable {α β : Type} {file : Option Text} {h : Heap} {p : Ptr}

theorem ending_eq_ok {c : Program α} {a : α} {file' : Option Text} :
    ending c file = .ok (some (a, file')) ↔ c.exec file = (.ok a, file') := by
  rw [ending]
  match c.exec file with
  | (.ok b, f) => simp
  | (.error .exit, f) => simp
  | (.error (.fault e), f) => simp

theorem ending_bind (c : Program α) (f : α → Program β) : ending (c >>= f) file = (do
    match ← ending c file with
    | none => .ok none
    | some (a, file) => ending (f a) file) := by
  rw [ending, ending]
  match hc : c.exec file with
  | (.ok a, file) =>
    rw [Lasting.exec_bind_ok hc]
    rfl
  | (.error .exit, file) =>
    rw [Lasting.exec_bind_error hc]
    rfl
  | (.error (.fault e), file) =>
    rw [Lasting.exec_bind_error hc]
    rfl

theorem ending_code_bind (r : Result α) (f : α → Program β) :
    ending (code r >>= f) file = r >>= fun a => ending (f a) file := by
  cases r with
  | ok a => rfl
  | error e => rfl

theorem ending_get_bind (f : Option Text → Program β) :
    ending (get >>= f) file = ending (f file) file := rfl

theorem ending_set_bind (file' : Option Text) (f : PUnit → Program β) :
    ending (set file' >>= f) file = ending (f ⟨⟩) file' := rfl

theorem ending_saveNodes : ending (saveNodes h p) file =
    (fun text => some ((), some text)) <$> struct2file h p := by
  unfold saveNodes
  show ending (code (struct2file h p) >>= _) (some []) = _
  rw [ending_code_bind]
  cases struct2file h p <;> rfl

theorem ending_saveNodes_bind (f : Unit → Program β) : ending (saveNodes h p >>= f) file = (do
    let text ← struct2file h p
    ending (f ()) (some text)) := by
  rw [ending_bind, ending_saveNodes]
  cases struct2file h p <;> rfl

end Ending

/-- `start` writes what `generate_node_info` does. -/
theorem ending_start (rand : UInt32 → Nat) (host : Host) (server_ip : Address) :
    ending (start rand host server_ip) none =
      (fun text => some ((), some text)) <$> generateNodeInfo rand host server_ip := by
  show ending (code (getLocalIp host) >>= _) none = _
  rw [ending_code_bind, generateNodeInfo_eq, map_bind]
  congr 1
  funext list
  rw [ending_code_bind, map_bind]
  congr 1
  funext node
  exact ending_saveNodes

theorem registerNode_localNode {stale : Nat → Byte} {reply : Socket} {s : ServerState}
    {r : ServerState × Ptr} (hrun : Join.registerNode stale reply s = .ok (some r)) :
    r.1.localNode = s.localNode := by
  obtain ⟨sent, -, hrun⟩ := bind_eq_ok.mp hrun
  obtain ⟨⟨ret, reply_msg⟩, -, hrun⟩ := bind_eq_ok.mp hrun
  dsimp only at hrun
  split at hrun
  · cases hrun
  · obtain ⟨r', hsave, heq⟩ := map_eq_ok.mp hrun
    cases heq
    exact (saveReply_inv hsave).2

section Registering

variable {stale : Nat → Byte} {α : Type}

theorem ending_registerNode_bind (reply : Socket) (s : ServerState)
    (f : Heap × Ptr → Program α) :
    ending (registerNode stale (some (.bare reply)) s.heap >>= f) s.file = (do
      match ← Join.registerNode stale reply s with
      | none => .ok none
      | some (s, tmp_node) => ending (f (s.heap, tmp_node)) s.file) := by
  unfold registerNode Join.registerNode takeReply
  simp only [bind_assoc]
  show ending (code (sendInfofile s.file) >>= _) s.file = _
  rw [ending_code_bind]
  congr 1
  funext sends
  rw [ending_code_bind]
  congr 1
  funext received
  obtain ⟨ret, reply_msg⟩ := received
  dsimp only
  split
  · rfl
  · simp only [bind_assoc, ending_set_bind, ending_code_bind, saveReply, map_bind, map_ok]
    rfl

theorem ending_contactAll_bind (replies : List Socket) (s : ServerState)
    (f : Heap → Program α) :
    ending (contactAll stale s.localNode (replies.map (some ∘ .bare)) s.heap >>= f) s.file = (do
      match ← Join.contactAll stale replies s with
      | none => .ok none
      | some s => ending (f s.heap) s.file) := by
  induction replies generalizing s with
  | nil => rfl
  | cons reply replies ih =>
    rw [List.map_cons, Function.comp_apply, contactAll, bind_assoc, ending_registerNode_bind,
      Join.contactAll, bind_assoc]
    cases hregister : Join.registerNode stale reply s with
    | error e => rfl
    | ok r =>
      rw [ok_bind, ok_bind]
      cases r with
      | none => rfl
      | some r =>
        obtain ⟨t, tmp_node⟩ := r
        have hlocal : t.localNode = s.localNode := registerNode_localNode hregister
        simp only [bind_assoc, ending_code_bind, ← hlocal]
        congr 1
        funext merged
        exact ih { t with heap := merged.1 }

theorem contactAll_localNode {replies : List Socket} {s t : ServerState}
    (hrun : Join.contactAll stale replies s = .ok (some t)) : t.localNode = s.localNode := by
  induction replies generalizing s with
  | nil =>
    cases hrun
    rfl
  | cons reply replies ih =>
    rw [Join.contactAll] at hrun
    obtain ⟨r, hregister, hrun⟩ := bind_eq_ok.mp hrun
    cases r with
    | none => cases hrun
    | some r =>
      obtain ⟨u, tmp_node⟩ := r
      obtain ⟨merged, -, hrun⟩ := bind_eq_ok.mp hrun
      exact (ih hrun).trans (registerNode_localNode hregister)

theorem ending_mergeAnswer (replies : List Socket) (s : ServerState) (server_node : Ptr) :
    ending (mergeAnswer stale ⟨replies.map (some ∘ .bare), true⟩ s.heap s.localNode server_node)
      s.file = Option.map (fun t => ((), t.file)) <$>
        Join.mergeAnswer stale replies s server_node := by
  unfold mergeAnswer Join.mergeAnswer
  rw [ending_code_bind, map_bind]
  congr 1
  funext h
  let t : ServerState := { s with heap := { h with nodes := h.nodes ++ [NodeCell.raw] } }
  refine (ending_contactAll_bind replies t (fun h => saveNodes h t.localNode)).trans ?_
  show _ = _ <$> (Join.contactAll stale replies t >>= _)
  rw [map_bind]
  cases hcontact : Join.contactAll stale replies t with
  | error e => rfl
  | ok r =>
    cases r with
    | none => rfl
    | some u =>
      rw [ok_bind, ok_bind, map_bind]
      have hlocal : u.localNode = t.localNode := contactAll_localNode hcontact
      show ending (saveNodes u.heap t.localNode) u.file = _
      rw [ending_saveNodes, ← hlocal]
      cases struct2file u.heap u.localNode <;> rfl

end Registering

theorem checkCache_localNode {host : Host} {s t : ServerState}
    (hrun : Join.checkCache host s = .ok t) : t.localNode = s.localNode := by
  obtain ⟨found, -, hrun⟩ := bind_eq_ok.mp hrun
  cases found with
  | true =>
    cases hrun
    rfl
  | false =>
    obtain ⟨c, -, hrun⟩ := bind_eq_ok.mp hrun
    obtain ⟨node_count, -, hrun⟩ := bind_eq_ok.mp hrun
    obtain ⟨nodes, -, hrun⟩ := bind_eq_ok.mp hrun
    obtain ⟨text, -, hrun⟩ := bind_eq_ok.mp hrun
    cases hrun
    rfl

theorem ending_checkCache_bind {α : Type} (host : Host) (s : ServerState) (f : Heap → Program α) :
    ending (checkCache host s.heap s.localNode >>= f) s.file = (do
      let s ← Join.checkCache host s
      ending (f s.heap) s.file) := by
  unfold checkCache Join.checkCache
  simp only [bind_assoc, ending_code_bind]
  congr 1
  funext found
  cases found with
  | true => rfl
  | false =>
    simp only [Bool.false_eq_true, if_false, bind_assoc, ending_code_bind, ending_saveNodes_bind,
      pure_bind, ok_bind]

theorem ending_findInfofile_bind {α : Type} (rand : UInt32 → Nat) (host : Host)
    (file : Option Text) (f : Heap × Ptr → Program α) :
    ending (findInfofile rand host >>= f) file = (do
      let s ← Join.findInfofile rand host ⟨.empty, file, .null⟩
      ending (f (s.heap, s.localNode)) s.file) := by
  unfold findInfofile Join.findInfofile
  rw [bind_assoc, ending_get_bind]
  cases file with
  | none =>
    simp only [bind_assoc, ending_code_bind, ending_saveNodes_bind, pure_bind, ok_bind]
  | some text => rfl

/-- Over connections that come about, and where the walk of its second loop ends, `join` does
what it does. -/
theorem ending_join (rand : UInt32 → Nat) (host : Host) (stale : Nat → Byte) (reply : Socket)
    (replies : List Socket) (use_cache : Int32) (file : Option Text) :
    ending (join rand host stale (some (.bare reply)) ⟨replies.map (some ∘ .bare), true⟩ use_cache)
      file = Option.map (fun s => ((), s.file)) <$>
        Join.join rand host stale reply replies use_cache ⟨.empty, file, .null⟩ := by
  unfold join Join.join
  rw [ending_findInfofile_bind, map_bind]
  congr 1
  funext s
  have hrest : ∀ t : ServerState, t.localNode = s.localNode →
      ending (registerNode stale (some (.bare reply)) t.heap >>= fun r =>
        mergeAnswer stale ⟨replies.map (some ∘ .bare), true⟩ r.1 s.localNode r.2) t.file =
      Option.map (fun s => ((), s.file)) <$> (Join.registerNode stale reply t >>= fun r =>
        match r with
        | none => .ok none
        | some (s, server_node) => Join.mergeAnswer stale replies s server_node) := by
    intro t ht
    rw [ending_registerNode_bind, map_bind]
    cases hregister : Join.registerNode stale reply t with
    | error e => rfl
    | ok r =>
      cases r with
      | none => rfl
      | some r =>
        obtain ⟨t', server_node⟩ := r
        have hlocal : t'.localNode = s.localNode := (registerNode_localNode hregister).trans ht
        rw [ok_bind, ok_bind, ← hlocal]
        exact ending_mergeAnswer replies t' server_node
  dsimp only
  split
  · rw [ending_checkCache_bind, map_bind]
    cases hcheck : Join.checkCache host s with
    | error e => rfl
    | ok t => exact hrest t (checkCache_localNode hcheck)
  · exact hrest s rfl

/-- So does `handle_register`. -/
theorem ending_handleRegister (s : ServerState) (msg : Message) :
    ending (handleRegister s.heap msg.buf.bytes) s.file =
      (fun r => some ((), r.1.file)) <$> Server.handleRegister s msg := by
  unfold handleRegister Server.handleRegister mergeAndSave
  simp only [ending_code_bind, ending_get_bind, ending_saveNodes_bind, bind_assoc, map_bind,
    ok_bind]
  rfl

end VpnP2p.Join.Commands
