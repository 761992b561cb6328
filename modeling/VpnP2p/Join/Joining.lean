import VpnP2p.Join.Commands
import VpnP2p.Join.IpChecks

/-!
# What a join learns

A `join` that generated its infofile merges what comes of the replies into the node that it
generated, and writes the list when it has contacted everybody. Until then the infofile is
what the last reply left of it. A `join` that finds an infofile sends it, puts the reply over
it, and follows a NULL.
-/

namespace VpnP2p.Join.Commands

open Foundation NodeInfo Util Server
open CronJob (strings)

/-! ## What an infofile shows -/

/-- What can be said of an infofile. -/
inductive Infofile where
  | absent
  | lists (l : List Node)
  | spoilt

namespace Infofile

/-- What is there behind a reply that brought `R`. -/
def ofReply : List Node → Infofile
  | [] => .spoilt
  | n :: R => .lists (n :: R)

/-- What is there behind replies of which so much came, one after the other. -/
def afterReplies (a : Infofile) : List (Option (List Node)) → Infofile
  | [] => a
  | none :: _ => a
  | some R :: replies => (ofReply R).afterReplies replies

end Infofile

/-- A list is there as `struct2file` writes it, or as a reply that fits a message leaves it. -/
def Shows (file : Option Text) : Infofile → Prop
  | .absent => file = none
  | .lists l => (∀ n ∈ l, n.OneLine) ∧ l ≠ [] ∧ (file = some (encode l) ∨
      file = some (encode l).dropLast ∧ (encode l).length < bufSize)
  | .spoilt => ∃ text, file = some text ∧ Spoilt text

theorem shows_encode {l : List Node} (hl : ∀ n ∈ l, n.OneLine) (hne : l ≠ []) :
    Shows (some (encode l)) (.lists l) := ⟨hl, hne, .inl rfl⟩

theorem shows_ofReply {R : List Node} {text : Text} (hR : ∀ n ∈ R, n.OneLine)
    (h : Overwritten R text) : Shows (some text) (.ofReply R) := by
  cases R with
  | nil =>
    rw [Overwritten, if_pos rfl] at h
    exact ⟨text, rfl, h⟩
  | cons n R =>
    rw [Overwritten, if_neg (List.cons_ne_nil n R)] at h
    exact ⟨hR, List.cons_ne_nil n R, .inr ⟨congrArg some h.1, h.2⟩⟩

/-! ## How a process ends -/

/-- The code ends the process itself, or it follows a NULL. -/
def Stop.Certain : Stop → Prop
  | .exit => True
  | .fault e => e = .nullDeref

/-! ## What a join meets -/

/-- A server that is contacted, and what comes of it. -/
abbrev Contact := Option Connection × Option (List Node)

/-- The host of a `join`, what is in memory, the servers that it contacts, and whether the
pointers behind `server_ip` end in NULL. -/
structure Joining where
  host : Host
  useCache : Int32
  stale : Nat → Byte
  server : Contact
  contacted : List Contact
  ends : Bool

namespace Joining

def contacts (j : Joining) : List Contact := j.server :: j.contacted

def walk (j : Joining) : Walk := ⟨j.contacted.map Prod.fst, j.ends⟩

def program (rand : UInt32 → Nat) (j : Joining) : Program Unit :=
  join rand j.host j.stale j.server.1 j.walk j.useCache

/-- What the replies bring. -/
def brought (j : Joining) : List (List Node) := j.contacts.filterMap Prod.snd

/-- Every server replied. -/
def Finishes (j : Joining) : Prop := ∀ c ∈ j.contacts, c.2 ≠ none

instance (j : Joining) : Decidable j.Finishes :=
  inferInstanceAs (Decidable (∀ c ∈ j.contacts, c.2 ≠ none))

/-- What comes of each server is certain, a machine that uses its cache has an address, and the
pointers that the second loop comes to end. -/
structure Sound (j : Joining) : Prop where
  comes : ∀ c ∈ j.contacts, Comes c.1 c.2
  connected : j.useCache ≠ 0 → j.host.addresses ≠ []
  ends : j.Finishes → j.ends = true

/-- The node that is generated where there is no infofile. -/
def node (rand : UInt32 → Nat) (j : Joining) : Node :=
  j.host.localNode (generateId rand j.host.time)

/-- What `join` leaves where there is no infofile. -/
def generated (rand : UInt32 → Nat) (j : Joining) : Infofile :=
  if j.Finishes then .lists (mergeAll Node.id Node.rank [j.node rand] j.brought)
  else (Infofile.lists [j.node rand]).afterReplies (j.contacts.map Prod.snd)

/-- What it leaves where there is one. -/
def found (j : Joining) (a : Infofile) : Infofile :=
  if j.useCache = 0 then a.afterReplies [j.server.2] else a

end Joining

/-! ## Writing and merging nodes -/

theorem exec_saveNodes {h : Heap} {p : Ptr} {l : List Node} (hl : NodesAt h p l)
    (file : Option Text) : (saveNodes h p).exec file = (.ok (), some (encode l)) := by
  rw [saveNodes, Lasting.exec_set_bind, exec_code_ok (struct2file_nodesAt hl), Lasting.exec_set]

/-- A reply is merged without a recheck. -/
theorem mergeReply_apart {h : Heap} {p q : Ptr} {as bs : List Nat} {l R : List Node}
    (hl : NodesOn h p as l) (hR : NodesOn h q bs R) (hne : l ≠ []) (hapart : ∀ b ∈ bs, b ∉ as) :
    ∃ h', nodeMerge h p q = .ok h' ∧ mergeReply h p q = .ok (h', []) ∧
      NodesAt h' p (mergeNodes l R) := by
  obtain ⟨h', fs, hrun, hmerged, -⟩ := nodeMerge_spec hl hR hne hapart
  exact ⟨h', hrun, (mergeReply_of_nodeMerge hrun).2, _, hmerged⟩

/-! ## Registering -/

section Register

variable {stale : Nat → Byte} {c : Connection} {target : Option Connection} {R : List Node}
  {text : Text} {file : Option Text}

/-- `register_node` has the nodes of the reply behind everything in memory. -/
structure Took (R : List Node) (h g : Heap) (p : Ptr) (text : Text) : Prop where
  extends_ : h.Extends g
  nodes : ∃ bs, NodesOn g p bs R ∧ ∀ b ∈ bs, h.nodes.length ≤ b
  file : Overwritten R text
  oneLine : ∀ n ∈ R, n.OneLine

/-- Once the reply is written, the infofile is what it is. -/
theorem takeReply_received {m : Message}
    (hrecv : recvMsgOverSocketOn c.behind (.raw 0) c.reply = .ok (0, m)) (hm : Received m R)
    (stale : Nat → Byte) (h : Heap) (file : Option Text) : ∃ text, Overwritten R text ∧
    (takeReply stale c h).exec file =
      (code (convertBufToNode { h with nodes := h.nodes ++ [NodeCell.raw] } m.buf.bytes)).exec
        (some text) := by
  obtain ⟨text, hwrite, hover⟩ := hm.write stale
  refine ⟨text, hover, ?_⟩
  rw [takeReply, exec_code_ok hrecv]
  dsimp only
  rw [if_neg (by decide), Lasting.exec_set_bind, exec_code_ok hwrite, Lasting.exec_set_bind]

theorem takeReply_exec (hc : Comes (some c) (some R)) (stale : Nat → Byte) (h : Heap)
    (file : Option Text) : ∃ g p text,
    (takeReply stale c h).exec file = (.ok (g, p), some text) ∧ Took R h g p text := by
  obtain ⟨m, hrecv, hm, hfits⟩ := hc.received
  obtain ⟨text, hover, hexec⟩ := takeReply_received hrecv hm stale h file
  obtain ⟨g, p, bs, hdecode, hon, hext, hfresh⟩ := convertBufToNode_encode hm.oneLine hfits hm.buf
    { h with nodes := h.nodes ++ [NodeCell.raw] }
  have hgrow := Heap.Extends.malloc h NodeCell.raw
  refine ⟨g, p, text, ?_, hgrow.trans hext,
    ⟨bs, hon, fun b hb => hgrow.nodes.length_le.trans (hfresh b hb)⟩, hover, hm.oneLine⟩
  rw [hexec, hdecode]
  rfl

theorem takeReply_failed (hc : Comes (some c) none) (h : Heap) :
    (takeReply stale c h).exec file = (.error .exit, file) := by
  cases hc with
  | failed hrecv hret =>
    rw [takeReply, exec_code_ok hrecv]
    dsimp only
    rw [if_pos hret, Lasting.exec_throw]

theorem registerNode_exec (hc : Comes target (some R)) (hfits : text.length < bufSize)
    (stale : Nat → Byte) (h : Heap) : ∃ g p text',
    (registerNode stale target h).exec (some text) = (.ok (g, p), some text') ∧
      Took R h g p text' := by
  cases target with
  | none => cases hc
  | some c =>
    obtain ⟨sends, hsent⟩ := sendInfofile_fits hfits
    obtain ⟨g, p, text', hexec, htook⟩ := takeReply_exec hc stale h (some text)
    refine ⟨g, p, text', ?_, htook⟩
    rw [registerNode, Lasting.exec_get_bind, exec_code_ok hsent, hexec]

theorem registerNode_failed (hc : Comes target none) (hfits : text.length < bufSize) (h : Heap) :
    (registerNode stale target h).exec (some text) = (.error .exit, some text) := by
  cases target with
  | none => exact Lasting.exec_throw Stop.exit
  | some c =>
    obtain ⟨sends, hsent⟩ := sendInfofile_fits hfits
    rw [registerNode, Lasting.exec_get_bind, exec_code_ok hsent, takeReply_failed hc]

end Register

/-! ## The second loop -/

section Loop

variable {l : List Node} {p : Ptr}

/-- The loop contacts one server after the other, up to one that does not reply. -/
theorem contactAll_exec (stale : Nat → Byte) {contacted : List Contact} {h : Heap} {text : Text}
    {a : Infofile} (hcomes : ∀ c ∈ contacted, Comes c.1 c.2) (hl : NodesAt h p l) (hne : l ≠ [])
    (hfits : text.length < bufSize) (hshows : Shows (some text) a) : ∃ r file,
    (contactAll stale p (contacted.map Prod.fst) h).exec (some text) = (r, some file) ∧
      Shows (some file) (a.afterReplies (contacted.map Prod.snd)) ∧
      ((∀ c ∈ contacted, c.2 ≠ none) → ∃ g, r = .ok g ∧
        NodesAt g p (mergeAll Node.id Node.rank l (contacted.filterMap Prod.snd))) ∧
      (¬ (∀ c ∈ contacted, c.2 ≠ none) → r = .error .exit) := by
  induction contacted generalizing h text a l with
  | nil =>
    exact ⟨.ok h, text, rfl, hshows, fun _ => ⟨h, rfl, hl⟩, fun hlost => absurd (by simp) hlost⟩
  | cons c contacted ih =>
    have hc := hcomes c List.mem_cons_self
    have hrest : ∀ c ∈ contacted, Comes c.1 c.2 :=
      fun c hc => hcomes c (List.mem_cons_of_mem _ hc)
    obtain ⟨target, reply⟩ := c
    rw [List.map_cons, contactAll]
    cases reply with
    | none =>
      refine ⟨.error .exit, text, Lasting.exec_bind_error (registerNode_failed hc hfits h), hshows,
        fun hall => absurd rfl (hall _ List.mem_cons_self), fun _ => rfl⟩
    | some R =>
      obtain ⟨g, q, text', hexec, hext, ⟨bs, hR, hfresh⟩, hover, hlines⟩ :=
        registerNode_exec hc hfits stale h
      obtain ⟨as, hon⟩ := hl
      have hapart : ∀ b ∈ bs, b ∉ as := fun b hb hmem => hon.disjoint hfresh hmem hb
      obtain ⟨k, -, hmerge, hmerged⟩ := mergeReply_apart (hon.of_extends hext) hR hne hapart
      have hne' : mergeNodes l R ≠ [] := merge_ne_nil hne
      obtain ⟨r, file, hloop, hfile, hall, hlost⟩ :=
        ih hrest hmerged hne' hover.length_lt (shows_ofReply hlines hover)
      refine ⟨r, file, ?_, hfile, fun h => hall (List.forall_mem_cons.mp h).2,
        fun h => hlost (fun hall => h (List.forall_mem_cons.mpr ⟨Option.some_ne_none R, hall⟩))⟩
      rw [Lasting.exec_bind_ok hexec]
      dsimp only
      rw [exec_code_ok hmerge]
      exact hloop

end Loop

/-! ## Joining -/

section Joining

variable {rand : UInt32 → Nat} {j : Joining}

/-- Behind the reply of a server, a `join` without a list of its own follows a NULL. -/
theorem mergeAnswer_null {stale : Nat → Byte} {walk : Walk} {h : Heap} {q : Ptr} {bs : List Nat}
    {R : List Node} (hR : NodesOn h q bs R) (file : Option Text) :
    (mergeAnswer stale walk h .null q).exec file = (.error (.fault .nullDeref), file) := by
  rw [mergeAnswer, exec_code_error (nodeMerge_null hR)]

/-- A `join` that found an infofile, from the reply on. -/
def goOn (stale : Nat → Byte) (c : Connection) (walk : Walk) : Program Unit := do
  let (h, server_node) ← takeReply stale c .empty
  mergeAnswer stale walk h .null server_node

/-- In front of it, the infofile is sent. -/
theorem join_eq_goOn (rand : UInt32 → Nat) (host : Host) (stale : Nat → Byte) (c : Connection)
    (walk : Walk) (text : Text) : (join rand host stale (some c) walk 0).exec (some text) =
      (code (sendInfofile (some text)) >>= fun _ => goOn stale c walk).exec (some text) := by
  have hfind : (findInfofile rand host).exec (some text) =
      (.ok (Heap.empty, Ptr.null), some text) := rfl
  rw [join, Lasting.exec_bind_ok hfind]
  dsimp only
  rw [if_neg (by decide)]
  show (registerNode stale (some c) .empty >>= fun r =>
    mergeAnswer stale walk r.1 .null r.2).exec (some text) = _
  rw [registerNode, bind_assoc, Lasting.exec_get_bind, bind_assoc]
  rfl

/-- Whatever comes of the decoder, the reply is over the infofile. -/
theorem goOn_file {m : Message} {c : Connection} {R : List Node}
    (hrecv : recvMsgOverSocketOn c.behind (.raw 0) c.reply = .ok (0, m)) (hm : Received m R)
    (stale : Nat → Byte) (walk : Walk) (file : Option Text) : ∃ text, Overwritten R text ∧
    ((goOn stale c walk).exec file).2 = some text := by
  obtain ⟨text, hover, hexec⟩ := takeReply_received hrecv hm stale .empty file
  refine ⟨text, hover, ?_⟩
  rw [goOn]
  cases hdecode : convertBufToNode { Heap.empty with nodes := Heap.empty.nodes ++ [NodeCell.raw] }
      m.buf.bytes with
  | error e =>
    rw [hdecode] at hexec
    rw [Lasting.exec_bind_error hexec]
  | ok r =>
    rw [hdecode] at hexec
    rw [Lasting.exec_bind_ok hexec]
    dsimp only
    rw [mergeAnswer]
    cases hmerge : nodeMerge r.1 .null r.2 with
    | error e => rw [exec_code_error rfl]
    | ok h => exact absurd hmerge not_nodeMerge_null

/-- With the nodes of the reply in memory it follows the NULL. -/
theorem goOn_exec {c : Connection} {R : List Node} (hc : Comes (some c) (some R))
    (stale : Nat → Byte) (walk : Walk) (file : Option Text) : ∃ text, Overwritten R text ∧
    (goOn stale c walk).exec file = (.error (.fault .nullDeref), some text) := by
  obtain ⟨g, q, text, hexec, -, ⟨bs, hR, -⟩, hover, -⟩ := takeReply_exec hc stale .empty file
  refine ⟨text, hover, ?_⟩
  rw [goOn, Lasting.exec_bind_ok hexec]
  exact mergeAnswer_null hR _

/-- A `join` that finds an infofile never returns. -/
theorem join_found (rand : UInt32 → Nat) (hserver : Comes j.server.1 j.server.2) {text : Text}
    (hfits : j.useCache = 0 → text.length < bufSize) : ∃ e file,
    (j.program rand).exec (some text) = (.error e, some file) ∧ e.Certain ∧
      (j.useCache = 0 → ∀ R, j.server.2 = some R →
        Overwritten R file ∧ ∀ n ∈ R, n.OneLine) ∧
      (¬ (j.useCache = 0 ∧ j.server.2 ≠ none) → file = text) := by
  have hfind : (findInfofile rand j.host).exec (some text) =
      (.ok (Heap.empty, Ptr.null), some text) := rfl
  rw [Joining.program, join, Lasting.exec_bind_ok hfind]
  dsimp only
  by_cases huse : j.useCache = 0
  · rw [if_neg (not_not.mpr huse)]
    show ∃ e file, (registerNode j.stale j.server.1 .empty >>= _).exec _ = _ ∧ _
    cases hreply : j.server.2 with
    | none =>
      rw [hreply] at hserver
      refine ⟨.exit, text, Lasting.exec_bind_error (registerNode_failed hserver (hfits huse) _),
        trivial, ?_, fun _ => rfl⟩
      intro _ R hR
      cases hR
    | some R =>
      rw [hreply] at hserver
      obtain ⟨g, q, file, hexec, -, ⟨bs, hR, -⟩, hover, hlines⟩ :=
        registerNode_exec hserver (hfits huse) j.stale .empty
      refine ⟨.fault .nullDeref, file, ?_, rfl, ?_, fun h => absurd ⟨huse, by simp⟩ h⟩
      · -- The reply is over the infofile before `node_merge` follows the NULL.
        rw [Lasting.exec_bind_ok hexec]
        exact mergeAnswer_null hR _
      · intro _ R' hR'
        cases hR'
        exact ⟨hover, hlines⟩
  · -- Here `judge_local_ip` is the first to follow it.
    rw [if_pos huse]
    exact ⟨.fault .nullDeref, text, rfl, rfl, fun h => absurd h huse, fun _ => rfl⟩

/-- The check of a node that was generated a moment ago. -/
theorem checkCache_new {host : Host} (hserved : host.Served) (hne : host.addresses ≠ []) {h : Heap}
    {p : Ptr} {id : Int32} (hl : NodesAt h p [host.localNode id]) (file : Option Text) :
    (checkCache host h p).exec file = (.ok h, file) := by
  obtain ⟨a, ha⟩ := hserved.addresses.resolve_left hne
  obtain ⟨c, hload, hc⟩ := hl.nodeAt
  have hone : (host.localNode id).ipList.length ≤ ipListSize := (by decide : 1 ≤ ipListSize)
  have hends : Ends host := ⟨hserved.single.trans (by decide), .inr hserved.cleared⟩
  have hjudge : judgeLocalIp host h p = .ok true := by
    rw [judgeLocalIp_eq host hload hc.ipList, if_pos hone, ipMatch_of_ends hends]
    simp [Host.localNode, Host.ip, ipStrings, strings, ha]
  rw [checkCache, exec_code_ok hjudge, if_pos rfl, Lasting.exec_pure]

/-- `join` without an infofile writes one with the node it generates. -/
theorem findInfofile_new (rand : UInt32 → Nat) {host : Host} (hserved : host.Served) : ∃ h p,
    (findInfofile rand host).exec none =
      (.ok (h, p), some (encode [host.localNode (generateId rand host.time)])) ∧
      NodesAt h p [host.localNode (generateId rand host.time)] := by
  obtain ⟨h, hgen, -, hon⟩ := hserved.generateLocalNode rand .empty
  refine ⟨h, _, ?_, ⟨_, hon⟩⟩
  rw [findInfofile, Lasting.exec_get_bind]
  dsimp only
  rw [exec_code_ok hgen]
  dsimp only
  rw [Lasting.exec_bind_ok (exec_saveNodes ⟨_, hon⟩ none), Lasting.exec_pure]

/-- Behind the reply, the list is written when every server has replied, and not before. -/
theorem mergeAnswer_exec {h : Heap} {p q : Ptr} {as bs : List Nat} {l R : List Node} {text : Text}
    {a : Infofile} (hcomes : ∀ c ∈ j.contacted, Comes c.1 c.2)
    (hends : (∀ c ∈ j.contacted, c.2 ≠ none) → j.ends = true) (hl : NodesOn h p as l)
    (hR : NodesOn h q bs R) (hne : l ≠ []) (hapart : ∀ b ∈ bs, b ∉ as)
    (hfits : text.length < bufSize) (hshows : Shows (some text) a) : ∃ r file,
    (mergeAnswer j.stale j.walk h p q).exec (some text) = (r, some file) ∧
      ((∀ c ∈ j.contacted, c.2 ≠ none) → r = .ok () ∧ file = encode
        (mergeAll Node.id Node.rank (mergeNodes l R) (j.contacted.filterMap Prod.snd))) ∧
      (¬ (∀ c ∈ j.contacted, c.2 ≠ none) → r = .error .exit ∧
        Shows (some file) (a.afterReplies (j.contacted.map Prod.snd))) := by
  obtain ⟨g, hmerge, -, as', hon⟩ := mergeReply_apart hl hR hne hapart
  have hgrow := Heap.Extends.malloc g NodeCell.raw
  obtain ⟨r, file, hloop, hfile, hall, hlost⟩ := contactAll_exec j.stale hcomes
    ⟨as', hon.of_extends hgrow⟩ (merge_ne_nil hne) hfits hshows
  rw [mergeAnswer, exec_code_ok hmerge, Joining.walk]
  dsimp only
  by_cases htaken : ∀ c ∈ j.contacted, c.2 ≠ none
  · obtain ⟨k, rfl, hk⟩ := hall htaken
    refine ⟨_, _, ?_, fun _ => ⟨rfl, rfl⟩, fun hnot => absurd htaken hnot⟩
    rw [Lasting.exec_bind_ok hloop, if_pos (hends htaken), exec_saveNodes hk]
  · rw [hlost htaken] at hloop
    exact ⟨_, file, Lasting.exec_bind_error hloop, fun h => absurd h htaken,
      fun _ => ⟨rfl, hfile⟩⟩

theorem oneLine_mergeAll {l : List Node} (hl : ∀ n ∈ l, n.OneLine) {Rs : List (List Node)}
    (hRs : ∀ R ∈ Rs, ∀ n ∈ R, n.OneLine) : ∀ n ∈ mergeAll Node.id Node.rank l Rs, n.OneLine := by
  induction Rs generalizing l with
  | nil => exact hl
  | cons R Rs ih =>
    obtain ⟨hR, hRs⟩ := List.forall_mem_cons.mp hRs
    exact ih (oneLine_mergeNodes hl hR) hRs

theorem mergeAll_ne_nil {l : List Node} (hne : l ≠ []) (Rs : List (List Node)) :
    mergeAll Node.id Node.rank l Rs ≠ [] := by
  induction Rs generalizing l with
  | nil => exact hne
  | cons R Rs ih => exact ih (merge_ne_nil hne)

theorem Joining.Sound.oneLine (hsound : j.Sound) : ∀ R ∈ j.brought, ∀ n ∈ R, n.OneLine := by
  intro R hR
  obtain ⟨⟨target, reply⟩, hc, hreply⟩ := List.mem_filterMap.mp hR
  have hcomes := hsound.comes _ hc
  cases hreply
  exact hcomes.oneLine

/-- A `join` that generates its infofile returns if every server replies. -/
theorem join_new (rand : UInt32 → Nat) (hsound : j.Sound) (hserved : j.host.Served) : ∃ r file,
    (j.program rand).exec none = (r, some file) ∧
      (j.Finishes → r = .ok () ∧
        file = encode (mergeAll Node.id Node.rank [j.node rand] j.brought)) ∧
      (¬ j.Finishes → r = .error .exit ∧
        Shows (some file) ((Infofile.lists [j.node rand]).afterReplies
          (j.contacts.map Prod.snd))) := by
  obtain ⟨hserver, hcontacted⟩ := List.forall_mem_cons.mp hsound.comes
  obtain ⟨h, p, hfind, as, hon⟩ := findInfofile_new rand hserved
  have hline : ∀ n ∈ [j.node rand], n.OneLine := j.host.localNode_oneLine _
  have hfits := length_encode_localNode j.host (generateId rand j.host.time)
  have hjoin : (j.program rand).exec none =
      (registerNode j.stale j.server.1 h >>= fun r =>
        mergeAnswer j.stale j.walk r.1 p r.2).exec (some (encode [j.node rand])) := by
    rw [Joining.program, join, Lasting.exec_bind_ok hfind]
    dsimp only
    split
    · rename_i huse
      rw [Lasting.exec_bind_ok (checkCache_new hserved (hsound.connected huse) ⟨as, hon⟩ _)]
      rfl
    · rfl
  rw [hjoin]
  cases hreply : j.server.2 with
  | none =>
    rw [hreply] at hserver
    have hlost : ¬ j.Finishes := fun hall => hall _ List.mem_cons_self hreply
    refine ⟨_, _, Lasting.exec_bind_error (registerNode_failed hserver hfits h),
      fun hall => absurd hall hlost, fun _ => ⟨rfl, ?_⟩⟩
    rw [Joining.contacts, List.map_cons, hreply]
    exact shows_encode hline (by simp)
  | some R =>
    rw [hreply] at hserver
    obtain ⟨g, q, text, hexec, hext, ⟨bs, hR, hfresh⟩, hover, hlines⟩ :=
      registerNode_exec hserver hfits j.stale h
    have hapart : ∀ b ∈ bs, b ∉ as := fun b hb hmem => hon.disjoint hfresh hmem hb
    have hfinishes : j.Finishes ↔ ∀ c ∈ j.contacted, c.2 ≠ none := by
      rw [Joining.Finishes, Joining.contacts, List.forall_mem_cons, hreply]
      exact and_iff_right (Option.some_ne_none R)
    obtain ⟨r, file, hanswer, hall, hlost⟩ := mergeAnswer_exec hcontacted
      (fun h => hsound.ends (hfinishes.mpr h)) (hon.of_extends hext) hR (by simp) hapart
      hover.length_lt (shows_ofReply hlines hover)
    have hbrought : j.brought = R :: j.contacted.filterMap Prod.snd :=
      List.filterMap_cons_some hreply
    rw [hfinishes, hbrought, Joining.contacts, List.map_cons, hreply]
    exact ⟨r, file, (Lasting.exec_bind_ok hexec).trans hanswer, hall, hlost⟩

/-- What a `join` with replies of these kinds comes to: it returns exactly if it generated the
infofile and every server replied; its infofile then has the node that it generated, merged with
the nodes of the replies that came whole, one after the other. Otherwise it calls `exit` or
follows a NULL. -/
theorem join_learns (rand : UInt32 → Nat) (hsound : j.Sound) {file : Option Text}
    (hserved : file = none → j.host.Served) (hfits : ∀ text ∈ file, text.length < bufSize) :
    ((∃ u, ((j.program rand).exec file).1 = .ok u) ↔ file = none ∧ j.Finishes) ∧
    (∀ u, ((j.program rand).exec file).1 = .ok u → ((j.program rand).exec file).2 =
      some (encode (mergeAll Node.id Node.rank [j.node rand] j.brought))) ∧
    ∀ e, ((j.program rand).exec file).1 = .error e → e.Certain := by
  cases file with
  | none =>
    obtain ⟨r, text, hexec, hall, hlost⟩ := join_new rand hsound (hserved rfl)
    rw [hexec]
    by_cases hfinishes : j.Finishes
    · obtain ⟨rfl, rfl⟩ := hall hfinishes
      exact ⟨iff_of_true ⟨(), rfl⟩ ⟨rfl, hfinishes⟩, fun _ _ => rfl,
        fun _ he => absurd he (by simp)⟩
    · obtain ⟨rfl, -⟩ := hlost hfinishes
      exact ⟨iff_of_false (by simp) (fun h => hfinishes h.2), fun _ hu => absurd hu (by simp),
        fun e he => Except.error.inj he ▸ trivial⟩
  | some text =>
    obtain ⟨e, file, hexec, hcertain, -⟩ :=
      join_found rand (hsound.comes _ List.mem_cons_self) (fun _ => hfits text rfl)
    rw [hexec]
    exact ⟨iff_of_false (by simp) (fun h => absurd h.1 (by simp)), fun _ hu => absurd hu (by simp),
      fun e he => Except.error.inj he ▸ hcertain⟩

end Joining

/-- A new machine, and a reply that comes whole. -/
def sampleJoining (c : Connection) : Joining :=
  ⟨sampleHost, 0, fun _ => 0, (some c, some (sampleNodes [123, 124])), [], true⟩

theorem sampleJoining_sound {c : Connection}
    (hc : Comes (some c) (some (sampleNodes [123, 124]))) : (sampleJoining c).Sound where
  comes := by
    intro c' hc'
    obtain rfl := List.mem_singleton.mp hc'
    exact hc
  connected := fun huse => absurd rfl huse
  ends := fun _ => rfl

theorem join_learns_sample : ∃ c : Connection,
    let j := sampleJoining c
    ((∃ u, ((j.program UInt32.toNat).exec none).1 = .ok u) ↔
      (none : Option Text) = none ∧ j.Finishes) ∧
    (∀ u, ((j.program UInt32.toNat).exec none).1 = .ok u →
      ((j.program UInt32.toNat).exec none).2 =
        some (encode (mergeAll Node.id Node.rank [j.node UInt32.toNat] j.brought))) ∧
    ∀ e, ((j.program UInt32.toNat).exec none).1 = .error e → e.Certain := by
  obtain ⟨c, hc⟩ := sample_comes
  exact ⟨c, join_learns UInt32.toNat (sampleJoining_sound hc) (fun _ => sampleHost_served)
    (by simp)⟩

end VpnP2p.Join.Commands
