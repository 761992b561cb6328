import VpnP2p.CronJob.Interleaving
import VpnP2p.CronJob.SharedMemory
import VpnP2p.Join.JoinServer
import VpnP2p.NodeInfo.IpCounts

/-!
# Runs of the two threads

One lemma for each call: it goes through, and memory and infofile say what the calls have
come to. So they do after every run, in whatever order the calls of the two threads come.
-/

namespace VpnP2p.CronJob

open Foundation NodeInfo Util Server

/-! ## The calls of the receiver -/

/-- Whatever text `file2struct` reads, its loop keeps the invariant of the decoders. -/
theorem file2struct_tidy {base h : Heap} {fp : Option Text} {p : Ptr}
    (hrun : file2struct base fp = .ok (h, p)) :
    ∃ k : Cursor, Tidy base k ∧ k.finish = .ok (h, p) := by
  cases fp with
  | none => cases hrun
  | some text =>
    obtain ⟨k, hloop, hfin⟩ := bind_eq_ok.mp hrun
    refine ⟨k, foldlM_invariant (Tidy base) (tidy_fileCursor base) ?_ hloop, hfin⟩
    intro buffer _ t t' ht hstep
    obtain ⟨strline, -, hexec⟩ := bind_eq_ok.mp hstep
    exact ht.exec (fileOp_clean strline) hexec

/-- The reply names the nodes `l`. -/
def Names (reply_msg : Message) (l : List Node) : Prop :=
  readString reply_msg.buf.bytes = .ok (encode l) ∧
    sendMsgOverSocket reply_msg = .ok (Join.JoinServer.frame rRegister (encode l))

theorem registerReply_inv {s : ServerState} {l : List Node} (hl : NodesAt s.heap s.localNode l)
    {reply_msg : Message} (h : registerReply s = .ok reply_msg) :
    (encode l).length < bufSize ∧ Names reply_msg l := by
  obtain ⟨⟨text, len⟩, hconv, h⟩ := bind_eq_ok.mp h
  obtain ⟨l', hl', rfl, hlen, rfl⟩ := (convertNodeToBuf_eq_ok (by decide)).mp hconv
  obtain rfl := hl.unique hl'
  obtain ⟨buf, hbuf, h⟩ := bind_eq_ok.mp h
  obtain ⟨type, htype, h⟩ := bind_eq_ok.mp h
  cases h
  have hread := CArray.readString_store (noNul_encode l) hbuf
  have hfield : type.bytes =
      cbuf rRegister ++ List.replicate (typeSize - (rRegister.length + 1)) (some 0) := by
    rw [(CArray.store_eq_ok htype).2]
    rfl
  exact ⟨hlen, hread, Join.JoinServer.send_frame hlen hfield hread rfl⟩

theorem registerReply_total {s : ServerState} {l : List Node} (hl : NodesAt s.heap s.localNode l)
    (hlen : (encode l).length < bufSize) : ∃ reply_msg, registerReply s = .ok reply_msg := by
  have hconv := convertNodeToBuf_encode hl hlen
  obtain ⟨buf, hbuf, -⟩ := (CArray.zero bufSize).store_fits hlen
  obtain ⟨type, htype, -⟩ := (CArray.zero typeSize).store_fits (s := rRegister) (by decide)
  refine ⟨⟨type, buf, .ofNat (encode l).length⟩, ?_⟩
  simp only [registerReply, hconv, hbuf, htype, ok_bind]

/-- A list that was merged is answered with exactly if its text fits a message. -/
theorem answerRegister_iff {s t : ServerState} {buf : Buf} {l : List Node}
    (hrun : mergeAndSave s buf = .ok t) (hl : NodesAt t.heap t.localNode l) :
    answerRegister s buf = .ok t ↔ (encode l).length < bufSize := by
  rw [answerRegister, hrun, ok_bind]
  constructor
  · intro h
    obtain ⟨reply_msg, hreply, -⟩ := bind_eq_ok.mp h
    exact (registerReply_inv hl hreply).1
  · intro hlen
    obtain ⟨reply_msg, hreply⟩ := registerReply_total hl hlen
    obtain ⟨-, -, hsend⟩ := registerReply_inv hl hreply
    rw [hreply, ok_bind, hsend, ok_bind]

/-- The one thread uses `local_node`. -/
def Receiver.Busy : Receiver → Prop
  | .waiting | .decoded _ => False
  | _ => True

/-- The memory and the file say what the calls have come to. -/
structure Matched (t : Threads) (a : Values) : Prop where
  stored : Stored t.toServerState a.file
  lines : ∀ n ∈ a.nodes, n.OneLine
  entry : t.timer.Has t.heap a.entry
  memory : ∃ as bs, Local t.timer t.heap t.localNode a.entry a.nodes as ∧
    t.receiver.Has t.timer t.heap a.message bs ∧ ∀ b ∈ bs, b ∉ as
  known : t.receiver.Busy ∨ t.timer ≠ .sleeping → a.nodes ≠ []
  replies : List.Forall₂ Names t.replies a.replies

section Receive

variable (rand : UInt32 → Nat) {t : Threads} {a : Values}

theorem Matched.decode (h : Matched t a) (hr : t.receiver = .waiting) (msg : Register) :
    ∃ t', t.receive msg = .ok t' ∧ Matched t' (a.call rand (.decode msg)) := by
  obtain ⟨g, q, hrun, bs, hon⟩ := msg.decodes t.toServerState
  obtain ⟨k, htidy, hfin⟩ := convertBufToNode_tidy hrun
  obtain ⟨hext, hfresh⟩ := convertBufToNode_fresh hrun
  obtain ⟨hlines, hcells⟩ := hfresh bs _ hon
  obtain ⟨as, -, hlocal, -, -⟩ := h.memory
  refine ⟨{ t with heap := g, receiver := .decoded q }, ?_, ?_⟩
  · simp only [Threads.receive, hr, hrun, ok_bind]
  · exact {
      stored := ⟨h.stored.file, h.stored.oneLine, h.stored.ne⟩
      lines := h.lines
      entry := h.entry.of_extends hext
      memory := ⟨as, bs, hlocal.of_extends h.entry hext,
        ⟨OnAll.of_tidy htidy hfin hon h.entry.lt_length, hlines⟩,
        fun b hb hmem => absurd (hlocal.lt_length b hmem) (Nat.not_lt.mpr (hcells b hb))⟩
      known := fun hk => h.known (.inr (hk.resolve_left id))
      replies := h.replies }

theorem Matched.load (h : Matched t a) {q : Ptr} (hr : t.receiver = .decoded q)
    (msg : Register) :
    ∃ t', t.receive msg = .ok t' ∧ Matched t' (a.call rand .load) := by
  obtain ⟨g, p, as, hrun, hon, hext, hcells⟩ := file2struct_encode h.stored.oneLine t.heap
  rw [← h.stored.file] at hrun
  obtain ⟨k, htidy, hfin⟩ := file2struct_tidy hrun
  obtain ⟨-, bs, -, hrecv, -⟩ := h.memory
  have hne : a.file.map Node.stripped ≠ [] := by simpa using h.stored.ne
  refine ⟨{ t with heap := g, localNode := p, receiver := .loaded q }, ?_, ?_⟩
  · simp only [Threads.receive, hr, hrun, ok_bind]
  · rw [hr] at hrecv
    have hold := Receiver.Has.lt_length (r := .decoded q) hrecv
    exact {
      stored := ⟨h.stored.file, h.stored.oneLine, h.stored.ne⟩
      lines := oneLine_map_stripped h.stored.oneLine
      entry := h.entry.of_extends hext
      memory := ⟨as, bs, .apart hne (OnAll.of_tidy htidy hfin hon h.entry.lt_length),
        ⟨hrecv.1.of_extends hext h.entry.lt_length, hrecv.2⟩,
        fun b hb hmem => absurd (hold b hb) (Nat.not_lt.mpr (hcells b hmem))⟩
      known := fun _ => hne
      replies := h.replies }

theorem Matched.merge (h : Matched t a) {q : Ptr} (hr : t.receiver = .loaded q)
    (msg : Register) :
    ∃ t', t.receive msg = .ok t' ∧ Matched t' (a.call rand .merge) := by
  obtain ⟨as, bs, hlocal, hrecv, hdisj⟩ := h.memory
  rw [hr] at hrecv
  have hne : a.nodes ≠ [] := h.known (.inl (by rw [hr]; trivial))
  obtain ⟨g, cs, hrun, hips, hmerged⟩ := hlocal.merge hne hrecv.1 hdisj
  refine ⟨{ t with heap := g, receiver := .merged }, ?_, ?_⟩
  · simp only [Threads.receive, hr, hrun, ok_bind]
  · exact {
      stored := ⟨h.stored.file, h.stored.oneLine, h.stored.ne⟩
      lines := fun n hn => (mem_of_mem_merge hn).elim (h.lines n) (hrecv.2 n)
      entry := by
        have hentry := h.entry
        unfold Timer.Has at hentry ⊢
        rwa [hips]
      memory := ⟨cs, [], hmerged, rfl, by simp⟩
      known := fun _ => merge_ne_nil hne
      replies := h.replies }

theorem Matched.nodesAt (h : Matched t a) (hne : a.nodes ≠ []) :
    NodesAt t.heap t.localNode a.nodes := by
  obtain ⟨as, -, hlocal, -⟩ := h.memory
  exact ⟨as, hlocal.nodesOn h.entry hne⟩

theorem Matched.save (h : Matched t a) (hr : t.receiver = .merged) (msg : Register) :
    ∃ t', t.receive msg = .ok t' ∧ Matched t' (a.call rand .save) := by
  obtain ⟨as, -, hlocal, -, -⟩ := h.memory
  have hne : a.nodes ≠ [] := h.known (.inl (by rw [hr]; trivial))
  have hrun := struct2file_nodesAt (h.nodesAt hne)
  refine ⟨{ t with file := some (encode a.nodes), receiver := .saved }, ?_, ?_⟩
  · simp only [Threads.receive, hr, hrun, ok_bind]
  · exact {
      stored := ⟨rfl, h.lines, hne⟩
      lines := h.lines
      entry := h.entry
      memory := ⟨as, [], hlocal, rfl, by simp⟩
      known := fun _ => hne
      replies := h.replies }

theorem Matched.reply (h : Matched t a) (hr : t.receiver = .saved) (msg : Register) :
    ((∃ t', t.receive msg = .ok t') ↔ (encode a.nodes).length < bufSize) ∧
      ∀ t', t.receive msg = .ok t' → Matched t' (a.call rand .reply) := by
  obtain ⟨as, -, hlocal, -, -⟩ := h.memory
  have hne : a.nodes ≠ [] := h.known (.inl (by rw [hr]; trivial))
  have hl : NodesAt t.toServerState.heap t.toServerState.localNode a.nodes := h.nodesAt hne
  constructor
  · constructor
    · rintro ⟨t', hrun⟩
      simp only [Threads.receive, hr] at hrun
      obtain ⟨reply_msg, hreply, -⟩ := bind_eq_ok.mp hrun
      exact (registerReply_inv hl hreply).1
    · intro hlen
      obtain ⟨reply_msg, hreply⟩ := registerReply_total hl hlen
      obtain ⟨-, -, hsend⟩ := registerReply_inv hl hreply
      exact ⟨_, by simp only [Threads.receive, hr, hreply, hsend, ok_bind]; rfl⟩
  · intro t' hrun
    simp only [Threads.receive, hr] at hrun
    obtain ⟨reply_msg, hreply, hrun⟩ := bind_eq_ok.mp hrun
    obtain ⟨-, hnames⟩ := registerReply_inv hl hreply
    rw [hnames.2, ok_bind] at hrun
    cases hrun
    exact {
      stored := ⟨h.stored.file, h.stored.oneLine, h.stored.ne⟩
      lines := h.lines
      entry := h.entry
      memory := ⟨as, [], hlocal, rfl, by simp⟩
      known := fun _ => hne
      replies := List.rel_append h.replies (.cons hnames .nil) }

end Receive

/-! ## The refresh under the receiver -/

section Refreshing

variable {h h' : Heap} {p e : Ptr} {x : IP} {l m : List Node} {as bs : List Nat} {b : Nat}

/-- Whatever comes of the entry, the list stands for the same nodes afterwards: where it has
the entry at its head, this is not marked. -/
theorem Local.compared (hl : Local (.generated (.addr b)) h p x l as)
    (hc : Timer.Has (.generated (.addr b)) h x) (hne : l ≠ []) :
    NodesOn (withIp h b (marked (headIps l) x)) p as l := by
  have hself := hc.memory_self
  cases hl with
  | unknown => exact absurd rfl hne
  | apart _ hon => exact hon _
  | @shared _ n l _ _ hn hon =>
    have hx : NodesOn (withIp h b x) p as ({ n with ipList := [x] } :: l) := hon x
    rw [entry_self hn] at hx
    have hmark : marked (headIps (n :: l)) x = x := by
      rw [headIps, hn]
      exact marked_self x
    rwa [hmark]

theorem NodesOn.setHead (hon : NodesOn h p as l) (hne : l ≠ []) {xs : List IP}
    (hxs : IpsAt h.ips e xs) : ∃ a, p = .addr a ∧ a ∈ as ∧ a < h.nodes.length ∧
      NodesOn { h with nodes := h.nodes.modify a (fun c => { c with ipList := e }) } p as
        (setHead xs l) := by
  have hnodup := hon.links.nodup
  have hlinks := hon.links
  have hcont := hon.contents
  cases hcont with
  | nil => exact absurd rfl hne
  | @cons a n as l ha hcont =>
    obtain ⟨c, hc, hn⟩ := ha
    obtain ⟨rfl, -⟩ := hlinks
    let set := fun c : NodeCell => { c with ipList := e }
    have hcell := getElem?_modify_same set hc
    refine ⟨a, rfl, List.mem_cons_self, lt_of_getElem?_eq_some hc, ?_, ?_⟩
    · exact hon.links.sameLinks (SameLinks.modify _ (fun _ _ => rfl))
    · exact .cons ⟨_, hcell, hn.id, hn.nodeCount, hn.reliable, hxs⟩
        (Contents.modify_other hcont (List.nodup_cons.mp hnodup).1 set)

end Refreshing

section Refresh

variable (rand : UInt32 → Nat) {t : Threads} {a : Values}

/-- The new node and its entry, behind what is there. -/
theorem refresh_of_served (hc : t.timer = .sleeping) {host : Host}
    (hs : host.Served) : ∃ h', t.refresh rand host = .ok { t with
        heap := h', localNode := .addr t.heap.nodes.length
        localNodeId := generateId rand host.time
        timer := .generated (.addr t.heap.ips.length) } ∧ t.heap.Extends h' ∧
      h'.ips[t.heap.ips.length]? = some (singleCell (host.ip 1)) ∧
      ∀ y, NodesOn (withIp h' t.heap.ips.length y) (.addr t.heap.nodes.length)
        [t.heap.nodes.length]
        [{ host.localNode (generateId rand host.time) with ipList := [y] }] := by
  have hgen := generateLocalNode_of_served rand hs t.heap
  refine ⟨⟨t.heap.ips ++ [singleCell (host.ip 1)], t.heap.nodes ++
    [⟨some (generateId rand host.time), some 1, some reliableMark, .addr t.heap.ips.length,
      .null⟩]⟩, ?_, ⟨List.prefix_append _ _, List.prefix_append _ _⟩,
    List.getElem?_concat_length, fun y => ?_⟩
  · simp only [Threads.refresh, hc, hgen, ok_bind, load_addr List.getElem?_concat_length]
  · have hcell := getElem?_modify_same (fun _ => singleCell y)
      (List.getElem?_concat_length (l := t.heap.ips) (a := singleCell (host.ip 1)))
    exact ⟨⟨rfl, _, List.getElem?_concat_length, rfl⟩,
      .cons ⟨_, List.getElem?_concat_length, rfl, rfl, rfl, ipsAt_singleCell.mpr ⟨_, rfl, hcell⟩⟩
        .nil⟩

theorem Matched.generate (h : Matched t a) (hc : t.timer = .sleeping) (host : Host) :
    ((∃ t', t.refresh rand host = .ok t') ↔ host.Served) ∧
      ∀ t', t.refresh rand host = .ok t' → Matched t' (a.call rand (.generate host)) := by
  have hserved : ∀ t', t.refresh rand host = .ok t' → host.Served := by
    intro t' hrun
    simp only [Threads.refresh, hc] at hrun
    obtain ⟨r, hgen, -⟩ := bind_eq_ok.mp hrun
    exact served_of_generateLocalNode hgen
  constructor
  · constructor
    · rintro ⟨t', hrun⟩
      exact hserved t' hrun
    · intro hs
      obtain ⟨h', hrun, -⟩ := refresh_of_served rand hc hs
      exact ⟨_, hrun⟩
  · intro t' hrun
    obtain ⟨h', hrun', hext, hentry, hlocal⟩ := refresh_of_served rand hc (hserved t' hrun)
    rw [hrun] at hrun'
    cases hrun'
    obtain ⟨-, bs, -, hrecv, -⟩ := h.memory
    rw [hc] at hrecv
    have hold := hrecv.lt_length
    -- What the receiver has lies in front of the new cells.
    have hrecv' : t.receiver.Has (.generated (.addr t.heap.ips.length)) h' a.message bs :=
      hrecv.mono (fun q hon y => (hon y).of_extends (extends_withIp hext (Nat.le_refl _) y))
    exact {
      stored := ⟨h.stored.file, h.stored.oneLine, h.stored.ne⟩
      lines := host.localNode_oneLine _
      entry := ⟨host.ip_clean 1, _, rfl, hentry⟩
      memory := ⟨_, bs, .shared rfl rfl hlocal, hrecv',
        fun b hb hmem => absurd (hold b hb) (by simp [List.mem_singleton.mp hmem])⟩
      known := fun _ => List.cons_ne_nil _ _
      replies := h.replies }

theorem Matched.compare (h : Matched t a) {e : Ptr} (hc : t.timer = .generated e) (host : Host) :
    ∃ t', t.refresh rand host = .ok t' ∧ Matched t' (a.call rand .compare) := by
  obtain ⟨as, bs, hlocal, hrecv, hdisj⟩ := h.memory
  have hentry := h.entry
  rw [hc] at hlocal hrecv hentry
  have hne : a.nodes ≠ [] := h.known (.inr (by simp [hc]))
  obtain ⟨hclean, b, rfl, hb⟩ := hentry
  obtain ⟨c, hload, hips⟩ := head_of_nodesOn (hlocal.nodesOn ⟨hclean, b, rfl, hb⟩ hne) hne
  have hrun := compare_spec hb hips
  obtain ⟨identical, hidentical, hloop⟩ := bind_eq_ok.mp hrun
  refine ⟨{ t with
    heap := withIp t.heap b (marked (headIps a.nodes) a.entry)
    timer := .compared (.addr b) }, ?_, ?_⟩
  · simp only [Threads.refresh, hc, hload, hidentical, ok_bind]
    by_cases hzero : identical = 0
    · rw [if_pos hzero] at hloop ⊢
      rw [hloop]
      rfl
    · rw [if_neg hzero] at hloop ⊢
      rw [withIp, ← Except.ok.inj hloop]
  · have hon := hlocal.compared ⟨hclean, b, rfl, hb⟩ hne
    exact {
      stored := ⟨h.stored.file, h.stored.oneLine, h.stored.ne⟩
      lines := h.lines
      entry := ⟨marked_clean hclean _, b, rfl, getElem?_modify_same _ hb⟩
      memory := ⟨as, bs, .apart hne (fun _ => hon), hrecv.mono (fun _ hq _ => hq _), hdisj⟩
      known := fun _ => hne
      replies := h.replies }

theorem Matched.assign (h : Matched t a) {e : Ptr} (hc : t.timer = .compared e) (host : Host) :
    ∃ t', t.refresh rand host = .ok t' ∧ Matched t' (a.call rand .assign) := by
  obtain ⟨as, bs, hlocal, hrecv, hdisj⟩ := h.memory
  have hentry := h.entry
  rw [hc] at hlocal hrecv hentry
  have hne : a.nodes ≠ [] := h.known (.inr (by simp [hc]))
  obtain ⟨hclean, b, rfl, hb⟩ := hentry
  have hon := hlocal.nodesOn ⟨hclean, b, rfl, hb⟩ hne
  have hxs : IpsAt t.heap.ips (.addr b) [a.entry] := ipsAt_singleCell.mpr ⟨b, rfl, hb⟩
  obtain ⟨i, hi, hmem, hlt, hset⟩ := NodesOn.setHead hon hne hxs
  refine ⟨{ t with
    heap := { t.heap with
      nodes := t.heap.nodes.modify i (fun c => { c with ipList := .addr b }) }
    timer := .sleeping }, ?_, ?_⟩
  · simp only [Threads.refresh, hc, hi, update_addr hlt, ok_bind]
  · have hne' : setHead [a.entry] a.nodes ≠ [] := by
      cases hnodes : a.nodes with
      | nil => exact absurd hnodes hne
      | cons n l => exact List.cons_ne_nil _ _
    have hlines : ∀ n ∈ setHead [a.entry] a.nodes, n.OneLine := by
      intro n hn
      cases hnodes : a.nodes with
      | nil => exact absurd hnodes hne
      | cons n₀ l =>
        rw [hnodes] at hn
        rcases List.mem_cons.mp hn with rfl | hn
        · refine ⟨List.cons_ne_nil _ _, fun x hx => ?_⟩
          obtain rfl := List.mem_singleton.mp hx
          exact ⟨hclean.1.1, hclean.2.1⟩
        · exact h.lines n (by simp [hnodes, hn])
    exact {
      stored := ⟨h.stored.file, h.stored.oneLine, h.stored.ne⟩
      lines := hlines
      entry := trivial
      memory := by
        refine ⟨as, bs, .apart hne' (fun _ => hset), hrecv.mono (fun q hq y => ?_), hdisj⟩
        refine NodesOn.frame (hq y) rfl (fun b' hb' c hc' => ?_)
        have hne : b' ≠ i := fun heq => hdisj b' hb' (heq ▸ hmem)
        exact (getElem?_modify_of_ne _ hne).trans hc'
      known := fun _ => hne'
      replies := h.replies }

end Refresh

/-! ## Runs -/

section Runs

variable {rand : UInt32 → Nat} {t t₀ : Threads} {a : Values} {S : List Node} {calls : List Call}

theorem goes_through {r : Result Threads} {P : Threads → Prop} (h : ∃ t', r = .ok t' ∧ P t') :
    ((∃ t', r = .ok t') ↔ True) ∧ ∀ t', r = .ok t' → P t' := by
  obtain ⟨t', rfl, ht'⟩ := h
  refine ⟨iff_of_true ⟨t', rfl⟩ trivial, fun t'' heq => ?_⟩
  cases heq
  exact ht'

/-- One step of the one thread. -/
theorem Matched.receive (rand : UInt32 → Nat) (h : Matched t a) (msg : Register) :
    ((∃ t', t.receive msg = .ok t') ↔ (t.receiver.call msg).Possible a) ∧
      ∀ t', t.receive msg = .ok t' → Matched t' (a.call rand (t.receiver.call msg)) := by
  cases hr : t.receiver with
  | waiting => exact goes_through (h.decode rand hr msg)
  | decoded q => exact goes_through (h.load rand hr msg)
  | loaded q => exact goes_through (h.merge rand hr msg)
  | merged => exact goes_through (h.save rand hr msg)
  | saved => exact h.reply rand hr msg

/-- One step of the other. -/
theorem Matched.refresh (rand : UInt32 → Nat) (h : Matched t a) (host : Host) :
    ((∃ t', t.refresh rand host = .ok t') ↔ (t.timer.call host).Possible a) ∧
      ∀ t', t.refresh rand host = .ok t' → Matched t' (a.call rand (t.timer.call host)) := by
  cases hc : t.timer with
  | sleeping => exact h.generate rand hc host
  | generated e => exact goes_through (h.compare rand hc host)
  | compared e => exact goes_through (h.assign rand hc host)

/-- The threads are about to begin, and the infofile holds `S`. -/
structure Threads.Idle (t : Threads) (S : List Node) : Prop where
  stored : Stored t.toServerState S
  receiver : t.receiver = .waiting
  timer : t.timer = .sleeping
  replies : t.replies = []

theorem Threads.Idle.matched (h : t.Idle S) : Matched t (.start S) where
  stored := h.stored
  lines := by simp [Values.start]
  entry := by
    rw [h.timer]
    trivial
  memory := by
    refine ⟨[], [], .unknown, ?_, by simp⟩
    rw [h.receiver]
    rfl
  known := by
    rw [h.receiver, h.timer]
    rintro (hbusy | hawake)
    · exact hbusy.elim
    · exact absurd rfl hawake
  replies := by
    rw [h.replies]
    exact .nil

theorem Threads.Run.matched (h₀ : t₀.Idle S) (hrun : Threads.Run rand t₀ calls t) :
    Matched t (.after rand S calls) := by
  induction hrun with
  | start => exact h₀.matched
  | receive _ hstep ih =>
    rw [Values.after_concat]
    exact (ih.receive rand _).2 _ hstep
  | refresh _ hstep ih =>
    rw [Values.after_concat]
    exact (ih.refresh rand _).2 _ hstep

/-- What the process has and has sent is what the calls have come to, and so is what it can
do next. -/
structure Accounted (rand : UInt32 → Nat) (t : Threads) (a : Values) : Prop where
  file : t.Holds a.file
  nodes : a.nodes ≠ [] → NodesAt t.heap t.localNode a.nodes
  replies : List.Forall₂ Names t.replies a.replies
  receive : ∀ msg, (∃ t', t.receive msg = .ok t') ↔ (t.receiver.call msg).Possible a
  refresh : ∀ host, (∃ t', t.refresh rand host = .ok t') ↔ (t.timer.call host).Possible a

/-- However the calls of the two threads are mixed, nothing but their order counts, and none
goes wrong but a generation on a host where the generator does not work, and a reply that does
not fit. -/
theorem threads_run (h₀ : t₀.Idle S) (hrun : Threads.Run rand t₀ calls t) :
    Accounted rand t (.after rand S calls) := by
  have h := hrun.matched h₀
  exact {
    file := h.stored.holds
    nodes := h.nodesAt
    replies := h.replies
    receive := fun msg => (h.receive rand msg).1
    refresh := fun host => (h.refresh rand host).1 }

end Runs

def sampleThreads : Threads := ⟨sampleProcess, .waiting, .sleeping, []⟩

theorem sampleThreads_idle : sampleThreads.Idle sampleA :=
  ⟨sampleServer_stored, rfl, rfl, rfl⟩

/-- The node is generated when the message has been decoded. -/
theorem threads_run_sample :
    ∃ t, Threads.Run UInt32.toNat sampleThreads [.decode sampleRegister, .generate sampleHost] t ∧
      Accounted UInt32.toNat t
        (.after UInt32.toNat sampleA [.decode sampleRegister, .generate sampleHost]) := by
  have hstart := sampleThreads_idle.matched
  obtain ⟨t₁, hstep₁, hmatched₁⟩ := hstart.decode UInt32.toNat rfl sampleRegister
  have htimer : t₁.timer = .sleeping := by
    obtain ⟨r, -, hdecode⟩ := bind_eq_ok.mp hstep₁
    cases hdecode
    rfl
  have hcan := (hmatched₁.generate UInt32.toNat htimer sampleHost).1
  obtain ⟨t₂, hstep₂⟩ := hcan.mpr sampleHost_served
  have hrun := Threads.Run.refresh (.receive .start hstep₁) hstep₂
  rw [htimer] at hrun
  exact ⟨t₂, hrun, threads_run sampleThreads_idle hrun⟩

end VpnP2p.CronJob
