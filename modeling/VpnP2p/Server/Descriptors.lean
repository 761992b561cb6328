import VpnP2p.CronJob.ThreadRuns

/-!
# The descriptors of the server

`thread_receive_pack` closes no connection that it accepted, and `file2struct` does not
close the infofile. So each connection costs the process a descriptor and a registration
two, and the loop is left by its `break` when they are used up. The registration that takes
the last one is answered, but not written.
-/

namespace VpnP2p.Server.Descriptors

open Foundation NodeInfo Util

/-! ## The code -/

/-- The process, how many descriptors it can still open, and what it sent over each of the
connections that it accepted. -/
structure Worker where
  server : ServerState
  free : Nat
  replies : List (List Message)

/-- `fopen` for reading, with the descriptors that are left. -/
def fopen : Nat → Option Text → Option Text × Nat
  | free + 1, some text => (some text, free)
  | free, _ => (none, free)

/-- What `struct2file` leaves under `FILENAME`. It closes what it opens, and where it can
open nothing it returns -1, which nobody looks at. -/
def saveFile (free : Nat) (h : Heap) (node : Ptr) (file : Option Text) : Result (Option Text) :=
  match free with
  | 0 => .ok file
  | _ + 1 => do
    let text ← struct2file h node
    .ok (some text)

/-- `handle_register` up to the reply. -/
def mergeAndSave (w : Worker) (buf : Buf) : Result Worker := do
  let (h, recv_node) ← convertBufToNode w.server.heap buf
  let (fp, free) := fopen w.free w.server.file
  let (h, local_node) ← file2struct h fp
  let h ← nodeMerge h local_node recv_node
  let file ← saveFile free h local_node w.server.file
  .ok { w with server := ⟨h, file, local_node⟩, free := free }

/-- `handle_register`, with the message it sends. -/
def handleRegister (w : Worker) (msg : Message) : Result (Worker × Message) := do
  let w ← mergeAndSave w msg.buf.bytes
  let reply_msg ← registerReply w.server
  let _ ← sendMsgOverSocket reply_msg
  .ok (w, reply_msg)

/-- The branches of `thread_receive_pack`; the others open nothing. -/
def dispatch (w : Worker) (msg : Message) : Result (Worker × List Message) := do
  if ← strcmpEq msg.type.bytes register then
    let (w, reply_msg) ← handleRegister w msg
    .ok (w, [reply_msg])
  else
    let (server, sent) ← Server.dispatch w.server msg
    .ok ({ w with server := server }, sent)

/-- The body of the loop in `thread_receive_pack`, where `accept` fails without a descriptor. -/
def receivePack (new_server_socket_fd : Socket) (w : Worker) : Result (Flow Worker Worker) :=
  match w.free with
  | 0 => .ok (.done w)
  | free + 1 => do
    let w := { w with free := free }
    let (ret, msg) ← recvMsgOverSocket (.raw 0) new_server_socket_fd
    if ret < 0 then .ok (.next { w with replies := w.replies ++ [[]] })
    else do
      let (w, sent) ← dispatch w msg
      .ok (.next { w with replies := w.replies ++ [sent] })

/-- The loop, for the connections that come. -/
def threadReceivePack (w : Worker) (fds : List Socket) : Result (Flow Worker Worker) :=
  foldFlow receivePack fds w

/-! ## With and without a limit -/

section Limit

variable {w : Worker} {s : ServerState} {buf : Buf} {msg : Message} {free : Nat}

/-- Without a descriptor `file2struct` reads from NULL. -/
theorem mergeAndSave_none (hfree : w.free = 0) {r : Worker} : mergeAndSave w buf ≠ .ok r := by
  intro hrun
  obtain ⟨⟨h, recv_node⟩, -, hrun⟩ := bind_eq_ok.mp hrun
  have hopen : fopen w.free w.server.file = (none, 0) := by
    rw [hfree]
    rfl
  simp only [hopen, file2struct] at hrun
  cases hrun

/-- With one descriptor or more everything but the saving goes as without a limit. -/
theorem mergeAndSave_some (hfree : w.free = free + 1)
    (hrun : Server.mergeAndSave w.server buf = .ok s) : mergeAndSave w buf = .ok { w with
      server := { s with file := if free = 0 then w.server.file else s.file }, free := free } := by
  obtain ⟨⟨h₁, recv_node⟩, hdecode, hrun⟩ := bind_eq_ok.mp hrun
  obtain ⟨⟨h₂, local_node⟩, hread, hrun⟩ := bind_eq_ok.mp hrun
  obtain ⟨h₃, hmerge, hrun⟩ := bind_eq_ok.mp hrun
  obtain ⟨text, hwrite, hrun⟩ := bind_eq_ok.mp hrun
  cases hrun
  have hopen : fopen w.free w.server.file = (w.server.file, free) := by
    rw [hfree]
    cases hfile : w.server.file with
    | none =>
      rw [hfile] at hread
      cases hread
    | some _ => rfl
  simp only [mergeAndSave, hdecode, hopen, hread, hmerge, ok_bind]
  cases free with
  | zero => rfl
  | succ free => simp only [saveFile, hwrite, ok_bind, if_neg (Nat.succ_ne_zero free)]

theorem dispatch_register (htype : readString msg.type.bytes = .ok register) :
    dispatch w msg = (do
      let (w, reply_msg) ← handleRegister w msg
      .ok (w, [reply_msg])) := by
  rw [dispatch, strcmpEq_of_readString htype (by decide), decide_eq_true rfl, ok_bind, if_pos rfl]

theorem dispatch_other {t : Text} (htype : readString msg.type.bytes = .ok t)
    (ht : t ≠ register) : dispatch w msg = (do
      let (server, sent) ← Server.dispatch w.server msg
      .ok ({ w with server := server }, sent)) := by
  rw [dispatch, strcmpEq_of_readString htype (by decide), decide_eq_false ht, ok_bind,
    if_neg (by decide)]

theorem receivePack_of_recv {fd : Socket} {ret : Int32} (hfree : w.free = free + 1)
    (hrecv : recvMsgOverSocket (.raw 0) fd = .ok (ret, msg)) : receivePack fd w =
      if ret < 0 then .ok (.next { w with free := free, replies := w.replies ++ [[]] })
      else (do
        let (w, sent) ← dispatch { w with free := free } msg
        .ok (.next { w with replies := w.replies ++ [sent] })) := by
  simp only [receivePack, hfree, hrecv, ok_bind]

/-- While three descriptors are left, a round does what it does without a limit. -/
theorem receivePack_plenty {sent : List Message} (hfree : w.free = free + 3) {fd : Socket}
    (hrun : Server.receivePack w.server fd = .ok (s, sent)) : ∃ left, free < left ∧
      receivePack fd w = .ok (.next ⟨s, left, w.replies ++ [sent]⟩) := by
  obtain ⟨⟨ret, msg⟩, hrecv, hrun⟩ := bind_eq_ok.mp hrun
  rw [receivePack_of_recv hfree hrecv]
  dsimp only at hrun
  by_cases hret : ret < 0
  · rw [if_pos hret] at hrun ⊢
    cases hrun
    exact ⟨free + 2, by omega, rfl⟩
  · rw [if_neg hret] at hrun ⊢
    obtain ⟨isRegister, hcmp, hbranch⟩ := bind_eq_ok.mp hrun
    cases isRegister with
    | true =>
      obtain ⟨⟨s', reply_msg⟩, hhandle, hbranch⟩ := bind_eq_ok.mp hbranch
      cases hbranch
      obtain ⟨s', hsave, hhandle⟩ := bind_eq_ok.mp hhandle
      obtain ⟨reply_msg', hreply, hhandle⟩ := bind_eq_ok.mp hhandle
      obtain ⟨sends, hsend, hhandle⟩ := bind_eq_ok.mp hhandle
      cases hhandle
      have hfew := mergeAndSave_some (w := { w with free := free + 2 }) rfl hsave
      rw [if_neg (Nat.succ_ne_zero free)] at hfew
      refine ⟨free + 1, by omega, ?_⟩
      simp only [dispatch, hcmp, handleRegister, hfew, hreply, hsend, ok_bind, if_true]
    | false =>
      refine ⟨free + 2, by omega, ?_⟩
      simp only [dispatch, hcmp, hrun, ok_bind, Bool.false_eq_true, if_false]

end Limit

/-! ## One connection -/

/-- What arrives over a connection: a list to be registered, a message of another type, or
nothing, since a `recv` fails. -/
inductive Brought where
  | register (m : List Node)
  | other
  | nothing

/-- The connection brings it, whatever the memory of the server holds. -/
def Brings (fd : Socket) : Brought → Prop
  | .register m => Modest fd ∧ ∃ msg, recvMsgOverSocket (.raw 0) fd = .ok (0, msg) ∧
      readString msg.type.bytes = .ok register ∧ ∀ s, Decodes s msg.buf.bytes m
  | .other => Modest fd ∧ ∃ msg t, recvMsgOverSocket (.raw 0) fd = .ok (0, msg) ∧
      readString msg.type.bytes = .ok t ∧ t ≠ register
  | .nothing => Modest fd ∧ ∃ ret msg, recvMsgOverSocket (.raw 0) fd = .ok (ret, msg) ∧ ret < 0

/-- The lists that are registered. -/
def Brought.lists : Brought → List (List Node)
  | .register m => [m]
  | .other | .nothing => []

section Register

variable {w w' : Worker} {l m : List Node} {msg : Message}

/-- What `handle_register` works on, with a descriptor left: the list in memory and, if
there is another one, the file have become the merge. -/
theorem mergeAndSave_stored {buf : Buf} {free : Nat} (h : Stored w.server l)
    (hbuf : Decodes w.server buf m) (hfree : w.free = free + 1) : ∃ s,
      mergeAndSave w buf = .ok { w with server := s, free := free } ∧
      NodesAt s.heap s.localNode (storeAfter l [m]) ∧
      Stored s (if free = 0 then l else storeAfter l [m]) := by
  obtain ⟨s, hrun, hstored, hlocal⟩ := h.handle hbuf
  refine ⟨_, mergeAndSave_some hfree hrun, hlocal, ?_⟩
  by_cases hzero : free = 0
  · simp only [if_pos hzero]
    exact ⟨h.file, h.oneLine, h.ne⟩
  · simp only [if_neg hzero]
    exact ⟨hstored.file, hstored.oneLine, hstored.ne⟩

theorem handleRegister_inv {reply_msg : Message} (h : Stored w.server l)
    (hbuf : Decodes w.server msg.buf.bytes m)
    (hrun : handleRegister w msg = .ok (w', reply_msg)) :
    (w.free = w'.free + 1 ∧ w'.replies = w.replies) ∧
      Stored w'.server (if w'.free = 0 then l else storeAfter l [m]) ∧
      (encode (storeAfter l [m])).length < bufSize ∧
      readString reply_msg.buf.bytes = .ok (encode (storeAfter l [m])) := by
  obtain ⟨w₁, hsave, hrun⟩ := bind_eq_ok.mp hrun
  cases hfree : w.free with
  | zero => exact absurd hsave (mergeAndSave_none hfree)
  | succ free =>
    obtain ⟨s, hsave', hlocal, hstored⟩ := mergeAndSave_stored h hbuf hfree
    rw [hsave'] at hsave
    cases hsave
    obtain ⟨reply, hreply, hrun⟩ := bind_eq_ok.mp hrun
    obtain ⟨_, -, hrun⟩ := bind_eq_ok.mp hrun
    cases hrun
    obtain ⟨hlen, hnames, -⟩ := CronJob.registerReply_inv hlocal hreply
    exact ⟨⟨rfl, rfl⟩, hstored, hlen, hnames⟩

theorem handleRegister_total (h : Stored w.server l) (hbuf : Decodes w.server msg.buf.bytes m)
    (hfree : w.free ≠ 0) (hlen : (encode (storeAfter l [m])).length < bufSize) :
    ∃ r, handleRegister w msg = .ok r := by
  obtain ⟨free, hfree⟩ := Nat.exists_eq_succ_of_ne_zero hfree
  obtain ⟨s, hsave, hlocal, -⟩ := mergeAndSave_stored h hbuf hfree
  obtain ⟨reply_msg, hreply⟩ := CronJob.registerReply_total hlocal hlen
  obtain ⟨-, -, hsend⟩ := CronJob.registerReply_inv hlocal hreply
  refine ⟨({ w with server := s, free := free }, reply_msg), ?_⟩
  simp only [handleRegister, hsave, hreply, hsend, ok_bind]

/-- Other messages find the server as it was, and are answered or not. -/
theorem dispatch_echo {s : ServerState} {t : Text} (htype : readString msg.type.bytes = .ok t)
    (ht : t ≠ register) : ∃ sent, Server.dispatch s msg = .ok (s, sent) := by
  by_cases hupdate : t = regularUpdate
  · subst hupdate
    exact ⟨_, dispatch_regularUpdate htype⟩
  by_cases hreturn : t = regularUpdateReturn
  · subst hreturn
    have hsend := (carries_echo (t := widthTestReturn) (by decide) (by decide)).send_eq
    refine ⟨[.echo widthTestReturn (by decide) (by decide)], ?_⟩
    rw [Server.dispatch, strcmpEq_of_readString htype (by decide),
      strcmpEq_of_readString htype (by decide), strcmpEq_of_readString htype (by decide),
      decide_eq_false ht, decide_eq_false hupdate, decide_eq_true rfl]
    simp only [ok_bind, Bool.false_eq_true, if_false, if_true, handleWidthTest, hsend]
  · exact ⟨[], dispatch_unknown htype (by simp [ht, hupdate, hreturn])⟩

end Register

/-! ## One round -/

section Round

variable {w w' : Worker} {l : List Node} {fd : Socket} {brought : Brought}

/-- What a round costs and leaves, when the loop goes on. -/
structure Round (l : List Node) (brought : Brought) (w w' : Worker) : Prop where
  cost : w.free = w'.free + (1 + brought.lists.length)
  stored : Stored w'.server (if w'.free = 0 then l else storeAfter l brought.lists)
  fits : ∀ m ∈ brought.lists, (encode (storeAfter l [m])).length < bufSize
  replied : ∃ sent, w'.replies = w.replies ++ [sent] ∧ ∀ m ∈ brought.lists, ∃ reply_msg,
    sent = [reply_msg] ∧ readString reply_msg.buf.bytes = .ok (encode (storeAfter l [m]))

theorem receivePack_nothing {free : Nat} (hfree : w.free = free + 1)
    (hfd : Brings fd .nothing) : receivePack fd w =
      .ok (.next { w with free := free, replies := w.replies ++ [[]] }) := by
  obtain ⟨-, ret, msg, hrecv, hret⟩ := hfd
  rw [receivePack_of_recv hfree hrecv, if_pos hret]

theorem receivePack_other {free : Nat} (hfree : w.free = free + 1) (hfd : Brings fd .other) :
    ∃ sent, receivePack fd w =
      .ok (.next { w with free := free, replies := w.replies ++ [sent] }) := by
  obtain ⟨-, msg, t, hrecv, htype, ht⟩ := hfd
  obtain ⟨sent, hsent⟩ := dispatch_echo (s := w.server) htype ht
  refine ⟨sent, ?_⟩
  rw [receivePack_of_recv hfree hrecv, if_neg (by decide), dispatch_other htype ht, hsent]
  rfl

theorem receivePack_register {free : Nat} {m : List Node} (hfree : w.free = free + 1)
    (hfd : Brings fd (.register m)) : ∃ msg, (∀ s, Decodes s msg.buf.bytes m) ∧
      receivePack fd w = (do
        let (w, reply_msg) ← handleRegister { w with free := free } msg
        .ok (.next { w with replies := w.replies ++ [[reply_msg]] })) := by
  obtain ⟨-, msg, hrecv, htype, hbuf⟩ := hfd
  refine ⟨msg, hbuf, ?_⟩
  rw [receivePack_of_recv hfree hrecv, if_neg (by decide), dispatch_register htype, bind_assoc]
  rfl

/-- Without a descriptor the loop is left, and otherwise only by a fault. -/
theorem receivePack_done {r : Worker} :
    receivePack fd w = .ok (.done r) ↔ w.free = 0 ∧ r = w := by
  constructor
  · intro hrun
    cases hfree : w.free with
    | zero =>
      simp only [receivePack, hfree] at hrun
      cases hrun
      exact ⟨rfl, rfl⟩
    | succ free =>
      simp only [receivePack, hfree] at hrun
      obtain ⟨⟨ret, msg⟩, -, hrun⟩ := bind_eq_ok.mp hrun
      dsimp only at hrun
      split at hrun
      · cases hrun
      · obtain ⟨_, -, hrun⟩ := bind_eq_ok.mp hrun
        cases hrun
  · rintro ⟨hfree, rfl⟩
    simp only [receivePack, hfree]

theorem receivePack_next (h : Stored w.server l) (hfd : Brings fd brought)
    (hrun : receivePack fd w = .ok (.next w')) : Round l brought w w' := by
  cases hfree : w.free with
  | zero =>
    simp only [receivePack, hfree] at hrun
    cases hrun
  | succ free =>
    cases brought with
    | nothing =>
      rw [receivePack_nothing hfree hfd] at hrun
      cases hrun
      exact ⟨hfree, by simpa [storeAfter, Brought.lists] using h, by simp [Brought.lists],
        [], rfl, by simp [Brought.lists]⟩
    | other =>
      obtain ⟨sent, heq⟩ := receivePack_other hfree hfd
      rw [heq] at hrun
      cases hrun
      exact ⟨hfree, by simpa [storeAfter, Brought.lists] using h, by simp [Brought.lists],
        sent, rfl, by simp [Brought.lists]⟩
    | register m =>
      obtain ⟨msg, hbuf, heq⟩ := receivePack_register hfree hfd
      rw [heq] at hrun
      obtain ⟨⟨w₁, reply_msg⟩, hhandle, hrun⟩ := bind_eq_ok.mp hrun
      cases hrun
      obtain ⟨⟨hcost, hreplies⟩, hstored, hlen, hnames⟩ :=
        handleRegister_inv (w := { w with free := free }) h (hbuf _) hhandle
      refine ⟨?_, hstored, by simpa [Brought.lists] using hlen, [reply_msg],
        congrArg (· ++ [[reply_msg]]) hreplies, by simpa [Brought.lists] using hnames⟩
      rw [hfree, show free = w₁.free + 1 from hcost]
      rfl

theorem receivePack_total (h : Stored w.server l) (hfd : Brings fd brought)
    (hcost : 1 + brought.lists.length ≤ w.free)
    (hfits : ∀ m ∈ brought.lists, (encode (storeAfter l [m])).length < bufSize) :
    ∃ w', receivePack fd w = .ok (.next w') := by
  obtain ⟨free, hfree⟩ : ∃ free, w.free = free + 1 := ⟨w.free - 1, by omega⟩
  cases brought with
  | nothing => exact ⟨_, receivePack_nothing hfree hfd⟩
  | other =>
    obtain ⟨sent, heq⟩ := receivePack_other hfree hfd
    exact ⟨_, heq⟩
  | register m =>
    obtain ⟨msg, hbuf, heq⟩ := receivePack_register hfree hfd
    have hleft : free ≠ 0 := by
      simp only [Brought.lists, List.length_singleton] at hcost
      omega
    obtain ⟨⟨w₁, reply_msg⟩, hhandle⟩ := handleRegister_total (w := { w with free := free }) h
      (hbuf _) hleft (hfits m (List.mem_singleton_self m))
    rw [heq, hhandle]
    exact ⟨_, rfl⟩

end Round

/-! ## The loop -/

/-- The lists that are registered. -/
def registered (conns : List (Socket × Brought)) : List (List Node) :=
  conns.flatMap (fun conn => conn.2.lists)

/-- The descriptors that stay open. -/
def cost (conns : List (Socket × Brought)) : Nat := conns.length + (registered conns).length

/-- Every reply fits a message. -/
def Answerable (l : List Node) (ms : List (List Node)) : Prop :=
  ∀ before m, before ++ [m] <+: ms → (encode (storeAfter l (before ++ [m]))).length < bufSize

section Loop

variable {w w' : Worker} {l : List Node} {conns : List (Socket × Brought)}

/-- The worker after the connections `conns`: the list that took the last descriptor was
answered like the others, and it is missing in the infofile. -/
structure Served (l : List Node) (conns : List (Socket × Brought)) (w w' : Worker) : Prop where
  cost : w.free = w'.free + cost conns
  file : w'.server.Holds
    (storeAfter l (registered (if w'.free = 0 then conns.dropLast else conns)))
  replies : w'.replies.length = w.replies.length + conns.length
  replied : ∀ before fd m after, conns = before ++ (fd, .register m) :: after →
    ∃ reply_msg, w'.replies[w.replies.length + before.length]? = some [reply_msg] ∧
      readString reply_msg.buf.bytes = .ok (encode (storeAfter l (registered before ++ [m])))

theorem storeAfter_append (l : List Node) (ms ms' : List (List Node)) :
    storeAfter l (ms ++ ms') = storeAfter (storeAfter l ms) ms' := List.foldl_append

theorem registered_concat (conn : Socket × Brought) :
    registered (conns ++ [conn]) = registered conns ++ conn.2.lists := by
  rw [registered, List.flatMap_append, List.flatMap_singleton]
  rfl

theorem cost_concat (conn : Socket × Brought) :
    cost (conns ++ [conn]) = cost conns + (1 + conn.2.lists.length) := by
  simp only [cost, registered_concat, List.length_append, List.length_singleton]
  omega

theorem answerable_lists {ms : List (List Node)} {brought : Brought} :
    Answerable l (ms ++ brought.lists) ↔ Answerable l ms ∧
      ∀ m ∈ brought.lists, (encode (storeAfter (storeAfter l ms) [m])).length < bufSize := by
  cases brought with
  | register m =>
    rw [Brought.lists, List.forall_mem_singleton, ← storeAfter_append]
    exact forall_prefix_concat
  | other => simp [Brought.lists]
  | nothing => simp [Brought.lists]

theorem threadReceivePack_concat (fds : List Socket) (fd : Socket) :
    threadReceivePack w (fds ++ [fd]) = .ok (.next w') ↔ ∃ t,
      threadReceivePack w fds = .ok (.next t) ∧ receivePack fd t = .ok (.next w') :=
  foldFlow_concat_next

/-- A loop that went on over all the connections left the last round with its list in the
infofile, if there was a descriptor for it. -/
theorem threadReceivePack_split {conn : Socket × Brought}
    (hrun : threadReceivePack w ((conns ++ [conn]).map Prod.fst) = .ok (.next w')) : ∃ t,
      threadReceivePack w (conns.map Prod.fst) = .ok (.next t) ∧
      receivePack conn.1 t = .ok (.next w') ∧ t.free ≠ 0 := by
  rw [List.map_append] at hrun
  obtain ⟨t, hbefore, hstep⟩ := (threadReceivePack_concat _ _).mp hrun
  refine ⟨t, hbefore, hstep, fun hfree => ?_⟩
  rw [receivePack_done.mpr ⟨hfree, rfl⟩] at hstep
  cases hstep

section Run

variable (h : Stored w.server l) (hconns : ∀ conn ∈ conns, Brings conn.1 conn.2)

include h hconns

theorem threadReceivePack_stored
    (hrun : threadReceivePack w (conns.map Prod.fst) = .ok (.next w')) :
    Stored w'.server (storeAfter l (registered (if w'.free = 0 then conns.dropLast else conns))) ∧
      Answerable l (registered conns) := by
  induction conns using List.reverseRecOn generalizing w' with
  | nil =>
    cases hrun
    refine ⟨by simpa [registered, storeAfter] using h, fun before m hpre => ?_⟩
    exact absurd (List.prefix_nil.mp hpre) (by simp)
  | append_singleton conns conn ih =>
    obtain ⟨t, hbefore, hstep, hfree⟩ := threadReceivePack_split hrun
    obtain ⟨hstored, hanswer⟩ := ih (fun c hc => hconns c (List.mem_append_left _ hc)) hbefore
    have hconn := hconns conn (List.mem_append_right _ (List.mem_singleton_self conn))
    rw [if_neg hfree] at hstored
    have hround := receivePack_next hstored hconn hstep
    rw [registered_concat, answerable_lists]
    refine ⟨?_, hanswer, hround.fits⟩
    have hnow := hround.stored
    split at hnow
    · rename_i hzero
      rw [if_pos hzero, List.dropLast_concat]
      exact hnow
    · rename_i hleft
      rw [if_neg hleft, registered_concat, storeAfter_append]
      exact hnow

theorem threadReceivePack_served
    (hrun : threadReceivePack w (conns.map Prod.fst) = .ok (.next w')) :
    Served l conns w w' := by
  have hfile := (threadReceivePack_stored h hconns hrun).1.holds
  induction conns using List.reverseRecOn generalizing w' with
  | nil =>
    cases hrun
    exact ⟨rfl, hfile, rfl, fun before fd m after heq => by simp at heq⟩
  | append_singleton conns conn ih =>
    obtain ⟨t, hbefore, hstep, hfree⟩ := threadReceivePack_split hrun
    have hconns' : ∀ c ∈ conns, Brings c.1 c.2 := fun c hc => hconns c (List.mem_append_left _ hc)
    have hconn := hconns conn (List.mem_append_right _ (List.mem_singleton_self conn))
    have hstored := (threadReceivePack_stored h hconns' hbefore).1
    have hserved := ih hconns' hbefore hstored.holds
    rw [if_neg hfree] at hstored
    have hround := receivePack_next hstored hconn hstep
    obtain ⟨sent, hsent, hnamed⟩ := hround.replied
    refine ⟨?_, hfile, ?_, fun before fd m after heq => ?_⟩
    · rw [cost_concat, hserved.cost, hround.cost]
      omega
    · simp only [hsent, hserved.replies, List.length_append, List.length_singleton]
      omega
    · rcases List.eq_nil_or_concat after with rfl | ⟨after, last, rfl⟩
      · obtain ⟨rfl, hlast⟩ := List.append_inj' heq rfl
        cases hlast
        obtain ⟨reply_msg, rfl, hnames⟩ := hnamed m (List.mem_singleton_self m)
        refine ⟨reply_msg, ?_, by rw [storeAfter_append]; exact hnames⟩
        rw [hsent, ← hserved.replies, List.getElem?_concat_length]
      · rw [List.concat_eq_append, ← List.cons_append, ← List.append_assoc] at heq
        obtain ⟨rfl, -⟩ := List.append_inj' heq rfl
        obtain ⟨reply_msg, hreply, hnames⟩ := hserved.replied before fd m after rfl
        refine ⟨reply_msg, ?_, hnames⟩
        rw [hsent, List.getElem?_append_left (List.getElem?_eq_some_iff.mp hreply).1]
        exact hreply

theorem threadReceivePack_total (hcost : cost conns ≤ w.free)
    (hanswer : Answerable l (registered conns)) :
    ∃ w', threadReceivePack w (conns.map Prod.fst) = .ok (.next w') := by
  induction conns using List.reverseRecOn with
  | nil => exact ⟨w, rfl⟩
  | append_singleton conns conn ih =>
    have hconns' : ∀ c ∈ conns, Brings c.1 c.2 := fun c hc => hconns c (List.mem_append_left _ hc)
    have hconn := hconns conn (List.mem_append_right _ (List.mem_singleton_self conn))
    rw [registered_concat, answerable_lists] at hanswer
    rw [cost_concat] at hcost
    obtain ⟨t, hbefore⟩ := ih hconns' (by omega) hanswer.1
    have hserved := threadReceivePack_served h hconns' hbefore
    have hstored := (threadReceivePack_stored h hconns' hbefore).1
    have hleft := hserved.cost
    rw [if_neg (by omega)] at hstored
    obtain ⟨w', hstep⟩ := receivePack_total hstored hconn (by omega) hanswer.2
    rw [List.map_append]
    exact ⟨w', (threadReceivePack_concat _ _).mpr ⟨t, hbefore, hstep⟩⟩

/-- Over connections of these kinds the loop goes on exactly as long as its replies fit and what
stays open can be opened, and it is left where the descriptors are used up. -/
theorem serves_within_descriptors :
    ((∃ w', threadReceivePack w (conns.map Prod.fst) = .ok (.next w')) ↔
      cost conns ≤ w.free ∧ Answerable l (registered conns)) ∧
    (∀ w', threadReceivePack w (conns.map Prod.fst) = .ok (.next w') → Served l conns w w') ∧
    ∀ w', threadReceivePack w (conns.map Prod.fst) = .ok (.done w') ↔
      ∃ served rest, conns = served ++ rest ∧ rest ≠ [] ∧ cost served = w.free ∧
        threadReceivePack w (served.map Prod.fst) = .ok (.next w') := by
  refine ⟨⟨?_, ?_⟩, fun w' => threadReceivePack_served h hconns, fun w' => ⟨?_, ?_⟩⟩
  · rintro ⟨w', hrun⟩
    have hcost := (threadReceivePack_served h hconns hrun).cost
    exact ⟨by omega, (threadReceivePack_stored h hconns hrun).2⟩
  · rintro ⟨hcost, hanswer⟩
    exact threadReceivePack_total h hconns hcost hanswer
  · intro hrun
    obtain ⟨before, fd, after, t, heq, hbefore, hlast⟩ := foldFlow_eq_done.mp hrun
    obtain ⟨served, rest, rfl, rfl, hrest⟩ := List.map_eq_append_iff.mp heq
    obtain ⟨hfree, rfl⟩ := receivePack_done.mp hlast
    have hconns' : ∀ c ∈ served, Brings c.1 c.2 := fun c hc => hconns c (List.mem_append_left _ hc)
    have hcost := (threadReceivePack_served h hconns' hbefore).cost
    refine ⟨served, rest, rfl, ?_, by omega, hbefore⟩
    rintro rfl
    cases hrest
  · rintro ⟨served, rest, rfl, hne, hcost, hbefore⟩
    have hconns' : ∀ c ∈ served, Brings c.1 c.2 := fun c hc => hconns c (List.mem_append_left _ hc)
    have hserved := (threadReceivePack_served h hconns' hbefore).cost
    obtain ⟨conn, rest, rfl⟩ := List.exists_cons_of_ne_nil hne
    rw [List.map_append, List.map_cons]
    exact foldFlow_eq_done.mpr
      ⟨_, _, _, w', rfl, hbefore, receivePack_done.mpr ⟨by omega, rfl⟩⟩

end Run

end Loop

/-! ## A registration that is lost -/

/-- A register message that comes whole. -/
theorem brings_register {m : List Node} (hm : ∀ n ∈ m, n.OneLine) (hfits : FitsDecoder m)
    (hlen : (encode m).length < bufSize) : ∃ sends, Brings (.whole sends) (.register m) := by
  have hcarries :=
    carries_ofStrings ⟨register, by decide, by decide⟩ ⟨encode m, noNul_encode m, hlen⟩
  obtain ⟨sends, msg, hsend, hrecv, hcarried, -⟩ :=
    roundTrips_short hcarries (by decide) (by decide) (.raw 0)
  refine ⟨sends, modest_whole hsend, msg, hrecv, hcarried.type, fun s => ?_⟩
  obtain ⟨h, p, as, hdecode, hon, -⟩ := convertBufToNode_encode hm hfits hcarried.buf s.heap
  exact ⟨h, p, hdecode, as, hon⟩

/-- With two descriptors a second node is registered with the sample server. -/
theorem serves_within_descriptors_sample : ∃ fd, Brings fd (.register (sampleNodes [124])) ∧
    ((∃ w', threadReceivePack ⟨sampleServer, 2, []⟩ [fd] = .ok (.next w')) ↔
      2 ≤ 2 ∧ Answerable sampleA [sampleNodes [124]]) ∧
    (∀ w', threadReceivePack ⟨sampleServer, 2, []⟩ [fd] = .ok (.next w') →
      Served sampleA [(fd, .register (sampleNodes [124]))] ⟨sampleServer, 2, []⟩ w') ∧
    ∀ w', threadReceivePack ⟨sampleServer, 2, []⟩ [fd] = .ok (.done w') ↔
      ∃ served rest, [(fd, Brought.register (sampleNodes [124]))] = served ++ rest ∧ rest ≠ [] ∧
        cost served = 2 ∧
        threadReceivePack ⟨sampleServer, 2, []⟩ (served.map Prod.fst) = .ok (.next w') := by
  have hlines : ∀ n ∈ sampleNodes [124], n.OneLine :=
    fun n hn => (sampleNodes_plain [124] n hn).toOneLine
  obtain ⟨sends, hfd⟩ := brings_register hlines (sampleNodes_fits (by decide) (by decide))
    (Join.JoinServer.length_encode_lt hlines (by decide))
  have hconns : ∀ conn ∈ [(Socket.whole sends, Brought.register (sampleNodes [124]))],
      Brings conn.1 conn.2 := by
    simpa using hfd
  exact ⟨.whole sends, hfd,
    serves_within_descriptors (w := ⟨sampleServer, 2, []⟩) sampleServer_stored hconns⟩

end VpnP2p.Server.Descriptors
