import VpnP2p.CronJob.RouterRefresh
import VpnP2p.CronJob.ThreadRuns

/-!
# The hours of a server

A server that is asked for a regular update answers under a type that does not fit the field
of its client, which is then read past its end; and an IP that cannot be reached ends the
process. So the process goes through its hours, without undefined behaviour, only as long as
no route is refreshed at all: as long as the local node comes first in `local_node`.
-/

namespace VpnP2p.CronJob

open Foundation NodeInfo Util Server

/-! ## The code -/

section Code

variable {Width : Type} (usable : Nat → Nat) (width : Int32 → Int32 → Width)

/-- The second loop of `handle_router_refresh`, with the calls carried out on the blocks that
are left; it ends at the local node, or with the process. -/
def refreshRoute (σ : Process) (visit : Nat → Visit) (fromNode : Ptr) (ptr : Nat)
    (blocks : List Table.Key) :
    Result (Foundation.Flow (List Table.Key) (Foundation.Flow (List Table.Key) Int32)) := do
  let c ← load σ.heap.nodes (.addr ptr)
  let id ← assigned c.id
  if id = σ.localNodeId then .ok (.done (.next blocks))
  else match ← routerRefresh usable width σ.heap visit blocks fromNode (.addr ptr) with
    | .done status => .ok (.done (.done status))
    | .next (r, _) => .ok (.next r.blocks)

/-- `handle_router_refresh()`. -/
def refreshRoutes (visit : Nat → Visit) (blocks : List Table.Key) (σ : Process) :
    Result (Foundation.Flow (List Table.Key) Int32) := do
  let fuel := σ.heap.nodes.length + 1
  let found ← forChainFlow (fun _ => σ.heap.nodes) NodeCell.nextNode
    (findLocal σ.heap σ.localNodeId) fuel σ.localNode ()
  let fromNode := match found with
    | .done ptr => ptr
    | .next () => .unassigned
  match ← forChainFlow (fun _ => σ.heap.nodes) NodeCell.nextNode
    (refreshRoute usable width σ visit fromNode) fuel σ.localNode blocks with
  | .done ended => .ok ended
  | .next blocks => .ok (.next blocks)

/-- What happens in the process: a register message, and the two halves of an hour. -/
inductive Event where
  | register (msg : Register)
  | refresh (host : Host)
  | routes (visit : Nat → Visit) (blocks : List Table.Key)

/-- The event as a step, if it changes anything. -/
def Event.step : Event → Option Step
  | .register msg => some (.register msg)
  | .refresh host => some (.refresh host)
  | .routes _ _ => none

/-- An event, or the status that the process exits with. -/
def Event.exec (rand : UInt32 → Nat) (e : Event) (σ : Process) :
    Result (Foundation.Flow Process Int32) :=
  match e with
  | .register msg => do
    let s ← answerRegister σ.toServerState msg.buf
    .ok (.next ⟨s, σ.localNodeId⟩)
  | .refresh host => .next <$> localIpRefresh rand host σ
  | .routes visit blocks => do
    match ← refreshRoutes usable width visit blocks σ with
    | .done status => .ok (.done status)
    | .next _ => .ok (.next σ)

/-- The events one after the other. -/
def runEvents (rand : UInt32 → Nat) (events : List Event) (σ : Process) :
    Result (Foundation.Flow Process Int32) :=
  foldFlow (Event.exec usable width rand) events σ

end Code

/-- The cron thread does the two halves in turn. -/
def Cron.turn : Cron → Event → Option Cron
  | cron, .register _ => some cron
  | .sleeping, .refresh _ => some .refreshed
  | .refreshed, .routes _ _ => some .sleeping
  | _, _ => none

/-! ## The other end -/

/-- What comes back is what some server of this program sends when it gets `sends`. -/
def Connection.Served (c : Connection) (sends : List Buf) : Prop :=
  ∃ s s' replies frames, receivePack s (.whole sends) = .ok (s', replies) ∧
    replies.mapM sendMsgOverSocket = .ok frames ∧ c.reply = .whole frames.flatten

/-- The first connection, if there is one, leads to such a server. -/
def Visit.Served (v : Visit) : Prop :=
  ∀ sends, (Request.regularUpdate v.size).sends = .ok sends → v.update.connected = true →
    v.update.Served sends

section Reply

variable {sends : List Buf}

/-- The name of the reply fills the field of the client, and there is no NUL in it. -/
theorem not_recv_updateReturn
    (hsend : sendMsgOverSocket (.echo regularUpdateReturn (by decide) (by decide)) = .ok sends)
    (message : Message) (r : Int32 × Message) :
    recvMsgOverSocket message (.whole sends) ≠ .ok r := by
  have hcarries := carries_echo (t := regularUpdateReturn) (by decide) (by decide)
  have hlong : 20 ≤ regularUpdateReturn.length := by decide
  have hfield := take_of_readString hcarries.type hlong
  have hnul : 0 ∉ regularUpdateReturn.take 20 := by decide
  have hcmp : strcmpEq
      ((Message.echo regularUpdateReturn (by decide) (by decide)).type.bytes.take 20) widthTest =
        .ok false := by
    rw [hfield]
    exact strcmpEq_unterminated hnul (by decide)
  rw [hcarries.recv_whole hsend hcmp, hfield, readString_unterminated hnul]
  intro hrecv
  obtain ⟨buf, -, hrecv⟩ := bind_eq_ok.mp hrecv
  cases hrecv

/-- The first half of a visit reads past the type, or ends the process. -/
theorem Visit.Served.not_next {v : Visit} (h : v.Served) (duration : Int32) :
    v.timeUpdate ≠ .ok (.next duration) := by
  intro hrun
  rw [Visit.timeUpdate, Connection.measure] at hrun
  split at hrun
  · cases hrun
  split at hrun
  · cases hrun
  rename_i hconnected
  obtain ⟨sends, hsends, hrun⟩ := bind_eq_ok.mp hrun
  split at hrun
  · cases hrun
  obtain ⟨⟨ret, reply_msg⟩, hrecv, -⟩ := bind_eq_ok.mp hrun
  obtain ⟨s, s', replies, frames, hreceive, hframes, hreply⟩ :=
    h sends hsends (by simpa using hconnected)
  obtain ⟨-, -, rfl⟩ := (replies_regularUpdate v.size).mp ⟨sends, hsends, hreceive⟩
  rw [List.mapM_cons] at hframes
  obtain ⟨frame, hframe, hframes⟩ := bind_eq_ok.mp hframes
  cases hframes
  rw [hreply, List.reverse_nil, List.flatten_singleton] at hrecv
  exact not_recv_updateReturn hframe _ _ hrecv

end Reply

/-! ## An hour -/

section Hours

variable {Width : Type} {usable : Nat → Nat} {width : Int32 → Int32 → Width} {h : Heap}
  {visit : Nat → Visit} {blocks : List Table.Key} {fromNode toNode : Ptr}

theorem not_refreshIp (hvisit : ∀ p, (visit p).Served) (p : Nat) (r r' : Routes Width) :
    refreshIp usable width h visit fromNode toNode p r ≠ .ok (.next r') := by
  intro hrun
  obtain ⟨c, -, hrun⟩ := bind_eq_ok.mp hrun
  obtain ⟨x, -, hrun⟩ := bind_eq_ok.mp hrun
  obtain ⟨ended, hupdate, hrun⟩ := bind_eq_ok.mp hrun
  cases ended with
  | done status => cases hrun
  | next duration => exact (hvisit p).not_next duration hupdate

/-- Whatever the node has, `router_refresh` does not return as it should. -/
theorem not_routerRefresh (hvisit : ∀ p, (visit p).Served)
    (x : Routes Width × WidthAndDelay Width) :
    routerRefresh usable width h visit blocks fromNode toNode ≠ .ok (.next x) := by
  intro hrun
  obtain ⟨c, -, hrun⟩ := bind_eq_ok.mp hrun
  obtain ⟨length, -, hrun⟩ := bind_eq_ok.mp hrun
  split at hrun
  · cases hrun
  obtain ⟨table, -, hrun⟩ := bind_eq_ok.mp hrun
  obtain ⟨ended, hloop, hrun⟩ := bind_eq_ok.mp hrun
  cases ended with
  | done status => cases hrun
  | next r =>
    match c.ipList, hloop with
    | .unassigned, hloop => cases hloop
    | .null, hloop =>
      -- Without an IP there is no last pair to look for.
      cases hloop
      cases hrun
    | .addr p, hloop =>
      rw [forChainFlow] at hloop
      obtain ⟨first, hfirst, hloop⟩ := bind_eq_ok.mp hloop
      cases first with
      | done status => cases hloop
      | next r' => exact not_refreshIp hvisit p _ _ hfirst

variable {σ : Process} {l : List Node}

/-- The first loop ends, whether it finds the local node or not. -/
theorem findLocal_total {as : List Nat} (id : Int32)
    (hcont : Contents (NodeCell.Holds h.ips) h.nodes as l) :
    ∃ found, foldFlow (findLocal h id) as () = .ok found := by
  by_cases hid : id ∈ ids l
  · obtain ⟨n, hn, hnid⟩ := List.mem_map.mp hid
    obtain ⟨a, -, n', -, -, hfind⟩ := foldFlow_search_some findLocal_eq hcont ⟨n, hn, hnid⟩
    exact ⟨_, hfind⟩
  · exact ⟨_, foldFlow_findLocal_next hcont hid⟩

/-- The routes are refreshed, without a single call, if the local node comes first. -/
theorem refreshRoutes_iff (hlocal : NodesAt σ.heap σ.localNode l) (hne : l ≠ [])
    (hvisit : ∀ p, (visit p).Served) :
    (∃ left, refreshRoutes usable width visit blocks σ = .ok (.next left)) ↔
      (ids l).head? = some σ.localNodeId := by
  obtain ⟨as, hlinks, hcont⟩ := hlocal
  obtain ⟨found, hfind⟩ := findLocal_total σ.localNodeId hcont
  have hfuel := Nat.lt_succ_of_le hlinks.length_le
  obtain ⟨n, l, rfl⟩ := List.exists_cons_of_ne_nil hne
  obtain ⟨a, as, ⟨c, hc, hn⟩, -, rfl⟩ := List.forall₂_cons_right_iff.mp hcont
  have hhead : (ids (n :: l)).head? = some σ.localNodeId ↔ n.id = σ.localNodeId :=
    Option.some_inj
  rw [hhead, refreshRoutes]
  simp only [forChainFlow_read_eq_foldFlow hlinks hfuel, hfind, ok_bind]
  rw [foldFlow, refreshRoute, load_addr hc, ok_bind, hn.id, assigned_some, ok_bind]
  by_cases hid : n.id = σ.localNodeId
  · rw [if_pos hid]
    exact iff_of_true ⟨blocks, rfl⟩ hid
  · rw [if_neg hid]
    refine iff_of_false ?_ hid
    rintro ⟨left, hrun⟩
    obtain ⟨ended, hloop, hrun⟩ := bind_eq_ok.mp hrun
    obtain ⟨first, hfirst, hloop⟩ := bind_eq_ok.mp hloop
    obtain ⟨route, hroute, hfirst⟩ := bind_eq_ok.mp hfirst
    cases route with
    | done status =>
      cases hfirst
      cases hloop
      cases hrun
    | next x => exact not_routerRefresh hvisit x hroute

end Hours

/-! ## Runs -/

section Runs

variable {Width : Type} {usable : Nat → Nat} {width : Int32 → Int32 → Width}
  {rand : UInt32 → Nat} {S : List Node} {σ₀ σ : Process} {events : List Event}

/-- The first id of the infofile stays where it is. -/
theorem ids_prefix_storeAfter (S : List Node) (ms : List (List Node)) :
    ids S <+: ids (storeAfter S ms) := by
  induction ms using List.reverseRecOn with
  | nil => exact List.prefix_rfl
  | append_singleton ms m ih =>
    rw [storeAfter_concat]
    have hkeys : ids (mergeNodes ((storeAfter S ms).map Node.stripped) m) = _ :=
      keys_merge Node.id Node.rank _ _
    rw [hkeys]
    have hold : ids ((storeAfter S ms).map Node.stripped) = ids (storeAfter S ms) :=
      ids_map_stripped _
    exact ih.trans (hold ▸ List.prefix_append _ _)

theorem head?_storeAfter (hne : S ≠ []) (ms : List (List Node)) :
    (ids (storeAfter S ms)).head? = (ids S).head? := by
  obtain ⟨n, l, rfl⟩ := List.exists_cons_of_ne_nil hne
  obtain ⟨rest, hrest⟩ := ids_prefix_storeAfter (n :: l) ms
  rw [← hrest]
  rfl

/-- The steps among the events. -/
def stepsOf (events : List Event) : List Step := events.filterMap Event.step

/-- The cron thread does its two halves in turn, from its sleep on. -/
def turns (events : List Event) : Option Cron := events.foldlM Cron.turn .sleeping

theorem turns_concat (events : List Event) (e : Event) :
    turns (events ++ [e]) = (turns events).bind (fun cron => cron.turn e) := by
  rw [turns, List.foldlM_append]
  simp [turns]

theorem turns_of_concat {e : Event} (h : turns (events ++ [e]) ≠ none) : turns events ≠ none := by
  rintro hnone
  rw [turns_concat, hnone] at h
  exact h rfl

/-- The routes may go through: nothing came since the refresh, or the id that it drew is the
first of the infofile. -/
def Spared (rand : UInt32 → Nat) (S : List Node) (id₀ : Int32) (pre : List Event) : Prop :=
  (∃ pre' host, pre = pre' ++ [.refresh host]) ∨
    (ids S).head? = some (localId rand id₀ (stepsOf pre))

/-- The routes are refreshed in a state that a refresh, and messages after it, have left. -/
theorem routes_iff (hS : Stored σ₀.toServerState S)
    (hrun : runSteps rand (stepsOf events) σ₀ = .ok σ) (hturn : turns events = some .refreshed)
    {visit : Nat → Visit} (hvisit : ∀ p, (visit p).Served) (blocks : List Table.Key) :
    (∃ left, refreshRoutes usable width visit blocks σ = .ok (.next left)) ↔
      Spared rand S σ₀.localNodeId events := by
  obtain ⟨pre, e, rfl⟩ := List.eq_nil_or_concat' events |>.resolve_left (by
    rintro rfl
    cases hturn)
  have hsteps : stepsOf (pre ++ [e]) = stepsOf pre ++ [e].filterMap Event.step :=
    List.filterMap_append
  cases e with
  | refresh host =>
    have hconcat : stepsOf (pre ++ [.refresh host]) = stepsOf pre ++ [.refresh host] := hsteps
    rw [hconcat] at hrun
    obtain ⟨σ', -, hexec⟩ := (runSteps_concat (.refresh host)).mp hrun
    obtain ⟨-, -, hlocal, hid⟩ := exec_refresh hexec
    rw [refreshRoutes_iff hlocal (List.cons_ne_nil _ _) hvisit, hid]
    exact iff_of_true rfl (.inl ⟨pre, host, rfl⟩)
  | register msg =>
    have hconcat : stepsOf (pre ++ [.register msg]) = stepsOf pre ++ [.register msg] := hsteps
    rw [Spared, hconcat]
    rw [hconcat] at hrun
    have hlocal := runSteps_register hS hrun
    obtain ⟨hstored, hid⟩ := runSteps_stored hS hrun
    rw [refreshRoutes_iff hlocal hstored.ne hvisit, head?_storeAfter hS.ne, hid]
    constructor
    · exact .inr
    · rintro (⟨pre', host, heq⟩ | hfirst)
      · have hlast := (List.append_inj' heq rfl).2
        cases hlast
      · exact hfirst
  | routes visit blocks =>
    rw [turns_concat] at hturn
    obtain ⟨cron, -, hturn⟩ := Option.bind_eq_some_iff.mp hturn
    cases cron with
    | sleeping => cases hturn
    | refreshed => cases hturn

/-- What the event needs after the events `pre`: the list of a message leaves one that fits
the reply, the host can be asked for its addresses, and routes are spared. -/
def Event.Possible (rand : UInt32 → Nat) (S : List Node) (id₀ : Int32) (pre : List Event) :
    Event → Prop
  | .register msg =>
    (encode (storeAfter S (messages (stepsOf pre) ++ [msg.nodes]))).length < bufSize
  | .refresh host => host.Served
  | .routes _ _ => Spared rand S id₀ pre

/-- A message that was answered has been merged. -/
theorem step_of_answerRegister {msg : Register} {s : ServerState}
    (h : answerRegister σ.toServerState msg.buf = .ok s) :
    Step.exec rand σ (.register msg) = .ok ⟨s, σ.localNodeId⟩ := by
  rw [Step.exec, mergeAndSave_of_answerRegister h]
  rfl

/-- The routes leave no trace in the state. -/
theorem runSteps_of_runEvents (hrun : runEvents usable width rand events σ₀ = .ok (.next σ)) :
    runSteps rand (stepsOf events) σ₀ = .ok σ := by
  induction events using List.reverseRecOn generalizing σ with
  | nil =>
    cases hrun
    rfl
  | append_singleton events e ih =>
    obtain ⟨σ', hbefore, hexec⟩ := foldFlow_concat_next.mp hrun
    have hsteps : stepsOf (events ++ [e]) = stepsOf events ++ [e].filterMap Event.step :=
      List.filterMap_append
    rw [hsteps]
    cases e with
    | register msg =>
      obtain ⟨s, hanswer, hend⟩ := bind_eq_ok.mp hexec
      cases hend
      exact (runSteps_concat (.register msg)).mpr
        ⟨σ', ih hbefore, step_of_answerRegister hanswer⟩
    | refresh host =>
      obtain ⟨σ'', hstep, heq⟩ := map_eq_ok.mp hexec
      cases heq
      exact (runSteps_concat (.refresh host)).mpr ⟨σ', ih hbefore, hstep⟩
    | routes visit blocks =>
      obtain ⟨ended, -, hexec⟩ := bind_eq_ok.mp hexec
      cases ended with
      | done status => cases hexec
      | next left =>
        cases hexec
        exact (List.append_nil (stepsOf events)).symm ▸ ih hbefore

/-- A message is answered exactly if what it leaves in the infofile fits. -/
theorem register_iff (hS : Stored σ₀.toServerState S)
    (hrun : runSteps rand (stepsOf events) σ₀ = .ok σ) (msg : Register) :
    (∃ s, answerRegister σ.toServerState msg.buf = .ok s) ↔
      (encode (storeAfter S (messages (stepsOf events) ++ [msg.nodes]))).length < bufSize := by
  obtain ⟨hstored, -⟩ := runSteps_stored hS hrun
  obtain ⟨t, hsave, -, hlocal⟩ := hstored.handle (msg.decodes σ.toServerState)
  rw [storeAfter_concat, ← answerRegister_iff hsave hlocal]
  constructor
  · rintro ⟨s, hanswer⟩
    obtain rfl : t = s :=
      Except.ok.inj (hsave.symm.trans (mergeAndSave_of_answerRegister hanswer))
    exact hanswer
  · exact fun hanswer => ⟨t, hanswer⟩

/-- Every event of a run goes through exactly if it is possible. -/
theorem exec_iff (hS : Stored σ₀.toServerState S) {e : Event}
    (hrun : runEvents usable width rand events σ₀ = .ok (.next σ))
    (hturns : turns (events ++ [e]) ≠ none)
    (hvisit : ∀ visit blocks, e = .routes visit blocks → ∀ p, (visit p).Served) :
    (∃ σ', e.exec usable width rand σ = .ok (.next σ')) ↔
      e.Possible rand S σ₀.localNodeId events := by
  have hsteps := runSteps_of_runEvents hrun
  cases e with
  | register msg =>
    rw [Event.Possible, ← register_iff hS hsteps msg]
    constructor
    · rintro ⟨σ', hexec⟩
      obtain ⟨s, hanswer, -⟩ := bind_eq_ok.mp hexec
      exact ⟨s, hanswer⟩
    · rintro ⟨s, hanswer⟩
      exact ⟨⟨s, σ.localNodeId⟩, by rw [Event.exec, hanswer, ok_bind]⟩
  | refresh host =>
    constructor
    · rintro ⟨σ', hexec⟩
      obtain ⟨σ'', hstep, -⟩ := map_eq_ok.mp hexec
      exact served_of_localIpRefresh hstep
    · intro hserved
      obtain ⟨σ', hstep, -⟩ := localIpRefresh_spec rand σ hserved
      exact ⟨σ', by rw [Event.exec, hstep, map_ok]⟩
  | routes visit blocks =>
    have hturn : turns events = some .refreshed := by
      rw [turns_concat] at hturns
      match hcron : turns events with
      | none =>
        rw [hcron] at hturns
        exact absurd rfl hturns
      | some .sleeping =>
        rw [hcron] at hturns
        exact absurd rfl hturns
      | some .refreshed => rfl
    have hroutes : (∃ left, refreshRoutes usable width visit blocks σ = .ok (.next left)) ↔ _ :=
      routes_iff hS hsteps hturn (hvisit visit blocks rfl) blocks
    rw [Event.Possible, ← hroutes]
    constructor
    · rintro ⟨σ', hexec⟩
      obtain ⟨ended, hrefresh, hexec⟩ := bind_eq_ok.mp hexec
      cases ended with
      | done status => cases hexec
      | next left => exact ⟨left, hrefresh⟩
    · rintro ⟨left, hrefresh⟩
      exact ⟨σ, by rw [Event.exec, hrefresh, ok_bind]⟩

/-- A server whose peers run this program goes through its messages and hours exactly if each
reply fits, the host can be asked for its addresses at each refresh, and each time the routes
are due nothing has come since, or the refresh has drawn the first id of the infofile. -/
theorem runEvents_iff (hS : ∀ n ∈ S, n.OneLine) (hne : S ≠ []) (h₀ : σ₀.Holds S)
    (hturns : turns events ≠ none)
    (hvisits : ∀ visit blocks, .routes visit blocks ∈ events → ∀ p, (visit p).Served) :
    (∃ σ, runEvents usable width rand events σ₀ = .ok (.next σ)) ↔
      ∀ pre e, pre ++ [e] <+: events → e.Possible rand S σ₀.localNodeId pre := by
  have hstored : Stored σ₀.toServerState S := ⟨h₀.file, hS, hne⟩
  induction events using List.reverseRecOn with
  | nil => exact iff_of_true ⟨σ₀, rfl⟩ (fun pre e hpre => by simp at hpre)
  | append_singleton events e ih =>
    have hih : (∃ σ, runEvents usable width rand events σ₀ = .ok (.next σ)) ↔
        ∀ pre e, pre ++ [e] <+: events → e.Possible rand S σ₀.localNodeId pre :=
      ih (turns_of_concat hturns)
        (fun visit blocks hmem => hvisits visit blocks (List.mem_append_left _ hmem))
    have hlast : e ∈ events ++ [e] := List.mem_append_right _ (List.mem_singleton_self e)
    have hexec : ∀ σ, runEvents usable width rand events σ₀ = .ok (.next σ) → _ :=
      fun σ hrun => exec_iff hstored hrun hturns
        (fun visit blocks h => hvisits visit blocks (h ▸ hlast))
    rw [forall_prefix_concat, ← hih]
    constructor
    · rintro ⟨σ', hrun⟩
      obtain ⟨σ, hrun, hstep⟩ := foldFlow_concat_next.mp hrun
      exact ⟨⟨σ, hrun⟩, (hexec σ hrun).mp ⟨σ', hstep⟩⟩
    · rintro ⟨⟨σ, hrun⟩, hpossible⟩
      obtain ⟨σ', hstep⟩ := (hexec σ hrun).mpr hpossible
      exact ⟨σ', foldFlow_concat_next.mpr ⟨σ, hrun, hstep⟩⟩

end Runs

/-! ## Two hours -/

/-- Nobody is there. -/
def sampleVisit : Visit where
  size := 15
  update := ⟨true, false, true, .whole [], 0⟩
  bigBuf := .raw fileSize
  behind := .raw 9
  file := ⟨true, false, true, .whole [], 0⟩

theorem sampleVisit_served : sampleVisit.Served := by
  intro sends hsends hconnected
  cases hconnected

/-- An hour, with messages between its two halves. -/
def sampleEvents (msgs : List Register) : List Event :=
  .refresh sampleHost :: (msgs.map .register ++ [.routes (fun _ => sampleVisit) []])

theorem sampleEvents_served (msgs : List Register) (visit : Nat → Visit)
    (blocks : List Table.Key) (hmem : .routes visit blocks ∈ sampleEvents msgs) (p : Nat) :
    (visit p).Served := by
  rcases List.mem_cons.mp hmem with heq | hmem
  · cases heq
  rcases List.mem_append.mp hmem with hmem | hmem
  · obtain ⟨msg, -, heq⟩ := List.mem_map.mp hmem
    cases heq
  · rw [(Event.routes.inj (List.mem_singleton.mp hmem)).1]
    exact sampleVisit_served

/-- The refresh draws the id 1, and 123 is the first in the infofile: the routes are refreshed
right after it, and not when a message has come in between. -/
theorem runEvents_iff_sample :
    (∃ σ, runEvents id (fun d e => (d, e)) UInt32.toNat (sampleEvents []) sampleProcess =
      .ok (.next σ)) ∧
    ¬ ∃ σ, runEvents id (fun d e => (d, e)) UInt32.toNat (sampleEvents [sampleRegister])
      sampleProcess = .ok (.next σ) := by
  have hne : sampleA ≠ [] := by simp [sampleA]
  constructor
  · refine (runEvents_iff sound_sampleA.oneLine hne sampleServer_holds
      (show turns (sampleEvents []) ≠ none by rintro ⟨⟩) (sampleEvents_served [])).mpr ?_
    rintro pre e ⟨rest, hrest⟩
    rcases pre with _ | ⟨e', _ | ⟨e'', pre⟩⟩
    · cases hrest
      exact sampleHost_served
    · cases hrest
      exact .inl ⟨[], sampleHost, rfl⟩
    · have hlen := congrArg List.length hrest
      simp [sampleEvents] at hlen
  · intro hrun
    have hspared := (runEvents_iff sound_sampleA.oneLine hne sampleServer_holds
      (show turns (sampleEvents [sampleRegister]) ≠ none by rintro ⟨⟩)
      (sampleEvents_served [sampleRegister])).mp hrun
      [.refresh sampleHost, .register sampleRegister] _ List.prefix_rfl
    rcases hspared with ⟨pre, host, heq⟩ | hfirst
    · have hlast := congrArg List.getLast? heq
      rw [List.getLast?_concat] at hlast
      cases hlast
    · exact absurd hfirst (by decide)

end VpnP2p.CronJob
