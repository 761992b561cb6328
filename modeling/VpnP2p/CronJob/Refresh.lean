import VpnP2p.NodeInfo.Generate
import VpnP2p.NodeInfo.Identity
import VpnP2p.Server.Register

/-!
# The refresh of the local node

`local_ip_refresh` wants to replace the IP list of the local node, but the node generator
it calls has already put a new node, alone and under a new id, in the place of
`local_node`; so it compares the new list with itself and the nodes that were merged are
gone. The infofile, which `handle_register` reads back, never hears of the new node.
-/

namespace VpnP2p.CronJob

open Foundation NodeInfo Util Server

/-! ## The code -/

/-- The server process, with `local_node_id`. -/
structure Process extends ServerState where
  localNodeId : Int32

/-- The body of the loop in `local_ip_refresh`. -/
def markIp (before_ip_list : Ptr) (ptr : Nat) (ips : Mem IPCell) : Result (Mem IPCell) := do
  let c ← load ips (.addr ptr)
  let ip ← assigned c.ip
  let contained ← containIp ips before_ip_list ip
  if contained ≠ 0 then update ips (.addr ptr) (fun c => { c with validity := some 0 })
  else update ips (.addr ptr) (fun c => { c with type := some unknownIP, validity := some 1 })

/-- `local_ip_refresh()`. -/
def localIpRefresh (rand : UInt32 → Nat) (host : Host) (σ : Process) : Result Process := do
  let (h, current_node, local_node_id) ← generateLocalNode rand host σ.heap
  -- `generate_local_node` has assigned its node to `local_node` as well.
  let local_node := current_node
  let current ← load h.nodes current_node
  let current_ip_list := current.ipList
  let before ← load h.nodes local_node
  let before_ip_list := before.ipList
  let identical ← ipListIdentical h.ips current_ip_list before_ip_list
  let ips ← if identical = 0 then
      forChain id IPCell.nextIp (markIp before_ip_list) (h.ips.length + 1) current_ip_list h.ips
    else .ok h.ips
  let nodes ← update h.nodes local_node (fun c => { c with ipList := current_ip_list })
  .ok ⟨⟨⟨ips, nodes⟩, σ.file, local_node⟩, local_node_id⟩

/-! ## The steps of the two threads -/

/-- The body of a register message, with what it decodes to wherever the memory is. -/
structure Register where
  buf : Buf
  nodes : List Node
  decodes : ∀ s : ServerState, Decodes s buf nodes

/-- A step of the process: its timer refreshes the local node, with what the host looks
like at that moment, or a register message is handled. -/
inductive Step where
  | refresh (host : Host)
  | register (msg : Register)

def Step.exec (rand : UInt32 → Nat) (σ : Process) : Step → Result Process
  | .refresh host => localIpRefresh rand host σ
  | .register msg => do
    let s ← mergeAndSave σ.toServerState msg.buf
    .ok ⟨s, σ.localNodeId⟩

def runSteps (rand : UInt32 → Nat) (steps : List Step) (σ : Process) : Result Process :=
  steps.foldlM (Step.exec rand) σ

/-! ## What a run has seen -/

def Step.host : Step → Option Host
  | .refresh host => some host
  | .register _ => none

def Step.nodes : Step → Option (List Node)
  | .refresh _ => none
  | .register msg => some msg.nodes

/-- What the last refresh found. -/
def observed (steps : List Step) : Option Host := steps.reverse.findSome? Step.host

/-- The lists that were merged. -/
def messages (steps : List Step) : List (List Node) := steps.filterMap Step.nodes

/-- The id of the local node after the steps. -/
def localId (rand : UInt32 → Nat) (id₀ : Int32) (steps : List Step) : Int32 :=
  (observed steps).elim id₀ (fun host => generateId rand host.time)

section History

variable (rand : UInt32 → Nat) (id₀ : Int32) (steps : List Step)

@[simp] theorem observed_refresh (host : Host) :
    observed (steps ++ [.refresh host]) = some host := by
  rw [observed, List.reverse_append]
  rfl

@[simp] theorem observed_register (msg : Register) :
    observed (steps ++ [.register msg]) = observed steps := by
  rw [observed, List.reverse_append]
  rfl

@[simp] theorem messages_refresh (host : Host) :
    messages (steps ++ [.refresh host]) = messages steps := by
  simp [messages, Step.nodes]

@[simp] theorem messages_register (msg : Register) :
    messages (steps ++ [.register msg]) = messages steps ++ [msg.nodes] := by
  simp [messages, Step.nodes]

@[simp] theorem localId_refresh (host : Host) :
    localId rand id₀ (steps ++ [.refresh host]) = generateId rand host.time := by
  simp [localId]

@[simp] theorem localId_register (msg : Register) :
    localId rand id₀ (steps ++ [.register msg]) = localId rand id₀ steps := by
  simp [localId]

end History

/-! ## A refresh -/

section Refresh

variable {rand : UInt32 → Nat} {host : Host} {σ σ' : Process}

theorem localIpRefresh_spec (rand : UInt32 → Nat) (σ : Process) (hs : host.Served) :
    ∃ σ', localIpRefresh rand host σ = .ok σ' ∧ σ'.file = σ.file ∧
      σ'.localNodeId = generateId rand host.time ∧
    NodesAt σ'.heap σ'.localNode [host.localNode (generateId rand host.time)] := by
  obtain ⟨h, hgen, -, ⟨-, c, hc, hnext⟩, hcont⟩ := hs.generateLocalNode rand σ.heap
  obtain ⟨c', hc', hnode⟩ := (List.forall₂_cons.mp hcont).1
  rw [hc] at hc'
  cases hc'
  -- The node gets the list that it has.
  let assign : NodeCell → NodeCell := fun d => { d with ipList := c.ipList }
  have hupd : update h.nodes (.addr σ.heap.nodes.length) assign = _ :=
    update_addr (lt_of_getElem?_eq_some hc) assign
  have hcell := getElem?_modify_same assign hc
  refine ⟨⟨⟨⟨h.ips, h.nodes.modify σ.heap.nodes.length assign⟩, σ.file,
    .addr σ.heap.nodes.length⟩, generateId rand host.time⟩, ?_, rfl, rfl,
    [σ.heap.nodes.length], ⟨rfl, _, hcell, hnext⟩, .cons ⟨_, hcell, hnode⟩ .nil⟩
  simp only [localIpRefresh, hgen, ok_bind, load_addr hc, ipListIdentical_self hnode.ipList,
    if_neg (by decide : ¬ (1 : Int32) = 0)]
  rw [hupd, ok_bind]

theorem served_of_localIpRefresh (h : localIpRefresh rand host σ = .ok σ') : host.Served := by
  obtain ⟨r, hr, -⟩ := bind_eq_ok.mp h
  exact served_of_generateLocalNode hr

end Refresh

/-! ## Runs -/

section Runs

variable {rand : UInt32 → Nat} {S : List Node} {σ₀ σ : Process} {steps : List Step}

theorem runSteps_concat (step : Step) : runSteps rand (steps ++ [step]) σ₀ = .ok σ ↔
    ∃ σ', runSteps rand steps σ₀ = .ok σ' ∧ step.exec rand σ' = .ok σ := by
  rw [runSteps, List.foldlM_append, bind_eq_ok]
  simp only [List.foldlM_cons, List.foldlM_nil, bind_pure]
  rfl

/-- A register message leaves the local id alone. -/
theorem exec_register {l : List Node} {msg : Register} {σ' : Process}
    (h : Stored σ.toServerState l) (hexec : Step.exec rand σ (.register msg) = .ok σ') :
    Stored σ'.toServerState (mergeNodes (l.map Node.stripped) msg.nodes) ∧
      NodesAt σ'.heap σ'.localNode (mergeNodes (l.map Node.stripped) msg.nodes) ∧
      σ'.localNodeId = σ.localNodeId := by
  obtain ⟨s', hstep, hend⟩ := bind_eq_ok.mp hexec
  cases hend
  obtain ⟨hstored, hlocal⟩ := h.handled (msg.decodes σ.toServerState) hstep
  exact ⟨hstored, hlocal, rfl⟩

/-- A refresh that ends leaves the new node, alone, and the infofile as it was. -/
theorem exec_refresh {host : Host} {σ' : Process}
    (h : Step.exec rand σ (.refresh host) = .ok σ') : host.Served ∧ σ'.file = σ.file ∧
      NodesAt σ'.heap σ'.localNode [host.localNode (generateId rand host.time)] ∧
      σ'.localNodeId = generateId rand host.time := by
  have hs := served_of_localIpRefresh h
  obtain ⟨σ'', hrun, hfile, hid, hlocal⟩ := localIpRefresh_spec rand σ hs
  rw [Step.exec, hrun] at h
  cases h
  exact ⟨hs, hfile, hlocal, hid⟩

/-- In every run the infofile gets what the messages bring and nothing else. -/
theorem runSteps_stored (h₀ : Stored σ₀.toServerState S) (hrun : runSteps rand steps σ₀ = .ok σ) :
    Stored σ.toServerState (storeAfter S (messages steps)) ∧
      σ.localNodeId = localId rand σ₀.localNodeId steps := by
  induction steps using List.reverseRecOn generalizing σ with
  | nil =>
    cases hrun
    exact ⟨h₀, rfl⟩
  | append_singleton steps step ih =>
    obtain ⟨σ', hrun, hexec⟩ := (runSteps_concat step).mp hrun
    obtain ⟨hstored, hid⟩ := ih hrun
    cases step with
    | refresh host =>
      obtain ⟨-, hfile, -, hid'⟩ := exec_refresh hexec
      rw [messages_refresh, localId_refresh]
      exact ⟨⟨hfile ▸ hstored.file, hstored.oneLine, hstored.ne⟩, hid'⟩
    | register msg =>
      obtain ⟨hstored', -, hid'⟩ := exec_register hstored hexec
      rw [messages_register, localId_register, storeAfter_concat]
      exact ⟨hstored', hid'.trans hid⟩

/-- After a register message the process knows the nodes of the infofile. -/
theorem runSteps_register (h₀ : Stored σ₀.toServerState S) {msg : Register}
    (hrun : runSteps rand (steps ++ [.register msg]) σ₀ = .ok σ) :
    NodesAt σ.heap σ.localNode (storeAfter S (messages (steps ++ [.register msg]))) := by
  obtain ⟨σ', hrun', hexec⟩ := (runSteps_concat (.register msg)).mp hrun
  obtain ⟨hstored, -⟩ := runSteps_stored h₀ hrun'
  obtain ⟨-, hlocal, -⟩ := exec_register hstored hexec
  rw [messages_register, storeAfter_concat]
  exact hlocal

/-- A step goes through unless it refreshes on a host where the generator does not work. -/
theorem exec_total (rand : UInt32 → Nat) {l : List Node} (h : Stored σ.toServerState l)
    (step : Step) (hstep : ∀ host, step = .refresh host → host.Served) :
    ∃ σ', step.exec rand σ = .ok σ' := by
  cases step with
  | refresh host =>
    obtain ⟨σ', hrun, -⟩ := localIpRefresh_spec rand σ (hstep host rfl)
    exact ⟨σ', hrun⟩
  | register msg =>
    obtain ⟨s', hstep, -⟩ := h.handle (msg.decodes σ.toServerState)
    refine ⟨⟨s', σ.localNodeId⟩, ?_⟩
    rw [Step.exec, hstep]
    rfl

end Runs

end VpnP2p.CronJob
