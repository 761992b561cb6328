import VpnP2p.CronJob.Interleaving

/-!
# The local node when the routes are refreshed

`handle_router_refresh` looks for the local node in `local_node` and does not ask whether
it was found. A register message that arrives after the refresh puts the nodes of the
infofile in the place of the local node; unless the id that was drawn is among them,
`fromNode` is passed on without a value.
-/

namespace VpnP2p.CronJob

open Foundation NodeInfo Util Server

/-! ## The code -/

/-- The body of the first loop. -/
def findLocal (h : Heap) (local_node_id : Int32) (ptr : Nat) (_ : Unit) :
    Result (Flow Unit Ptr) := do
  let c ← load h.nodes (.addr ptr)
  let id ← assigned c.id
  if id = local_node_id then .ok (.done (.addr ptr)) else .ok (.next ())

/-- The second loop up to the local node; a call is kept as its arguments. -/
def refreshOther (h : Heap) (local_node_id : Int32) (fromNode : Ptr) (ptr : Nat)
    (calls : List (Ptr × Ptr)) : Result (Flow (List (Ptr × Ptr)) (List (Ptr × Ptr))) := do
  let c ← load h.nodes (.addr ptr)
  let id ← assigned c.id
  if id = local_node_id then .ok (.done calls) else .ok (.next (calls ++ [(fromNode, .addr ptr)]))

/-- `handle_router_refresh()`, with the calls of `router_refresh(fromNode, ptr)`. -/
def handleRouterRefresh (σ : Process) : Result (List (Ptr × Ptr)) := do
  let fuel := σ.heap.nodes.length + 1
  let found ← forChainFlow (fun _ => σ.heap.nodes) NodeCell.nextNode
    (findLocal σ.heap σ.localNodeId) fuel σ.localNode ()
  let fromNode := match found with
    | .done ptr => ptr
    | .next () => .unassigned
  match ← forChainFlow (fun _ => σ.heap.nodes) NodeCell.nextNode
    (refreshOther σ.heap σ.localNodeId fromNode) fuel σ.localNode [] with
  | .done calls => .ok calls
  | .next calls => .ok calls

/-! ## The two threads -/

/-- Whether `thread_cron_job` sleeps, or has refreshed the local node and turns to the
routes. -/
inductive Cron where
  | sleeping
  | refreshed

/-- The steps of both threads so far, in any order that the cron thread's loop admits. -/
inductive Reachable (rand : UInt32 → Nat) (σ₀ : Process) : Cron → List Step → Process → Prop
  | start : Reachable rand σ₀ .sleeping [] σ₀
  | register {cron : Cron} {steps : List Step} {σ σ' : Process} {msg : Register} :
      Reachable rand σ₀ cron steps σ → Step.exec rand σ (.register msg) = .ok σ' →
      Reachable rand σ₀ cron (steps ++ [.register msg]) σ'
  | refresh {steps : List Step} {σ σ' : Process} {host : Host} :
      Reachable rand σ₀ .sleeping steps σ → Step.exec rand σ (.refresh host) = .ok σ' →
      Reachable rand σ₀ .refreshed (steps ++ [.refresh host]) σ'
  | routes {steps : List Step} {σ : Process} {calls : List (Ptr × Ptr)} :
      Reachable rand σ₀ .refreshed steps σ → handleRouterRefresh σ = .ok calls →
      Reachable rand σ₀ .sleeping steps σ

/-- `local_node` has a node under `local_node_id`, and every call of `router_refresh` gets
such a node. -/
def KnowsLocal (σ : Process) : Prop :=
  ∃ l, NodesAt σ.heap σ.localNode l ∧ σ.localNodeId ∈ ids l ∧
    ∃ calls, handleRouterRefresh σ = .ok calls ∧ ∀ call ∈ calls, ∃ a c,
      call.1 = .addr a ∧ σ.heap.nodes[a]? = some c ∧ c.id = some σ.localNodeId

/-! ## The loops -/

section Loops

variable {h : Heap} {id : Int32}

theorem findLocal_eq (a : Nat) (n : Node) (ha : ∃ c, h.nodes[a]? = some c ∧ c.Holds h.ips n) :
    findLocal h id a () = .ok (if n.id = id then .done (.addr a) else .next ()) := by
  obtain ⟨c, hc, hn⟩ := ha
  rw [findLocal, load_addr hc, ok_bind, hn.id, assigned_some, ok_bind]
  split <;> rfl

theorem refreshOther_eq (id : Int32) {a : Nat} {n : Node}
    (ha : ∃ c, h.nodes[a]? = some c ∧ c.Holds h.ips n) (fromNode : Ptr)
    (calls : List (Ptr × Ptr)) : refreshOther h id fromNode a calls =
      .ok (if n.id = id then .done calls else .next (calls ++ [(fromNode, .addr a)])) := by
  obtain ⟨c, hc, hn⟩ := ha
  rw [refreshOther, load_addr hc, ok_bind, hn.id, assigned_some, ok_bind]
  split <;> rfl

/-- The second loop ends, and every call it makes starts at `fromNode`. -/
theorem foldFlow_refreshOther (id : Int32) {as : List Nat} {ns : List Node}
    (hcont : Contents (NodeCell.Holds h.ips) h.nodes as ns) (fromNode : Ptr)
    {calls : List (Ptr × Ptr)} (hcalls : ∀ call ∈ calls, call.1 = fromNode) :
    ∃ calls', (∀ call ∈ calls', call.1 = fromNode) ∧
      (foldFlow (refreshOther h id fromNode) as calls = .ok (.done calls') ∨
        foldFlow (refreshOther h id fromNode) as calls = .ok (.next calls')) := by
  induction hcont generalizing calls with
  | nil => exact ⟨calls, hcalls, .inr rfl⟩
  | @cons a n as ns ha _ ih =>
    have hstep := refreshOther_eq id ha fromNode calls
    by_cases hid : n.id = id
    · rw [if_pos hid] at hstep
      exact ⟨calls, hcalls, .inl (foldFlow_cons_done hstep)⟩
    · rw [if_neg hid] at hstep
      have hcalls' : ∀ call ∈ calls ++ [(fromNode, Ptr.addr a)], call.1 = fromNode := by
        intro call hcall
        rcases List.mem_append.mp hcall with hcall | hcall
        · exact hcalls call hcall
        · rw [List.mem_singleton.mp hcall]
      obtain ⟨calls', hall, hrun⟩ := ih hcalls'
      rw [foldFlow_cons_next hstep]
      exact ⟨calls', hall, hrun⟩

end Loops

section Routes

variable {σ : Process} {l : List Node}

theorem knowsLocal_of_mem (hlocal : NodesAt σ.heap σ.localNode l) (hid : σ.localNodeId ∈ ids l) :
    KnowsLocal σ := by
  have ⟨as, hlinks, hcont⟩ := hlocal
  have hfuel := Nat.lt_succ_of_le hlinks.length_le
  obtain ⟨n, hn, hnid⟩ := List.mem_map.mp hid
  obtain ⟨a, -, n', ⟨c, hc, hcn⟩, hnid', hfind⟩ :=
    foldFlow_search_some findLocal_eq hcont ⟨n, hn, hnid⟩
  have hnone : ∀ call ∈ ([] : List (Ptr × Ptr)), call.1 = .addr a := by simp
  obtain ⟨calls, hcalls, hrun⟩ := foldFlow_refreshOther σ.localNodeId hcont (.addr a) hnone
  refine ⟨l, hlocal, hid, calls, ?_, fun call hcall => ⟨a, c, hcalls call hcall, hc, ?_⟩⟩
  · simp only [handleRouterRefresh, forChainFlow_read_eq_foldFlow hlinks hfuel, hfind, ok_bind]
    rcases hrun with hrun | hrun
    · rw [hrun, ok_bind]
    · rw [hrun, ok_bind]
  · rw [hcn.id, hnid']

theorem knowsLocal_iff_mem (hlocal : NodesAt σ.heap σ.localNode l) :
    KnowsLocal σ ↔ σ.localNodeId ∈ ids l := by
  constructor
  · rintro ⟨l', hl', hid, -⟩
    rw [hlocal.unique hl']
    exact hid
  · exact knowsLocal_of_mem hlocal

end Routes

/-! ## Reachable states -/

section Reachable

variable {rand : UInt32 → Nat} {σ₀ σ : Process} {cron : Cron} {steps : List Step}

theorem Reachable.run (h : Reachable rand σ₀ cron steps σ) : runSteps rand steps σ₀ = .ok σ := by
  induction h with
  | start => rfl
  | register _ hexec ih => exact (runSteps_concat _).mpr ⟨_, ih, hexec⟩
  | refresh _ hexec ih => exact (runSteps_concat _).mpr ⟨_, ih, hexec⟩
  | routes _ _ ih => exact ih

theorem Reachable.ne_nil (h : Reachable rand σ₀ cron steps σ) : cron = .refreshed → steps ≠ [] := by
  induction h with
  | start => intro h; cases h
  | register => intro _; simp
  | refresh => intro _; simp
  | routes => intro h; cases h

theorem mem_seen {S : List Node} {id : Int32} : id ∈ ids (storeAfter S (messages steps)) ↔
    id ∈ ids S ++ ids (messages steps).flatten := by
  rw [mem_ids_storeAfter, List.mem_append]

/-- Right after a register message the local node is known if its id has been seen. -/
theorem knowsLocal_register {S : List Node} (hstart : Stored σ₀.toServerState S) {msg : Register}
    (hrun : runSteps rand (steps ++ [.register msg]) σ₀ = .ok σ) : KnowsLocal σ ↔
      localId rand σ₀.localNodeId (steps ++ [.register msg]) ∈
        ids S ++ ids (messages (steps ++ [.register msg])).flatten := by
  rw [knowsLocal_iff_mem (runSteps_register hstart hrun), (runSteps_stored hstart hrun).2, mem_seen]

/-- When the routes are refreshed, the local node is known exactly if no register message
came since it was refreshed, or if its id was in the infofile or in some message. -/
theorem knowsLocal_iff {S : List Node} (hS : ∀ n ∈ S, n.OneLine) (hne : S ≠ []) (h₀ : σ₀.Holds S)
    (hreach : Reachable rand σ₀ .refreshed steps σ) : KnowsLocal σ ↔
      (∃ pre host, steps = pre ++ [.refresh host]) ∨
        localId rand σ₀.localNodeId steps ∈ ids S ++ ids (messages steps).flatten := by
  have hstart : Stored σ₀.toServerState S := ⟨h₀.file, hS, hne⟩
  obtain ⟨pre, step, rfl⟩ := List.eq_nil_or_concat' steps |>.resolve_left (hreach.ne_nil rfl)
  have hrun := hreach.run
  cases step with
  | refresh host =>
    obtain ⟨σ', -, hexec⟩ := (runSteps_concat (.refresh host)).mp hrun
    obtain ⟨-, -, hlocal, hid⟩ := exec_refresh hexec
    have hknows : KnowsLocal σ := by
      apply knowsLocal_of_mem hlocal
      rw [hid]
      exact List.mem_singleton.mpr rfl
    exact iff_of_true hknows (.inl ⟨pre, host, rfl⟩)
  | register msg =>
    rw [knowsLocal_register hstart hrun]
    constructor
    · exact .inr
    · rintro (⟨pre', host, heq⟩ | hseen)
      · have hlast := (List.append_inj' heq rfl).2
        cases hlast
      · exact hseen

/-- A register message can come between the two steps of the cron thread. -/
theorem reachable_between (rand : UInt32 → Nat) {S : List Node}
    (hstart : Stored σ₀.toServerState S) {host : Host} (hs : host.Served) (msg : Register) :
    ∃ σ, Reachable rand σ₀ .refreshed [.refresh host, .register msg] σ := by
  obtain ⟨σ₁, hrefresh⟩ := exec_total rand hstart (.refresh host)
    (fun _ h => Step.refresh.inj h ▸ hs)
  obtain ⟨-, hfile, -⟩ := exec_refresh hrefresh
  have hstored : Stored σ₁.toServerState S := ⟨hfile ▸ hstart.file, hstart.oneLine, hstart.ne⟩
  obtain ⟨σ, hregister⟩ := exec_total rand hstored (.register msg) (fun _ h => by cases h)
  exact ⟨σ, (Reachable.start.refresh hrefresh).register hregister⟩

end Reachable

/-! ## A message in between -/

theorem sampleProcess_stored : Stored sampleProcess.toServerState sampleA :=
  sampleServer_stored

def sampleBetween : List Step := [.refresh sampleHost, .register sampleRegister]

theorem knowsLocal_iff_sample : ∃ σ,
    Reachable UInt32.toNat sampleProcess .refreshed sampleBetween σ ∧ (KnowsLocal σ ↔
      (∃ pre host, sampleBetween = pre ++ [.refresh host]) ∨
        localId UInt32.toNat sampleProcess.localNodeId sampleBetween ∈
          ids sampleA ++ ids (messages sampleBetween).flatten) := by
  obtain ⟨σ, hreach⟩ := reachable_between UInt32.toNat sampleProcess_stored
    sampleHost_served sampleRegister
  exact ⟨σ, hreach, knowsLocal_iff sound_sampleA.oneLine
    (by simp [sampleA]) sampleServer_holds hreach⟩

/-- The refresh draws the id 1, the message names 124, and the infofile has 123. -/
theorem not_knowsLocal_between : ∃ σ,
    Reachable UInt32.toNat sampleProcess .refreshed sampleBetween σ ∧ ¬ KnowsLocal σ := by
  obtain ⟨σ, hreach⟩ := reachable_between UInt32.toNat sampleProcess_stored
    sampleHost_served sampleRegister
  refine ⟨σ, hreach, fun hknows => ?_⟩
  have hrun : runSteps UInt32.toNat ([.refresh sampleHost] ++ [.register sampleRegister])
      sampleProcess = .ok σ := hreach.run
  have hseen := (knowsLocal_register sampleProcess_stored hrun).mp hknows
  exact absurd hseen (by decide)

end VpnP2p.CronJob
