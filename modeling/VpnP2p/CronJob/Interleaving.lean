import VpnP2p.CronJob.Refresh

/-!
# The local node between two threads

One thread refreshes the local node, the other merges register messages into what it reads
from the infofile. The local node is known on both sides only if the refresh happens to
draw the id of an entry that the infofile already has, with the same addresses, and the
other nodes are known after a refresh only if there are none.
-/

namespace VpnP2p.CronJob

open Foundation NodeInfo Util Server

/-! ## What should hold -/

/-- The node under `id` is in the list, and has the IPs `C`. -/
structure Carries (id : Int32) (C : List (CStr 20)) (l : List Node) : Prop where
  known : id ∈ ids l
  ips : ∀ n ∈ l, n.id = id → ipStrings n.ipList = C

def strings (host : Host) : List (CStr 20) := host.addresses.map Address.ip

/-- The local node has the IPs of the host in `local_node`, in the infofile and in the
reply, and `local_node` has every id that was merged. -/
structure View (host : Host) (merged : List Int32) (σ : Process) : Prop where
  localNode : ∃ l, NodesAt σ.heap σ.localNode l ∧ Carries σ.localNodeId (strings host) l ∧
    merged ⊆ ids l
  file : ∃ l, σ.Reads l ∧ Carries σ.localNodeId (strings host) l
  reply : ∀ reply_msg, registerReply σ.toServerState = .ok reply_msg →
    ∃ l, readString reply_msg.buf.bytes = .ok (encode l) ∧ Carries σ.localNodeId (strings host) l

/-- The steps go through, and from the first refresh on the view is right. -/
def KeepsView (rand : UInt32 → Nat) (σ₀ : Process) (steps : List Step) : Prop :=
  ∀ pre, pre <+: steps → ∃ σ, runSteps rand pre σ₀ = .ok σ ∧
    ∀ host, observed pre = some host → View host (ids (messages pre).flatten) σ

/-- No register message names the local node. -/
def Spares (rand : UInt32 → Nat) (id₀ : Int32) (steps : List Step) : Prop :=
  ∀ pre msg, pre ++ [.register msg] <+: steps → localId rand id₀ pre ∉ ids msg.nodes

/-- What a refresh needs: the generator works and finds an address, the infofile has the
id that it draws, with that address, and no other id was merged. -/
structure Refreshable (rand : UInt32 → Nat) (S : List Node) (pre : List Step) (host : Host) :
    Prop where
  served : host.Served
  connected : host.addresses ≠ []
  stored : Carries (generateId rand host.time) (strings host)
    ((storeAfter S (messages pre)).map Node.stripped)
  alone : ∀ id ∈ ids (messages pre).flatten, id = generateId rand host.time

/-! ## Carrying -/

theorem Carries.mergeNodes {id : Int32} {C : List (CStr 20)} {l m : List Node}
    (h : Carries id C l) (hm : id ∉ ids m) : Carries id C (mergeNodes l m) where
  known := mem_ids_mergeNodes.mpr (.inl h.known)
  ips := by
    intro n hn hid
    rcases List.mem_append.mp hn with hn | hn
    · obtain ⟨x, hx, rfl⟩ := List.mem_map.mp hn
      have hxid : x.id = id := (key_offerAll Node.id Node.rank x m).symm.trans hid
      rw [offerAll_of_not_mem (hxid ▸ hm)]
      exact h.ips x hx hxid
    · exact absurd (List.mem_map.mpr ⟨n, (mem_fresh.mp hn).1, hid⟩) hm

theorem stripStr_ip (a : Address) : stripStr a.ip = a.ip :=
  CStr.ext' (strip_eq_self a.char_ne.2.1 a.char_ne.2.2)

/-- Addresses have no tabs. -/
theorem Carries.stripped {id : Int32} {host : Host} {l : List Node}
    (h : Carries id (strings host) l) : Carries id (strings host) (l.map Node.stripped) where
  known := by
    rw [ids_map_stripped]
    exact h.known
  ips := by
    intro n hn hid
    obtain ⟨x, hx, rfl⟩ := List.mem_map.mp hn
    have hips := h.ips x hx hid
    have hstrip : ipStrings (x.ipList.map IP.stripped) = (ipStrings x.ipList).map stripStr := by
      simp only [ipStrings, List.map_map]
      rfl
    rw [Node.stripped, hstrip, hips, strings, List.map_map]
    exact List.map_congr_left (fun a _ => stripStr_ip a)

theorem carries_localNode {id : Int32} {host : Host} (hs : host.Served) :
    Carries id (strings host) [host.localNode id] ↔ host.addresses ≠ [] := by
  have hips : ∀ n ∈ [host.localNode id], n = host.localNode id :=
    fun n hn => List.mem_singleton.mp hn
  rcases hs.addresses with has | ⟨a, has⟩
  · constructor
    · intro h
      have hempty := h.ips (host.localNode id) (by simp) rfl
      rw [strings, has] at hempty
      cases hempty
    · intro h
      exact absurd has h
  · constructor
    · intro _
      rw [has]
      exact List.cons_ne_nil _ _
    · intro _
      refine ⟨by simp [ids, Host.localNode], fun n hn _ => ?_⟩
      rw [hips n hn, strings, has]
      simp [ipStrings, Host.localNode, Host.ip, has]

/-! ## The view after a step -/

section Steps

variable {rand : UInt32 → Nat} {S : List Node} {σ₀ σ σ' : Process} {pre : List Step} {host : Host}

/-- What the view says, where the nodes in `local_node` and in the infofile are known. -/
theorem view_iff {L l : List Node} {merged : List Int32} (hlocal : NodesAt σ.heap σ.localNode L)
    (hstored : Stored σ.toServerState l) : View host merged σ ↔
      Carries σ.localNodeId (strings host) L ∧ merged ⊆ ids L ∧
        Carries σ.localNodeId (strings host) (l.map Node.stripped) := by
  constructor
  · rintro ⟨⟨L', hL', hcarries, hsub⟩, ⟨l', hl', hcarries'⟩, -⟩
    obtain rfl := hlocal.unique hL'
    obtain rfl := hstored.reads.unique hl'
    exact ⟨hcarries, hsub, hcarries'⟩
  · rintro ⟨hcarries, hsub, hcarries'⟩
    exact ⟨⟨L, hlocal, hcarries, hsub⟩, ⟨_, hstored.reads, hcarries'⟩,
      fun reply_msg h => ⟨L, registerReply_nodesAt h hlocal, hcarries⟩⟩

/-- After a refresh the view is right exactly if the refresh had what it needs. -/
theorem view_refresh (h₀ : Stored σ₀.toServerState S)
    (hrun : runSteps rand (pre ++ [.refresh host]) σ₀ = .ok σ) :
    View host (ids (messages pre).flatten) σ ↔ Refreshable rand S pre host := by
  obtain ⟨σ', hpre, hexec⟩ := (runSteps_concat (.refresh host)).mp hrun
  obtain ⟨hserved, -, hlocal, hid⟩ := exec_refresh hexec
  obtain ⟨hstored, -⟩ := runSteps_stored h₀ hrun
  rw [messages_refresh] at hstored
  rw [view_iff hlocal hstored, hid, carries_localNode hserved]
  constructor
  · rintro ⟨hconnected, hsub, hcarries⟩
    exact ⟨hserved, hconnected, hcarries, fun id hmem => List.mem_singleton.mp (hsub hmem)⟩
  · intro h
    exact ⟨h.connected, fun id hmem => List.mem_singleton.mpr (h.alone id hmem), h.stored⟩

/-- A register message that spares the local node keeps the view. -/
theorem view_register (h₀ : Stored σ₀.toServerState S) {msg : Register}
    (hrun : runSteps rand pre σ₀ = .ok σ) (hexec : Step.exec rand σ (.register msg) = .ok σ')
    (hspares : localId rand σ₀.localNodeId pre ∉ ids msg.nodes)
    (hview : View host (ids (messages pre).flatten) σ) :
    View host (ids (messages (pre ++ [.register msg])).flatten) σ' := by
  obtain ⟨hstored, hid⟩ := runSteps_stored h₀ hrun
  obtain ⟨l, hl, hcarries⟩ := hview.file
  obtain rfl := hstored.reads.unique hl
  obtain ⟨hstored', hlocal, hid'⟩ := exec_register hstored hexec
  rw [← hid] at hspares
  have hmerged := hcarries.mergeNodes hspares
  rw [view_iff hlocal hstored', hid']
  refine ⟨hmerged, fun id hmem => ?_, hmerged.stripped⟩
  rw [← storeAfter_concat, ← messages_register]
  exact mem_ids_storeAfter.mpr (.inr hmem)

end Steps

/-! ## Runs -/

section Runs

variable {rand : UInt32 → Nat} {S : List Node} (hS : ∀ n ∈ S, n.OneLine) (hne : S ≠ [])
  {σ₀ : Process} (h₀ : σ₀.Holds S) {steps : List Step} (hspares : Spares rand σ₀.localNodeId steps)

include hS hne h₀

theorem refreshable_of_keepsView (hkeeps : KeepsView rand σ₀ steps) {pre : List Step} {host : Host}
    (hpre : pre ++ [.refresh host] <+: steps) : Refreshable rand S pre host := by
  obtain ⟨σ, hrun, hview⟩ := hkeeps _ hpre
  have hview := hview host (observed_refresh pre host)
  rw [messages_refresh] at hview
  exact (view_refresh ⟨h₀.file, hS, hne⟩ hrun).mp hview

include hspares

/-- The view stays right exactly if every refresh has what it needs. -/
theorem keepsView_iff : KeepsView rand σ₀ steps ↔
    ∀ pre host, pre ++ [.refresh host] <+: steps → Refreshable rand S pre host := by
  have hstart : Stored σ₀.toServerState S := ⟨h₀.file, hS, hne⟩
  constructor
  · intro hkeeps pre host hpre
    exact refreshable_of_keepsView hS hne h₀ hkeeps hpre
  · intro hneeds pre
    induction pre using List.reverseRecOn with
    | nil =>
      intro _
      exact ⟨σ₀, rfl, fun host h => by cases h⟩
    | append_singleton pre step ih =>
      intro hpre
      obtain ⟨σ, hrun, hview⟩ := ih ((List.prefix_append _ _).trans hpre)
      obtain ⟨hstored, -⟩ := runSteps_stored hstart hrun
      have hserved : ∀ host, step = .refresh host → host.Served := by
        intro host hstep
        rw [hstep] at hpre
        exact (hneeds pre host hpre).served
      obtain ⟨σ', hexec⟩ := exec_total rand hstored step hserved
      have hrun' := (runSteps_concat step).mpr ⟨σ, hrun, hexec⟩
      refine ⟨σ', hrun', fun host' hseen => ?_⟩
      cases step with
      | refresh host =>
        rw [observed_refresh, Option.some.injEq] at hseen
        rw [← hseen, messages_refresh]
        exact (view_refresh hstart hrun').mpr (hneeds pre host hpre)
      | register msg =>
        rw [observed_register] at hseen
        exact view_register hstart hrun hexec (hspares pre msg hpre) (hview host' hseen)

end Runs

/-! ## A message and a refresh -/

def sampleProcess : Process := ⟨sampleServer, 0⟩

def sampleRegister : Register where
  buf := cbuf (encode (sampleNodes [124]))
  nodes := sampleNodes [124]
  decodes := decodes_encode (fun n hn => (sampleNodes_plain [124] n hn).toOneLine)
    (sampleNodes_fits (by decide) (by decide))

def sampleSteps : List Step := [.register sampleRegister, .refresh sampleHost]

theorem spares_sampleSteps : Spares UInt32.toNat sampleProcess.localNodeId sampleSteps := by
  rintro pre msg ⟨post, heq⟩
  cases pre with
  | nil =>
    injection heq with hstep
    injection hstep with hmsg
    rw [hmsg]
    decide
  | cons step pre =>
    injection heq with _ heq
    cases pre with
    | nil => cases heq
    | cons step pre => simp at heq

theorem keepsView_iff_sample : KeepsView UInt32.toNat sampleProcess sampleSteps ↔
    ∀ pre host, pre ++ [.refresh host] <+: sampleSteps →
      Refreshable UInt32.toNat sampleA pre host :=
  keepsView_iff sound_sampleA.oneLine (by simp [sampleA])
    sampleServer_holds spares_sampleSteps

/-- The refresh drops the node that the message brought, and the infofile does not get the
node that the refresh has made. -/
theorem not_keepsView_dropped : Spares UInt32.toNat sampleProcess.localNodeId sampleSteps ∧
    ¬ KeepsView UInt32.toNat sampleProcess sampleSteps := by
  refine ⟨spares_sampleSteps, fun hkeeps => ?_⟩
  have hlast : [.register sampleRegister] ++ [.refresh sampleHost] <+: sampleSteps :=
    List.prefix_rfl
  have hneeds := refreshable_of_keepsView sound_sampleA.oneLine
    (by simp [sampleA]) sampleServer_holds hkeeps hlast
  exact absurd (hneeds.alone 124 (by decide)) (by decide)

end VpnP2p.CronJob
