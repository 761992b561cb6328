import VpnP2p.NodeInfo.Generate
import VpnP2p.Server.Register

/-!
# Machines that register

A machine takes its id from the second in which it generates its node and registers that
node once. The server takes two records of an id with the same count for one, and keeps
the first; so a registration survives exactly if no other machine drew the same id, and
if whatever the store had under that id was older or had the same addresses.
-/

namespace VpnP2p.Server

open Foundation NodeInfo Util

/-! ## The machines -/

/-- A machine on the network, with the `server_ip` it hands to `generate_node_info`, if it
does not use `generate_local_node`. -/
structure Machine extends Host where
  connected : addresses ≠ []
  server : Option Address

variable (rand : UInt32 → Nat)

def Machine.id (m : Machine) : Int32 := generateId rand m.time

def Machine.ips (m : Machine) : List (CStr 20) :=
  m.addresses.map Address.ip ++ m.server.toList.map Address.ip

/-- What the machine finds in its infofile when it registers. -/
def Machine.infofile (m : Machine) : Result Text :=
  match m.server with
  | none => do
    let (h, node, _) ← generateLocalNode rand m.toHost .empty
    struct2file h node
  | some server_ip => generateNodeInfo rand m.toHost server_ip

/-- The machines register, one after the other. -/
def registerAll (ms : List Machine) (s : ServerState) : Result ServerState :=
  ms.foldlM (fun s m => do
    let infofile ← m.infofile rand
    mergeAndSave s (cbuf infofile)) s

/-- Afterwards the store has an entry of its own for each machine, with its IPs. -/
def KeepsRegistrations (ms : List Machine) (s : ServerState) : Prop :=
  ∃ s' l, registerAll rand ms s = .ok s' ∧ s'.Reads l ∧
    (ms.map (fun m => (m.id rand, m.ips))).Subperm
      (l.map (fun n => (n.id, n.ipList.map IP.ip)))

/-! ## What a machine sends -/

def Machine.node (m : Machine) : Node :=
  match m.server with
  | none => m.toHost.localNode (m.id rand)
  | some server_ip => m.toHost.nodeInfo (m.id rand) server_ip

variable {rand}

@[simp] theorem Machine.node_id (m : Machine) : (m.node rand).id = m.id rand := by
  unfold Machine.node
  split <;> rfl

@[simp] theorem Machine.node_rank (m : Machine) : (m.node rand).rank = 1 := by
  unfold Machine.node
  split <;> rfl

theorem Machine.node_plain (m : Machine) : (m.node rand).Plain := by
  unfold Machine.node
  split
  · exact m.toHost.localNode_plain _
  · exact m.toHost.nodeInfo_plain _ _

theorem Machine.node_ips {m : Machine} (h : m.toHost.Served) :
    (m.node rand).ipList.map IP.ip = m.ips := by
  obtain ⟨a, ha⟩ := h.addresses.resolve_left m.connected
  unfold Machine.node Machine.ips
  have hip : ∀ v, (m.toHost.ip v).ip = a.ip := by
    intro v
    rw [Host.ip, ha]
  rw [ha]
  cases m.server with
  | none => simp [Host.localNode, hip]
  | some server_ip => simp [Host.nodeInfo, hip]

theorem served_of_infofile {m : Machine} {text : Text} (h : m.infofile rand = .ok text) :
    m.toHost.Served := by
  unfold Machine.infofile at h
  split at h
  · obtain ⟨r, hr, -⟩ := bind_eq_ok.mp h
    exact served_of_generateLocalNode hr
  · exact served_of_generateNodeInfo h

theorem infofile_of_served {m : Machine} (h : m.toHost.Served) :
    m.infofile rand = .ok (encode [m.node rand]) := by
  unfold Machine.infofile Machine.node
  split
  · obtain ⟨h', hrun, -, hon⟩ := h.generateLocalNode rand .empty
    rw [hrun, ok_bind]
    exact struct2file_nodesAt ⟨_, hon⟩
  · exact h.generateNodeInfo rand _

theorem short_generateId (time : Nat) : Short (decimal (generateId rand time)) := by
  obtain ⟨hlo, hhi⟩ := generateId_range rand time
  rcases decimal_eq (generateId rand time) with ⟨heq, -⟩ | ⟨-, hneg⟩
  · have hlen : (natText (generateId rand time).toInt.natAbs).length ≤ 5 :=
      natText_length_le (by decide) (by omega)
    rw [Short, heq]
    omega
  · omega

theorem marks_short : ∀ s ∈ [noString, clientIP, serverIP], Short s.val := by decide

theorem hostIp_narrow (host : Host) {validity : Int32} (hv : Short (decimal validity)) :
    (host.ip validity).Narrow := by
  have hzero : Short (decimal 0) := by decide
  unfold Host.ip
  split
  · exact ⟨marks_short noString (by simp), hzero, hzero⟩
  · exact ⟨marks_short clientIP (by simp), hzero, hv⟩

theorem Machine.node_fits (m : Machine) : FitsDecoder [m.node rand] := by
  have hone : Short (decimal 1) := by decide
  have hzero : Short (decimal 0) := by decide
  have hid : Short (decimal (m.id rand)) := short_generateId m.time
  unfold Machine.node
  split
  · have hlines : lineCount [m.toHost.localNode (m.id rand)] = 11 := rfl
    refine ⟨by omega, fun n hn => ?_⟩
    obtain rfl := List.mem_singleton.mp hn
    refine ⟨hid, hone, hone, fun x hx => ?_⟩
    obtain rfl := List.mem_singleton.mp hx
    exact hostIp_narrow _ hone
  · rename_i server_ip _
    have hlines : lineCount [m.toHost.nodeInfo (m.id rand) server_ip] = 15 := rfl
    refine ⟨by omega, fun n hn => ?_⟩
    obtain rfl := List.mem_singleton.mp hn
    refine ⟨hid, hone, hone, fun x hx => ?_⟩
    rcases List.mem_cons.mp hx with rfl | hx
    · exact hostIp_narrow _ hzero
    · obtain rfl := List.mem_singleton.mp hx
      exact ⟨marks_short serverIP (by simp), hzero, hzero⟩

/-! ## What the server has then -/

theorem served_of_registerAll {ms : List Machine} {s s' : ServerState}
    (h : registerAll rand ms s = .ok s') : ∀ m ∈ ms, m.toHost.Served := by
  intro m hm
  obtain ⟨t, t', hstep⟩ := foldlM_step_of_ok h hm
  obtain ⟨text, htext, -⟩ := bind_eq_ok.mp hstep
  exact served_of_infofile htext

/-- Registrations are a run of messages of one node each. -/
theorem registerAll_run (rand : UInt32 → Nat) {s₀ : ServerState} {l : List Node} (h₀ : Stored s₀ l)
    (ms : List Machine)
    (hms : ∀ m ∈ ms, m.toHost.Served) : ∃ s, registerAll rand ms s₀ = .ok s ∧
      Run s₀ (ms.map (fun m => [m.node rand])) s := by
  induction ms using List.reverseRecOn with
  | nil => exact ⟨s₀, rfl, .start⟩
  | append_singleton ms m ih =>
    obtain ⟨s, hall, hrun⟩ := ih (fun m hm' => hms m (by simp [hm']))
    have hbuf := decodes_encode (m := [m.node rand]) (by simpa using m.node_plain.toOneLine)
      m.node_fits s
    obtain ⟨s', hstep, -⟩ := (hrun.stored h₀).handle hbuf
    refine ⟨s', ?_, ?_⟩
    · unfold registerAll at hall ⊢
      rw [List.foldlM_append, hall, ok_bind, List.foldlM_cons, infofile_of_served (hms m (by simp)),
        ok_bind, hstep]
      rfl
    · rw [List.map_append]
      exact .handle hrun hbuf hstep

theorem nodeCount_lt_one {n : Node} : n.nodeCount < 1 ↔ n.rank < 1 := Int32.lt_iff_toInt_lt

/-- A record of the store that has a count stays. -/
theorem isFirstMax_of_old {S : List Node} (hS : Sound S) {ms : List Machine} {n : Node}
    (hn : n ∈ S) (hcount : ¬ n.nodeCount < 1) :
    IsFirstMax Node.id Node.rank (S ++ ms.map (Machine.node rand)) n := by
  apply isFirstMax_of_left hS.ids hn
  intro y hy hid
  obtain ⟨m, -, rfl⟩ := List.mem_map.mp hy
  rw [Machine.node_rank]
  exact not_lt.mp (fun h => hcount (nodeCount_lt_one.mpr h))

/-- A machine replaces a record without a count. -/
theorem isFirstMax_of_new {S : List Node} {ms : List Machine}
    (hids : (ms.map (Machine.id rand)).Nodup) {m : Machine} (hm : m ∈ ms)
    (hold : ∀ n ∈ S, n.id = m.id rand → n.nodeCount < 1) :
    IsFirstMax Node.id Node.rank (S ++ ms.map (Machine.node rand)) (m.node rand) := by
  apply isFirstMax_of_right
  · rw [List.map_map]
    simpa [Function.comp_def] using hids
  · exact List.mem_map.mpr ⟨m, hm, rfl⟩
  · intro n hn hid
    rw [Machine.node_rank]
    exact nodeCount_lt_one.mp (hold n hn (hid.trans m.node_id))

theorem nodup_registrations {ms : List Machine} (hids : (ms.map (Machine.id rand)).Nodup) :
    (ms.map (fun m => (m.id rand, m.ips))).Nodup := by
  apply List.Nodup.of_map Prod.fst
  rw [List.map_map]
  exact hids

section Kept

variable {S : List Node} (hS : Sound S) (hne : S ≠ []) {s₀ : ServerState} (h₀ : s₀.Holds S)

include hS hne h₀

theorem registerAll_settled {ms : List Machine} (hms : ∀ m ∈ ms, m.toHost.Served) :
    ∃ s l, registerAll rand ms s₀ = .ok s ∧ s.Reads l ∧
      Settled Node.id Node.rank (S ++ ms.map (Machine.node rand)) l := by
  obtain ⟨s, hall, hrun⟩ := registerAll_run rand (hS.stored hne h₀) ms hms
  have hsound : ∀ l ∈ ms.map (fun m => [m.node rand]), Sound l := by
    intro l hl
    obtain ⟨m, -, rfl⟩ := List.mem_map.mp hl
    exact ⟨by simp [ids], by simpa using m.node_plain⟩
  obtain ⟨l, hl, hplain, hsettled⟩ := Run.settled hS hne h₀ hrun hsound
  have hflat : (ms.map (fun m => [m.node rand])).flatten = ms.map (Machine.node rand) := by
    rw [← List.flatMap_def, List.map_eq_flatMap]
  rw [hflat] at hsettled
  have hreads := hl.reads
  rw [map_stripped_of_plain hplain] at hreads
  exact ⟨s, l, hall, hreads, hsettled⟩

theorem KeepsRegistrations.settled {ms : List Machine} (h : KeepsRegistrations rand ms s₀) :
    ∃ l, (∀ m ∈ ms, m.toHost.Served) ∧
      Settled Node.id Node.rank (S ++ ms.map (Machine.node rand)) l ∧
      (ms.map (fun m => (m.id rand, m.ips))).Subperm
        (l.map (fun n => (n.id, n.ipList.map IP.ip))) := by
  obtain ⟨s', l', hall', hl', hsub⟩ := h
  have hserved := served_of_registerAll hall'
  obtain ⟨s, l, hall, hl, hsettled⟩ := registerAll_settled hS hne h₀ hserved
  rw [hall] at hall'
  cases hall'
  obtain rfl := hl.unique hl'
  exact ⟨l, hserved, hsettled, hsub⟩

theorem KeepsRegistrations.nodup {ms : List Machine} (h : KeepsRegistrations rand ms s₀) :
    (ms.map (Machine.id rand)).Nodup := by
  obtain ⟨l, -, hsettled, entries, hperm, hsublist⟩ := h.settled hS hne h₀
  have hstore := hsublist.map Prod.fst
  rw [List.map_map] at hstore
  have hids := (hperm.map Prod.fst).nodup_iff.mp (hsettled.nodup.sublist hstore)
  rw [List.map_map] at hids
  exact hids

/-- No registration is lost exactly when the generators do what they look like on every
machine, all ids that were drawn are different, and a record that the store has under one
of them carries no count, or the same addresses. -/
theorem keepsRegistrations_iff (ms : List Machine) : KeepsRegistrations rand ms s₀ ↔
    (∀ m ∈ ms, m.toHost.Served) ∧ (ms.map (Machine.id rand)).Nodup ∧
      ∀ m ∈ ms, ∀ n ∈ S, n.id = m.id rand → n.nodeCount < 1 ∨ n.ipList.map IP.ip = m.ips := by
  constructor
  · intro hkeeps
    obtain ⟨l, hserved, hsettled, hsub⟩ := hkeeps.settled hS hne h₀
    refine ⟨hserved, hkeeps.nodup hS hne h₀, fun m hm n hn hid => ?_⟩
    by_cases hcount : n.nodeCount < 1
    · exact .inl hcount
    · have hnl : n ∈ l := hsettled.mem_iff.mpr (isFirstMax_of_old hS hn hcount)
      obtain ⟨z, hz, heq⟩ := List.mem_map.mp (hsub.subset (List.mem_map.mpr ⟨m, hm, rfl⟩))
      have hzid : z.id = n.id := (congrArg Prod.fst heq).trans hid.symm
      rw [eq_of_key_eq hsettled.nodup hz hnl hzid] at heq
      exact .inr (congrArg Prod.snd heq)
  · rintro ⟨hserved, hids, hold⟩
    obtain ⟨s, l, hall, hl, hsettled⟩ := registerAll_settled hS hne h₀ hserved
    refine ⟨s, l, hall, hl, List.subperm_of_subset (nodup_registrations hids) ?_⟩
    intro e he
    obtain ⟨m, hm, rfl⟩ := List.mem_map.mp he
    by_cases hkept : ∃ n ∈ S, n.id = m.id rand ∧ ¬ n.nodeCount < 1
    · obtain ⟨n, hn, hid, hcount⟩ := hkept
      have hips := (hold m hm n hn hid).resolve_left hcount
      have hnl := hsettled.mem_iff.mpr (isFirstMax_of_old hS hn hcount)
      exact List.mem_map.mpr ⟨n, hnl, by rw [hid, hips]⟩
    · have hold' : ∀ n ∈ S, n.id = m.id rand → n.nodeCount < 1 :=
        fun n hn hid => not_not.mp (fun hcount => hkept ⟨n, hn, hid, hcount⟩)
      have hnew := isFirstMax_of_new hids hm hold'
      refine List.mem_map.mpr ⟨m.node rand, hsettled.mem_iff.mpr hnew, ?_⟩
      rw [Machine.node_id, Machine.node_ips (hserved m hm)]

end Kept

/-- A machine with one address, and with memory that is zero. -/
def sampleMachine (time : Nat) (address : Address) : Machine where
  time := time
  addresses := [address]
  cleared := true
  connected := List.cons_ne_nil _ _
  server := none

def otherAddress : Address := ⟨lit "10.0.0.2", by simp [lit, isDigit], by decide⟩

theorem keepsRegistrations_iff_sample :
    let ms := [sampleMachine 0 sampleAddress, sampleMachine 1 otherAddress]
    KeepsRegistrations UInt32.toNat ms sampleServer ↔
      (∀ m ∈ ms, m.toHost.Served) ∧ (ms.map (Machine.id UInt32.toNat)).Nodup ∧
        ∀ m ∈ ms, ∀ n ∈ sampleA, n.id = m.id UInt32.toNat →
          n.nodeCount < 1 ∨ n.ipList.map IP.ip = m.ips :=
  keepsRegistrations_iff sound_sampleA (by simp [sampleA]) sampleServer_holds _

/-- Two machines that are set up in the same second. -/
theorem not_keepsRegistrations_second : ¬ KeepsRegistrations UInt32.toNat
    [sampleMachine 0 sampleAddress, sampleMachine 0 otherAddress] sampleServer := by
  intro hkeeps
  have hids := hkeeps.nodup sound_sampleA (by simp [sampleA]) sampleServer_holds
  exact absurd hids (by decide)

end VpnP2p.Server
