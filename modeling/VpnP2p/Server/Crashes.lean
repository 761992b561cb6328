import VpnP2p.CronJob.ThreadRuns
import VpnP2p.NodeInfo.CutFile

/-!
# A server that is killed

`struct2file` empties the infofile before it writes, so a server that is killed in
`handle_register` may leave any first part of the text. Started again, it reads what is
whole in it and goes on from there, unless not even the first node is: then no list comes
out of the infofile, and every registration from there on stops the server. So does one
whose list has become too long for the reply.
-/

namespace VpnP2p.Server.Crashes

open Foundation NodeInfo Util
open CronJob (Register answerRegister_iff)

/-! ## The code -/

/-- What happens to a server: it handles a register message, it is killed while it writes
and started again, with so many bytes in the infofile, or it is killed and started again at
another time. -/
inductive Event where
  | register (msg : Register)
  | kill (msg : Register) (written : Nat)
  | restart

/-- A new process over what is left under `FILENAME`. -/
def restarted (file : Option Text) : ServerState := ⟨.empty, file, .null⟩

def exec (s : ServerState) : Event → Result ServerState
  | .register msg => answerRegister s msg.buf
  | .kill msg written => do
    let s ← mergeAndSave s msg.buf
    .ok (restarted (s.file.map (·.take written)))
  | .restart => .ok (restarted s.file)

def run (s : ServerState) (es : List Event) : Result ServerState := es.foldlM exec s

/-! ## The list that the infofile has -/

/-- What `file2struct` finds after the event, where it found `R` before. -/
def leaves (R : List Node) : Event → List Node
  | .register msg => (mergeNodes R msg.nodes).map Node.stripped
  | .kill msg written => recovered (mergeNodes R msg.nodes) written
  | .restart => R

def left (l : List Node) (es : List Event) : List Node :=
  es.foldl leaves (l.map Node.stripped)

/-- The event can be gone through where `file2struct` finds `R`: a message needs a list that
it can be merged into, and its reply one that fits `Message.buf`. -/
def Event.Possible (R : List Node) : Event → Prop
  | .register msg => R ≠ [] ∧ (encode (mergeNodes R msg.nodes)).length < bufSize
  | .kill _ _ => R ≠ []
  | .restart => True

/-! ## One event -/

section Step

variable {s s' : ServerState} {l R : List Node} {msg : Register}

theorem readable_recovered (hl : ∀ n ∈ l, n.OneLine) (written : Nat) {file : Option Text}
    (hfile : file = some ((encode l).take written)) (h : Heap) (p : Ptr) :
    Readable ⟨h, file, p⟩ (recovered l written) where
  oneLine := fun n hn => oneLine_map_stripped hl n (List.mem_of_mem_take hn)
  read := by
    intro base
    rw [hfile]
    exact file2struct_take hl written base

/-- Nothing can be merged into the list that has no node. -/
theorem Readable.stuck (h : Readable s []) (msg : Register) : mergeAndSave s msg.buf ≠ .ok s' := by
  intro hrun
  obtain ⟨⟨h₁, p⟩, -, hrun⟩ := bind_eq_ok.mp hrun
  obtain ⟨⟨h₂, q⟩, hread, hrun⟩ := bind_eq_ok.mp hrun
  obtain ⟨h₃, hmerge, -⟩ := bind_eq_ok.mp hrun
  obtain ⟨h', p', as, hread', hon, -⟩ := h.read h₁
  rw [hread'] at hread
  cases hread
  cases hon.contents
  have hnull : q = .null := hon.links
  subst hnull
  exact Join.not_nodeMerge_null hmerge

/-- An event goes through exactly if it is possible. -/
theorem Readable.exec_iff (h : Readable s R) (e : Event) :
    (∃ s', exec s e = .ok s') ↔ e.Possible R := by
  cases e with
  | register msg =>
    constructor
    · rintro ⟨s', hrun⟩
      have hsave := mergeAndSave_of_answerRegister hrun
      have hne : R ≠ [] := by
        rintro rfl
        exact Readable.stuck h msg hsave
      obtain ⟨-, hlocal⟩ := h.handled hne (msg.decodes s) hsave
      exact ⟨hne, (answerRegister_iff hsave hlocal).mp hrun⟩
    · rintro ⟨hne, hlen⟩
      obtain ⟨t, hmerged, -, hlocal⟩ := h.handle hne (msg.decodes s)
      exact ⟨t, (answerRegister_iff hmerged hlocal).mpr hlen⟩
  | kill msg written =>
    constructor
    · rintro ⟨s', hrun⟩ rfl
      obtain ⟨t, hmerged, -⟩ := bind_eq_ok.mp hrun
      exact Readable.stuck h msg hmerged
    · intro hne
      obtain ⟨t, hmerged, -⟩ := h.handle hne (msg.decodes s)
      refine ⟨restarted (t.file.map (·.take written)), ?_⟩
      rw [exec, hmerged, ok_bind]
  | restart => exact iff_of_true ⟨_, rfl⟩ trivial

theorem Readable.exec (h : Readable s R) {e : Event} (hrun : exec s e = .ok s') :
    Readable s' (leaves R e) := by
  have hpossible : e.Possible R := (Readable.exec_iff h e).mp ⟨s', hrun⟩
  cases e with
  | register msg =>
    obtain ⟨hstored, -⟩ :=
      h.handled hpossible.1 (msg.decodes s) (mergeAndSave_of_answerRegister hrun)
    exact hstored.readable
  | kill msg written =>
    obtain ⟨t, hmerged, hrun⟩ := bind_eq_ok.mp hrun
    obtain ⟨hstored, -⟩ := h.handled hpossible (msg.decodes s) hmerged
    cases hrun
    apply readable_recovered hstored.oneLine
    rw [hstored.file, Option.map_some]
  | restart =>
    cases hrun
    exact ⟨h.oneLine, h.read⟩

/-- The ids up to the shorter of the two lists are the same. -/
theorem ids_leaves (e : Event) {k : Nat} (hbefore : k ≤ R.length)
    (hafter : k ≤ (leaves R e).length) : (ids (leaves R e)).take k = (ids R).take k := by
  have hmerge : ∀ msg : Register, (ids (mergeNodes R msg.nodes)).take k = (ids R).take k := by
    intro msg
    have hkeys : ids (mergeNodes R msg.nodes) = ids R ++ ids (fresh Node.id R msg.nodes) :=
      keys_merge Node.id Node.rank R msg.nodes
    rw [hkeys, List.take_append_of_le_length (by simpa [ids] using hbefore)]
  cases e with
  | register msg => rw [leaves, ids_map_stripped, hmerge msg]
  | kill msg written =>
    have hids : ids (recovered (mergeNodes R msg.nodes) written) =
        (ids (mergeNodes R msg.nodes)).take (wholeNodes (mergeNodes R msg.nodes) written) := by
      rw [recovered, ids, List.map_take, ← ids_map_stripped]
      rfl
    have hle : k ≤ wholeNodes (mergeNodes R msg.nodes) written := by
      rw [leaves, recovered, List.length_take] at hafter
      omega
    rw [leaves, hids, List.take_take, Nat.min_eq_left hle, hmerge msg]
  | restart => rfl

end Step

/-! ## Runs -/

section Runs

variable {s s' : ServerState} {l : List Node}

theorem run_concat (es : List Event) (e : Event) :
    run s (es ++ [e]) = .ok s' ↔ ∃ t, run s es = .ok t ∧ exec t e = .ok s' := by
  rw [run, List.foldlM_append, bind_eq_ok]
  simp only [List.foldlM_cons, List.foldlM_nil, bind_pure]
  rfl

theorem left_concat (es : List Event) (e : Event) :
    left l (es ++ [e]) = leaves (left l es) e := by
  rw [left, List.foldl_append]
  rfl

variable (h : Stored s l)

include h

theorem run_readable {es : List Event} (hrun : run s es = .ok s') : Readable s' (left l es) := by
  induction es using List.reverseRecOn generalizing s' with
  | nil =>
    cases hrun
    exact h.readable
  | append_singleton es e ih =>
    obtain ⟨t, hbefore, hstep⟩ := (run_concat es e).mp hrun
    rw [left_concat]
    exact Readable.exec (ih hbefore) hstep

theorem run_iff (es : List Event) : (∃ s', run s es = .ok s') ↔
    ∀ before e, before ++ [e] <+: es → e.Possible (left l before) := by
  induction es using List.reverseRecOn with
  | nil => exact iff_of_true ⟨s, rfl⟩ (fun before e hpre => by simp at hpre)
  | append_singleton es e ih =>
    rw [forall_prefix_concat, ← ih]
    constructor
    · rintro ⟨s', hrun⟩
      obtain ⟨t, hbefore, hstep⟩ := (run_concat es e).mp hrun
      exact ⟨⟨t, hbefore⟩, (Readable.exec_iff (run_readable h hbefore) e).mp ⟨s', hstep⟩⟩
    · rintro ⟨⟨t, hbefore⟩, hpossible⟩
      obtain ⟨s', hstep⟩ := (Readable.exec_iff (run_readable h hbefore) e).mpr hpossible
      exact ⟨s', (run_concat es e).mpr ⟨t, hbefore, hstep⟩⟩

omit h in
/-- As many ids as the list has had at every moment are where they were. -/
theorem ids_left {es : List Event} {k : Nat}
    (hk : ∀ before, before <+: es → k ≤ (left l before).length) :
    (ids (left l es)).take k = (ids l).take k := by
  induction es using List.reverseRecOn with
  | nil => rw [left, List.foldl_nil, ids_map_stripped]
  | append_singleton es e ih =>
    have hbefore : ∀ before, before <+: es → k ≤ (left l before).length :=
      fun before hpre => hk before (hpre.trans (List.prefix_append _ _))
    have hafter := hk (es ++ [e]) List.prefix_rfl
    rw [left_concat] at hafter ⊢
    rw [ids_leaves e (hbefore es List.prefix_rfl) hafter, ih hbefore]

/-- Killed and started again in any way, the server goes on exactly as long as each message
finds a node that is whole in the infofile, and each reply fits; and the infofile reads as
what the messages and the cuts leave; the ids in front of the places it was cut at stay. -/
theorem survives_kills (es : List Event) :
    ((∃ s', run s es = .ok s') ↔
      ∀ before e, before ++ [e] <+: es → e.Possible (left l before)) ∧
    ∀ s', run s es = .ok s' → s'.Reads (left l es) ∧
      ∀ k, (∀ before, before <+: es → k ≤ (left l before).length) →
        (ids (left l es)).take k = (ids l).take k :=
  ⟨run_iff h es, fun _ hrun => ⟨(run_readable h hrun).reads, fun _ hk => ids_left hk⟩⟩

end Runs

/-- Killed with twenty bytes of the first node in the infofile. -/
def sampleEvents : List Event :=
  [.kill CronJob.sampleRegister 20, .register CronJob.sampleRegister]

theorem survives_kills_sample :
    ((∃ s', run sampleServer sampleEvents = .ok s') ↔
      ∀ before e, before ++ [e] <+: sampleEvents → e.Possible (left sampleA before)) ∧
    ∀ s', run sampleServer sampleEvents = .ok s' → s'.Reads (left sampleA sampleEvents) ∧
      ∀ k, (∀ before, before <+: sampleEvents → k ≤ (left sampleA before).length) →
        (ids (left sampleA sampleEvents)).take k = (ids sampleA).take k :=
  survives_kills sampleServer_stored sampleEvents

end VpnP2p.Server.Crashes
