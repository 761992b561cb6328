import VpnP2p.CronJob.ThreadRuns

/-!
# Between reading and writing the infofile

A register message is handled in four calls, and each of them goes to whatever
`local_node` is at that moment. A node that is generated between the reading and the
writing of the infofile takes the place of all nodes that were read, and the infofile is
then overwritten with it. Where nothing is generated in between, nothing is lost, and the
threads do what they would do one after the other.
-/

namespace VpnP2p.CronJob

open Foundation NodeInfo Util Server

/-! ## What has happened since the infofile was read -/

/-- The node that was generated last since the infofile was read, and whether since then the
message was merged and the IPs of the first node were replaced. -/
structure Window where
  drawn : Option Host
  merged : Bool
  assigned : Bool

def Window.call (w : Window) : Call → Window
  | .load => ⟨none, false, false⟩
  | .generate host => ⟨some host, false, false⟩
  | .merge => { w with merged := true }
  | .assign => { w with assigned := true }
  | _ => w

/-- What is about to be written: the infofile had `l`, the message brought `m`. -/
def Window.content (rand : UInt32 → Nat) (w : Window) (l m : List Node) : List Node :=
  let base := match w.drawn with
    | none => l.map Node.stripped
    | some host => [host.localNode (generateId rand host.time)]
  if w.merged then mergeNodes base m else base

/-- The window that is open, the last message, and for each time the infofile was written
what they were. -/
structure History where
  window : Window
  message : List Node
  saves : List (Window × List Node)

def History.call (s : History) (c : Call) : History where
  window := s.window.call c
  message := match c with
    | .decode msg => msg.nodes
    | _ => s.message
  saves := match c with
    | .save => s.saves ++ [(s.window, s.message)]
    | _ => s.saves

def history (calls : List Call) : History := calls.foldl History.call ⟨⟨none, false, false⟩, [], []⟩

@[simp] theorem history_concat (calls : List Call) (c : Call) :
    history (calls ++ [c]) = (history calls).call c := by
  rw [history, List.foldl_append]
  rfl

/-! ## Ids and counts -/

/-- The ids and counts of a list, in its order. -/
def tags (l : List Node) : List (Int32 × Int32) := l.map (fun n => (n.id, n.nodeCount))

theorem ids_eq_of_tags {l l' : List Node} (h : tags l = tags l') : ids l = ids l' := by
  have hfst := congrArg (List.map Prod.fst) h
  rwa [tags, tags, List.map_map, List.map_map] at hfst

theorem tags_stripped (l : List Node) : tags (l.map Node.stripped) = tags l := by
  rw [tags, List.map_map]
  rfl

theorem tags_setHead (xs : List IP) (l : List Node) : tags (setHead xs l) = tags l := by
  cases l <;> rfl

theorem tags_eq_iff {l l' : List Node} : tags l = tags l' ↔
    List.Forall₂ (fun n n' => (n.id, n.nodeCount) = (n'.id, n'.nodeCount)) l l' := by
  rw [tags, tags, ← List.forall₂_eq_eq_eq, List.forall₂_map_left_iff, List.forall₂_map_right_iff]

/-- The IPs have no say in a merge. -/
theorem tags_mergeNodes {l l' : List Node} (h : tags l = tags l') (m : List Node) :
    tags (mergeNodes l m) = tags (mergeNodes l' m) := by
  have hrank : ∀ n n' : Node, (n.id, n.nodeCount) = (n'.id, n'.nodeCount) →
      n.id = n'.id ∧ n.rank = n'.rank := by
    intro n n' hn
    obtain ⟨hid, hcount⟩ := Prod.mk.inj hn
    exact ⟨hid, congrArg Int32.toInt hcount⟩
  exact tags_eq_iff.mpr (rel_merge hrank (tags_eq_iff.mp h) (tags_eq_iff.mp rfl))

theorem Window.mem_ids_content {rand : UInt32 → Nat} {w : Window} {l m : List Node} {id : Int32} :
    id ∈ ids (w.content rand l m) ↔ (match w.drawn with
      | none => id ∈ ids l
      | some host => id = generateId rand host.time) ∨ w.merged = true ∧ id ∈ ids m := by
  have hone : ∀ host : Host, ids [host.localNode (generateId rand host.time)] =
      [generateId rand host.time] := fun _ => rfl
  obtain ⟨drawn, merged, assigned⟩ := w
  cases drawn with
  | none =>
    cases merged with
    | false => simp [Window.content, ids_map_stripped]
    | true => simp [Window.content, mem_ids_mergeNodes, ids_map_stripped]
  | some host =>
    cases merged with
    | false => simp [Window.content, hone]
    | true => simp [Window.content, mem_ids_mergeNodes, hone]

theorem Window.content_of_none {rand : UInt32 → Nat} {w : Window} (hdrawn : w.drawn = none)
    (hmerged : w.merged = true) (l m : List Node) :
    w.content rand l m = mergeNodes (l.map Node.stripped) m := by
  rw [Window.content, hdrawn, if_pos hmerged]

/-! ## What is in place -/

/-- The list has the ids and counts that are expected, and the IPs too unless those of its
first node were replaced. -/
def Agrees (w : Window) (expected nodes : List Node) : Prop :=
  tags nodes = tags expected ∧ (w.assigned = false → nodes = expected)

/-- Where the receiver goes from a call. -/
def Receiver.next : Receiver → Receiver → Prop
  | .waiting, r => ∃ q, r = .decoded q
  | .decoded q, r => r = .loaded q
  | .loaded _, r => r = .merged
  | .merged, r => r = .saved
  | .saved, r => r = .waiting

/-- Where the timer goes from a call. -/
def Timer.next : Timer → Timer → Prop
  | .sleeping, c => ∃ e, c = .generated e
  | .generated e, c => c = .compared e
  | .compared _, c => c = .sleeping

/-- While the message is being handled, the window says what is in `local_node`. -/
structure Windowed (rand : UInt32 → Nat) (r : Receiver) (a : Values) (s : History) : Prop where
  message : a.message = s.message
  loaded : ∀ q, r = .loaded q → s.window.merged = false ∧
    Agrees s.window (s.window.content rand a.file a.message) a.nodes
  merged : r = .merged → (s.window.drawn = none → s.window.merged = true) ∧
    Agrees s.window (s.window.content rand a.file a.message) a.nodes

/-- Elsewhere the window does not matter. -/
theorem windowed_elsewhere {rand : UInt32 → Nat} {r : Receiver} {a : Values} {s : History}
    (h : a.message = s.message) (hloaded : ∀ q, r ≠ .loaded q) (hmerged : r ≠ .merged) :
    Windowed rand r a s :=
  ⟨h, fun q hq => absurd hq (hloaded q), fun hr => absurd hr hmerged⟩

section Steps

variable {rand : UInt32 → Nat} {t t' : Threads} {a : Values} {s : History} {msg : Register}
  {host : Host}

theorem receive_next (h : t.receive msg = .ok t') :
    t.receiver.next t'.receiver ∧ t'.timer = t.timer := by
  unfold Threads.receive at h
  cases hr : t.receiver with
  | waiting =>
    rw [hr] at h
    obtain ⟨⟨g, q⟩, -, h⟩ := bind_eq_ok.mp h
    cases h
    exact ⟨⟨q, rfl⟩, rfl⟩
  | saved =>
    rw [hr] at h
    obtain ⟨r, -, h⟩ := bind_eq_ok.mp h
    obtain ⟨sends, -, h⟩ := bind_eq_ok.mp h
    cases h
    exact ⟨rfl, rfl⟩
  | _ =>
    rw [hr] at h
    obtain ⟨r, -, h⟩ := bind_eq_ok.mp h
    cases h
    exact ⟨rfl, rfl⟩

theorem refresh_next (h : t.refresh rand host = .ok t') :
    t.timer.next t'.timer ∧ t'.receiver = t.receiver := by
  unfold Threads.refresh at h
  split at h
  · rename_i hc
    obtain ⟨r, -, h⟩ := bind_eq_ok.mp h
    obtain ⟨c, -, h⟩ := bind_eq_ok.mp h
    cases h
    rw [hc]
    exact ⟨⟨_, rfl⟩, rfl⟩
  · rename_i e hc
    obtain ⟨c, -, h⟩ := bind_eq_ok.mp h
    obtain ⟨identical, -, h⟩ := bind_eq_ok.mp h
    rw [hc]
    split at h
    · obtain ⟨ips, -, h⟩ := bind_eq_ok.mp h
      cases h
      exact ⟨rfl, rfl⟩
    · cases h
      exact ⟨rfl, rfl⟩
  · rename_i e hc
    obtain ⟨nodes, -, h⟩ := bind_eq_ok.mp h
    cases h
    rw [hc]
    exact ⟨rfl, rfl⟩

theorem Agrees.merge {w : Window} (hw : w.merged = false) {l m nodes : List Node}
    (h : Agrees w (w.content rand l m) nodes) :
    Agrees (w.call .merge) ((w.call .merge).content rand l m) (mergeNodes nodes m) := by
  have hbefore : w.content rand l m = match w.drawn with
      | none => l.map Node.stripped
      | some host => [host.localNode (generateId rand host.time)] := by
    unfold Window.content
    rw [hw]
    rfl
  have hafter : (w.call .merge).content rand l m = mergeNodes (w.content rand l m) m := by
    rw [hbefore]
    rfl
  rw [hafter]
  exact ⟨tags_mergeNodes h.1 m, fun hassigned => by rw [h.2 hassigned]⟩

/-- One call of the receiver. -/
theorem Windowed.receive (h : Windowed rand t.receiver a s) (hstep : t.receive msg = .ok t') :
    Windowed rand t'.receiver (a.call rand (t.receiver.call msg))
      (s.call (t.receiver.call msg)) := by
  obtain ⟨hnext, -⟩ := receive_next hstep
  cases hr : t.receiver with
  | waiting =>
    rw [hr] at hnext
    obtain ⟨q, hq⟩ := hnext
    rw [hq]
    exact windowed_elsewhere rfl (by simp) (by simp)
  | decoded q =>
    rw [hr] at hnext
    rw [show t'.receiver = .loaded q from hnext]
    exact ⟨h.message, fun _ _ => ⟨rfl, rfl, fun _ => rfl⟩, by simp⟩
  | loaded q =>
    rw [hr] at hnext
    rw [show t'.receiver = .merged from hnext]
    obtain ⟨hw, hagrees⟩ := h.loaded q hr
    exact ⟨h.message, by simp, fun _ => ⟨fun _ => rfl, hagrees.merge hw⟩⟩
  | merged =>
    rw [hr] at hnext
    rw [show t'.receiver = .saved from hnext]
    exact windowed_elsewhere h.message (by simp) (by simp)
  | saved =>
    rw [hr] at hnext
    rw [show t'.receiver = .waiting from hnext]
    exact windowed_elsewhere h.message (by simp) (by simp)

/-- One call of the refresh. -/
theorem Windowed.refresh (h : Windowed rand t.receiver a s)
    (hstep : t.refresh rand host = .ok t') :
    Windowed rand t'.receiver (a.call rand (t.timer.call host)) (s.call (t.timer.call host)) := by
  rw [(refresh_next hstep).2]
  cases t.timer with
  | sleeping =>
    exact ⟨h.message, fun _ _ => ⟨rfl, rfl, fun _ => rfl⟩,
      fun _ => ⟨fun hnone => (nomatch hnone), rfl, fun _ => rfl⟩⟩
  | generated e => exact ⟨h.message, h.loaded, h.merged⟩
  | compared e =>
    have hassign : ∀ expected, Agrees s.window expected a.nodes →
        Agrees (s.window.call .assign) expected (setHead [a.entry] a.nodes) :=
      fun expected hagrees =>
        ⟨(tags_setHead _ _).trans hagrees.1, fun hfalse => (nomatch hfalse)⟩
    exact ⟨h.message, fun q hl => ⟨(h.loaded q hl).1, hassign _ (h.loaded q hl).2⟩,
      fun hl => ⟨(h.merged hl).1, hassign _ (h.merged hl).2⟩⟩

end Steps

/-! ## Runs -/

section Runs

variable {rand : UInt32 → Nat} {t t₀ : Threads} {S : List Node} {calls : List Call}
  (h₀ : t₀.Idle S) (hrun : Threads.Run rand t₀ calls t)

include h₀ hrun

theorem Threads.Run.windowed :
    Windowed rand t.receiver (.after rand S calls) (history calls) := by
  induction hrun with
  | start =>
    rw [h₀.receiver]
    exact windowed_elsewhere rfl (by simp) (by simp)
  | receive _ hstep ih =>
    rw [Values.after_concat, history_concat]
    exact ih.receive hstep
  | refresh _ hstep ih =>
    rw [Values.after_concat, history_concat]
    exact ih.refresh hstep

/-- Whatever the other thread has done since the infofile was read, these are the ids and
counts that are written; none that was there or in the message is lost unless a node was
generated, and then only what it is and the message still brings is kept. -/
theorem save_writes (hr : t.receiver = .merged) (msg : Register) :
    ∃ t' l l', t.receive msg = .ok t' ∧ t.Holds l ∧ t'.Holds l' ∧
      Agrees (history calls).window ((history calls).window.content rand l (history calls).message)
        l' ∧
      ((∀ id, id ∈ ids l ∨ id ∈ ids (history calls).message → id ∈ ids l') ↔
        ∀ host, (history calls).window.drawn = some host →
          ∀ id, id ∈ ids l ∨ id ∈ ids (history calls).message →
            id = generateId rand host.time ∨
              (history calls).window.merged = true ∧ id ∈ ids (history calls).message) := by
  have hmatched := hrun.matched h₀
  have hwindow := hrun.windowed h₀
  obtain ⟨hmerged, hagrees⟩ := hwindow.merged hr
  obtain ⟨t', hstep, hmatched'⟩ := hmatched.save rand hr msg
  refine ⟨t', _, _, hstep, hmatched.stored.holds, hmatched'.stored.holds, ?_, ?_⟩
  · rw [← hwindow.message]
    exact hagrees
  · rw [← hwindow.message]
    have hwritten : ∀ id, id ∈ ids (Values.after rand S calls).nodes ↔ _ := fun id => by
      rw [ids_eq_of_tags hagrees.1, Window.mem_ids_content]
    cases hdrawn : (history calls).window.drawn with
    | none =>
      rw [hdrawn] at hwritten
      refine iff_of_true (fun id hid => (hwritten id).mpr ?_) (by simp)
      exact hid.imp_right (fun hm => ⟨hmerged hdrawn, hm⟩)
    | some host =>
      rw [hdrawn] at hwritten
      constructor
      · intro hkept host' hhost id hid
        cases hhost
        exact (hwritten id).mp (hkept id hid)
      · intro hharmless id hid
        exact (hwritten id).mpr (hharmless host rfl id hid)

/-- As long as nothing is generated between a reading of the infofile and the writing after it,
the infofile has what it would have if the messages had been handled one after the other, but
for the IPs of its first node; and these too if none are replaced there. -/
theorem no_update_lost (hsaves : ∀ s ∈ (history calls).saves, s.1.drawn = none) :
    ∃ l, t.Holds l ∧ tags l = tags (storeAfter S ((history calls).saves.map Prod.snd)) ∧
      ((∀ s ∈ (history calls).saves, s.1.assigned = false) →
        l = storeAfter S ((history calls).saves.map Prod.snd)) := by
  refine ⟨_, (hrun.matched h₀).stored.holds, ?_⟩
  induction hrun with
  | start => exact ⟨rfl, fun _ => rfl⟩
  | @receive calls t t' msg hrun hstep ih =>
    rw [history_concat, Values.after_concat] at *
    cases hr : t.receiver with
    | merged =>
      rw [hr] at hsaves
      have hbefore := ih (fun s hs => hsaves s (List.mem_append_left _ hs))
      have hnone : (history calls).window.drawn = none :=
        hsaves _ (List.mem_append_right _ (List.mem_singleton_self _))
      have hwindow := hrun.windowed h₀
      obtain ⟨hmerged, hagrees⟩ := hwindow.merged hr
      rw [hwindow.message, Window.content_of_none hnone (hmerged hnone)] at hagrees
      have hstore : storeAfter S (((history calls).call .save).saves.map Prod.snd) =
          mergeNodes ((storeAfter S ((history calls).saves.map Prod.snd)).map Node.stripped)
            (history calls).message := by
        rw [← storeAfter_concat, History.call, List.map_append]
        rfl
      show tags (Values.after rand S calls).nodes = tags (storeAfter S
          (((history calls).call .save).saves.map Prod.snd)) ∧
        ((∀ s ∈ ((history calls).call .save).saves, s.1.assigned = false) →
          (Values.after rand S calls).nodes =
            storeAfter S (((history calls).call .save).saves.map Prod.snd))
      rw [hstore]
      constructor
      · refine hagrees.1.trans (tags_mergeNodes ?_ _)
        rw [tags_stripped, tags_stripped]
        exact hbefore.1
      · intro hassigned
        have hlast := hassigned _ (List.mem_append_right _ (List.mem_singleton_self _))
        rw [hagrees.2 hlast, hbefore.2 (fun s hs => hassigned s (List.mem_append_left _ hs))]
    | _ =>
      rw [hr] at hsaves
      exact ih hsaves
  | @refresh calls t t' host hrun hstep ih =>
    rw [history_concat, Values.after_concat] at *
    cases hc : t.timer with
    | _ =>
      rw [hc] at hsaves
      exact ih hsaves

end Runs

/-! ## A message and a generation -/

/-- The receiver goes on to where the infofile is read, whatever the refresh has done. -/
theorem Threads.Run.loads {rand : UInt32 → Nat} {t t₀ : Threads} {S : List Node}
    {calls : List Call} (h₀ : t₀.Idle S) (hrun : Threads.Run rand t₀ calls t)
    (hr : t.receiver = .waiting) (msg : Register) : ∃ t' q,
    Threads.Run rand t₀ (calls ++ [.decode msg] ++ [.load]) t' ∧ t'.receiver = .loaded q ∧
      t'.timer = t.timer := by
  obtain ⟨t₁, hstep₁, hmatched₁⟩ := (hrun.matched h₀).decode rand hr msg
  have hrun₁ := Threads.Run.receive hrun hstep₁
  obtain ⟨hnext₁, htimer₁⟩ := receive_next hstep₁
  rw [hr] at hnext₁ hrun₁
  obtain ⟨q, hq⟩ := hnext₁
  obtain ⟨t₂, hstep₂, -⟩ := hmatched₁.load rand hq msg
  have hrun₂ := Threads.Run.receive hrun₁ hstep₂
  obtain ⟨hnext₂, htimer₂⟩ := receive_next hstep₂
  rw [hq] at hnext₂ hrun₂
  exact ⟨t₂, q, hrun₂, hnext₂, htimer₂.trans htimer₁⟩

/-- And from there to where it is written, if the refresh is not picked. -/
theorem Threads.Run.writes {rand : UInt32 → Nat} {t t₀ : Threads} {S : List Node}
    {calls : List Call} (h₀ : t₀.Idle S) (hrun : Threads.Run rand t₀ calls t) {q : Ptr}
    (hq : t.receiver = .loaded q) (msg : Register) : ∃ t',
    Threads.Run rand t₀ (calls ++ [.merge] ++ [.save]) t' ∧ t'.timer = t.timer := by
  obtain ⟨t₁, hstep₁, hmatched₁⟩ := (hrun.matched h₀).merge rand hq msg
  have hrun₁ := Threads.Run.receive hrun hstep₁
  obtain ⟨hmerged, htimer₁⟩ := receive_next hstep₁
  rw [hq] at hmerged hrun₁
  obtain ⟨t₂, hstep₂, -⟩ := hmatched₁.save rand hmerged msg
  have hrun₂ := Threads.Run.receive hrun₁ hstep₂
  obtain ⟨-, htimer₂⟩ := receive_next hstep₂
  rw [show t₁.receiver = .merged from hmerged] at hrun₂
  exact ⟨t₂, hrun₂, htimer₂.trans htimer₁⟩

/-- The node is generated when the infofile has been read. -/
theorem save_writes_sample : ∃ t,
    Threads.Run UInt32.toNat sampleThreads
      [.decode sampleRegister, .load, .generate sampleHost, .merge] t ∧
    ∃ t' l l', t.receive sampleRegister = .ok t' ∧ t.Holds l ∧ t'.Holds l' ∧
      Agrees ⟨some sampleHost, true, false⟩
        (Window.content UInt32.toNat ⟨some sampleHost, true, false⟩ l (sampleNodes [124])) l' ∧
      ((∀ id, id ∈ ids l ∨ id ∈ ids (sampleNodes [124]) → id ∈ ids l') ↔
        ∀ host, some sampleHost = some host →
          ∀ id, id ∈ ids l ∨ id ∈ ids (sampleNodes [124]) →
            id = generateId UInt32.toNat host.time ∨
              true = true ∧ id ∈ ids (sampleNodes [124])) := by
  have hstart : Threads.Run UInt32.toNat sampleThreads [] sampleThreads := .start
  obtain ⟨t, q, hrun, hq, htimer⟩ := hstart.loads sampleThreads_idle rfl sampleRegister
  have hmatched := hrun.matched sampleThreads_idle
  obtain ⟨t₁, hstep₁⟩ :=
    (hmatched.generate UInt32.toNat htimer sampleHost).1.mpr sampleHost_served
  have hrun₁ := Threads.Run.refresh hrun hstep₁
  rw [htimer] at hrun₁
  have hq₁ : t₁.receiver = .loaded q := (refresh_next hstep₁).2.trans hq
  obtain ⟨t₂, hstep₂, -⟩ :=
    (hrun₁.matched sampleThreads_idle).merge UInt32.toNat hq₁ sampleRegister
  obtain ⟨hmerged, -⟩ := receive_next hstep₂
  have hrun₂ := Threads.Run.receive hrun₁ hstep₂
  rw [hq₁] at hmerged hrun₂
  exact ⟨t₂, hrun₂, save_writes sampleThreads_idle hrun₂ hmerged sampleRegister⟩

/-- A node is generated before the infofile is read, and its IPs are replaced after it has
been written again. -/
def sampleCalls : List Call :=
  [.generate sampleHost, .decode sampleRegister, .load, .merge, .save, .compare, .assign]

theorem no_update_lost_sample : ∃ t, Threads.Run UInt32.toNat sampleThreads sampleCalls t ∧
    ∃ l, t.Holds l ∧ tags l = tags (storeAfter sampleA [sampleNodes [124]]) ∧
      ((∀ s ∈ (history sampleCalls).saves, s.1.assigned = false) →
        l = storeAfter sampleA [sampleNodes [124]]) := by
  obtain ⟨t₁, hstep₁⟩ :=
    (sampleThreads_idle.matched.generate UInt32.toNat rfl sampleHost).1.mpr sampleHost_served
  have hrun₁ := Threads.Run.refresh .start hstep₁
  obtain ⟨t₂, q, hrun₂, hq, htimer₂⟩ :=
    hrun₁.loads sampleThreads_idle (refresh_next hstep₁).2 sampleRegister
  obtain ⟨t₃, hrun₃, htimer₃⟩ := hrun₂.writes sampleThreads_idle hq sampleRegister
  obtain ⟨⟨e, hgenerated⟩, -⟩ := refresh_next hstep₁
  have hc₃ := htimer₃.trans (htimer₂.trans hgenerated)
  obtain ⟨t₄, hstep₄, hmatched₄⟩ :=
    (hrun₃.matched sampleThreads_idle).compare UInt32.toNat hc₃ sampleHost
  have hrun₄ := Threads.Run.refresh hrun₃ hstep₄
  obtain ⟨hcompared, -⟩ := refresh_next hstep₄
  rw [hc₃] at hcompared
  obtain ⟨t₅, hstep₅, -⟩ := hmatched₄.assign UInt32.toNat hcompared sampleHost
  have hrun₅ := Threads.Run.refresh hrun₄ hstep₅
  rw [hc₃, hcompared] at hrun₅
  refine ⟨t₅, hrun₅, no_update_lost sampleThreads_idle hrun₅ ?_⟩
  intro s hs
  obtain rfl := List.mem_singleton.mp hs
  rfl

end VpnP2p.CronJob
