import VpnP2p.Join.Joining

/-!
# The life of an infofile

On a machine that runs the commands, and a server beside them, the infofile is first not
there, then lists nodes, and a `join` that finds it puts the reply over it: the list of another
server, or the NUL of an empty body. What a `start` or a register message does takes no id out
of it.
-/

namespace VpnP2p.Join.Commands

open Foundation NodeInfo Util Server
open CronJob (Register)

/-! ## What the machine does -/

/-- A command, or a register message at the server, whose memory is `h`. -/
inductive Command where
  | start (host : Host) (server_ip : Address)
  | join (j : Joining)
  | register (h : Heap) (msg : Register)

def Command.program (rand : UInt32 → Nat) : Command → Program Unit
  | .start host server_ip => Commands.start rand host server_ip
  | .join j => j.program rand
  | .register h msg => handleRegister h msg.buf

/-- The infofile of a new machine after the commands, however each of them ended. -/
def infofile (rand : UInt32 → Nat) (cs : List Command) : Option Text :=
  Lasting.history (Command.program rand) cs none

/-! ## What comes of it -/

/-- The infofile after a command. -/
def Infofile.next (rand : UInt32 → Nat) : Infofile → Command → Infofile
  | .absent, .start host server_ip =>
    .lists [host.nodeInfo (generateId rand host.time) server_ip]
  | .absent, .join j => j.generated rand
  | a, .join j => j.found a
  | .lists l, .register _ msg => .lists (mergeNodes (l.map Node.stripped) msg.nodes)
  | a, _ => a

/-- The infofile that the commands leave. -/
def lived (rand : UInt32 → Nat) (cs : List Command) : Infofile :=
  cs.foldl (Infofile.next rand) .absent

/-- What the command does is certain: a host has addresses that can be read, what comes of a
server that is contacted is known, and the list fits the message that it is sent or replied in;
out of a spoilt infofile the server reads nothing. -/
def Command.Possible : Infofile → Command → Prop
  | .absent, .start host _ => host.Served
  | .absent, .join j => j.Sound ∧ j.host.Served
  | .lists l, .join j =>
    Comes j.server.1 j.server.2 ∧ (j.useCache = 0 → (encode l).length < bufSize)
  | .spoilt, .join j => Comes j.server.1 j.server.2
  | .lists l, .register _ msg =>
    (encode (mergeNodes (l.map Node.stripped) msg.nodes)).length < bufSize
  | .spoilt, .register _ _ => False
  | _, _ => True

/-- The command returns. -/
def Command.Returns : Infofile → Command → Prop
  | _, .start _ _ => True
  | .absent, .join j => j.Finishes
  | .lists _, .register _ _ => True
  | _, _ => False

/-- The infofile is not removed, and loses no id. -/
inductive Infofile.Before : Infofile → Infofile → Prop
  | absent (a : Infofile) : Before .absent a
  | lists {l l' : List Node} : ids l <+: ids l' → Before (.lists l) (.lists l')
  | spoilt : Before .spoilt .spoilt

/-- The program leaves such an infofile, and returns if and only if `returns`. -/
structure Does (c : Program Unit) (file : Option Text) (a : Infofile) (returns : Prop) : Prop where
  shows : Shows (c.exec file).2 a
  returns : (∃ u, (c.exec file).1 = .ok u) ↔ returns
  certain : ∀ e, (c.exec file).1 = .error e → e.Certain

section Does

variable {c : Program Unit} {file file' : Option Text} {a : Infofile} {returns : Prop}

theorem Does.of_ok {u : Unit} (h : c.exec file = (.ok u, file')) (hshows : Shows file' a)
    (hreturns : returns) : Does c file a returns where
  shows := by
    rw [h]
    exact hshows
  returns := by
    rw [h]
    exact iff_of_true ⟨u, rfl⟩ hreturns
  certain := by
    intro e he
    rw [h] at he
    cases he

theorem Does.of_error {e : Stop} (h : c.exec file = (.error e, file')) (hcertain : e.Certain)
    (hshows : Shows file' a) (hreturns : ¬ returns) : Does c file a returns where
  shows := by
    rw [h]
    exact hshows
  returns := by
    rw [h]
    exact iff_of_false (by simp) hreturns
  certain := by
    intro e' he
    rw [h] at he
    cases he
    exact hcertain

end Does

/-! ## The infofile as a text -/

theorem Shows.textOf {file : Option Text} {l : List Node} (h : Shows file (.lists l)) :
    ∃ text, file = some text ∧ TextOf l text ∧
      ((encode l).length < bufSize → text.length < bufSize) := by
  obtain ⟨-, -, rfl | ⟨rfl, hlen⟩⟩ := h
  · exact ⟨_, rfl, .encode l, id⟩
  · refine ⟨_, rfl, .dropLast l, fun _ => ?_⟩
    rw [List.length_dropLast]
    omega

/-! ## One command -/

section Commands

variable (rand : UInt32 → Nat)

theorem does_start {file : Option Text} {a : Infofile} (hshows : Shows file a) {host : Host}
    {server_ip : Address} (hpossible : Command.Possible a (.start host server_ip)) :
    Does ((Command.start host server_ip).program rand) file (a.next rand (.start host server_ip))
      (Command.Returns a (.start host server_ip)) := by
  have hfound : ∀ text, ((Command.start host server_ip).program rand).exec (some text) =
      (.ok (), some text) := fun _ => rfl
  cases a with
  | absent =>
    obtain rfl : file = none := hshows
    have hserved : host.Served := hpossible
    have hwritten := ending_start rand host server_ip
    rw [hserved.generateNodeInfo, map_ok, ending_eq_ok] at hwritten
    refine .of_ok hwritten (shows_encode ?_ (by simp)) trivial
    intro n hn
    obtain rfl := List.mem_singleton.mp hn
    exact (host.nodeInfo_plain _ server_ip).toOneLine
  | lists l =>
    obtain ⟨text, rfl, -⟩ := hshows.textOf
    exact .of_ok (hfound text) hshows trivial
  | spoilt =>
    have hstays := hshows
    obtain ⟨text, rfl, -⟩ := hshows
    exact .of_ok (hfound text) hstays trivial

/-- A `join` that finds an infofile leaves it as it is, or as the reply says. -/
theorem does_join_found {text : Text} {a : Infofile} (hshows : Shows (some text) a) {j : Joining}
    (hserver : Comes j.server.1 j.server.2) (hfits : j.useCache = 0 → text.length < bufSize) :
    Does ((Command.join j).program rand) (some text) (j.found a) False := by
  obtain ⟨e, file, hexec, hcertain, htaken, hkept⟩ := join_found rand hserver hfits
  refine .of_error hexec hcertain ?_ id
  rw [Joining.found]
  split
  · rename_i huse
    cases hreply : j.server.2 with
    | none =>
      rw [hkept (fun h => h.2 hreply)]
      exact hshows
    | some R =>
      obtain ⟨hover, hlines⟩ := htaken huse R hreply
      exact shows_ofReply hlines hover
  · rename_i huse
    rw [hkept (fun h => huse h.1)]
    exact hshows

theorem does_join {file : Option Text} {a : Infofile} (hshows : Shows file a) {j : Joining}
    (hpossible : Command.Possible a (.join j)) : Does ((Command.join j).program rand) file
      (a.next rand (.join j)) (Command.Returns a (.join j)) := by
  cases a with
  | absent =>
    obtain rfl : file = none := hshows
    obtain ⟨hsound, hserved⟩ := hpossible
    obtain ⟨r, text, hexec, hall, hlost⟩ := join_new rand hsound hserved
    rw [Infofile.next, Joining.generated]
    by_cases hfinishes : j.Finishes
    · rw [if_pos hfinishes]
      obtain ⟨rfl, rfl⟩ := hall hfinishes
      refine .of_ok hexec (shows_encode ?_ (mergeAll_ne_nil (by simp) _)) hfinishes
      exact oneLine_mergeAll (j.host.localNode_oneLine _) hsound.oneLine
    · rw [if_neg hfinishes]
      obtain ⟨rfl, hleft⟩ := hlost hfinishes
      exact .of_error hexec trivial hleft hfinishes
  | lists l =>
    obtain ⟨hserver, hlen⟩ := hpossible
    obtain ⟨text, rfl, -, hfits⟩ := hshows.textOf
    exact does_join_found rand hshows hserver (fun huse => hfits (hlen huse))
  | spoilt =>
    have hstays := hshows
    obtain ⟨text, rfl, hspoilt⟩ := hshows
    exact does_join_found rand hstays hpossible (fun _ => hspoilt.fits)

/-- The server merges the message into the list and writes it, and can reply. -/
theorem does_register {file : Option Text} {a : Infofile} (hshows : Shows file a) {h : Heap}
    {msg : Register} (hpossible : Command.Possible a (.register h msg)) :
    Does ((Command.register h msg).program rand) file (a.next rand (.register h msg))
      (Command.Returns a (.register h msg)) := by
  cases a with
  | absent =>
    obtain rfl : file = none := hshows
    obtain ⟨h₁, p, hdecode, -⟩ := msg.decodes ⟨h, none, .null⟩
    refine .of_error (e := .fault .nullDeref) ?_ rfl rfl id
    rw [Command.program, handleRegister, exec_code_ok hdecode]
    rfl
  | lists l =>
    obtain ⟨text, hfile, htext, -⟩ := hshows.textOf
    obtain ⟨hlines, hne, -⟩ := hshows
    have hread : Readable ⟨h, file, .null⟩ (l.map Node.stripped) :=
      readable_textOf hlines htext hfile
    have hne' : l.map Node.stripped ≠ [] := by simpa using hne
    obtain ⟨h₁, h₂, h₃, p, q, hdecode, hread', hmerge, hmerged⟩ :=
      hread.merges hne' (msg.decodes ⟨h, file, .null⟩)
    have hmergedAt : NodesAt (ServerState.mk h₃ none q).heap q
      (mergeNodes (l.map Node.stripped) msg.nodes) := hmerged
    obtain ⟨m, hreply⟩ := CronJob.registerReply_total hmergedAt hpossible
    obtain ⟨-, -, hsend⟩ := CronJob.registerReply_inv hmergedAt hreply
    refine .of_ok (u := ()) ?_ (shows_encode
      (oneLine_mergeNodes hread.oneLine (msg.decodes ⟨h, file, .null⟩).oneLine)
      (merge_ne_nil hne')) trivial
    rw [Command.program, handleRegister, exec_code_ok hdecode]
    dsimp only
    rw [Lasting.exec_get_bind, exec_code_ok hread']
    dsimp only
    rw [exec_code_ok hmerge, Lasting.exec_bind_ok (exec_saveNodes hmerged _), exec_code_ok hreply,
      exec_code_ok hsend, Lasting.exec_pure]
  | spoilt => exact absurd hpossible id

theorem Command.Possible.does {c : Command} {file : Option Text} {a : Infofile}
    (hpossible : c.Possible a) (hshows : Shows file a) :
    Does (c.program rand) file (a.next rand c) (c.Returns a) := by
  cases c with
  | start host server_ip => exact does_start rand hshows hpossible
  | join j => exact does_join rand hshows hpossible
  | register h msg => exact does_register rand hshows hpossible

end Commands

/-! ## Histories -/

namespace Infofile

theorem Before.refl (a : Infofile) : a.Before a := by
  cases a with
  | absent => exact .absent _
  | lists l => exact .lists List.prefix_rfl
  | spoilt => exact .spoilt

theorem Before.trans {a b c : Infofile} (hab : a.Before b) (hbc : b.Before c) : a.Before c := by
  cases hab with
  | absent => exact .absent c
  | lists hids =>
    cases hbc with
    | lists hids' => exact .lists (hids.trans hids')
  | spoilt => exact hbc

/-- Only a `join` that does not use its cache takes something out of an infofile. -/
theorem before_next (rand : UInt32 → Nat) (a : Infofile) {c : Command}
    (hc : ∀ j, c = .join j → j.useCache ≠ 0) : a.Before (a.next rand c) := by
  cases a with
  | absent => exact .absent _
  | spoilt =>
    cases c with
    | start host server_ip => exact .refl _
    | join j =>
      rw [next, Joining.found, if_neg (hc j rfl)]
      · exact .refl _
      · simp
    | register h msg => exact .refl _
  | lists l =>
    cases c with
    | start host server_ip => exact .refl _
    | join j =>
      rw [next, Joining.found, if_neg (hc j rfl)]
      · exact .refl _
      · simp
    | register h msg =>
      have hkeys : ids (mergeNodes (l.map Node.stripped) msg.nodes) =
          ids (l.map Node.stripped) ++ ids (fresh Node.id (l.map Node.stripped) msg.nodes) :=
        keys_merge Node.id Node.rank _ _
      refine .lists ?_
      rw [hkeys, ids_map_stripped]
      exact List.prefix_append _ _

theorem before_foldl (rand : UInt32 → Nat) (a : Infofile) {cs : List Command}
    (hcs : ∀ c ∈ cs, ∀ j, c = .join j → j.useCache ≠ 0) :
    a.Before (cs.foldl (next rand) a) := by
  induction cs generalizing a with
  | nil => exact .refl a
  | cons c cs ih =>
    obtain ⟨hc, hcs⟩ := List.forall_mem_cons.mp hcs
    exact (before_next rand a hc).trans (ih _ hcs)

end Infofile

end VpnP2p.Join.Commands
