import Mathlib.Data.List.Flatten
import Mathlib.Data.List.Perm.Basic
import VpnP2p.Foundation.Gossip
import VpnP2p.Foundation.Network
import VpnP2p.Join.Joining

/-!
# Machines that register with each other

A machine runs node_join_server.c over its infofile, and now and then registers this
infofile with another machine, whose reply goes over it. Infofiles so travel over third
machines, and over stale copies, and a machine may lose what it took in while it waited.
Still, what a machine has is always the same as if those whose news reached it had
registered with it directly; and as long as all records together fit a decoder, the
machines can agree from wherever they are.
-/

namespace VpnP2p.Join

open Foundation NodeInfo Util Server
open Commands (Program Walk goOn goOn_exec goOn_file)

/-! ## The machines -/

/-- A register message, or the reply to a client. -/
inductive Packet (ι : Type) where
  | request (sends : List Buf)
  | reply (client : ι) (sends : List Buf)

/-- A connection at the server of a machine, or the reply to a `join` of its own. -/
inductive Coming (ι : Type) where
  | connection (client : ι) (fd : Socket)
  | reply (c : Connection) (walk : Walk)

/-- What a process leaves of the infofile, where it ends by itself or at a NULL. -/
def outlive (program : Program Unit) (file : Option Text) : Result (Option Text) :=
  match program.exec file with
  | (.error (.fault e), file) => if e = .nullDeref then .ok file else .error e
  | (_, file) => .ok file

section Machine

variable {ι : Type} (stale : Nat → Byte)

/-- `register_node` in a `join` on a machine with an infofile, up to the reply; one round of the
server's loop; and that `join` from the reply on. -/
def Machine.exec (s : ServerState) :
    Input Unit (Coming ι) → Result (ServerState × List (Packet ι))
  | .act () => do
    let sends ← sendInfofile s.file
    .ok (s, [.request sends])
  | .arrival (.connection client fd) => do
    let (s, sends) ← JoinServer.receivePack s fd
    .ok (s, if sends = [] then [] else [.reply client sends])
  | .arrival (.reply c walk) => do
    let file ← outlive (goOn stale c walk) s.file
    .ok ({ s with file := file }, [])

/-- Frames come whole, a reply comes to the machine that it is for, and behind its array there
is a NUL. -/
def cluster (ι : Type) : Protocol ι ServerState (Packet ι) Unit (Coming ι) where
  exec := Machine.exec stale
  Arrives := fun j i packet coming => match packet, coming with
    | .request sends, .connection client fd => client = j ∧ fd = .whole sends
    | .reply client sends, .reply c _ => client = i ∧ ∃ rest, c = ⟨.whole sends, some 0 :: rest⟩
    | _, _ => False

/-- A reply goes over what is there. -/
def Coming.replaces : Coming ι → Bool
  | .connection _ _ => false
  | .reply _ _ => true

end Machine

theorem outlive_eq_ok {program : Program Unit} {file file' : Option Text}
    (h : outlive program file = .ok file') : file' = (program.exec file).2 := by
  unfold outlive at h
  split at h
  · rename_i hexec
    rw [hexec]
    split at h
    · cases h
      rfl
    · cases h
  · rename_i hexec
    rw [hexec]
    cases h
    rfl

theorem outlive_null {program : Program Unit} {file file' : Option Text}
    (h : program.exec file = (.error (.fault .nullDeref), file')) :
    outlive program file = .ok file' := by
  rw [outlive, h]
  exact if_pos rfl

/-! ## What travels -/

section Fits

variable {ι : Type} {own : ι → List Node} {news : List ι} {l : List Node}

/-- What is gathered from some machines is not longer than what these have. -/
theorem lineCount_le (h : Gathered Node.id Node.rank own news l) {all : List ι}
    (hall : ∀ i ∈ news, i ∈ all) : lineCount l ≤ lineCount (all.flatMap own) := by
  have hsub : l ⊆ all.flatMap own := by
    intro n hn
    obtain ⟨j, hj, hmem⟩ := h.source n hn
    exact List.mem_flatMap.mpr ⟨j, hall j hj, hmem⟩
  obtain ⟨l', hperm, hsublist⟩ := List.subperm_of_subset h.nodup.of_map hsub
  rw [← length_lines, ← length_lines, ← (hperm.flatMap_right nodeLines).length_eq]
  exact (hsublist.flatMap nodeLines).length_le

/-- A property of every record is one of what is gathered. -/
theorem forall_mem_gathered (h : Gathered Node.id Node.rank own news l) {P : Node → Prop}
    (hP : ∀ j, ∀ n ∈ own j, P n) : ∀ n ∈ l, P n := by
  intro n hn
  obtain ⟨j, -, hmem⟩ := h.source n hn
  exact hP j n hmem

end Fits

/-! ## Runs -/

section Runs

variable {ι : Type} {own : ι → List Node} {init : ι → ServerState} {stale : Nat → Byte}

/-- Every machine starts with a sound infofile of its own. -/
structure Starts (own : ι → List Node) (init : ι → ServerState) : Prop where
  sound : ∀ i, Sound (own i)
  ne : ∀ i, own i ≠ []
  holds : ∀ i, (init i).Holds (own i)

/-- The machine has in its infofile what the machines `s.2` had in theirs, it among them. -/
def Informed (own : ι → List Node) (i : ι) (s : ServerState × List ι) : Prop :=
  i ∈ s.2 ∧ ∃ l text, s.1.file = some text ∧ TextOf l text ∧ Gathered Node.id Node.rank own s.2 l

/-- The packet has what machines had that are named with it: it is the register message of one
of them, or the reply to one. -/
def Tells (own : ι → List Node) (j : ι) (m : Packet ι × List ι) : Prop :=
  match m.1 with
  | .request sends => j ∈ m.2 ∧
    ∃ l, Gathered Node.id Node.rank own m.2 l ∧ JoinServer.Brings (.whole sends) (some l)
  | .reply client sends => client ∈ m.2 ∧
    ∃ l, Gathered Node.id Node.rank own m.2 l ∧ Replied sends l

variable (h : Starts own init)

include h

theorem Starts.plain (j : ι) : ∀ n ∈ own j, n.Plain := (h.sound j).plain

section Infofile

variable {news : List ι} {l : List Node} (hl : Gathered Node.id Node.rank own news l)

include hl

theorem Starts.oneLine : ∀ n ∈ l, n.OneLine :=
  fun n hn => (forall_mem_gathered hl h.plain n hn).toOneLine

/-- The server of a machine reads the list that its infofile has. -/
theorem Starts.readable {s : ServerState} {text : Text} (hfile : s.file = some text)
    (htext : TextOf l text) : Readable s l := by
  have hread := readable_textOf (h.oneLine hl) htext hfile
  rwa [map_stripped_of_plain (forall_mem_gathered hl h.plain)] at hread

theorem Starts.ne_nil {i : ι} (hi : i ∈ news) : l ≠ [] := by
  rintro rfl
  obtain ⟨n, hn⟩ := List.exists_mem_of_ne_nil _ (h.ne i)
  obtain ⟨y, hy, -⟩ := hl.newer hi hn
  cases hy

end Infofile

/-- What a machine does with something that arrives. -/
theorem Starts.arrive {i : ι} {s s' : ServerState} {news : List ι} (hs : Informed own i (s, news))
    {j : ι} {packet : Packet ι} {told : List ι} (htells : Tells own j (packet, told))
    {coming : Coming ι} (harrives : (cluster stale ι).Arrives j i packet coming)
    {out : List (Packet ι)} (hrun : Machine.exec stale s (.arrival coming) = .ok (s', out)) :
    let news' := if coming.replaces then told else news ++ told
    Informed own i (s', news') ∧ ∀ p ∈ out, Tells own i (p, news') := by
  obtain ⟨hi, l, text, hfile, htext, hl⟩ := hs
  cases coming with
  | connection client fd =>
    cases packet with
    | reply client' sends => exact absurd harrives id
    | request sends =>
      obtain ⟨rfl, rfl⟩ := harrives
      obtain ⟨hclient, m, hm, hbrings⟩ := htells
      obtain ⟨⟨t, reply⟩, hstep, hrun⟩ := bind_eq_ok.mp hrun
      have hread := h.readable hl hfile htext
      have hne := h.ne_nil hl hi
      obtain ⟨-, -, hstored, -⟩ := JoinServer.receivePack_inv hread hne hbrings hstep
      have hmerged := hl.merge hm
      cases hrun
      refine ⟨⟨List.mem_append_left _ hi, _, _, hstored.file, .encode _, hmerged⟩, fun p hp => ?_⟩
      split at hp
      · cases hp
      · obtain rfl := List.mem_singleton.mp hp
        exact ⟨List.mem_append_right _ hclient, _, hmerged,
          .joinServer hread hne hbrings hstep⟩
  | reply c walk =>
    cases packet with
    | request sends => exact absurd harrives id
    | reply client sends =>
      obtain ⟨rfl, rest, rfl⟩ := harrives
      obtain ⟨hclient, m, hm, hreplied⟩ := htells
      obtain ⟨file, hleft, hrun⟩ := bind_eq_ok.mp hrun
      cases hrun
      obtain ⟨msg, hrecv, hmsg⟩ := hreplied.whole rest (wholeParts_nil _)
      obtain ⟨text', hover, hwritten⟩ :=
        goOn_file (c := ⟨.whole sends, some 0 :: rest⟩) hrecv hmsg stale walk s.file
      rw [Overwritten, if_neg (h.ne_nil hm hclient)] at hover
      refine ⟨⟨hclient, m, text', ?_, .inr hover.1, hm⟩, by simp⟩
      rw [outlive_eq_ok hleft]
      exact hwritten

/-- One step of one machine. -/
theorem Starts.step (i : ι) (s : ServerState × List ι) (input : Input Unit (Coming ι × List ι))
    (s' : ServerState × List ι) (out : List (Packet ι × List ι)) (hs : Informed own i s)
    (hinput : ∀ n, input = .arrival n → ∃ j m, Tells own j m ∧
      ((cluster stale ι).traced Coming.replaces).Arrives j i m n)
    (hexec : ((cluster stale ι).traced Coming.replaces).exec s input = .ok (s', out)) :
    Informed own i s' ∧ ∀ m ∈ out, Tells own i m := by
  obtain ⟨s, news⟩ := s
  obtain ⟨s', news'⟩ := s'
  obtain ⟨sent, hrun, rfl, rfl⟩ := Protocol.exec_traced.mp hexec
  cases input with
  | act a =>
    obtain ⟨sends, hsend, hrun⟩ := bind_eq_ok.mp hrun
    cases hrun
    refine ⟨hs, fun m hm => ?_⟩
    obtain rfl := List.mem_singleton.mp hm
    obtain ⟨hi, l, text, hfile, htext, hl⟩ := hs
    have hfile' : s.file = some text := hfile
    rw [hfile'] at hsend
    obtain ⟨sends', hsend', hbrings⟩ := JoinServer.brings_register (h.oneLine hl) htext
      (length_lt_of_sendInfofile hsend)
    obtain rfl : sends = sends' := Except.ok.inj (hsend.symm.trans hsend')
    exact ⟨hi, l, hl, hbrings⟩
  | arrival n =>
    obtain ⟨coming, brought⟩ := n
    obtain ⟨j, ⟨packet, told⟩, htells, harrives, rfl⟩ := hinput _ rfl
    obtain ⟨hinformed, hout⟩ := h.arrive hs htells harrives hrun
    refine ⟨hinformed, fun m hm => ?_⟩
    obtain ⟨p, hp, rfl⟩ := List.mem_map.mp hm
    exact hout p hp

variable [DecidableEq ι]

/-- What is in the infofiles, and on the way between them, in every run. -/
theorem Starts.run {steps : List (ι × Input Unit (Coming ι × List ι))}
    {net : Net ι (ServerState × List ι) (Packet ι × List ι)}
    (hrun : (cluster stale ι).TracedRun Coming.replaces init steps net) :
    (∀ i, Informed own i (net.party i)) ∧ ∀ i m, (i, m) ∈ net.wire → Tells own i m :=
  Protocol.Run.invariant (Informed own) (Tells own)
    (fun i => ⟨List.mem_singleton_self i, own i, _, (h.holds i).file, .encode _,
      .start (h.sound i).ids⟩) h.step hrun

section Agreement

variable {all : List ι} (hall : ∀ i, i ∈ all) (hfits : FitsDecoder (all.flatMap own))
  (hprint : ∀ i, ∀ n ∈ own i, Node.Printable n)

include hall hfits

omit h [DecidableEq ι] in
theorem gathered_fits {news : List ι} {l : List Node}
    (hl : Gathered Node.id Node.rank own news l) : FitsDecoder l where
  lines := (lineCount_le hl (fun i _ => hall i)).trans hfits.lines
  fields := forall_mem_gathered hl (fun j n hn =>
    hfits.fields n (List.mem_flatMap.mpr ⟨j, hall j, hn⟩))

omit [DecidableEq ι] in
theorem Starts.length_lt {news : List ι} {l : List Node}
    (hl : Gathered Node.id Node.rank own news l) : (encode l).length < bufSize :=
  JoinServer.length_encode_lt (h.oneLine hl) (gathered_fits hall hfits hl).lines

include hprint

/-- A machine sends what it has, and another takes it in. -/
theorem Starts.bring (steps : List (ι × Input Unit (Coming ι × List ι)))
    (net : Net ι (ServerState × List ι) (Packet ι × List ι))
    (hrun : (cluster stale ι).TracedRun Coming.replaces init steps net) (j i : ι) : ∃ more net',
    (cluster stale ι).TracedRun Coming.replaces init (steps ++ more) net' ∧
      (∀ k, (net.party k).2 ⊆ (net'.party k).2) ∧ (net.party j).2 ⊆ (net'.party i).2 := by
  obtain ⟨-, l, text, hfile, htext, hl⟩ := (h.run hrun).1 j
  obtain ⟨sends, hsend⟩ := sendInfofile_fits
    (lt_of_le_of_lt htext.length_le (h.length_lt hall hfits hl))
  have hact : (cluster stale ι).exec (net.party j).1 (.act ()) =
      .ok ((net.party j).1, [.request sends]) := by
    show (sendInfofile (net.party j).1.file >>= _) = _
    rw [hfile, hsend]
    rfl
  have hready : ((cluster stale ι).traced Coming.replaces).Ready net.wire j (.act ()) := trivial
  obtain ⟨net₁, hrun₁, hgrow₁, -, hsent⟩ := hrun.take hready trivial hact
  obtain ⟨told, htold, hmem⟩ := hsent _ (List.mem_singleton_self _)
  -- The other machine, which may be the same one, now takes it in.
  obtain ⟨hinformed, hwire⟩ := h.run hrun₁
  obtain ⟨hi, l', text', hfile', htext', hl'⟩ := hinformed i
  obtain ⟨-, m, hm, hbrings⟩ := hwire j _ hmem
  have hmerged := hl'.merge hm
  have hanswer : JoinServer.Answerable (mergeNodes l' m) :=
    ⟨h.length_lt hall hfits hmerged, forall_mem_gathered hmerged hprint⟩
  obtain ⟨s, reply, hstep⟩ := JoinServer.receivePack_total (h.readable hl' hfile' htext')
    (h.ne_nil hl' hi) hbrings (gathered_fits hall hfits hm) hanswer
  have harrival : (cluster stale ι).exec (net₁.party i).1
      (.arrival (.connection j (.whole sends))) =
      .ok (s, if reply = [] then [] else [.reply j reply]) := by
    show (JoinServer.receivePack (net₁.party i).1 (.whole sends) >>= _) = _
    rw [hstep]
    rfl
  have harrived : ((cluster stale ι).traced Coming.replaces).Ready net₁.wire i
      (.arrival (.connection j (.whole sends), told)) :=
    ⟨j, (.request sends, told), hmem, ⟨rfl, rfl⟩, rfl⟩
  obtain ⟨net₂, hrun₂, hgrow₂, hbrought, -⟩ := hrun₁.take harrived rfl harrival
  refine ⟨[(j, .act ()), (i, .arrival (.connection j (.whole sends), told))], net₂, ?_,
    fun k => List.Subset.trans (hgrow₁ k) (hgrow₂ k), List.Subset.trans htold hbrought⟩
  rwa [List.append_assoc] at hrun₂

/-- Where all records together fit a decoder, the machines can go on from every run to agree:
each has every id, with the highest count that a machine started with. -/
theorem cluster_can_agree {steps : List (ι × Input Unit (Coming ι × List ι))}
    {net : Net ι (ServerState × List ι) (Packet ι × List ι)}
    (hrun : (cluster stale ι).TracedRun Coming.replaces init steps net) : ∃ more net',
    (cluster stale ι).TracedRun Coming.replaces init (steps ++ more) net' ∧
      ∀ i, ∃ l, (net'.party i).1.Reads l ∧ Gathered Node.id Node.rank own all l := by
  have hown : ∀ steps net, (cluster stale ι).TracedRun Coming.replaces init steps net →
      ∀ i, i ∈ (net.party i).2 := fun _ _ hrun i => ((h.run hrun).1 i).1
  obtain ⟨more, net', hrun', -, hpairs⟩ :=
    hrun.spread hown (h.bring hall hfits hprint) (all ×ˢ all)
  refine ⟨more, net', hrun', fun i => ?_⟩
  obtain ⟨-, l, text, hfile, htext, hl⟩ := (h.run hrun').1 i
  refine ⟨l, (h.readable hl hfile htext).reads, hl.congr (fun j => iff_of_true ?_ (hall j))⟩
  exact hpairs (j, i) (List.mem_product.mpr ⟨hall j, hall i⟩)

end Agreement

end Runs

/-! ## Two machines -/

def sampleOwn (i : Bool) : List Node := if i then sampleA else sampleNodes [124]

def sampleMachines (i : Bool) : ServerState := ⟨.empty, some (encode (sampleOwn i)), .null⟩

theorem sample_starts : Starts sampleOwn sampleMachines where
  sound := by
    intro i
    cases i with
    | true => exact sound_sampleA
    | false => exact ⟨by decide, sampleNodes_plain [124]⟩
  ne := by
    intro i
    cases i <;> simp [sampleOwn, sampleA, sampleNodes]
  holds := fun i => ⟨_, _, _, Heap.empty.alloc_nodesAt (sampleOwn i),
    struct2file_nodesAt (Heap.empty.alloc_nodesAt (sampleOwn i)), rfl⟩

theorem sampleOwn_fits : FitsDecoder ([true, false].flatMap sampleOwn) :=
  sampleNodes_fits (l := [123, 124]) (by decide) (by decide)

theorem sampleOwn_printable (i : Bool) : ∀ n ∈ sampleOwn i, Node.Printable n := by
  cases i with
  | true => exact sampleNodes_printable [123]
  | false => exact sampleNodes_printable [124]

theorem cluster_can_agree_sample : ∃ more net',
    (cluster (fun _ => 0) Bool).TracedRun Coming.replaces sampleMachines ([] ++ more) net' ∧
      ∀ i, ∃ l, (net'.party i).1.Reads l ∧
        Gathered Node.id Node.rank sampleOwn [true, false] l :=
  cluster_can_agree sample_starts (by decide) sampleOwn_fits sampleOwn_printable .start

end VpnP2p.Join
