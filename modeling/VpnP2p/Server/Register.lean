import VpnP2p.NodeInfo.Received
import VpnP2p.NodeInfo.FileFormat
import VpnP2p.NodeInfo.LastNewline
import VpnP2p.NodeInfo.MergeLaws
import VpnP2p.Util.Message

/-!
# The store of a server

`handle_register` decodes the body of a message, reads the infofile, merges the first
into the second, writes the infofile back and replies with it. From a well-formed store
no list that arrives can stop it before the reply, and after any number of calls the
infofile holds, under each id, the first record of maximal node count that arrived.
-/

namespace VpnP2p.Server

open Foundation NodeInfo Util

/-! ## The code -/

/-- The process: its memory, what it keeps under `FILENAME`, and `local_node`. -/
structure ServerState where
  heap : Heap
  file : Option Text
  localNode : Ptr

/-- `handle_register` up to the reply. -/
def mergeAndSave (s : ServerState) (buf : Buf) : Result ServerState := do
  let (h, recv_node) ← convertBufToNode s.heap buf
  let (h, local_node) ← file2struct h s.file
  let h ← nodeMerge h local_node recv_node
  let text ← struct2file h local_node
  .ok ⟨h, some text, local_node⟩

/-- The reply of `handle_register`; its size does not count the NUL. -/
def registerReply (s : ServerState) : Result Message := do
  let (text, len) ← convertNodeToBuf bufSize s.heap s.localNode
  let buf ← (CArray.zero bufSize).store text
  let type ← (CArray.zero typeSize).store rRegister
  .ok ⟨type, buf, .ofNat len⟩

/-- `handle_register`, with the message it sends. -/
def handleRegister (s : ServerState) (msg : Message) : Result (ServerState × Message) := do
  let s ← mergeAndSave s msg.buf.bytes
  let reply_msg ← registerReply s
  let _ ← sendMsgOverSocket reply_msg
  .ok (s, reply_msg)

/-- `handle_register`, of which the state of the process is kept. -/
def answerRegister (s : ServerState) (buf : Buf) : Result ServerState := do
  let s ← mergeAndSave s buf
  let reply_msg ← registerReply s
  let _ ← sendMsgOverSocket reply_msg
  .ok s

theorem handleRegister_state (s : ServerState) (msg : Message) :
    Prod.fst <$> handleRegister s msg = answerRegister s msg.buf.bytes := by
  simp only [handleRegister, answerRegister, map_bind, map_ok]

theorem mergeAndSave_of_answerRegister {s s' : ServerState} {buf : Buf}
    (h : answerRegister s buf = .ok s') : mergeAndSave s buf = .ok s' := by
  obtain ⟨t, hsave, h⟩ := bind_eq_ok.mp h
  obtain ⟨reply_msg, -, h⟩ := bind_eq_ok.mp h
  obtain ⟨sends, -, h⟩ := bind_eq_ok.mp h
  cases h
  exact hsave

/-! ## Runs -/

/-- The infofile is what `struct2file` makes of `l`. -/
def ServerState.Holds (s : ServerState) (l : List Node) : Prop :=
  ∃ h p text, NodesAt h p l ∧ struct2file h p = .ok text ∧ s.file = some text

/-- `file2struct` finds the list `l` in the infofile. -/
def ServerState.Reads (s : ServerState) (l : List Node) : Prop :=
  ∃ h p, file2struct .empty s.file = .ok (h, p) ∧ NodesAt h p l

/-- The server decodes the body `buf` to the list `m`. -/
def Decodes (s : ServerState) (buf : Buf) (m : List Node) : Prop :=
  ∃ h p, convertBufToNode s.heap buf = .ok (h, p) ∧ NodesAt h p m

/-- Register messages with the lists `ms` were handled one after the other. -/
inductive Run (s₀ : ServerState) : List (List Node) → ServerState → Prop
  | start : Run s₀ [] s₀
  | handle {ms : List (List Node)} {s s' : ServerState} {buf : Buf} {m : List Node} :
      Run s₀ ms s → Decodes s buf m → mergeAndSave s buf = .ok s' → Run s₀ (ms ++ [m]) s'

/-- The infofile holds a list that can be read back. -/
structure Stored (s : ServerState) (l : List Node) : Prop where
  file : s.file = some (encode l)
  oneLine : ∀ n ∈ l, n.OneLine
  ne : l ≠ []

theorem ServerState.Holds.file {s : ServerState} {l : List Node} (h : s.Holds l) :
    s.file = some (encode l) := by
  obtain ⟨h, p, text, hp, htext, hfile⟩ := h
  rw [struct2file_nodesAt hp] at htext
  cases htext
  exact hfile

theorem Stored.holds {s : ServerState} {l : List Node} (h : Stored s l) : s.Holds l :=
  ⟨_, _, _, Heap.empty.alloc_nodesAt l, struct2file_nodesAt (Heap.empty.alloc_nodesAt l), h.file⟩

theorem ServerState.Reads.unique {s : ServerState} {l l' : List Node} (h : s.Reads l)
    (h' : s.Reads l') : l = l' := by
  obtain ⟨g, p, hread, hp⟩ := h
  obtain ⟨g', p', hread', hp'⟩ := h'
  rw [hread] at hread'
  cases hread'
  exact hp.unique hp'

/-- Reading takes the tabs out. -/
theorem Stored.reads {s : ServerState} {l : List Node} (h : Stored s l) :
    s.Reads (l.map Node.stripped) := by
  obtain ⟨h', p, as, hread, hon, -⟩ := file2struct_encode h.oneLine .empty
  exact ⟨h', p, by rw [h.file, hread], as, hon⟩

theorem Decodes.oneLine {s : ServerState} {buf : Buf} {m : List Node} (h : Decodes s buf m) :
    ∀ n ∈ m, n.OneLine := by
  obtain ⟨h', p, hrun, as, hon⟩ := h
  exact ((convertBufToNode_fresh hrun).2 as m hon).1

theorem decodes_textOf {m : List Node} {text : Text} (hm : ∀ n ∈ m, n.OneLine)
    (hfits : FitsDecoder m) (htext : TextOf m text) {buf : Buf} (hbuf : readString buf = .ok text)
    (s : ServerState) : Decodes s buf m := by
  obtain ⟨h, p, as, hrun, hon, -⟩ := htext.convertBufToNode hm hfits hbuf s.heap
  exact ⟨h, p, hrun, as, hon⟩

theorem decodes_encode {m : List Node} (hm : ∀ n ∈ m, n.OneLine) (hfits : FitsDecoder m)
    (s : ServerState) : Decodes s (cbuf (encode m)) m :=
  decodes_textOf hm hfits (.encode m) (readString_cbuf (noNul_encode m)) s

/-- Whatever the memory holds, `file2struct` puts the list `R` behind it. -/
structure Readable (s : ServerState) (R : List Node) : Prop where
  oneLine : ∀ n ∈ R, n.OneLine
  read : ∀ base, ∃ h p as, file2struct base s.file = .ok (h, p) ∧ NodesOn h p as R ∧
    base.Extends h ∧ ∀ a ∈ as, base.nodes.length ≤ a

theorem readable_textOf {s : ServerState} {l : List Node} {t : Text} (hl : ∀ n ∈ l, n.OneLine)
    (ht : TextOf l t) (hfile : s.file = some t) : Readable s (l.map Node.stripped) where
  oneLine := oneLine_map_stripped hl
  read := by
    intro base
    rw [hfile]
    exact ht.file2struct hl base

theorem Stored.readable {s : ServerState} {l : List Node} (h : Stored s l) :
    Readable s (l.map Node.stripped) := readable_textOf h.oneLine (.encode l) h.file

theorem oneLine_mergeNodes {xs ys : List Node} (hxs : ∀ n ∈ xs, n.OneLine)
    (hys : ∀ n ∈ ys, n.OneLine) : ∀ n ∈ mergeNodes xs ys, n.OneLine :=
  fun n hn => (mem_of_mem_merge hn).elim (hxs n) (hys n)

namespace Readable

variable {s : ServerState} {R m : List Node} {buf : Buf} (h : Readable s R) (hne : R ≠ [])
  (hbuf : Decodes s buf m)

include h

theorem reads : s.Reads R := by
  obtain ⟨h', p, as, hread, hon, -⟩ := h.read .empty
  exact ⟨h', p, hread, as, hon⟩

include hne hbuf

/-- The list that is read is merged with the message. -/
theorem merges : ∃ h₁ h₂ h₃ p q, convertBufToNode s.heap buf = .ok (h₁, p) ∧
    file2struct h₁ s.file = .ok (h₂, q) ∧ nodeMerge h₂ q p = .ok h₃ ∧
      NodesAt h₃ q (mergeNodes R m) := by
  obtain ⟨h₁, p, hdecode, bs, hrecv⟩ := hbuf
  obtain ⟨h₂, q, as, hread, hlocal, hext, hfresh⟩ := h.read h₁
  have hapart : ∀ b ∈ bs, b ∉ as := fun b hb hmem => hrecv.disjoint hfresh hb hmem
  obtain ⟨h₃, fs, hmerge, hmerged, -⟩ := nodeMerge_spec hlocal (hrecv.of_extends hext) hne hapart
  exact ⟨h₁, h₂, h₃, p, q, hdecode, hread, hmerge, _, hmerged⟩

/-- And it is written. -/
theorem handle : ∃ s', mergeAndSave s buf = .ok s' ∧
    Stored s' (mergeNodes R m) ∧ NodesAt s'.heap s'.localNode (mergeNodes R m) := by
  have hm := hbuf.oneLine
  obtain ⟨h₁, h₂, h₃, p, q, hdecode, hread, hmerge, hmerged⟩ := h.merges hne hbuf
  have hsaved := struct2file_nodesAt hmerged
  refine ⟨⟨h₃, some (encode (mergeNodes R m)), q⟩, ?_,
    ⟨rfl, oneLine_mergeNodes h.oneLine hm, merge_ne_nil hne⟩, hmerged⟩
  simp only [mergeAndSave, hdecode, hread, hmerge, hsaved, ok_bind]

/-- What the step leaves, wherever it ended. -/
theorem handled {s' : ServerState} (hstep : mergeAndSave s buf = .ok s') :
    Stored s' (mergeNodes R m) ∧ NodesAt s'.heap s'.localNode (mergeNodes R m) := by
  obtain ⟨s'', hstep', hstored, hlocal⟩ := h.handle hne hbuf
  rw [hstep] at hstep'
  cases hstep'
  exact ⟨hstored, hlocal⟩

end Readable

theorem Stored.stripped_ne {s : ServerState} {l : List Node} (h : Stored s l) :
    l.map Node.stripped ≠ [] := by simpa using h.ne

/-- A register message is merged into the store, which loses its tabs on the way. -/
theorem Stored.handle {s : ServerState} {l m : List Node} {buf : Buf} (h : Stored s l)
    (hbuf : Decodes s buf m) : ∃ s', mergeAndSave s buf = .ok s' ∧
      Stored s' (mergeNodes (l.map Node.stripped) m) ∧
      NodesAt s'.heap s'.localNode (mergeNodes (l.map Node.stripped) m) :=
  h.readable.handle h.stripped_ne hbuf

theorem Stored.handled {s s' : ServerState} {l m : List Node} {buf : Buf} (h : Stored s l)
    (hbuf : Decodes s buf m) (hstep : mergeAndSave s buf = .ok s') :
    Stored s' (mergeNodes (l.map Node.stripped) m) ∧
      NodesAt s'.heap s'.localNode (mergeNodes (l.map Node.stripped) m) :=
  h.readable.handled h.stripped_ne hbuf hstep

/-- The store after the messages `ms`. -/
def storeAfter (l : List Node) (ms : List (List Node)) : List Node :=
  ms.foldl (fun l m => mergeNodes (l.map Node.stripped) m) l

theorem storeAfter_concat (l : List Node) (ms : List (List Node)) (m : List Node) :
    storeAfter l (ms ++ [m]) = mergeNodes ((storeAfter l ms).map Node.stripped) m := by
  rw [storeAfter, List.foldl_append]
  rfl

theorem ids_map_stripped (l : List Node) : ids (l.map Node.stripped) = ids l := by
  unfold ids
  rw [List.map_map]
  rfl

theorem mem_ids_mergeNodes {xs ys : List Node} {id : Int32} :
    id ∈ ids (mergeNodes xs ys) ↔ id ∈ ids xs ∨ id ∈ ids ys :=
  mem_keys_merge Node.id Node.rank xs ys id

theorem mem_ids_storeAfter {l : List Node} {ms : List (List Node)} {id : Int32} :
    id ∈ ids (storeAfter l ms) ↔ id ∈ ids l ∨ id ∈ ids ms.flatten := by
  induction ms using List.reverseRecOn with
  | nil => simp [storeAfter, ids]
  | append_singleton ms m ih =>
    have happend : ids (ms.flatten ++ m) = ids ms.flatten ++ ids m := List.map_append
    rw [storeAfter_concat, mem_ids_mergeNodes, ids_map_stripped, ih, List.flatten_concat, happend,
      List.mem_append, or_assoc]

theorem Run.stored {s₀ s : ServerState} {l : List Node} {ms : List (List Node)}
    (h₀ : Stored s₀ l) (hrun : Run s₀ ms s) : Stored s (storeAfter l ms) := by
  induction hrun with
  | start => exact h₀
  | handle _ hbuf hstep ih =>
    obtain ⟨hstored, -⟩ := ih.handled hbuf hstep
    rw [storeAfter_concat]
    exact hstored

/-- A reply that can be written names the nodes of `local_node`. -/
theorem registerReply_nodesAt {s : ServerState} {reply_msg : Message}
    (h : registerReply s = .ok reply_msg) {l : List Node} (hl : NodesAt s.heap s.localNode l) :
    readString reply_msg.buf.bytes = .ok (encode l) := by
  obtain ⟨⟨text, len⟩, hconv, h⟩ := bind_eq_ok.mp h
  obtain ⟨buf, hbuf, h⟩ := bind_eq_ok.mp h
  obtain ⟨type, -, h⟩ := bind_eq_ok.mp h
  cases h
  obtain ⟨l', hl', rfl, -⟩ := (convertNodeToBuf_eq_ok (by decide)).mp hconv
  obtain rfl := hl.unique hl'
  exact CArray.readString_store (noNul_encode l) hbuf

/-! ## What a run leaves -/

/-- A list with pairwise distinct ids that can be written and read back. -/
structure Sound (m : List Node) : Prop where
  ids : (ids m).Nodup
  plain : ∀ n ∈ m, n.Plain

/-- Every id of `l` is still there, with a count that is not smaller. -/
def NoLoss (l l' : List Node) : Prop :=
  ∀ z ∈ l, ∃ z' ∈ l', z'.id = z.id ∧ z.nodeCount ≤ z'.nodeCount

theorem Sound.oneLine {l : List Node} (h : Sound l) : ∀ n ∈ l, n.OneLine :=
  fun n hn => (h.plain n hn).toOneLine

theorem Sound.stored {s : ServerState} {l : List Node} (h : Sound l) (hne : l ≠ [])
    (hl : s.Holds l) : Stored s l := ⟨hl.file, h.oneLine, hne⟩

theorem plain_mergeNodes {xs ys : List Node} (hxs : ∀ n ∈ xs, n.Plain) (hys : ∀ n ∈ ys, n.Plain) :
    ∀ n ∈ mergeNodes xs ys, n.Plain :=
  fun n hn => (mem_of_mem_merge hn).elim (hxs n) (hys n)

/-- Without tabs the store after a run is the merge of everything that arrived. -/
theorem storeAfter_plain {l : List Node} {ms : List (List Node)} (hl : ∀ n ∈ l, n.Plain)
    (hms : ∀ m ∈ ms, ∀ n ∈ m, n.Plain) :
    storeAfter l ms = mergeAll Node.id Node.rank l ms ∧ ∀ n ∈ storeAfter l ms, n.Plain := by
  induction ms generalizing l with
  | nil => exact ⟨rfl, hl⟩
  | cons m ms ih =>
    have hstep := plain_mergeNodes hl (hms m (by simp))
    obtain ⟨heq, hplain⟩ := ih hstep (fun m' hm' => hms m' (by simp [hm']))
    have hcons : storeAfter l (m :: ms) = storeAfter (mergeNodes l m) ms := by
      rw [storeAfter, List.foldl_cons, map_stripped_of_plain hl]
      rfl
    rw [hcons]
    exact ⟨heq, hplain⟩

theorem noLoss_mergeNodes (l m : List Node) : NoLoss l (mergeNodes l m) := by
  intro z hz
  have hle : z.rank ≤ (offerAll Node.id Node.rank z m).rank := rank_le_offerAll z m
  exact ⟨offerAll Node.id Node.rank z m, List.mem_append_left _ (List.mem_map.mpr ⟨z, hz, rfl⟩),
    key_offerAll Node.id Node.rank z m, Int32.le_iff_toInt_le.mpr hle⟩

section Runs

variable {S : List Node} (hS : Sound S) (hne : S ≠ []) {s₀ : ServerState} (h₀ : s₀.Holds S)

include hS hne h₀

theorem Run.settled {ms : List (List Node)} {s : ServerState} (hrun : Run s₀ ms s)
    (hms : ∀ m ∈ ms, Sound m) : ∃ l, Stored s l ∧ (∀ n ∈ l, n.Plain) ∧
      Settled Node.id Node.rank (S ++ ms.flatten) l := by
  obtain ⟨heq, hplain⟩ := storeAfter_plain hS.plain (fun m hm => (hms m hm).plain)
  refine ⟨storeAfter S ms, hrun.stored (hS.stored hne h₀), hplain, ?_⟩
  rw [heq]
  exact (Settled.of_nodup hS.ids).mergeAll (newOnceAll_of_nodup (fun m hm => (hms m hm).ids) _)

/-- After any run of register messages the store has every id that arrived, once, with the
first record of maximal count; the next message goes through and loses nothing; and the
counts do not depend on the order. -/
theorem registers_settled :
    (∀ ms s, Run s₀ ms s → (∀ m ∈ ms, Sound m) →
      ∃ l, s.Holds l ∧ Settled Node.id Node.rank (S ++ ms.flatten) l ∧
        ∀ buf m, Decodes s buf m → Sound m →
          ∃ s' l', mergeAndSave s buf = .ok s' ∧ s'.Holds l' ∧
            Settled Node.id Node.rank (S ++ (ms ++ [m]).flatten) l' ∧ NoLoss l l') ∧
    ∀ ms ms' s s', Run s₀ ms s → Run s₀ ms' s' → (∀ m ∈ ms, Sound m) → ms.Perm ms' →
      ∃ l l', s.Holds l ∧ s'.Holds l' ∧ ∀ id,
        (lookup Node.id id l).map Node.nodeCount = (lookup Node.id id l').map Node.nodeCount := by
  constructor
  · intro ms s hrun hms
    obtain ⟨l, hl, hplain, hsettled⟩ := Run.settled hS hne h₀ hrun hms
    refine ⟨l, hl.holds, hsettled, fun buf m hbuf hm => ?_⟩
    obtain ⟨s', hstep, hs', -⟩ := hl.handle hbuf
    rw [map_stripped_of_plain hplain] at hs'
    refine ⟨s', mergeNodes l m, hstep, hs'.holds, ?_, noLoss_mergeNodes l m⟩
    rw [List.flatten_append, List.flatten_singleton, ← List.append_assoc]
    exact hsettled.merge (nodup_keys_fresh hm.ids)
  · intro ms ms' s s' hrun hrun' hms hperm
    have hms' : ∀ m ∈ ms', Sound m := fun m hm => hms m (hperm.mem_iff.mpr hm)
    obtain ⟨l, hl, -, hsettled⟩ := Run.settled hS hne h₀ hrun hms
    obtain ⟨l', hl', -, hsettled'⟩ := Run.settled hS hne h₀ hrun' hms'
    have hmem : ∀ x, x ∈ S ++ ms.flatten ↔ x ∈ S ++ ms'.flatten :=
      fun x => (hperm.flatten.append_left S).mem_iff
    refine ⟨l, l', hl.holds, hl'.holds, fun id => ?_⟩
    have hrank := hsettled.lookup_rank hsettled' hmem id
    have hcount : ∀ o : Option Node, o.map Node.rank = (o.map Node.nodeCount).map Int32.toInt := by
      intro o
      rw [Option.map_map]
      rfl
    rw [hcount, hcount] at hrank
    exact Option.map_injective (fun _ _ => Int32.toInt_inj.mp) hrank

end Runs

/-- A server whose infofile is test_info.txt's first node. -/
def sampleServer : ServerState := ⟨Heap.empty, some (encode sampleA), .null⟩

theorem sampleServer_holds : sampleServer.Holds sampleA :=
  ⟨_, _, _, Heap.empty.alloc_nodesAt sampleA,
    struct2file_nodesAt (Heap.empty.alloc_nodesAt sampleA), rfl⟩

theorem sound_sampleA : Sound sampleA where
  ids := by decide
  plain := by simpa [sampleA] using sampleNode_plain

theorem sampleServer_stored : Stored sampleServer sampleA :=
  sound_sampleA.stored (by simp [sampleA]) sampleServer_holds

/-- A message of new ids, and what the server then holds. -/
theorem sampleServer_handles {l : List Int32} (hfits : FitsDecoder (sampleNodes l))
    (hnew : mergeNodes sampleA (sampleNodes l) = sampleA ++ sampleNodes l) :
    ∃ s, Run sampleServer [sampleNodes l] s ∧ Stored s (sampleA ++ sampleNodes l) ∧
      NodesAt s.heap s.localNode (sampleA ++ sampleNodes l) := by
  have hbuf := decodes_encode (fun n hn => (sampleNodes_plain l n hn).toOneLine) hfits sampleServer
  obtain ⟨s, hstep, hs, hlocal⟩ := sampleServer_stored.handle hbuf
  rw [map_stripped_of_plain sound_sampleA.plain, hnew] at hs hlocal
  exact ⟨s, .handle .start hbuf hstep, hs, hlocal⟩

theorem registers_settled_sample :
    (∀ ms s, Run sampleServer ms s → (∀ m ∈ ms, Sound m) →
      ∃ l, s.Holds l ∧ Settled Node.id Node.rank (sampleA ++ ms.flatten) l ∧
        ∀ buf m, Decodes s buf m → Sound m →
          ∃ s' l', mergeAndSave s buf = .ok s' ∧ s'.Holds l' ∧
            Settled Node.id Node.rank (sampleA ++ (ms ++ [m]).flatten) l' ∧ NoLoss l l') ∧
    ∀ ms ms' s s', Run sampleServer ms s → Run sampleServer ms' s' → (∀ m ∈ ms, Sound m) →
      ms.Perm ms' → ∃ l l', s.Holds l ∧ s'.Holds l' ∧ ∀ id,
        (lookup Node.id id l).map Node.nodeCount = (lookup Node.id id l').map Node.nodeCount :=
  registers_settled sound_sampleA (by simp [sampleA]) sampleServer_holds

end VpnP2p.Server
