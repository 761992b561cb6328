import VpnP2p.NodeInfo.Fields
import VpnP2p.NodeInfo.LedgerRun
import VpnP2p.NodeInfo.Sheets

/-!
# Any body a client may send

`convert_buf_to_node` checks nothing: it follows `ip_new` and `ip_header` on every line
that is about IPs, and closes a record on every `end` line. `Orderly` says which texts
it takes without harm, in terms of what stands in front of a line. On all others it
follows NULL or returns a list with fields that no line has written.
-/

namespace VpnP2p.NodeInfo

open Foundation

/-! ## Safe bodies, and orderly ones -/

/-- Every value of the node is on one of the lines. -/
structure Node.FromLines (ops : List Op) (n : Node) : Prop where
  id : .id (.ok n.id) ∈ ops
  nodeCount : .nodeCount (.ok n.nodeCount) ∈ ops
  reliable : .reliable (.ok n.reliable) ∈ ops
  ips : ∀ x ∈ n.ipList, x.draft.From ops

/-- The decoder ends, and every field of its list was written from a line. -/
def Safe (h : Heap) (buf : Buf) (lines : List Text) : Prop :=
  ∃ h' p l, convertBufToNode h buf = .ok (h', p) ∧ NodesAt h' p l ∧
    ∀ n ∈ l, n.FromLines (lines.map bufOp)

/-- A line whose branch follows `ip_header`. -/
def Op.usesHeader (op : Op) : Bool := op.isValidity || op.isIpListEnds

/-- The record that is closed behind `pre` has all its lines, and the lines of its last
sheet, which go on behind the `end` line, are whole. -/
structure RecordWhole (pre post : List Op) : Prop where
  id : ∃ op ∈ since Op.isEnd pre, op.idValue.isSome = true
  nodeCount : ∃ op ∈ since Op.isEnd pre, op.nodeCountValue.isSome = true
  reliable : ∃ op ∈ since Op.isEnd pre, op.reliableValue.isSome = true
  ipList : ∃ op ∈ since Op.isEnd pre, op.isIpList = true
  ips : Whole (since Op.isIpList pre ++ .endNode :: upTo Op.isIpList post)

structure Orderly (ops : List Op) : Prop where
  opened : EachAt (fun pre op => op.isAboutIps = true → ∃ a ∈ pre, a.isIpList = true) ops
  header : EachAt (fun pre op => op.usesHeader = true → ¬ Overrun (since Op.isIpList pre)) ops
  whole : ∀ pre post, ops = pre ++ .endNode :: post → RecordWhole pre post

/-! ## Which lines are taken -/

section Taken

variable {pre post ops : List Op} {s : Ledger} {op : Op}

theorem Ledger.After.takes_iff (h : Ledger.After .shut pre s) :
    s.sheet.Takes op ↔ (op.isAboutIps = true → ∃ a ∈ pre, a.isIpList = true) ∧
      (op.usesHeader = true → ¬ Overrun (since Op.isIpList pre)) := by
  have hsheet := h.sheet
  by_cases hopen : ∃ a ∈ pre, a.isIpList = true
  · rw [if_pos (List.any_eq_true.mpr hopen)] at hsheet
    have hshut := Sheet.mode_ne_shut hsheet
    have hheader := Sheet.header_iff hsheet
    cases op <;> simp [Sheet.Takes, Op.isAboutIps, Op.usesHeader, Op.isValidity, Op.isIpListEnds,
      hopen, hshut, hheader]
  · have hnone : ¬ pre.any Op.isIpList = true := by simpa using hopen
    rw [if_neg hnone] at hsheet
    rw [Sheet.run_shut hsheet]
    cases op <;> simp [Sheet.Takes, Op.isAboutIps, Op.usesHeader, Op.isValidity, Op.isIpListEnds,
      hopen, Sheet.shut]

/-- The ledger has an answer to all lines exactly when they keep the pointers live. -/
theorem run_isSome_iff : (∃ s, (Ledger.start .shut).run ops = some s) ↔
    (∀ op ∈ ops, op.Readable) ∧
    EachAt (fun pre op => op.isAboutIps = true → ∃ a ∈ pre, a.isIpList = true) ops ∧
    EachAt (fun pre op => op.usesHeader = true → ¬ Overrun (since Op.isIpList pre)) ops := by
  induction ops using List.reverseRecOn with
  | nil => exact ⟨fun _ => ⟨by simp, eachAt_nil _, eachAt_nil _⟩, fun _ => ⟨_, rfl⟩⟩
  | append_singleton ops op ih =>
    rw [eachAt_concat, eachAt_concat, Ledger.run_concat]
    cases hrun : (Ledger.start .shut).run ops with
    | none =>
      simp only [hrun, reduceCtorEq, exists_false, false_iff, not_and] at ih
      simp only [Option.bind_none, reduceCtorEq, exists_false, false_iff]
      rintro ⟨hread, ⟨hopened, -⟩, hheader, -⟩
      exact ih (fun op hop => hread op (by simp [hop])) hopened hheader
    | some t =>
      obtain ⟨hread, hopened, hheader⟩ := ih.mp ⟨t, hrun⟩
      rw [Option.bind_some, ← Option.isSome_iff_exists, Ledger.exec_isSome_iff,
        (Ledger.After.run hrun).takes_iff]
      simp only [List.forall_mem_append, List.forall_mem_singleton]
      tauto

/-! ## The records -/

/-- The sheet of a record that is closed behind `pre`. -/
theorem Ledger.After.sheet_of_record (h : Ledger.After .shut ops s)
    (hops : ops = pre ++ .endNode :: post) (hlist : ∃ a ∈ pre, a.isIpList = true) :
    ∃ t, s.sheets[pre.countP Op.isIpList]? = some t ∧
      Sheet.opened.run (since Op.isIpList pre ++ .endNode :: upTo Op.isIpList post) = some t := by
  obtain ⟨front, e, hpre, he⟩ := exists_last hlist
  obtain rfl := Op.isIpList_iff.mp he
  have hnone : ∀ a ∈ since Op.isIpList pre, a.isIpList = false := fun a ha => not_of_mem_since ha
  have hsplit : ops = front ++ .ipList :: (since Op.isIpList pre ++ .endNode :: post) := by
    rw [hops]
    conv_lhs => rw [hpre]
    simp
  obtain ⟨t, ht, hrun⟩ := h.sheets front _ hsplit
  have hcount : pre.countP Op.isIpList = front.countP Op.isIpList + 1 := by
    have hzero : (since Op.isIpList pre).countP Op.isIpList = 0 := by
      simpa [List.countP_eq_zero] using hnone
    conv_lhs => rw [hpre]
    rw [List.countP_append, List.countP_cons, hzero]
    simp [Op.isIpList]
  refine ⟨t, hcount ▸ ht, ?_⟩
  rw [upTo_append hnone] at hrun
  exact hrun

theorem Draft.complete_iff {d : Draft} : d.Complete ↔ ∃ x : IP, x.draft = d := by
  constructor
  · rintro ⟨h₁, h₂, h₃, h₄⟩
    obtain ⟨ip, hip⟩ := Option.isSome_iff_exists.mp h₁
    obtain ⟨type, htype⟩ := Option.isSome_iff_exists.mp h₂
    obtain ⟨sCount, hsCount⟩ := Option.isSome_iff_exists.mp h₃
    obtain ⟨validity, hvalidity⟩ := Option.isSome_iff_exists.mp h₄
    refine ⟨⟨ip, type, sCount, validity⟩, ?_⟩
    rw [IP.draft, ← hip, ← htype, ← hsCount, ← hvalidity]
  · rintro ⟨x, rfl⟩
    exact ⟨rfl, rfl, rfl, rfl⟩

theorem Draft.forall_complete_iff {ds : List Draft} :
    (∀ d ∈ ds, d.Complete) ↔ ∃ xs : List IP, ds = xs.map IP.draft := by
  constructor
  · intro h
    induction ds with
    | nil => exact ⟨[], rfl⟩
    | cons d ds ih =>
      rw [List.forall_mem_cons] at h
      obtain ⟨x, rfl⟩ := Draft.complete_iff.mp h.1
      obtain ⟨xs, rfl⟩ := ih h.2
      exact ⟨x :: xs, rfl⟩
  · rintro ⟨xs, rfl⟩ d hd
    obtain ⟨x, -, rfl⟩ := List.mem_map.mp hd
    exact Draft.complete_iff.mpr ⟨x, rfl⟩

/-- A closed record stands for a node exactly when its lines are all there. -/
theorem Ledger.After.is_iff (h : Ledger.After .shut ops s) (hops : ops = pre ++ .endNode :: post)
    {r : NodeDraft} (hr : r.FilledBy pre) : (∃ n, s.Is r n) ↔ RecordWhole pre post := by
  have hopen : (∃ a ∈ since Op.isEnd pre, a.isIpList = true) → ∃ a ∈ pre, a.isIpList = true :=
    fun ⟨a, ha, hlist⟩ => ⟨a, mem_of_mem_since ha, hlist⟩
  have hipList := hr.ipList
  constructor
  · rintro ⟨n, hn⟩
    obtain ⟨k, hk, t', ht', hentries⟩ := hn.ipList
    rw [hk] at hipList
    split at hipList
    · rename_i hany
      cases hipList
      have hlist := List.any_eq_true.mp hany
      obtain ⟨t, ht, hrun⟩ := h.sheet_of_record hops (hopen hlist)
      rw [ht] at ht'
      cases ht'
      refine ⟨lastValue_isSome.mp ?_, lastValue_isSome.mp ?_, lastValue_isSome.mp ?_, hlist, ?_⟩
      · rw [← hr.id, hn.id]
        rfl
      · rw [← hr.nodeCount, hn.nodeCount]
        rfl
      · rw [← hr.reliable, hn.reliable]
        rfl
      · rw [← Sheet.complete_iff_whole hrun]
        exact Draft.forall_complete_iff.mpr ⟨_, hentries⟩
    · cases hipList
  · intro hw
    obtain ⟨t, ht, hrun⟩ := h.sheet_of_record hops (hopen hw.ipList)
    obtain ⟨xs, hxs⟩ :=
      Draft.forall_complete_iff.mp ((Sheet.complete_iff_whole hrun).mpr hw.ips)
    obtain ⟨id, hid⟩ := Option.isSome_iff_exists.mp (lastValue_isSome.mpr hw.id)
    obtain ⟨nodeCount, hcount⟩ := Option.isSome_iff_exists.mp (lastValue_isSome.mpr hw.nodeCount)
    obtain ⟨reliable, hrel⟩ := Option.isSome_iff_exists.mp (lastValue_isSome.mpr hw.reliable)
    rw [if_pos (List.any_eq_true.mpr hw.ipList)] at hipList
    exact ⟨⟨id, nodeCount, reliable, xs⟩, hr.id.trans hid, hr.nodeCount.trans hcount,
      hr.reliable.trans hrel, _, hipList, t, ht, hxs⟩

/-- What a closed record stands for has its values from the lines. -/
theorem NodeDraft.FilledBy.fromLines (hops : ops = pre ++ .endNode :: post) {r : NodeDraft}
    (hr : r.FilledBy pre) (hsheets : ∀ t ∈ s.sheets, t.From ops) {n : Node} (hn : s.Is r n) :
    n.FromLines ops := by
  have hpre : ∀ q ∈ since Op.isEnd pre, q ∈ ops := by
    intro q hq
    rw [hops]
    simp [mem_of_mem_since hq]
  obtain ⟨a₁, ha₁, hid⟩ := mem_of_lastValue (hr.id.symm.trans hn.id)
  obtain ⟨a₂, ha₂, hcount⟩ := mem_of_lastValue (hr.nodeCount.symm.trans hn.nodeCount)
  obtain ⟨a₃, ha₃, hrel⟩ := mem_of_lastValue (hr.reliable.symm.trans hn.reliable)
  refine ⟨a₁.hasOwnValues.id _ hid ▸ hpre a₁ ha₁, a₂.hasOwnValues.nodeCount _ hcount ▸ hpre a₂ ha₂,
    a₃.hasOwnValues.reliable _ hrel ▸ hpre a₃ ha₃, fun x hx => ?_⟩
  obtain ⟨k, -, t, ht, hentries⟩ := hn.ipList
  refine (hsheets t (List.mem_of_getElem? ht)).entries _ ?_
  rw [hentries]
  exact List.mem_map_of_mem hx

/-- Every record that is done was closed by some `end` line. -/
theorem Ledger.After.closed_by (h : Ledger.After .shut ops s) {r : NodeDraft} (hr : r ∈ s.done) :
    ∃ pre post, ops = pre ++ .endNode :: post ∧ r.FilledBy pre := by
  obtain ⟨k, hk⟩ := List.mem_iff_getElem?.mp hr
  have hlt := (List.getElem?_eq_some_iff.mp hk).1
  obtain ⟨pre, e, post, hops, he, hcount⟩ := exists_split_of_lt_countP (h.count ▸ hlt)
  obtain rfl := Op.isEnd_iff.mp he
  obtain ⟨r', hr', hfilled⟩ := h.done pre post hops
  rw [hcount, hk] at hr'
  cases hr'
  exact ⟨pre, post, hops, hfilled⟩

/-- The records are complete exactly when all lines in front of `end` lines are there. -/
theorem Ledger.After.nodes_iff (h : Ledger.After .shut ops s) :
    (∃ l, List.Forall₂ s.Is s.done l) ↔
      ∀ pre post, ops = pre ++ .endNode :: post → RecordWhole pre post := by
  rw [exists_forall₂_iff]
  constructor
  · intro hall pre post hops
    obtain ⟨r, hr, hfilled⟩ := h.done pre post hops
    exact (h.is_iff hops hfilled).mp (hall r (List.mem_of_getElem? hr))
  · intro hwhole r hr
    obtain ⟨pre, post, hops, hfilled⟩ := h.closed_by hr
    exact (h.is_iff hops hfilled).mpr (hwhole pre post hops)

end Taken

/-! ## Safety -/

theorem safe_iff (h : Heap) {buf : Buf} {lines : List Text}
    (hlines : Input.lines (.body buf) = .ok lines) :
    Safe h buf lines ↔
      (∀ line ∈ lines, (bufOp line).FitsBody line) ∧ Orderly (lines.map bufOp) := by
  have hfollows := Input.decode_follows h hlines
  have hread : (∀ line ∈ lines, (bufOp line).FitsBody line) ↔
      ∀ op ∈ lines.map bufOp, op.Readable := forall_fits_iff hlines
  constructor
  · rintro ⟨h', p, l, hrun, hnodes, -⟩
    obtain ⟨s, hs, as, hreturns⟩ := hfollows.of_ok hrun
    obtain ⟨hreadable, hopened, hheader⟩ := run_isSome_iff.mp ⟨s, hs⟩
    have hwhole := (Ledger.After.run hs).nodes_iff.mp ⟨l, hreturns.nodesAt_iff.mp hnodes⟩
    exact ⟨hread.mpr hreadable, hopened, hheader, hwhole⟩
  · rintro ⟨hfits, hopened, hheader, hwhole⟩
    obtain ⟨s, hs⟩ := run_isSome_iff.mpr ⟨hread.mp hfits, hopened, hheader⟩
    obtain ⟨⟨h', p⟩, hrun, as, hreturns⟩ := hfollows.of_some hs
    have hafter := Ledger.After.run hs
    have hsheets : ∀ t ∈ s.sheets, t.From (lines.map bufOp) :=
      Ledger.from_run (by simp [Ledger.start, Ledger.sheets, Sheet.from_shut]) hs
    obtain ⟨l, hl⟩ := hafter.nodes_iff.mpr hwhole
    refine ⟨h', p, l, hrun, hreturns.nodesAt_iff.mpr hl, fun n hn => ?_⟩
    obtain ⟨r, hr, his⟩ := forall₂_mem_right hl hn
    obtain ⟨pre, post, hops, hfilled⟩ := hafter.closed_by hr
    exact hfilled.fromLines hops hsheets his

/-- What a client sends for one node. -/
theorem safe_iff_sample :
    Safe Heap.empty (cbuf (encode [sampleNode])) (nodeLines sampleNode) ↔
      (∀ line ∈ nodeLines sampleNode, (bufOp line).FitsBody line) ∧
        Orderly ((nodeLines sampleNode).map bufOp) := by
  have hlines : Input.lines (.body (cbuf (encode [sampleNode]))) = .ok (nodeLines sampleNode) := by
    have htext : encode [sampleNode] = unlines (nodeLines sampleNode) := by simp [encode]
    rw [htext]
    exact Input.lines_body (readString_cbuf (htext ▸ noNul_encode [sampleNode]))
      sampleNode_plain.toOneLine.line (by rw [length_nodeLines]; decide)
  exact safe_iff Heap.empty hlines

/-- A lone `ip` line makes the decoder write through NULL. -/
theorem not_safe_strayIp :
    let lines := [lit "ip: 127.0.0.1"]
    Input.lines (.body (cbuf (unlines lines))) = .ok lines ∧
      ¬ Safe Heap.empty (cbuf (unlines lines)) lines := by
  intro lines
  have hline : ∀ w ∈ lines, Line w := fun w hw => line_of_decide (by revert w; decide)
  have hlines : Input.lines (.body (cbuf (unlines lines))) = .ok lines :=
    Input.lines_body (readString_cbuf (by decide)) hline (by decide)
  refine ⟨hlines, ?_⟩
  rintro ⟨h', p, l, hrun, -⟩
  have hdecode := Input.decode_eq Heap.empty hlines
  have hnull : (bufCursor Heap.empty).run (lines.map bufOp) = .error .nullDeref := rfl
  rw [Input.decode, hrun, Input.start, Input.op, hnull] at hdecode
  cases hdecode

end VpnP2p.NodeInfo
