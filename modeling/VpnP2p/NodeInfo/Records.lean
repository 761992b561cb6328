import VpnP2p.NodeInfo.Fields
import VpnP2p.NodeInfo.LedgerRun

/-!
# How a text falls into records

Each line of kind `end` closes a record, and the look-ahead cell `node_new` makes it a
node whatever stood on the lines before: `RecordsAt` says that the list has one node for
each such line, with the last values since the one before it. Of the IP cursors it only
assumes that none is followed that leads nowhere. What then keeps a text from being cut
into records is a field that does not fit the array it is copied to.
-/

namespace VpnP2p.NodeInfo

open Foundation

/-! ## The records of a text -/

/-- The node list at `p` has the cells `as`, one for each `end` among `ops`, each with
the last values since the `end` before. -/
structure RecordsAt (ops : List Op) (h : Heap) (p : Ptr) (as : List Nat) : Prop where
  links : Seg NodeCell.nextNode h.nodes p as .null
  acyclic : as.Nodup
  count : as.length = ops.countP Op.isEnd
  records : ∀ pre post, ops = pre ++ .endNode :: post →
    ∃ a c, as[pre.countP Op.isEnd]? = some a ∧ h.nodes[a]? = some c ∧
      c.id = lastValue Op.idValue (since Op.isEnd pre) ∧
      c.nodeCount = lastValue Op.nodeCountValue (since Op.isEnd pre) ∧
      c.reliable = lastValue Op.reliableValue (since Op.isEnd pre)
  empty : (∀ op ∈ ops, op.isEnd = false) → p = .null

/-- The decoder ends, and its list has the records of the lines. -/
def Segmented (h : Heap) (i : Input) (lines : List Text) : Prop :=
  ∃ h' p as, i.decode h = .ok (h', p) ∧ RecordsAt (lines.map i.op) h' p as

/-! ## Pointers that lead somewhere -/

def Live (p : Ptr) : Prop := ∃ a, p = .addr a

/-- The IP cursors a branch follows lead to a cell. -/
def Cursor.LiveFor (c : Cursor) : Op → Prop
  | .ip _ | .type _ | .sCount _ => Live c.ipNew
  | .validity _ => Live c.ipNew ∧ Live c.ipHeader
  | .ipListEnds => Live c.ipHeader
  | _ => True

/-- No line is reached with an IP cursor it follows leading nowhere. -/
def FollowsLive (c : Cursor) (ops : List Op) : Prop :=
  EachAt (fun pre op => ∀ c', c.run pre = .ok c' → c'.LiveFor op) ops

theorem Dead.not_live {p : Ptr} (h : Dead p) : ¬ Live p := by
  rintro ⟨a, rfl⟩
  rcases h with h | h
  · cases h
  · cases h

theorem Cursor.liveFor_of_exec {c c' : Cursor} {op : Op} (h : c.exec op = .ok c') :
    c.LiveFor op := by
  have hwrite : ∀ {c c' : Cursor} {f : IPCell → IPCell},
      c.writeIpNew f = .ok c' → Live c.ipNew := by
    intro c c' f hrun
    obtain ⟨ips, hupdate, -⟩ := bind_eq_ok.mp hrun
    obtain ⟨a, ha, -⟩ := update_eq_ok.mp hupdate
    exact ⟨a, ha⟩
  cases op with
  | ip v | type v | sCount v =>
    obtain ⟨a, -, hrun⟩ := bind_eq_ok.mp h
    exact hwrite hrun
  | validity v =>
    obtain ⟨a, -, hrun⟩ := bind_eq_ok.mp h
    obtain ⟨d, hfield, hnext⟩ := bind_eq_ok.mp hrun
    obtain ⟨ips, hupdate, hd⟩ := bind_eq_ok.mp hfield
    cases hd
    obtain ⟨header, hload, -⟩ := bind_eq_ok.mp hnext
    obtain ⟨b, hb, -⟩ := load_eq_ok.mp hload
    exact ⟨hwrite hfield, b, hb⟩
  | ipListEnds =>
    obtain ⟨ips, hupdate, -⟩ := bind_eq_ok.mp h
    obtain ⟨a, ha, -⟩ := update_eq_ok.mp hupdate
    exact ⟨a, ha⟩
  | _ => trivial

/-- A run that ends has followed no other pointers. -/
theorem followsLive_of_run {c c' : Cursor} {ops : List Op} (h : c.run ops = .ok c') :
    FollowsLive c ops := by
  rintro pre op post rfl d hd
  rw [Cursor.run_append, hd, ok_bind, Cursor.run_cons] at h
  obtain ⟨e, he, -⟩ := bind_eq_ok.mp h
  exact Cursor.liveFor_of_exec he

/-- Where the pointers lead somewhere, the sheet has a place for the line. -/
theorem SheetOn.takes {snap : Mem IPCell} {c : Cursor} {first : Ptr} {s : Sheet}
    (h : SheetOn snap c first s) {op : Op} (hlive : c.LiveFor op) : s.Takes op := by
  have hnull : ∀ {p : Ptr}, p = .null → ¬ Live p := fun hp => Dead.not_live (Or.inl hp)
  cases h with
  | shut hnew hheader =>
    cases op with
    | ip v | type v | sCount v => exact absurd hlive (hnull hnew)
    | validity v => exact absurd hlive.1 (hnull hnew)
    | ipListEnds => exact absurd hlive (hnull hheader)
    | _ => trivial
  | cells h =>
    have hheader := h.header
    unfold Sheet.Takes
    cases hmode : s.mode with
    | shut =>
      rw [hmode] at hheader
      cases hheader
    | growing => cases op <;> simp
    | ended => cases op <;> simp
    | lost =>
      rw [hmode] at hheader
      cases hheader with
      | lost _ dead =>
        cases op with
        | validity v => exact absurd hlive.2 dead.not_live
        | ipListEnds => exact absurd hlive dead.not_live
        | _ => simp

/-- Lines that can be read and follow live pointers are run to the end. -/
theorem LedgerOn.run_isSome {base : Heap} {s : Ledger} {c : Cursor} (h : LedgerOn base s c)
    {ops : List Op} (hlive : FollowsLive c ops) (hread : ∀ op ∈ ops, op.Readable) :
    ∃ s', s.run ops = some s' := by
  induction ops using List.reverseRecOn with
  | nil => exact ⟨s, rfl⟩
  | append_singleton ops op ih =>
    obtain ⟨hbefore, hlast⟩ := eachAt_concat.mp hlive
    obtain ⟨t, ht⟩ := ih hbefore (fun op hop => hread op (by simp [hop]))
    have hfollows := h.run ops
    rw [ht] at hfollows
    obtain ⟨c', hc', hon⟩ := hfollows
    have htakes : t.sheet.Takes op := by
      obtain ⟨_, _, _, _, hat⟩ := hon
      exact hat.sheet.takes (hlast c' hc')
    have hsome := Ledger.exec_isSome_iff.mpr ⟨hread op (by simp), htakes⟩
    rw [Ledger.run_concat, ht]
    exact Option.isSome_iff_exists.mp hsome

/-! ## Segmentation -/

theorem Returns.recordsAt {first : Sheet} {ops : List Op} {s : Ledger} {base h : Heap} {p : Ptr}
    {as : List Nat} (hr : Returns s base h p as) (hafter : Ledger.After first ops s) :
    RecordsAt ops h p as where
  links := hr.links
  acyclic := hr.links.nodup
  count := hr.contents.length_eq.trans hafter.count
  records := by
    intro pre post hops
    obtain ⟨r, hget, hfilled⟩ := hafter.done pre post hops
    obtain ⟨a, ha, c, hc, hholds⟩ := forall₂_getElem?_right hr.contents hget
    exact ⟨a, c, ha, hc, hholds.id.trans hfilled.id,
      hholds.nodeCount.trans hfilled.nodeCount, hholds.reliable.trans hfilled.reliable⟩
  empty := by
    intro hnone
    have hcount : as.length = 0 := by
      rw [hr.contents.length_eq.trans hafter.count, List.countP_eq_zero]
      simpa using hnone
    have hlinks := hr.links
    rw [List.length_eq_zero_iff.mp hcount] at hlinks
    exact hlinks

theorem segmented_iff (h : Heap) {i : Input} {lines : List Text} (hlines : i.lines = .ok lines)
    (hlive : FollowsLive (i.start h) (lines.map i.op)) :
    Segmented h i lines ↔ ∀ line ∈ lines, i.Fits line := by
  have hfollows := Input.decode_follows h hlines
  rw [forall_fits_iff hlines]
  constructor
  · rintro ⟨h', p, as, hdecode, -⟩
    obtain ⟨s, hs, -⟩ := hfollows.of_ok hdecode
    exact Ledger.readable_of_run hs
  · intro hread
    obtain ⟨s, hs⟩ := (Input.ledgerOn_start h i).run_isSome hlive hread
    obtain ⟨⟨h', p⟩, hdecode, as, hreturns⟩ := hfollows.of_some hs
    exact ⟨h', p, as, hdecode, hreturns.recordsAt (Ledger.After.run hs)⟩

/-- Two records, the second with fields missing, and a third that is not closed. -/
def sampleRecords : List Text :=
  [lit "id: 7", lit "ip_list", lit "ip: a", lit "validity: 1", lit "ip_list_ends", lit "end_node",
    lit "reliable: 1", lit "end", lit "id: 9"]

theorem segmented_iff_sample :
    Segmented Heap.empty (.body (cbuf (unlines sampleRecords))) sampleRecords ↔
      ∀ line ∈ sampleRecords, (bufOp line).FitsBody line := by
  have hline : ∀ w ∈ sampleRecords, Line w := fun w hw => line_of_decide (by revert w; decide)
  have hlines := Input.lines_body (readString_cbuf (by decide)) hline (by decide)
  obtain ⟨c, hrun⟩ : ∃ c, (bufCursor Heap.empty).run (sampleRecords.map bufOp) = .ok c := ⟨_, rfl⟩
  exact segmented_iff Heap.empty hlines (followsLive_of_run hrun)

/-- An id of ten digits fills `char id[10]`, and `atoi` goes on behind it. -/
theorem not_segmented_longId :
    let lines := [lit "id: 1234567890", lit "end"]
    let i := Input.body (cbuf (unlines lines))
    i.lines = .ok lines ∧ FollowsLive (i.start Heap.empty) (lines.map i.op) ∧
      ¬ Segmented Heap.empty i lines := by
  intro lines i
  have hline : ∀ w ∈ lines, Line w := fun w hw => line_of_decide (by revert w; decide)
  have hlines : i.lines = .ok lines :=
    Input.lines_body (readString_cbuf (by decide)) hline (by decide)
  have hops : lines.map i.op = [.id (.error .outOfBounds), .endNode] := rfl
  refine ⟨hlines, ?_, ?_⟩
  · have hlive : ∀ op ∈ lines.map i.op, ∀ c : Cursor, c.LiveFor op := by
      rw [hops]
      simp [Cursor.LiveFor]
    exact (eachAt_mem.mpr hlive).mono (fun _ _ h c' _ => h c')
  · rintro ⟨h', p, as, hdecode, -⟩
    rw [Input.decode_eq _ hlines, hops] at hdecode
    cases hdecode

end VpnP2p.NodeInfo
