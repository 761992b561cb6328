import VpnP2p.NodeInfo.Fields
import VpnP2p.NodeInfo.LedgerRun
import VpnP2p.NodeInfo.Sheets

/-!
# Infofiles without validity lines

`file2struct` moves on to the next IP cell on a `validity` line only, and the infofiles
of the repository have none. A `Block` is what `struct2file` writes for a node, with the
`validity` lines of some IPs left out. Where one is missing, the next IP is written over
the one it belongs to, and `ip_list_ends` keeps what was moved past, or the last IP if
that is nothing.
-/

namespace VpnP2p.NodeInfo

open Foundation

/-! ## The texts -/

/-- A node, and for each of its IPs whether its `validity` line is there. -/
structure Block where
  id : Int32
  nodeCount : Int32
  reliable : Int32
  ips : List (IP × Bool)

def entryLines (x : IP × Bool) : List Text := if x.2 then ipLines x.1 else (ipLines x.1).dropLast

namespace Block

def node (b : Block) : Node := ⟨b.id, b.nodeCount, b.reliable, b.ips.map Prod.fst⟩

def lines (b : Block) : List Text :=
  headLines b.node ++ b.ips.flatMap entryLines ++ [lit "ip_list_ends", lit "end_node"]

/-- No string of the node has a tab or a newline in it. -/
def Clean (b : Block) : Prop :=
  ∀ x ∈ b.ips, (tab ∉ x.1.ip.val ∧ newline ∉ x.1.ip.val) ∧
    (tab ∉ x.1.type.val ∧ newline ∉ x.1.type.val)

/-- Nothing is missing but lines that give a validity. -/
theorem lines_sublist (b : Block) : b.lines.Sublist (nodeLines b.node) := by
  have hentries : ∀ xs : List (IP × Bool),
      (xs.flatMap entryLines).Sublist ((xs.map Prod.fst).flatMap ipLines) := by
    intro xs
    induction xs with
    | nil => exact List.Sublist.refl []
    | cons x xs ih =>
      rw [List.flatMap_cons, List.map_cons, List.flatMap_cons]
      refine List.Sublist.append ?_ ih
      unfold entryLines
      split
      · exact List.Sublist.refl _
      · exact List.dropLast_sublist _
  exact ((List.Sublist.refl _).append (hentries b.ips)).append (List.Sublist.refl _)

theorem lines_of_kept {b : Block} (h : ∀ x ∈ b.ips, x.2 = true) : b.lines = nodeLines b.node := by
  have hentries : b.ips.flatMap entryLines = (b.ips.map Prod.fst).flatMap ipLines := by
    rw [List.flatMap_map]
    exact List.flatMap_congr (fun x hx => if_pos (h x hx))
  rw [lines, nodeLines, hentries]
  rfl

end Block

def leftOut (bs : List Block) : Text := unlines (bs.flatMap Block.lines)

/-- With nothing left out it is the text of `struct2file`. -/
theorem leftOut_of_kept {bs : List Block} (h : ∀ b ∈ bs, ∀ x ∈ b.ips, x.2 = true) :
    leftOut bs = encode (bs.map Block.node) := by
  rw [leftOut, encode, List.flatMap_map]
  exact congrArg unlines (List.flatMap_congr (fun b hb => Block.lines_of_kept (h b hb)))

/-! ## Lists with all their IPs -/

/-- The entry has the ip, the type and the s_count of `x`. -/
structure Draft.Own (d : Draft) (x : IP × Bool) : Prop where
  ip : d.ip = some x.1.ip
  type : d.type = some x.1.type
  sCount : d.sCount = some x.1.sCount

/-- The cell has the fields of the block, and its list the IPs of the block, in order. -/
structure NodeCell.Lists (ips : Mem IPCell) (c : NodeCell) (b : Block) : Prop where
  id : c.id = some b.id
  nodeCount : c.nodeCount = some b.nodeCount
  reliable : c.reliable = some b.reliable
  ipList : ∃ as, Seg IPCell.nextIp ips c.ipList as .null ∧
    Contents (fun d x => d.draft.Own x) ips as b.ips

/-- `file2struct` returns every node with all its IPs. -/
def KeepsIps (base : Heap) (bs : List Block) : Prop :=
  ∃ h p, file2struct base (some (leftOut bs)) = .ok (h, p) ∧
    ∃ as, Seg NodeCell.nextNode h.nodes p as .null ∧
      Contents (NodeCell.Lists h.ips) h.nodes as bs

/-! ## The sheet of a block -/

def entryOps (x : IP × Bool) : List Op := if x.2 then ipOps x.1 else (ipOps x.1).dropLast

/-- What `ip_new` holds behind the lines of these IPs. -/
def spareOf (xs : List (IP × Bool)) : Draft :=
  match xs.getLast? with
  | some (x, false) => { x.draft with validity := none }
  | _ => .blank

def keptOf (xs : List (IP × Bool)) : List Draft :=
  (xs.filter (fun x => x.2)).map (fun x => x.1.draft)

namespace Block

def ops (b : Block) : List Op :=
  headOps b.node ++ (b.ips.flatMap entryOps ++ [.ipListEnds, .endNode])

/-- What the lines of the block leave of its sheet. -/
def sheet (b : Block) : Sheet :=
  ⟨keptOf b.ips, spareOf b.ips, (keptOf b.ips).isEmpty, .ended⟩

end Block

theorem run_entryOps (kept : List Draft) {spare : Draft} (hval : spare.validity = none)
    (x : IP × Bool) :
    (⟨kept, spare, true, .growing⟩ : Sheet).run (entryOps x) =
      some (if x.2 then ⟨kept ++ [x.1.draft], .blank, true, .growing⟩
        else ⟨kept, { x.1.draft with validity := none }, true, .growing⟩) := by
  obtain ⟨x, k⟩ := x
  cases k with
  | true => rfl
  | false =>
    rw [← hval]
    rfl

theorem spareOf_validity (xs : List (IP × Bool)) : (spareOf xs).validity = none := by
  unfold spareOf
  split <;> rfl

theorem run_entries (xs : List (IP × Bool)) :
    Sheet.opened.run (xs.flatMap entryOps) = some ⟨keptOf xs, spareOf xs, true, .growing⟩ := by
  induction xs using List.reverseRecOn with
  | nil => rfl
  | append_singleton xs x ih =>
    rw [List.flatMap_append, Sheet.run_append, ih, Option.bind_some, List.flatMap_singleton,
      run_entryOps _ (spareOf_validity xs)]
    obtain ⟨x, k⟩ := x
    cases k <;> simp [keptOf, spareOf]

theorem run_sheet (b : Block) :
    Sheet.opened.run (b.ips.flatMap entryOps ++ [.ipListEnds]) = some b.sheet := by
  rw [Sheet.run_append, run_entries]
  rfl

/-! ## The ledger of a text -/

/-- Lines about IPs go into the sheet and nowhere else. -/
theorem Ledger.run_aboutIps (s : Ledger) {ops : List Op}
    (hops : ∀ op ∈ ops, op.isAboutIps = true) {t : Sheet} (h : s.sheet.run ops = some t) :
    s.run ops = some { s with sheet := t } := by
  induction ops generalizing s with
  | nil =>
    cases h
    rfl
  | cons op ops ih =>
    rw [List.forall_mem_cons] at hops
    rw [Sheet.run_cons] at h
    obtain ⟨u, hu, hrest⟩ := Option.bind_eq_some_iff.mp h
    have hexec : s.exec op = some { s with sheet := u } := by
      have hop := hops.1
      cases op with
      | skip | id v | nodeCount v | reliable v | ipList | endNode => cases hop
      | _ =>
        rw [Ledger.exec_other s rfl rfl, hu]
        rfl
    rw [Ledger.run_cons, hexec, Option.bind_some]
    exact ih { s with sheet := u } hops.2 hrest

theorem entryOps_aboutIps (xs : List (IP × Bool)) :
    ∀ op ∈ xs.flatMap entryOps, op.isAboutIps = true := by
  intro op hop
  obtain ⟨⟨x, k⟩, -, hop⟩ := List.mem_flatMap.mp hop
  have hips : ∀ op ∈ ipOps x, op.isAboutIps = true := by simp [ipOps, Op.isAboutIps]
  cases k with
  | true => exact hips op hop
  | false => exact hips op (List.mem_of_mem_dropLast hop)

/-- The record of the block `b` and the sheet it belongs to. -/
structure Ledger.Files (s : Ledger) (r : NodeDraft) (b : Block) : Prop where
  id : r.id = some b.id
  nodeCount : r.nodeCount = some b.nodeCount
  reliable : r.reliable = some b.reliable
  ipList : ∃ k, r.ipList = some k ∧ s.sheets[k]? = some b.sheet

theorem Ledger.run_block (s : Ledger) (b : Block) :
    s.run b.ops = some {
      done := s.done ++ [⟨some b.id, some b.nodeCount, some b.reliable, some (s.closed.length + 1)⟩]
      cur := .blank
      closed := s.closed ++ [s.sheet]
      sheet := b.sheet } := by
  have hips : ∀ op ∈ b.ips.flatMap entryOps ++ [.ipListEnds], op.isAboutIps = true := by
    intro op hop
    rcases List.mem_append.mp hop with hop | hop
    · exact entryOps_aboutIps b.ips op hop
    · rw [List.mem_singleton.mp hop]
      rfl
  have hsplit : b.ops =
      headOps b.node ++ ((b.ips.flatMap entryOps ++ [.ipListEnds]) ++ [.endNode]) := by
    simp [Block.ops]
  have hhead : s.run (headOps b.node) = some { s with
      cur := ⟨some b.id, some b.nodeCount, some b.reliable, some (s.closed.length + 1)⟩
      closed := s.closed ++ [s.sheet]
      sheet := .opened } := rfl
  rw [hsplit, Ledger.run_append, hhead, Option.bind_some, Ledger.run_append,
    Ledger.run_aboutIps _ hips (run_sheet b)]
  rfl

/-- One record for each block, with a sheet of its own. -/
theorem Ledger.run_blocks (s : Ledger) (bs : List Block) :
    ∃ s' rs, s.run (bs.flatMap Block.ops) = some s' ∧ s'.done = s.done ++ rs ∧
      s.sheets <+: s'.sheets ∧ List.Forall₂ s'.Files rs bs := by
  induction bs generalizing s with
  | nil => exact ⟨s, [], rfl, by simp, List.prefix_rfl, .nil⟩
  | cons b bs ih =>
    let r : NodeDraft := ⟨some b.id, some b.nodeCount, some b.reliable, some (s.closed.length + 1)⟩
    obtain ⟨s', rs, hrun, hdone, hsheets, hfiles⟩ :=
      ih ⟨s.done ++ [r], .blank, s.closed ++ [s.sheet], b.sheet⟩
    refine ⟨s', r :: rs, ?_, ?_, ?_, .cons ?_ hfiles⟩
    · rw [List.flatMap_cons, Ledger.run_append, s.run_block b, Option.bind_some]
      exact hrun
    · rw [hdone]
      simp
    · exact (List.prefix_append _ _).trans hsheets
    · refine ⟨rfl, rfl, rfl, s.closed.length + 1, rfl, getElem?_of_prefix hsheets ?_⟩
      simp [Ledger.sheets]

/-! ## Which blocks come back whole -/

/-- The record stands for the block. -/
structure Ledger.Lists (s : Ledger) (r : NodeDraft) (b : Block) : Prop where
  id : r.id = some b.id
  nodeCount : r.nodeCount = some b.nodeCount
  reliable : r.reliable = some b.reliable
  ipList : ∃ k t, r.ipList = some k ∧ s.sheets[k]? = some t ∧ List.Forall₂ Draft.Own t.entries b.ips

theorem NodeCell.HoldsDraft.lists_iff {s : Ledger} {ips : Mem IPCell} {c : NodeCell}
    {r : NodeDraft} (h : c.HoldsDraft s ips r) (b : Block) : c.Lists ips b ↔ s.Lists r b := by
  constructor
  · intro hb
    exact ⟨h.id ▸ hb.id, h.nodeCount ▸ hb.nodeCount, h.reliable ▸ hb.reliable,
      h.ipList_iff.mp hb.ipList⟩
  · intro hb
    exact ⟨h.id.trans hb.id, h.nodeCount.trans hb.nodeCount, h.reliable.trans hb.reliable,
      h.ipList_iff.mpr hb.ipList⟩

theorem Ledger.Files.lists_iff {s : Ledger} {r : NodeDraft} {b : Block} (h : s.Files r b) :
    s.Lists r b ↔ List.Forall₂ Draft.Own b.sheet.entries b.ips := by
  obtain ⟨k, hk, hsheet⟩ := h.ipList
  constructor
  · rintro ⟨-, -, -, k', t, hk', ht, hown⟩
    rw [hk] at hk'
    cases hk'
    rw [hsheet] at ht
    cases ht
    exact hown
  · exact fun hown => ⟨h.id, h.nodeCount, h.reliable, k, b.sheet, hk, hsheet, hown⟩

theorem Draft.own_draft (x : IP × Bool) : x.1.draft.Own x := ⟨rfl, rfl, rfl⟩

theorem keptOf_of_all {xs : List (IP × Bool)} (h : ∀ x ∈ xs, x.2 = true) :
    keptOf xs = xs.map (fun x => x.1.draft) := by
  rw [keptOf, List.filter_eq_self.mpr h]

/-- The sheet has all IPs if all are moved past, or if there is just one. -/
theorem Block.entries_iff {b : Block} (hips : b.ips ≠ []) :
    List.Forall₂ Draft.Own b.sheet.entries b.ips ↔
      (∀ x ∈ b.ips, x.2 = true) ∨ b.ips.length = 1 := by
  have hall : List.Forall₂ Draft.Own (b.ips.map (fun x => x.1.draft)) b.ips := by
    rw [List.forall₂_map_left_iff]
    exact List.forall₂_same.mpr (fun x _ => Draft.own_draft x)
  by_cases hkept : keptOf b.ips = []
  · -- Nothing is moved past: the list is the last IP alone.
    have hentries : b.sheet.entries = [spareOf b.ips] := by
      simp [Block.sheet, Sheet.entries, hkept]
    have hnone : ∀ x ∈ b.ips, x.2 = false := by
      simpa [keptOf, List.filter_eq_nil_iff] using hkept
    rw [hentries]
    constructor
    · intro h
      exact Or.inr h.length_eq.symm
    · rintro (h | h)
      · obtain ⟨x, hx⟩ := List.exists_mem_of_ne_nil _ hips
        have hfalse := hnone x hx
        rw [h x hx] at hfalse
        cases hfalse
      · obtain ⟨⟨x, k⟩, hx⟩ := List.length_eq_one_iff.mp h
        have hk : k = false := hnone (x, k) (by simp [hx])
        rw [hx, hk]
        exact .cons ⟨rfl, rfl, rfl⟩ .nil
  · have hentries : b.sheet.entries = keptOf b.ips := by
      simp [Block.sheet, Sheet.entries, hkept]
    rw [hentries]
    constructor
    · intro h
      have hlen := h.length_eq
      rw [keptOf, List.length_map, List.length_filter_eq_length_iff] at hlen
      exact Or.inl hlen
    · rintro (h | h)
      · rw [keptOf_of_all h]
        exact hall
      · obtain ⟨⟨x, k⟩, hx⟩ := List.length_eq_one_iff.mp h
        have hk : k = true := by
          cases k with
          | true => rfl
          | false => exact absurd (by simp [keptOf, hx]) hkept
        have htrue : ∀ x ∈ b.ips, x.2 = true := by simp [hx, hk]
        rw [keptOf_of_all htrue]
        exact hall

/-! ## From the text to the blocks -/

/-- `file2struct` takes tabs and newlines out of the strings it reads. -/
def Op.Stripped : Op → Prop
  | .ip s | .type s => ∀ t, s = .ok t → tab ∉ t.val ∧ newline ∉ t.val
  | _ => True

theorem Op.Stripped.ite {p : Prop} [Decidable p] {op op' : Op} (h : op.Stripped)
    (h' : op'.Stripped) : (if p then op else op').Stripped := by
  split
  · exact h
  · exact h'

theorem fileOp_stripped (line : Text) : (fileOp line).Stripped := by
  have hstrip : ∀ (d : Text) (t : CStr 20), CStr.ofText 20 (strip d) = .ok t →
      tab ∉ t.val ∧ newline ∉ t.val := by
    intro d t ht
    rw [CStr.ofText_ok ht]
    exact ⟨by simp [strip], newline_not_mem_strip d⟩
  exact .ite trivial <| .ite trivial <| .ite trivial <| .ite trivial <| .ite trivial <|
    .ite (hstrip _) <| .ite (hstrip _) <| .ite trivial <| .ite trivial <| .ite trivial <|
    .ite trivial trivial

namespace Block

variable {b : Block}

theorem Clean.oneLine (h : b.Clean) (hips : b.ips ≠ []) : b.node.OneLine where
  ips := by simpa [node] using hips
  lines := by
    intro x hx
    obtain ⟨y, hy, rfl⟩ := List.mem_map.mp hx
    exact ⟨(h y hy).1.2, (h y hy).2.2⟩

theorem Clean.map_fileOp (h : b.Clean) : b.lines.map fileOp = b.ops := by
  have hentry : ∀ x ∈ b.ips, (entryLines x).map fileOp = entryOps x := by
    intro x hx
    obtain ⟨⟨hiptab, hipnl⟩, htypetab, htypenl⟩ := h x hx
    have hip : stripStr x.1.ip = x.1.ip := CStr.ext' (strip_eq_self hiptab hipnl)
    have htype : stripStr x.1.type = x.1.type := CStr.ext' (strip_eq_self htypetab htypenl)
    have hx' : x.1.stripped = x.1 := by rw [IP.stripped, hip, htype]
    have hlines := map_fileOp_ipLines x.1
    rw [hx'] at hlines
    unfold entryLines entryOps
    split
    · exact hlines
    · rw [List.map_dropLast, hlines]
  have hips : (b.ips.flatMap entryLines).map fileOp = b.ips.flatMap entryOps := by
    rw [List.map_flatMap]
    exact List.flatMap_congr hentry
  rw [Block.lines, Block.ops, List.map_append, List.map_append, map_fileOp_headLines, hips,
    List.append_assoc]
  rfl

end Block

/-- The lines of a text whose strings are clean. -/
theorem lines_leftOut {bs : List Block} (hips : ∀ b ∈ bs, b.ips ≠ []) (hclean : ∀ b ∈ bs, b.Clean) :
    Input.lines (.file (leftOut bs)) = .ok (bs.flatMap Block.lines) := by
  apply Input.lines_file
  intro w hw
  obtain ⟨b, hb, hw⟩ := List.mem_flatMap.mp hw
  exact ((hclean b hb).oneLine (hips b hb)).line w (b.lines_sublist.subset hw)

theorem map_fileOp_leftOut {bs : List Block} (hclean : ∀ b ∈ bs, b.Clean) :
    (bs.flatMap Block.lines).map fileOp = bs.flatMap Block.ops := by
  rw [List.map_flatMap]
  exact List.flatMap_congr (fun b hb => (hclean b hb).map_fileOp)

/-- The strings of records that come back are clean. -/
theorem clean_of_lists {s : Ledger} {lines : List Text} {rs : List NodeDraft} {bs : List Block}
    (hfrom : ∀ t ∈ s.sheets, t.From (lines.map fileOp)) (h : List.Forall₂ s.Lists rs bs) :
    ∀ b ∈ bs, b.Clean := by
  have hstripped : ∀ op ∈ lines.map fileOp, op.Stripped := by
    intro op hop
    obtain ⟨line, -, rfl⟩ := List.mem_map.mp hop
    exact fileOp_stripped line
  intro b hb x hx
  obtain ⟨r, -, hlists⟩ := forall₂_mem_right h hb
  obtain ⟨k, t, -, ht, hown⟩ := hlists.ipList
  obtain ⟨d, hd, hx⟩ := forall₂_mem_right hown hx
  have hvalues := (hfrom t (List.mem_of_getElem? ht)).entries d hd
  exact ⟨hstripped _ (hvalues.ip _ hx.ip) _ rfl, hstripped _ (hvalues.type _ hx.type) _ rfl⟩

/-! ## Which texts lose no IP -/

section KeepsIps

variable {base : Heap} {bs : List Block}

/-- With clean strings, the records of the text are those of the blocks. -/
theorem file2struct_leftOut (base : Heap) (hips : ∀ b ∈ bs, b.ips ≠ [])
    (hclean : ∀ b ∈ bs, b.Clean) :
    ∃ h p as s, file2struct base (some (leftOut bs)) = .ok (h, p) ∧ Returns s base h p as ∧
      List.Forall₂ s.Files s.done bs := by
  obtain ⟨s, rs, hs, hdone, -, hfiles⟩ := (Ledger.start .loose).run_blocks bs
  have hfollows := Input.decode_follows base (lines_leftOut hips hclean)
  rw [Input.op, map_fileOp_leftOut hclean] at hfollows
  obtain ⟨⟨h, p⟩, hrun, as, hreturns⟩ := hfollows.of_some hs
  exact ⟨h, p, as, s, hrun, hreturns, by rw [hdone]; exact hfiles⟩

theorem KeepsIps.clean (h : KeepsIps base bs) : ∀ b ∈ bs, b.Clean := by
  obtain ⟨h', p, hrun, hcells⟩ := h
  obtain ⟨lines, hlines⟩ : ∃ lines, Input.lines (.file (leftOut bs)) = .ok lines :=
    chopped_of_file2struct hrun
  obtain ⟨s, hs, as, hreturns⟩ := (Input.decode_follows base hlines).of_ok hrun
  have hfrom : ∀ t ∈ s.sheets, t.From (lines.map fileOp) :=
    Ledger.from_run (by simp [Ledger.start, Ledger.sheets, Input.first, Sheet.from_loose]) hs
  exact clean_of_lists hfrom ((hreturns.contents_iff (fun c r hd b => hd.lists_iff b)).mp hcells)

theorem keepsIps_of_clean (hips : ∀ b ∈ bs, b.ips ≠ []) (hclean : ∀ b ∈ bs, b.Clean) :
    KeepsIps base bs ↔ ∀ b ∈ bs, (∀ x ∈ b.ips, x.2 = true) ∨ b.ips.length = 1 := by
  obtain ⟨h, p, as, s, hrun, hreturns, hfiles⟩ := file2struct_leftOut base hips hclean
  have hcells : (∃ as, Seg NodeCell.nextNode h.nodes p as .null ∧
      Contents (NodeCell.Lists h.ips) h.nodes as bs) ↔ List.Forall₂ s.Lists s.done bs :=
    hreturns.contents_iff (fun c r hd b => hd.lists_iff b)
  have hkept : List.Forall₂ s.Lists s.done bs ↔
      ∀ b ∈ bs, (∀ x ∈ b.ips, x.2 = true) ∨ b.ips.length = 1 := by
    rw [forall₂_iff_forall hfiles (fun r b hr => hr.lists_iff)]
    exact forall₂_congr (fun b hb => Block.entries_iff (hips b hb))
  rw [← hkept, ← hcells]
  constructor
  · rintro ⟨h', p', hrun', hback⟩
    rw [hrun] at hrun'
    cases hrun'
    exact hback
  · exact fun hback => ⟨h, p, hrun, hback⟩

theorem keepsIps_iff (base : Heap) (hips : ∀ b ∈ bs, b.ips ≠ []) :
    KeepsIps base bs ↔ (∀ b ∈ bs, b.Clean) ∧
      ∀ b ∈ bs, (∀ x ∈ b.ips, x.2 = true) ∨ b.ips.length = 1 := by
  constructor
  · intro h
    exact ⟨h.clean, (keepsIps_of_clean hips h.clean).mp h⟩
  · rintro ⟨hclean, hkept⟩
    exact (keepsIps_of_clean hips hclean).mpr hkept

end KeepsIps

/-- The node of node_info.txt: one IP, without its validity. -/
def sampleBlock : Block := ⟨3718, 1, 1, [(⟨sampleHere, clientIP, 0, 0⟩, false)]⟩

theorem keepsIps_iff_sample :
    KeepsIps Heap.empty [sampleBlock] ↔ (∀ b ∈ [sampleBlock], b.Clean) ∧
      ∀ b ∈ [sampleBlock], (∀ x ∈ b.ips, x.2 = true) ∨ b.ips.length = 1 :=
  keepsIps_iff Heap.empty (by simp [sampleBlock])

/-- Two IPs without validity, like the second node of the infofile of JoinTest. -/
def sampleTwoIps : Block :=
  ⟨2, 1, 1, [(⟨sampleHere, clientIP, 1, 1⟩, false), (⟨sampleThere, clientIP, 2, 1⟩, false)]⟩

theorem not_keepsIps_two : ¬ KeepsIps Heap.empty [sampleTwoIps] := by
  intro h
  have hips : ∀ b ∈ [sampleTwoIps], b.ips ≠ [] := by simp [sampleTwoIps]
  rcases (keepsIps_of_clean hips h.clean).mp h sampleTwoIps (by simp) with hkept | hone
  · have hfirst := hkept _ (List.mem_cons_self ..)
    cases hfirst
  · cases hone

end VpnP2p.NodeInfo
