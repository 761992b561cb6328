import Mathlib.Tactic.IntervalCases
import VpnP2p.NodeInfo.DecodeRun
import VpnP2p.NodeInfo.Encode

/-!
# The infofile

What `struct2file` writes, `file2struct` reads back, with tabs taken out of the strings;
and from a text cut anywhere it reads the nodes whose lines are there. A line that is
cut, also by `file2struct` itself where it has no newline to take off, is still a piece
of the line, and a piece asks for the same branch or for none.
-/

namespace VpnP2p.NodeInfo

open Foundation

/-! ## Lines of the text -/

/-- What every line of a node is like. -/
structure Line (w : Text) : Prop where
  ne_nil : w ≠ []
  noNewline : newline ∉ w
  noNul : 0 ∉ w
  short : w.length < 32

theorem line_key {key d : Text} (hkey : Line key) (hnl : newline ∉ d) (hnul : 0 ∉ d)
    (hlen : key.length + d.length < 32) : Line (key ++ d) where
  ne_nil := by simp [hkey.ne_nil]
  noNewline := by simp [hkey.noNewline, hnl]
  noNul := by simp [hkey.noNul, hnul]
  short := by simpa using hlen

theorem line_decimal {key : Text} (hkey : Line key) (hlen : key.length < 21) (v : Int32) :
    Line (key ++ decimal v) := by
  have hbytes := decimal_bytes v
  apply line_key hkey (fun h => (hbytes _ h).2.2 rfl) (fun h => (hbytes _ h).1 rfl)
  have := decimal_length_le v
  omega

theorem line_str {key : Text} (hkey : Line key) (hlen : key.length < 13) {s : CStr 20}
    (hs : newline ∉ s.val) : Line (key ++ s.val) := by
  apply line_key hkey hs s.noNul
  have := s.fits
  omega

theorem line_of_decide {w : Text} (h : (w ≠ [] ∧ newline ∉ w ∧ 0 ∉ w ∧ w.length < 32)) :
    Line w := ⟨h.1, h.2.1, h.2.2.1, h.2.2.2⟩

theorem Node.OneLine.line {n : Node} (hn : n.OneLine) : ∀ w ∈ nodeLines n, Line w := by
  intro w hw
  simp only [nodeLines, headLines, List.mem_append, List.mem_cons, List.not_mem_nil, or_false,
    List.mem_flatMap] at hw
  rcases hw with ((rfl | rfl | rfl | rfl | rfl) | ⟨x, hx, hw⟩) | (rfl | rfl)
  · exact line_of_decide (by decide)
  · exact line_decimal (line_of_decide (by decide)) (by decide) _
  · exact line_decimal (line_of_decide (by decide)) (by decide) _
  · exact line_decimal (line_of_decide (by decide)) (by decide) _
  · exact line_of_decide (by decide)
  · obtain ⟨hip, htype⟩ := hn.lines x hx
    simp only [ipLines, List.mem_cons, List.not_mem_nil, or_false] at hw
    rcases hw with rfl | rfl | rfl | rfl
    · exact line_str (line_of_decide (by decide)) (by decide) hip
    · exact line_str (line_of_decide (by decide)) (by decide) htype
    · exact line_decimal (line_of_decide (by decide)) (by decide) _
    · exact line_decimal (line_of_decide (by decide)) (by decide) _
  · exact line_of_decide (by decide)
  · exact line_of_decide (by decide)

theorem line_of_mem {l : List Node} (hl : ∀ n ∈ l, n.OneLine) :
    ∀ w ∈ l.flatMap nodeLines, Line w := by
  intro w hw
  obtain ⟨n, hn, hw⟩ := List.mem_flatMap.mp hw
  exact (hl n hn).line w hw

/-! ## Pieces of a line -/

def Op.isSkip : Op → Bool
  | .skip => true
  | _ => false

theorem Op.eq_skip {q : Op} (h : q.isSkip = true) : q = .skip := by
  cases q <;> first | rfl | cases h

/-- A piece of a line `key ++ d` is a part of the key or the key and a piece of `d`. -/
theorem cut_line {op : Text → Op} (bad : List Text) {key d u : Text}
    (hkey : ∀ k, k < key.length → key.take k ∈ bad ∨ (op (key.take k)).isSkip = true)
    (hdata : ∀ e, e <+: d → Op.Cut (op (key ++ d)) (op (key ++ e))) (hu : u <+: key ++ d)
    (hbad : u ∉ bad) : Op.Cut (op (key ++ d)) (op u) := by
  rw [List.prefix_iff_eq_take] at hu
  by_cases hlen : u.length < key.length
  · rw [List.take_append_of_le_length (Nat.le_of_lt hlen)] at hu
    rcases hkey _ hlen with hmem | hskip
    · exact absurd (hu ▸ hmem) hbad
    · rw [hu, Op.eq_skip hskip]
      exact .lost _
  · obtain ⟨k, hk⟩ : ∃ k, u.length = key.length + k := ⟨u.length - key.length, by omega⟩
    rw [hk, List.take_length_add_append] at hu
    rw [hu]
    exact hdata _ (List.take_prefix k d)

/-- A branch that reads a field behind its key asks for a field again when its line is cut,
as long as every piece of the field can be read. -/
theorem cut_field {α : Type} {op : Text → Op} {field : Result α → Op} {read : Text → Result α}
    (bad : List Text) {key d u : Text}
    (hkey : ∀ k, k < key.length → key.take k ∈ bad ∨ (op (key.take k)).isSkip = true)
    (hop : ∀ e, op (key ++ e) = field (read e)) (hread : ∀ e, e <+: d → ∃ v, read e = .ok v)
    (hfield : ∀ r v, Op.Cut (field r) (field (.ok v))) (hu : u <+: key ++ d) (hbad : u ∉ bad) :
    Op.Cut (op (key ++ d)) (op u) := by
  apply cut_line bad hkey _ hu hbad
  intro e he
  obtain ⟨v, hv⟩ := hread e he
  rw [hop, hop, hv]
  exact hfield _ v

theorem cut_take {op : Text → Op} {w u : Text}
    (hcut : ∀ k, k ≤ w.length → Op.Cut (op w) (op (w.take k))) (hu : u <+: w) :
    Op.Cut (op w) (op u) := by
  rw [List.prefix_iff_eq_take.mp hu]
  exact hcut _ hu.length_le

/-! ## The branches of `file2struct` -/

theorem fileOp_id (d : Text) : fileOp (lit "id: " ++ d) = .id (atoi (cbuf d)) := by
  simp only [fileOp, startsWith_eq]
  rfl

theorem fileOp_nodeCount (d : Text) :
    fileOp (lit "node_count: " ++ d) = .nodeCount (atoi (cbuf d)) := by
  simp only [fileOp, startsWith_eq]
  rfl

theorem fileOp_reliable (d : Text) :
    fileOp (lit "reliable: " ++ d) = .reliable (atoi (cbuf d)) := by
  simp only [fileOp, startsWith_eq]
  rfl

theorem fileOp_ip (d : Text) : fileOp (lit "ip: " ++ d) = .ip (CStr.ofText 20 (strip d)) := by
  simp only [fileOp, startsWith_eq]
  rfl

theorem fileOp_type (d : Text) :
    fileOp (lit "ip_type: " ++ d) = .type (CStr.ofText 20 (strip d)) := by
  simp only [fileOp, startsWith_eq]
  rfl

theorem fileOp_sCount (d : Text) : fileOp (lit "s_count: " ++ d) = .sCount (atoi (cbuf d)) := by
  simp only [fileOp, startsWith_eq]
  rfl

theorem fileOp_validity (d : Text) :
    fileOp (lit "validity: " ++ d) = .validity (atoi (cbuf d)) := by
  simp only [fileOp, startsWith_eq]
  rfl

theorem ofText_strip (s : CStr 20) : CStr.ofText 20 (strip s.val) = .ok (stripStr s) :=
  CStr.ofText_val (stripStr s)

theorem map_fileOp_ipLines (x : IP) : (ipLines x).map fileOp = ipOps x.stripped := by
  simp only [ipLines, List.map_cons, List.map_nil, fileOp_ip, fileOp_type, fileOp_sCount,
    fileOp_validity, ofText_strip, atoi_cbuf_decimal]
  rfl

theorem map_fileOp_headLines (n : Node) : (headLines n).map fileOp = headOps n := by
  simp only [headLines, List.map_cons, List.map_nil, fileOp_id, fileOp_nodeCount,
    fileOp_reliable, atoi_cbuf_decimal]
  rfl

/-- The lines of a node ask for the node without its tabs. -/
theorem map_fileOp_nodeLines (n : Node) : (nodeLines n).map fileOp = nodeOps n.stripped := by
  have hhead : (headLines n).map fileOp = headOps n.stripped := map_fileOp_headLines n
  have hips : (n.ipList.flatMap ipLines).map fileOp = n.stripped.ipList.flatMap ipOps := by
    simp only [Node.stripped, List.map_flatMap, List.flatMap_map, map_fileOp_ipLines]
  simp only [nodeLines, nodeOps, List.map_append, hhead, hips, List.append_assoc]
  rfl

theorem map_fileOp_lines (l : List Node) :
    (l.flatMap nodeLines).map fileOp = (l.map Node.stripped).flatMap nodeOps := by
  simp only [List.map_flatMap, List.flatMap_map, map_fileOp_nodeLines]

theorem atoi_cbuf (d : Text) : ∃ v, atoi (cbuf d) = .ok v := atoi_terminated d []

/-- A piece of a string that fits fits, and so does it without its tabs. -/
theorem ofText_strip_prefix {s : CStr 20} {e : Text} (he : e <+: s.val) :
    ∃ c, CStr.ofText 20 (strip e) = .ok c := by
  let c : CStr 20 := ⟨strip e, zero_not_mem_strip (fun h => s.noNul (he.subset h)),
    (strip_length_le e).trans_lt (he.length_le.trans_lt s.fits)⟩
  exact ⟨c, CStr.ofText_val c⟩

theorem fileOp_cut_ipListEnds (k : Nat) (hk : k ≤ 12) :
    Op.Cut (fileOp (lit "ip_list_ends")) (fileOp ((lit "ip_list_ends").take k)) := by
  interval_cases k <;> first | exact .lost _ | exact .reopened | exact .ipListEnds

theorem fileOp_cut_endNode (k : Nat) (hk : k ≤ 8) :
    Op.Cut (fileOp (lit "end_node")) (fileOp ((lit "end_node").take k)) := by
  interval_cases k <;> first | exact .lost _ | exact .endNode

theorem fileOp_cut_node (k : Nat) (hk : k ≤ 4) :
    Op.Cut (fileOp (lit "NODE")) (fileOp ((lit "NODE").take k)) := by
  interval_cases k <;> exact .lost _

theorem fileOp_cut_ipList (k : Nat) (hk : k ≤ 7) :
    Op.Cut (fileOp (lit "ip_list")) (fileOp ((lit "ip_list").take k)) := by
  interval_cases k <;> first | exact .lost _ | exact .ipList

theorem fileOp_cut {n : Node} {w u : Text} (hw : w ∈ nodeLines n) (hu : u <+: w) :
    Op.Cut (fileOp w) (fileOp u) := by
  have hbad : u ∉ ([] : List Text) := List.not_mem_nil
  simp only [nodeLines, headLines, List.mem_append, List.mem_cons, List.not_mem_nil, or_false,
    List.mem_flatMap] at hw
  rcases hw with ((rfl | rfl | rfl | rfl | rfl) | ⟨x, -, hw⟩) | (rfl | rfl)
  · exact cut_take fileOp_cut_node hu
  · exact cut_field [] (by decide) fileOp_id (fun e _ => atoi_cbuf e) .id hu hbad
  · exact cut_field [] (by decide) fileOp_nodeCount (fun e _ => atoi_cbuf e) .nodeCount hu hbad
  · exact cut_field [] (by decide) fileOp_reliable (fun e _ => atoi_cbuf e) .reliable hu hbad
  · exact cut_take fileOp_cut_ipList hu
  · simp only [ipLines, List.mem_cons, List.not_mem_nil, or_false] at hw
    rcases hw with rfl | rfl | rfl | rfl
    · exact cut_field [] (by decide) fileOp_ip (fun _ he => ofText_strip_prefix he) .ip hu hbad
    · exact cut_field [] (by decide) fileOp_type (fun _ he => ofText_strip_prefix he) .type hu hbad
    · exact cut_field [] (by decide) fileOp_sCount (fun e _ => atoi_cbuf e) .sCount hu hbad
    · exact cut_field [] (by decide) fileOp_validity (fun e _ => atoi_cbuf e) .validity hu hbad
  · exact cut_take fileOp_cut_ipListEnds hu
  · exact cut_take fileOp_cut_endNode hu

/-! ## The loop over the file -/

theorem chop_last {u : Text} (hne : u ≠ []) (hu : 0 ∉ u) : chop u = .ok u.dropLast := by
  have htake : u.takeWhile (· ≠ 0) = u := by
    have hall : (u ++ []).takeWhile (fun b : Byte => decide (b ≠ 0)) =
        u ++ ([] : Text).takeWhile (fun b : Byte => decide (b ≠ 0)) :=
      List.takeWhile_append_of_pos (fun b hb => decide_eq_true (fun h => hu (h ▸ hb)))
    simpa only [List.append_nil, List.takeWhile_nil] using hall
  simp only [chop, htake, if_neg hne]

theorem chop_line {w : Text} (hw : 0 ∉ w) : chop (w ++ [newline]) = .ok w := by
  have hnul : 0 ∉ w ++ [newline] := by
    simp only [List.mem_append, List.mem_singleton, not_or]
    exact ⟨hw, by decide⟩
  rw [chop_last (by simp) hnul, List.dropLast_concat]

theorem mapM_chop_lines {ws : List Text} (hws : ∀ w ∈ ws, Line w) :
    (ws.map (fun w => w ++ [newline])).mapM chop = .ok ws := by
  induction ws with
  | nil => rfl
  | cons w ws ih =>
    rw [List.map_cons, List.mapM_cons, chop_line (hws w (by simp)).noNul, ok_bind,
      ih (fun v hv => hws v (by simp [hv])), ok_bind]
    rfl

/-- What is left of the last line after `file2struct` took a character off. -/
def lastOps (u : Text) : List Op := if u = [] then [] else [fileOp u.dropLast]

/-- Over whole lines and a piece of a line, the loop runs their branches. -/
theorem file2struct_lines {ws : List Text} {u : Text} (hws : ∀ w ∈ ws, Line w)
    (hu : newline ∉ u ∧ 0 ∉ u ∧ u.length < 254) (base : Heap) :
    file2struct base (some (unlines ws ++ u)) =
      (fileCursor base).run (ws.map fileOp ++ lastOps u) >>= fun c => c.finish := by
  obtain ⟨hnl, hnul, hlen⟩ := hu
  have hshort : ShortLines (255 - 1) ws := fun w hw =>
    ⟨(hws w hw).ne_nil, (hws w hw).noNewline, (hws w hw).short.trans (by decide)⟩
  have hlast : ∃ ls, (fgetsAll 255 u).mapM chop = .ok ls ∧ ls.map fileOp = lastOps u := by
    unfold lastOps
    by_cases hne : u = []
    · rw [hne, fgetsAll_nil, if_pos rfl]
      exact ⟨[], rfl, rfl⟩
    · rw [fgetsAll_last hne hnl hlen, if_neg hne, List.mapM_cons, chop_last hne hnul, ok_bind]
      exact ⟨[u.dropLast], rfl, rfl⟩
  obtain ⟨ls, hls, hops⟩ := hlast
  have hchop : (fgetsAll 255 (unlines ws ++ u)).mapM chop = .ok (ws ++ ls) := by
    rw [fgetsAll_unlines hshort, List.mapM_append, mapM_chop_lines hws, ok_bind, hls]
    rfl
  rw [file2struct_eq hchop, List.map_append, hops]

/-! ## Reading back -/

theorem flatMap_nodeOps_length (l : List Node) :
    ((l.map Node.stripped).flatMap nodeOps).length = (l.flatMap nodeLines).length := by
  rw [← map_fileOp_lines, List.length_map]

/-- The decoder after the branches of a text that may be cut. -/
theorem finish_cutRun {base : Heap} {c : Cursor} {snap : Mem IPCell} {cell : NodeCell}
    (h : Spine base snap c [] cell) {l : List Node} (hips : ∀ n ∈ l, n.ipList ≠ []) {k : Nat}
    {qs : List Op} (hcut : CutRun (l.flatMap nodeOps) k qs) :
    ∃ h' p as m, (c.run qs >>= fun c => c.finish) = .ok (h', p) ∧ NodesOn h' p as (l.take m) ∧
      base.Extends h' ∧ (∀ a ∈ as, base.nodes.length ≤ a) ∧
      ∀ j ≤ l.length, ((l.take j).flatMap nodeOps).length ≤ k → j ≤ m := by
  obtain ⟨c', snap', node', m, hrun, hs, -, hwhole⟩ := h.runNodes_cut hips hcut
  obtain ⟨h', p, as, hfin, hnodes, hext, hfresh⟩ := hs.finish
  exact ⟨h', p, as, m, by rw [hrun, ok_bind, hfin], by simpa using hnodes, hext, hfresh, hwhole⟩

/-- The whole run decodes the whole list. -/
theorem finish_run {base : Heap} {c : Cursor} {snap : Mem IPCell} {cell : NodeCell}
    (h : Spine base snap c [] cell) {l : List Node} (hips : ∀ n ∈ l, n.ipList ≠ []) :
    ∃ h' p as, (c.run (l.flatMap nodeOps) >>= fun c => c.finish) = .ok (h', p) ∧
      NodesOn h' p as l ∧ base.Extends h' ∧ ∀ a ∈ as, base.nodes.length ≤ a := by
  have hall := cutRun_take (l.flatMap nodeOps) (Nat.le_refl _)
  rw [List.take_length] at hall
  obtain ⟨h', p, as, m, hrun, hnodes, hext, hfresh, hwhole⟩ := finish_cutRun h hips hall
  have hm : l.length ≤ m := hwhole l.length (Nat.le_refl _) (by rw [List.take_length])
  rw [List.take_of_length_le hm] at hnodes
  exact ⟨h', p, as, hrun, hnodes, hext, hfresh⟩

theorem ips_stripped {l : List Node} (hl : ∀ n ∈ l, n.OneLine) :
    ∀ n ∈ l.map Node.stripped, n.ipList ≠ [] := fun n hn => (oneLine_map_stripped hl n hn).ips

/-- `file2struct` undoes `struct2file`, but for the tabs. -/
theorem file2struct_encode {l : List Node} (hl : ∀ n ∈ l, n.OneLine) (base : Heap) :
    ∃ h' p as, file2struct base (some (encode l)) = .ok (h', p) ∧
      NodesOn h' p as (l.map Node.stripped) ∧ base.Extends h' ∧
      ∀ a ∈ as, base.nodes.length ≤ a := by
  have hrun := file2struct_lines (u := []) (line_of_mem hl) (by simp) base
  rw [List.append_nil, map_fileOp_lines] at hrun
  rw [encode, hrun]
  simpa [lastOps] using finish_run (spine_fileCursor base) (ips_stripped hl)

/-- Without its last newline a text ends with its last line. -/
theorem encode_dropLast {l : List Node} (hne : l ≠ []) : ∃ ws,
    l.flatMap nodeLines = ws ++ [lit "end_node"] ∧
      (encode l).dropLast = unlines ws ++ lit "end_node" := by
  obtain ⟨l', n, rfl⟩ := List.eq_nil_or_concat' l |>.resolve_left hne
  let ws := l'.flatMap nodeLines ++
    (headLines n ++ n.ipList.flatMap ipLines ++ [lit "ip_list_ends"])
  have hlines : (l' ++ [n]).flatMap nodeLines = ws ++ [lit "end_node"] := by
    simp [ws, nodeLines]
  have hlast : unlines [lit "end_node"] = lit "end_node" ++ [newline] := rfl
  refine ⟨ws, hlines, ?_⟩
  rw [encode, hlines, unlines_append, hlast, ← List.append_assoc, List.dropLast_concat]

/-- A text without its last newline reads like the whole: the `e` of `end_node` goes
instead of the newline. -/
theorem file2struct_dropLast {l : List Node} (hl : ∀ n ∈ l, n.OneLine) (base : Heap) :
    ∃ h' p as, file2struct base (some (encode l).dropLast) = .ok (h', p) ∧
      NodesOn h' p as (l.map Node.stripped) ∧ base.Extends h' ∧
      ∀ a ∈ as, base.nodes.length ≤ a := by
  by_cases hne : l = []
  · subst hne
    exact file2struct_encode hl base
  · obtain ⟨ws, hlines, hdrop⟩ := encode_dropLast hne
    have hws : ∀ w ∈ ws, Line w := fun w hw =>
      line_of_mem hl w (by rw [hlines]; exact List.mem_append_left _ hw)
    have hops : ws.map fileOp ++ lastOps (lit "end_node") =
        (l.map Node.stripped).flatMap nodeOps := by
      have hlast : lastOps (lit "end_node") = [lit "end_node"].map fileOp := rfl
      rw [← map_fileOp_lines, hlines, hlast, ← List.map_append]
    have hrun := file2struct_lines (u := lit "end_node") hws (by decide) base
    rw [hops] at hrun
    rw [hdrop, hrun]
    exact finish_run (spine_fileCursor base) (ips_stripped hl)

/-- Blocks that are inside a cut text have their lines among the whole lines. -/
theorem blocks_le {l : List Node} (hnl : ∀ w ∈ l.flatMap nodeLines, newline ∉ w) {k j : Nat}
    {u : Text} (hu : newline ∉ u)
    (h : encode (l.take j) <+: unlines ((l.flatMap nodeLines).take k) ++ u) :
    ((l.take j).flatMap nodeLines).length ≤ k := by
  have hsub : ∀ w ∈ (l.take j).flatMap nodeLines, newline ∉ w := by
    intro w hw
    obtain ⟨n, hn, hw⟩ := List.mem_flatMap.mp hw
    exact hnl w (List.mem_flatMap.mpr ⟨n, List.mem_of_mem_take hn, hw⟩)
  have hlen := length_le_of_unlines_prefix hsub
    (fun w hw => hnl w (List.mem_of_mem_take hw)) hu h
  exact hlen.trans (List.length_take_le _ _)

/-- A text cut anywhere reads as a prefix of the list with all nodes that are whole. -/
theorem file2struct_cut {l : List Node} (hl : ∀ n ∈ l, n.OneLine) {t : Text}
    (ht : t <+: encode l) (base : Heap) :
    ∃ h' p k, file2struct base (some t) = .ok (h', p) ∧
      NodesAt h' p ((l.map Node.stripped).take k) ∧
      ∀ j ≤ l.length, encode (l.take j) <+: t → j ≤ k := by
  have hLine := line_of_mem hl
  have hnl : ∀ w ∈ l.flatMap nodeLines, newline ∉ w := fun w hw => (hLine w hw).noNewline
  obtain ⟨k, u, rfl, hu, hpiece⟩ := prefix_unlines hnl ht
  have hcut : CutRun ((l.map Node.stripped).flatMap nodeOps) k
      (((l.flatMap nodeLines).take k).map fileOp ++ lastOps u) := by
    rw [← map_fileOp_lines, List.map_take]
    unfold lastOps
    rcases hpiece with ⟨rfl, hk⟩ | ⟨w, hw, huw⟩
    · rw [if_pos rfl, List.append_nil]
      exact cutRun_take _ (by simpa using hk)
    · split
      · rw [List.append_nil]
        apply cutRun_take _
        rw [List.length_map]
        exact Nat.le_of_lt (List.getElem?_eq_some_iff.mp hw).1
      · obtain ⟨n, hn, hwn⟩ := List.mem_flatMap.mp (List.mem_of_getElem? hw)
        refine cutRun_take_cut (p := fileOp w) ?_ ?_
        · rw [List.getElem?_map, hw]
          rfl
        · exact fileOp_cut hwn ((List.dropLast_prefix u).trans huw)
  have hpieceLine : newline ∉ u ∧ 0 ∉ u ∧ u.length < 254 := by
    rcases hpiece with ⟨rfl, -⟩ | ⟨w, hw, huw⟩
    · simp
    · have hw := hLine w (List.mem_of_getElem? hw)
      exact ⟨hu, fun h => hw.noNul (huw.subset h),
        huw.length_le.trans_lt (hw.short.trans (by decide))⟩
  rw [file2struct_lines (fun w hw => hLine w (List.mem_of_mem_take hw)) hpieceLine base]
  obtain ⟨h', p, as, m, hrun, hnodes, -, -, hm⟩ :=
    finish_cutRun (spine_fileCursor base) (ips_stripped hl) hcut
  refine ⟨h', p, m, hrun, ⟨as, hnodes⟩, fun j hj hjt => ?_⟩
  apply hm j (by simpa using hj)
  rw [← List.map_take, flatMap_nodeOps_length]
  exact blocks_le hnl hu hjt

/-- Any prefix of the text of `struct2file` reads as a prefix of the list, with every node
whose block is inside; the text itself, and the text without its last newline, read as
the list. -/
theorem file2struct_struct2file {l : List Node} (hl : ∀ n ∈ l, n.Plain) {h : Heap} {p : Ptr}
    (hp : NodesAt h p l) (base : Heap) :
    ∃ text, struct2file h p = .ok text ∧
      (∀ t, t <+: text → ∃ h' q k, file2struct base (some t) = .ok (h', q) ∧
        NodesAt h' q (l.take k) ∧
        ∀ j ≤ l.length, (encode (l.take j)).length ≤ t.length → j ≤ k) ∧
      (∃ h' q, file2struct base (some text) = .ok (h', q) ∧ NodesAt h' q l) ∧
      ∃ h' q, file2struct base (some text.dropLast) = .ok (h', q) ∧ NodesAt h' q l := by
  have hLines : ∀ n ∈ l, n.OneLine := fun n hn => (hl n hn).toOneLine
  refine ⟨encode l, struct2file_nodesAt hp, ?_, ?_, ?_⟩
  · intro t ht
    obtain ⟨h', q, k, hrun, hnodes, hwhole⟩ := file2struct_cut hLines ht base
    rw [map_stripped_of_plain hl] at hnodes
    refine ⟨h', q, k, hrun, hnodes, fun j hj hlen => hwhole j hj ?_⟩
    exact List.prefix_of_prefix_length_le (encode_take_isPrefix l j) ht hlen
  · obtain ⟨h', q, as, hrun, hnodes, -⟩ := file2struct_encode hLines base
    rw [map_stripped_of_plain hl] at hnodes
    exact ⟨h', q, hrun, as, hnodes⟩
  · obtain ⟨h', q, as, hrun, hon, -⟩ := file2struct_dropLast hLines base
    rw [map_stripped_of_plain hl] at hon
    exact ⟨h', q, hrun, as, hon⟩

theorem file2struct_struct2file_sample :
    ∃ text, struct2file (Heap.empty.alloc [sampleNode]).1 (Heap.empty.alloc [sampleNode]).2 =
        .ok text ∧
      (∀ t, t <+: text → ∃ h' q k, file2struct Heap.empty (some t) = .ok (h', q) ∧
        NodesAt h' q ([sampleNode].take k) ∧
        ∀ j ≤ 1, (encode ([sampleNode].take j)).length ≤ t.length → j ≤ k) ∧
      (∃ h' q, file2struct Heap.empty (some text) = .ok (h', q) ∧ NodesAt h' q [sampleNode]) ∧
      ∃ h' q, file2struct Heap.empty (some text.dropLast) = .ok (h', q) ∧
        NodesAt h' q [sampleNode] :=
  file2struct_struct2file (by simpa using sampleNode_plain)
    (Heap.empty.alloc_nodesAt [sampleNode]) Heap.empty

end VpnP2p.NodeInfo
