import VpnP2p.NodeInfo.FileFormat
import VpnP2p.NodeInfo.StackFrame

/-!
# The text in a message

`convert_buf_to_node` keeps 50 lines of fewer than 80 bytes and copies every field into
a small array of its own. A list that fits is read back; one that does not makes the
decoder run over an array. It takes the same branches as `file2struct` on whole lines,
but not on every piece of a line: it tests for `id:` without the space and then copies
from behind the space, so a text that ends with the colon has it read bytes that
`split` did not write. A number made of them goes to a node that is not handed over; a
string may be too long for the struct it is copied into.
-/

namespace VpnP2p.NodeInfo

open Foundation

/-! ## What fits -/

/-- `char x[10]` holds nine characters and a NUL. -/
def Short (s : Text) : Prop := s.length ≤ 9

instance (s : Text) : Decidable (Short s) := inferInstanceAs (Decidable (_ ≤ _))

structure IP.Narrow (x : IP) : Prop where
  type : Short x.type.val
  sCount : Short (decimal x.sCount)
  validity : Short (decimal x.validity)

structure Node.Narrow (n : Node) : Prop where
  id : Short (decimal n.id)
  nodeCount : Short (decimal n.nodeCount)
  reliable : Short (decimal n.reliable)
  ips : ∀ x ∈ n.ipList, x.Narrow

def lineCount (l : List Node) : Nat := 7 * l.length + 4 * (l.map (fun n => n.ipList.length)).sum

/-- The list fits the arrays of `convert_buf_to_node`. -/
structure FitsDecoder (l : List Node) : Prop where
  lines : lineCount l ≤ 50
  fields : ∀ n ∈ l, n.Narrow

theorem length_nodeLines (n : Node) : (nodeLines n).length = 7 + 4 * n.ipList.length := by
  have hips : ∀ xs : List IP, (xs.flatMap ipLines).length = 4 * xs.length := by
    intro xs
    induction xs with
    | nil => rfl
    | cons x xs ih =>
      simp only [List.flatMap_cons, List.length_append, ih, List.length_cons]
      simp only [ipLines, List.length_cons, List.length_nil]
      omega
  simp only [nodeLines, headLines, List.length_append, hips, List.length_cons, List.length_nil]
  omega

theorem length_lines (l : List Node) : (l.flatMap nodeLines).length = lineCount l := by
  induction l with
  | nil => rfl
  | cons n l ih =>
    simp only [List.flatMap_cons, List.length_append, ih, length_nodeLines, lineCount,
      List.length_cons, List.map_cons, List.sum_cons]
    omega

/-! ## Fields of a row -/

/-- Behind the key a row holds the field, its terminator and what nobody wrote. -/
theorem drop_row (key d : Text) :
    (row (key ++ d)).drop key.length =
      d.map some ++ some 0 :: List.replicate (80 - ((key ++ d).length + 1)) none := by
  simp [row, cbuf]

theorem slice_row_short (key : Text) {d : Text} {n : Nat} (hd : d.length < n) :
    ∃ rest, slice key.length n (row (key ++ d)) = d.map some ++ some 0 :: rest := by
  obtain ⟨k, rfl⟩ : ∃ k, n = d.length + (k + 1) := ⟨n - d.length - 1, by omega⟩
  unfold slice
  have hlen : (d.map some).length = d.length := List.length_map some
  rw [drop_row, ← hlen, List.take_length_add_append, List.take_succ_cons]
  exact ⟨_, rfl⟩

theorem slice_row_long {key d : Text} {n : Nat} (hd : n ≤ d.length) :
    slice key.length n (row (key ++ d)) = (d.take n).map some := by
  unfold slice
  rw [drop_row, List.take_append_of_le_length (by simpa using hd), List.map_take]

theorem atoi_slice_short {key d : Text} {n : Nat} (hd : d.length < n) :
    ∃ v, atoi (slice key.length n (row (key ++ d))) = .ok v := by
  obtain ⟨rest, hrow⟩ := slice_row_short key hd
  rw [hrow]
  exact atoi_terminated d rest

theorem atoi_slice_decimal {key : Text} {v : Int32} (hv : Short (decimal v)) :
    atoi (slice key.length 10 (row (key ++ decimal v))) = .ok v := by
  obtain ⟨rest, hrow⟩ := slice_row_short key (Nat.lt_succ_of_le hv)
  rw [hrow]
  exact atoi_decimal v rest

/-- A number that needs ten characters fills its array to the end. -/
theorem atoi_slice_long {key : Text} {v : Int32} (hv : ¬ Short (decimal v)) :
    atoi (slice key.length 10 (row (key ++ decimal v))) = .error .outOfBounds := by
  unfold Short at hv
  rw [slice_row_long (by omega)]
  exact atoi_take_decimal (by decide)

theorem strcpy_slice_short {key : Text} {m n : Nat} {s : CStr m} (hs : s.val.length < n) :
    strcpy m (slice key.length n (row (key ++ s.val))) = .ok s := by
  obtain ⟨rest, hrow⟩ := slice_row_short key hs
  rw [hrow, strcpy, readString_append s.noNul, ok_bind, CStr.ofText_val]

theorem strcpy_slice_long {key d : Text} {m n : Nat} (hnul : 0 ∉ d) (hd : n ≤ d.length) :
    strcpy m (slice key.length n (row (key ++ d))) = .error .outOfBounds := by
  rw [slice_row_long hd, strcpy, readString_unterminated (fun h => hnul (List.mem_of_mem_take h))]
  rfl

/-! ## The branches of `convert_buf_to_node` -/

theorem bufOp_id (d : Text) : bufOp (lit "id: " ++ d) =
    .id (atoi (slice (lit "id: ").length 10 (row (lit "id: " ++ d)))) := by
  simp only [bufOp, startsWith_eq]
  rfl

theorem bufOp_nodeCount (d : Text) : bufOp (lit "node_count: " ++ d) =
    .nodeCount (atoi (slice (lit "node_count: ").length 10 (row (lit "node_count: " ++ d)))) := by
  simp only [bufOp, startsWith_eq]
  rfl

theorem bufOp_reliable (d : Text) : bufOp (lit "reliable: " ++ d) =
    .reliable (atoi (slice (lit "reliable: ").length 10 (row (lit "reliable: " ++ d)))) := by
  simp only [bufOp, startsWith_eq]
  rfl

theorem bufOp_ip (d : Text) : bufOp (lit "ip: " ++ d) =
    .ip (strcpy 20 (slice (lit "ip: ").length 20 (row (lit "ip: " ++ d)))) := by
  simp only [bufOp, startsWith_eq]
  rfl

theorem bufOp_type (d : Text) : bufOp (lit "ip_type: " ++ d) =
    .type (strcpy 20 (slice (lit "ip_type: ").length 10 (row (lit "ip_type: " ++ d)))) := by
  simp only [bufOp, startsWith_eq]
  rfl

theorem bufOp_sCount (d : Text) : bufOp (lit "s_count: " ++ d) =
    .sCount (atoi (slice (lit "s_count: ").length 10 (row (lit "s_count: " ++ d)))) := by
  simp only [bufOp, startsWith_eq]
  rfl

theorem bufOp_validity (d : Text) : bufOp (lit "validity: " ++ d) =
    .validity (atoi (slice (lit "validity: ").length 10 (row (lit "validity: " ++ d)))) := by
  simp only [bufOp, startsWith_eq]
  rfl

theorem map_bufOp_ipLines {x : IP} (hx : x.Narrow) : (ipLines x).map bufOp = ipOps x := by
  simp only [ipLines, ipOps, List.map_cons, List.map_nil, bufOp_ip, bufOp_type, bufOp_sCount,
    bufOp_validity, atoi_slice_decimal hx.sCount, atoi_slice_decimal hx.validity,
    strcpy_slice_short x.ip.fits, strcpy_slice_short (Nat.lt_succ_of_le hx.type)]

theorem map_bufOp_nodeLines {n : Node} (hn : n.Narrow) : (nodeLines n).map bufOp = nodeOps n := by
  have hhead : (headLines n).map bufOp = headOps n := by
    simp only [headLines, List.map_cons, List.map_nil, bufOp_id, bufOp_nodeCount, bufOp_reliable,
      atoi_slice_decimal hn.id, atoi_slice_decimal hn.nodeCount, atoi_slice_decimal hn.reliable]
    rfl
  have hips : ∀ xs : List IP, (∀ x ∈ xs, x.Narrow) →
      (xs.flatMap ipLines).map bufOp = xs.flatMap ipOps := by
    intro xs hxs
    rw [List.map_flatMap]
    exact List.flatMap_congr (fun x hx => map_bufOp_ipLines (hxs x hx))
  simp only [nodeLines, nodeOps, List.map_append, hhead, hips _ hn.ips, List.append_assoc]
  rfl

/-- Both decoders take the same branches on the lines of nodes that fit. -/
theorem map_bufOp_lines {l : List Node} (hl : ∀ n ∈ l, n.Narrow) :
    (l.flatMap nodeLines).map bufOp = l.flatMap nodeOps := by
  rw [List.map_flatMap]
  exact List.flatMap_congr (fun n hn => map_bufOp_nodeLines (hl n hn))

/-! ## Pieces of a line -/

/-- The keys whose branch tests up to the colon and reads from behind the space. -/
def bareKeys : List Text :=
  [lit "id:", lit "node_count:", lit "reliable:", lit "ip:", lit "ip_type:", lit "s_count:"]

/-- The line `u` is a bare key of a string, and in row `i` no NUL is among the bytes that
`strcpy` finds behind it and has room for. -/
def StackFrame.OverrunsAt (f : StackFrame) (i : Nat) (u : Text) : Prop :=
  (u = lit "ip:" ∧ 0 ∉ (f.copied i u 4 20).take 20) ∨
    (u = lit "ip_type:" ∧ 0 ∉ (f.copied i u 9 10).take 20)

instance (f : StackFrame) (i : Nat) (u : Text) : Decidable (f.OverrunsAt i u) :=
  inferInstanceAs (Decidable (_ ∨ _))

namespace StackFrame

theorem bufOp_ip (f : StackFrame) (i : Nat) : f.bufOp i (lit "ip:") =
    .ip (strcpy 20 ((f.copied i (lit "ip:") 4 20).map some)) := rfl

theorem bufOp_type (f : StackFrame) (i : Nat) : f.bufOp i (lit "ip_type:") =
    .type (strcpy 20 ((f.copied i (lit "ip_type:") 9 10).map some)) := rfl

/-- The copy of an overlong string runs over the end of the field. -/
theorem exec_overruns (f : StackFrame) {i : Nat} {u : Text} (h : f.OverrunsAt i u) (c c' : Cursor) :
    c.exec (f.bufOp i u) ≠ .ok c' := by
  intro hrun
  have hread := Cursor.readable_of_exec hrun
  rcases h with ⟨rfl, hnul⟩ | ⟨rfl, hnul⟩
  · exact hnul ((strcpy_written (f.nul_mem_copied i _ 4 20)).mp hread)
  · exact hnul ((strcpy_written (f.nul_mem_copied i _ 9 10)).mp hread)

/-- Any other copy leaves a branch that fills in the field of the whole line. -/
theorem cut_bareKey (f : StackFrame) {i : Nat} {u w : Text} (hu : u ∈ bareKeys) (huw : u <+: w)
    (hfits : ¬ f.OverrunsAt i u) : Op.Cut (NodeInfo.bufOp w) (f.bufOp i u) := by
  obtain ⟨d, rfl⟩ := huw
  have hatoi : ∀ off n, ∃ v, atoi ((f.copied i u off n).map some) = .ok v :=
    fun off n => atoi_written (f.nul_mem_copied i u off n)
  simp only [bareKeys, List.mem_cons, List.not_mem_nil, or_false] at hu
  rcases hu with rfl | rfl | rfl | rfl | rfl | rfl
  · obtain ⟨v, hv⟩ := hatoi 4 10
    have hop : f.bufOp i (lit "id:") = .id (.ok v) := congrArg Op.id hv
    simp only [hop, NodeInfo.bufOp, startsWith_eq]
    exact .id _ v
  · obtain ⟨v, hv⟩ := hatoi 12 10
    have hop : f.bufOp i (lit "node_count:") = .nodeCount (.ok v) := congrArg Op.nodeCount hv
    simp only [hop, NodeInfo.bufOp, startsWith_eq]
    exact .nodeCount _ v
  · obtain ⟨v, hv⟩ := hatoi 10 10
    have hop : f.bufOp i (lit "reliable:") = .reliable (.ok v) := congrArg Op.reliable hv
    simp only [hop, NodeInfo.bufOp, startsWith_eq]
    exact .reliable _ v
  · have hnul : (0 : Byte) ∈ (f.copied i (lit "ip:") 4 20).take 20 :=
      not_not.mp (fun h => hfits (Or.inl ⟨rfl, h⟩))
    obtain ⟨s, hs⟩ := (strcpy_written (f.nul_mem_copied i _ 4 20)).mpr hnul
    rw [bufOp_ip, hs]
    simp only [NodeInfo.bufOp, startsWith_eq]
    exact .ip _ s
  · have hnul : (0 : Byte) ∈ (f.copied i (lit "ip_type:") 9 10).take 20 :=
      not_not.mp (fun h => hfits (Or.inr ⟨rfl, h⟩))
    obtain ⟨s, hs⟩ := (strcpy_written (f.nul_mem_copied i _ 9 10)).mpr hnul
    rw [bufOp_type, hs]
    simp only [NodeInfo.bufOp, startsWith_eq]
    exact .type _ s
  · obtain ⟨v, hv⟩ := hatoi 9 10
    have hop : f.bufOp i (lit "s_count:") = .sCount (.ok v) := congrArg Op.sCount hv
    simp only [hop, NodeInfo.bufOp, startsWith_eq]
    exact .sCount _ v

end StackFrame

theorem bufOp_cut_node (k : Nat) (hk : k ≤ 4) :
    Op.Cut (bufOp (lit "NODE")) (bufOp ((lit "NODE").take k)) := by
  interval_cases k <;> exact .lost _

theorem bufOp_cut_ipList (k : Nat) (hk : k ≤ 7) :
    Op.Cut (bufOp (lit "ip_list")) (bufOp ((lit "ip_list").take k)) := by
  interval_cases k <;> first | exact .lost _ | exact .ipList

theorem bufOp_cut_ipListEnds (k : Nat) (hk : k ≤ 12) :
    Op.Cut (bufOp (lit "ip_list_ends")) (bufOp ((lit "ip_list_ends").take k)) := by
  interval_cases k <;> first | exact .lost _ | exact .reopened | exact .ipListEnds

theorem bufOp_cut_endNode (k : Nat) (hk : k ≤ 8) :
    Op.Cut (bufOp (lit "end_node")) (bufOp ((lit "end_node").take k)) := by
  interval_cases k <;> first | exact .lost _ | exact .endNode

theorem atoi_slice_piece {key e : Text} {v : Int32} (hv : Short (decimal v))
    (he : e <+: decimal v) : ∃ w, atoi (slice key.length 10 (row (key ++ e))) = .ok w :=
  atoi_slice_short (Nat.lt_succ_of_le (he.length_le.trans hv))

theorem strcpy_slice_piece {key e : Text} {n : Nat} {s : CStr 20} (hs : s.val.length < n)
    (he : e <+: s.val) : ∃ c, strcpy 20 (slice key.length n (row (key ++ e))) = .ok c := by
  let c : CStr 20 := ⟨e, fun h => s.noNul (he.subset h), he.length_le.trans_lt s.fits⟩
  have hc : c.val.length < n := he.length_le.trans_lt hs
  exact ⟨c, strcpy_slice_short hc⟩

theorem bufOp_cut {n : Node} (hn : n.Narrow) {w u : Text} (hw : w ∈ nodeLines n) (hu : u <+: w)
    (hbare : u ∉ bareKeys) : Op.Cut (bufOp w) (bufOp u) := by
  simp only [nodeLines, headLines, List.mem_append, List.mem_cons, List.not_mem_nil, or_false,
    List.mem_flatMap] at hw
  rcases hw with ((rfl | rfl | rfl | rfl | rfl) | ⟨x, hx, hw⟩) | (rfl | rfl)
  · exact cut_take bufOp_cut_node hu
  · exact cut_field bareKeys (by decide) bufOp_id (fun _ => atoi_slice_piece hn.id) .id hu hbare
  · exact cut_field bareKeys (by decide) bufOp_nodeCount (fun _ => atoi_slice_piece hn.nodeCount)
      .nodeCount hu hbare
  · exact cut_field bareKeys (by decide) bufOp_reliable (fun _ => atoi_slice_piece hn.reliable)
      .reliable hu hbare
  · exact cut_take bufOp_cut_ipList hu
  · have hxn := hn.ips x hx
    have htype : x.type.val.length < 10 := Nat.lt_succ_of_le hxn.type
    simp only [ipLines, List.mem_cons, List.not_mem_nil, or_false] at hw
    rcases hw with rfl | rfl | rfl | rfl
    · exact cut_field bareKeys (by decide) bufOp_ip (fun _ => strcpy_slice_piece x.ip.fits)
        .ip hu hbare
    · exact cut_field bareKeys (by decide) bufOp_type (fun _ => strcpy_slice_piece htype)
        .type hu hbare
    · exact cut_field bareKeys (by decide) bufOp_sCount (fun _ => atoi_slice_piece hxn.sCount)
        .sCount hu hbare
    · exact cut_field bareKeys (by decide) bufOp_validity
        (fun _ => atoi_slice_piece hxn.validity) .validity hu hbare
  · exact cut_take bufOp_cut_ipListEnds hu
  · exact cut_take bufOp_cut_endNode hu

/-! ## Reading back -/

/-- The tokens of whole lines and a piece of a line. -/
def lastToken (u : Text) : List Text := if u = [] then [] else [u]

theorem strtokAll_lines {ws : List Text} {u : Text} (hws : ∀ w ∈ ws, Line w) (hu : newline ∉ u) :
    strtokAll (lit "\n") (unlines ws ++ u) = ws ++ lastToken u := by
  have hnl : lit "\n" = [newline] := rfl
  have hshort : ShortLines 80 ws := fun w hw =>
    ⟨(hws w hw).ne_nil, (hws w hw).noNewline, (hws w hw).short.trans (by decide)⟩
  rw [hnl, strtokAll_unlines hshort]
  unfold lastToken
  split
  · rename_i h
    rw [h, strtokAll_nil]
  · rename_i h
    rw [strtokAll_last h hu]

theorem split_lines {ws : List Text} {u : Text} (hws : ∀ w ∈ ws, Line w)
    (hu : newline ∉ u ∧ u.length < 80) (hcount : (ws ++ lastToken u).length ≤ 50) :
    split 50 80 (unlines ws ++ u) (lit "\n") = .ok (ws ++ lastToken u) := by
  rw [split_eq_ok, strtokAll_lines hws hu.1]
  refine ⟨rfl, hcount, fun w hw => ?_⟩
  rcases List.mem_append.mp hw with hw | hw
  · exact (hws w hw).short.trans (by decide)
  · unfold lastToken at hw
    split at hw
    · simp at hw
    · rw [List.mem_singleton.mp hw]
      exact hu.2

theorem convertBufToNode_lines {buf : Buf} {ws : List Text} {u : Text}
    (hbuf : readString buf = .ok (unlines ws ++ u)) (hws : ∀ w ∈ ws, Line w)
    (hu : newline ∉ u ∧ u.length < 80) (hcount : (ws ++ lastToken u).length ≤ 50)
    (base : Heap) : convertBufToNode base buf =
      (bufCursor base).run ((ws ++ lastToken u).map bufOp) >>= fun c => c.finish := by
  simp only [convertBufToNode, hbuf, split_lines hws hu hcount, ok_bind]

theorem convertBufToNode_encode {l : List Node} (hl : ∀ n ∈ l, n.OneLine) (hfits : FitsDecoder l)
    {buf : Buf} (hbuf : readString buf = .ok (encode l)) (base : Heap) :
    ∃ h' p as, convertBufToNode base buf = .ok (h', p) ∧ NodesOn h' p as l ∧
      base.Extends h' ∧ ∀ a ∈ as, base.nodes.length ≤ a := by
  have hcount : (l.flatMap nodeLines ++ lastToken []).length ≤ 50 := by
    rw [lastToken, if_pos rfl, List.append_nil, length_lines]
    exact hfits.lines
  rw [convertBufToNode_lines (u := []) (by rw [List.append_nil]; exact hbuf) (line_of_mem hl)
    (by simp) hcount base, lastToken, if_pos rfl, List.append_nil, map_bufOp_lines hfits.fields]
  exact finish_run (spine_bufCursor base) (fun n hn => (hl n hn).ips)

/-! ## Cut texts -/

/-- The text ends with `ip:` or `ip_type:`, and the string that lies behind it on the stack
is too long for the field. -/
def StackFrame.Overruns (f : StackFrame) (t : Text) : Prop :=
  f.OverrunsAt (t.count newline) (lastLine t)

instance (f : StackFrame) (t : Text) : Decidable (f.Overruns t) :=
  inferInstanceAs (Decidable (f.OverrunsAt _ _))

/-- From the text `t` the decoder reads a prefix of `l` with every node whose block is
inside `t`. -/
def ReadsWhole (f : StackFrame) (base : Heap) (l : List Node) (t : Text) : Prop :=
  ∃ h' p k, convertBufToNodeOn f base (cbuf t) = .ok (h', p) ∧ NodesAt h' p (l.take k) ∧
    ∀ j ≤ l.length, (encode (l.take j)).length ≤ t.length → j ≤ k

theorem Op.Cut.readable {p q : Op} (h : Op.Cut p q) : q.Readable := by
  cases h <;> first | trivial | exact ⟨_, rfl⟩

theorem readable_of_mem_nodeOps {l : List Node} {op : Op} (h : op ∈ l.flatMap nodeOps) :
    op.Readable := by
  obtain ⟨n, -, hop⟩ := List.mem_flatMap.mp h
  simp only [nodeOps, headOps, List.mem_append, List.mem_flatMap, List.mem_cons,
    List.not_mem_nil, or_false] at hop
  rcases hop with (rfl | rfl | rfl | rfl | rfl) | ⟨x, -, hop⟩ | rfl | rfl
  case inr.inl =>
    simp only [ipOps, List.mem_cons, List.not_mem_nil, or_false] at hop
    rcases hop with rfl | rfl | rfl | rfl <;> exact ⟨_, rfl⟩
  all_goals first | trivial | exact ⟨_, rfl⟩

/-- The branch that is left of a line whose field fits. -/
theorem StackFrame.bufOp_cut (f : StackFrame) {n : Node} (hn : n.Narrow) {w u : Text}
    (hw : w ∈ nodeLines n) (hu : u <+: w) {i : Nat} (hfits : ¬ f.OverrunsAt i u) :
    Op.Cut (NodeInfo.bufOp w) (f.bufOp i u) := by
  by_cases hbare : u ∈ bareKeys
  · exact f.cut_bareKey hbare hu hfits
  · have hcut := NodeInfo.bufOp_cut hn hw hu hbare
    rwa [f.bufOp_eq i hcut.readable]

section CutText

variable {l : List Node} (hl : ∀ n ∈ l, n.OneLine) (hfits : FitsDecoder l) {ws : List Text}
  {u : Text} {k : Nat} (f : StackFrame)

include hl hfits

/-- The loop over the first `k` lines and a piece `u` of the next. -/
theorem convertBufToNodeOn_piece (hk : k ≤ (l.flatMap nodeLines).length)
    (hu : newline ∉ u) (hnext : u = [] ∨ ∃ w, (l.flatMap nodeLines)[k]? = some w ∧ u <+: w)
    (base : Heap) :
    convertBufToNodeOn f base (cbuf (unlines ((l.flatMap nodeLines).take k) ++ u)) =
      (bufCursor base).run ((l.flatMap nodeOps).take k ++ (lastToken u).map (f.bufOp k)) >>=
        fun c => c.finish := by
  have hLine := line_of_mem hl
  have hshort : u.length < 32 ∧ 0 ∉ u := by
    rcases hnext with rfl | ⟨w, hw, huw⟩
    · simp
    · have hw := hLine w (List.mem_of_getElem? hw)
      exact ⟨huw.length_le.trans_lt hw.short, fun h => hw.noNul (huw.subset h)⟩
  have hnul : 0 ∉ unlines ((l.flatMap nodeLines).take k) ++ u := by
    intro h
    rcases List.mem_append.mp h with h | h
    · apply noNul_encode l
      rw [encode, ← List.take_append_drop k (l.flatMap nodeLines), unlines_append]
      exact List.mem_append_left _ h
    · exact hshort.2 h
  have hcount : ((l.flatMap nodeLines).take k ++ lastToken u).length ≤ 50 := by
    have h50 : (l.flatMap nodeLines).length ≤ 50 := length_lines l ▸ hfits.lines
    rw [List.length_append, List.length_take]
    unfold lastToken
    split
    · simp only [List.length_nil]
      omega
    · rename_i hne
      obtain ⟨w, hw, -⟩ := hnext.resolve_left hne
      have := (List.getElem?_eq_some_iff.mp hw).1
      simp only [List.length_singleton]
      omega
  have hsplit := split_lines (fun w hw => hLine w (List.mem_of_mem_take hw))
    ⟨hu, hshort.1.trans (by decide)⟩ hcount
  have hrows : ((l.flatMap nodeLines).take k ++ lastToken u).mapIdx f.bufOp =
      (l.flatMap nodeOps).take k ++ (lastToken u).map (f.bufOp k) := by
    have hops : ((l.flatMap nodeLines).take k).map bufOp = (l.flatMap nodeOps).take k := by
      rw [List.map_take, map_bufOp_lines hfits.fields]
    have hread : ∀ op ∈ ((l.flatMap nodeLines).take k).map bufOp, op.Readable := by
      rw [hops]
      exact fun op hop => readable_of_mem_nodeOps (List.mem_of_mem_take hop)
    have hlast : (lastToken u).mapIdx (fun i => f.bufOp (i + k)) =
        (lastToken u).map (f.bufOp k) := by
      unfold lastToken
      split
      · rfl
      · simp
    rw [List.mapIdx_append, f.mapIdx_bufOp hread, hops, List.length_take, Nat.min_eq_left hk,
      hlast]
  simp only [convertBufToNodeOn, readString_cbuf hnul, hsplit, ok_bind, hrows]

omit hl in
/-- What the loop runs on them: the branches of `k` lines and what is left of the next. -/
theorem cutRun_piece (hk : k ≤ (l.flatMap nodeOps).length)
    (hnext : u = [] ∨ ∃ w, (l.flatMap nodeLines)[k]? = some w ∧ u <+: w)
    (hover : ¬ f.OverrunsAt k u) : CutRun (l.flatMap nodeOps) k
      ((l.flatMap nodeOps).take k ++ (lastToken u).map (f.bufOp k)) := by
  unfold lastToken
  split
  · rw [List.map_nil, List.append_nil]
    exact cutRun_take _ hk
  · rename_i hne
    obtain ⟨w, hw, huw⟩ := hnext.resolve_left hne
    obtain ⟨n, hn, hwn⟩ := List.mem_flatMap.mp (List.mem_of_getElem? hw)
    have hop : (l.flatMap nodeOps)[k]? = some (bufOp w) := by
      rw [← map_bufOp_lines hfits.fields, List.getElem?_map, hw]
      rfl
    exact cutRun_take_cut hop (f.bufOp_cut (hfits.fields n hn) hwn huw hover)

omit hfits in
/-- A prefix of the text is whole lines and a piece of the next. -/
theorem exists_piece {t : Text} (ht : t <+: encode l) : ∃ k u,
    t = unlines ((l.flatMap nodeLines).take k) ++ u ∧ newline ∉ u ∧
      k ≤ (l.flatMap nodeLines).length ∧
      (u = [] ∨ ∃ w, (l.flatMap nodeLines)[k]? = some w ∧ u <+: w) ∧
      (f.Overruns t ↔ f.OverrunsAt k u) := by
  have hnl : ∀ w ∈ l.flatMap nodeLines, newline ∉ w := fun w hw => (line_of_mem hl w hw).noNewline
  obtain ⟨k, u, rfl, hu, hpiece⟩ := prefix_unlines hnl ht
  have hk : k ≤ (l.flatMap nodeLines).length := by
    rcases hpiece with ⟨-, hk⟩ | ⟨w, hw, -⟩
    · exact hk
    · exact Nat.le_of_lt (List.getElem?_eq_some_iff.mp hw).1
  have hrow : (unlines ((l.flatMap nodeLines).take k) ++ u).count newline = k := by
    rw [List.count_append, List.count_eq_zero_of_not_mem hu,
      count_newline_unlines (fun w hw => hnl w (List.mem_of_mem_take hw)), List.length_take,
      Nat.min_eq_left hk, Nat.add_zero]
  refine ⟨k, u, rfl, hu, hk, hpiece.imp (fun h => h.1) id, ?_⟩
  rw [StackFrame.Overruns, hrow, lastLine_unlines _ hu]

/-- The lines before the last one still run, and then the copy goes over the end. -/
theorem convertBufToNodeOn_overruns {t : Text} (ht : t <+: encode l) (hlong : f.Overruns t)
    (base : Heap) (r : Heap × Ptr) : convertBufToNodeOn f base (cbuf t) ≠ .ok r := by
  intro hok
  obtain ⟨k, u, htext, hu, hk, hnext, hover⟩ := exists_piece hl f ht
  have hlast := hover.mp hlong
  have hne : u ≠ [] := by
    rintro rfl
    rcases hlast with ⟨h, -⟩ | ⟨h, -⟩ <;> exact absurd h (by decide)
  have hkops : k ≤ (l.flatMap nodeOps).length := by
    rwa [← map_bufOp_lines hfits.fields, List.length_map]
  obtain ⟨c, _, _, _, hrun, -⟩ := (spine_bufCursor base).runNodes_cut
    (fun n hn => (hl n hn).ips) (cutRun_take (l.flatMap nodeOps) hkops)
  rw [htext, convertBufToNodeOn_piece hl hfits f hk hu hnext base, lastToken, if_neg hne,
    Cursor.run_append, hrun, ok_bind, List.map_singleton, Cursor.run_cons] at hok
  obtain ⟨c', hlastRun, -⟩ := bind_eq_ok.mp hok
  obtain ⟨d, hd, -⟩ := bind_eq_ok.mp hlastRun
  exact f.exec_overruns hlast c d hd

theorem readsWhole_iff {t : Text} (ht : t <+: encode l) (base : Heap) :
    ReadsWhole f base l t ↔ ¬ f.Overruns t := by
  constructor
  · rintro ⟨h', p, m, hok, -⟩ hlong
    exact convertBufToNodeOn_overruns hl hfits f ht hlong base _ hok
  · intro hnot
    have hnl : ∀ w ∈ l.flatMap nodeLines, newline ∉ w :=
      fun w hw => (line_of_mem hl w hw).noNewline
    obtain ⟨k, u, htext, hu, hk, hnext, hover⟩ := exists_piece hl f ht
    have hkops : k ≤ (l.flatMap nodeOps).length := by
      rwa [← map_bufOp_lines hfits.fields, List.length_map]
    have hpieces := cutRun_piece hfits f hkops hnext (fun h => hnot (hover.mpr h))
    obtain ⟨h', p, as, m, hrun, hnodes, -, -, hm⟩ :=
      finish_cutRun (spine_bufCursor base) (fun n hn => (hl n hn).ips) hpieces
    have hdecode := convertBufToNodeOn_piece hl hfits f hk hu hnext base
    rw [← htext] at hdecode
    refine ⟨h', p, m, hdecode.trans hrun, ⟨as, hnodes⟩, fun j hj hlen => hm j hj ?_⟩
    have hblocks := List.prefix_of_prefix_length_le (encode_take_isPrefix l j) ht hlen
    rw [htext] at hblocks
    rw [← map_bufOp_lines (fun n hn => hfits.fields n (List.mem_of_mem_take hn)), List.length_map]
    exact blocks_le hnl hu hblocks

end CutText

/-! ## Encoder and decoders agree -/

theorem length_encode_le {l : List Node} (hl : ∀ n ∈ l, n.OneLine) :
    (encode l).length ≤ 32 * lineCount l := by
  have hLines : ∀ ws : List Text, (∀ w ∈ ws, Line w) → (unlines ws).length ≤ 32 * ws.length := by
    intro ws
    induction ws with
    | nil => simp
    | cons w ws ih =>
      intro hws
      have hw := (hws w (by simp)).short
      have hrest := ih (fun v hv => hws v (by simp [hv]))
      simp only [unlines_cons, List.length_append, List.length_cons]
      omega
  rw [← length_lines]
  exact hLines _ (line_of_mem hl)

theorem convertNodeToBuf_encode {cap : Nat} {h : Heap} {p : Ptr} {l : List Node}
    (hp : NodesAt h p l) (hcap : (encode l).length < cap) :
    convertNodeToBuf cap h p = .ok (encode l, (encode l).length) :=
  (convertNodeToBuf_eq_ok (Nat.zero_lt_of_lt hcap)).mpr ⟨l, hp, rfl, hcap, rfl⟩

/-- The encoders write one text, both decoders read it as `l`, and from the piece `t` of
it `convert_buf_to_node` reads a prefix of `l` with every node that is whole, where the call
finds the memory `f`. -/
def WireAgrees (f : StackFrame) (h : Heap) (p : Ptr) (base : Heap) (l : List Node) (t : Text) :
    Prop :=
  ∃ text, struct2file h p = .ok text ∧ convertNodeToBuf 2048 h p = .ok (text, text.length) ∧
    (∃ h' q, convertBufToNodeOn f base (cbuf text) = .ok (h', q) ∧ NodesAt h' q l) ∧
    (∃ h' q, file2struct base (some text) = .ok (h', q) ∧ NodesAt h' q l) ∧
    ReadsWhole f base l t

/-- Encoders and decoders agree on every list that fits, and at every cut but those behind
`ip:` and `ip_type:` that find an overlong string on the stack. -/
theorem wireAgrees_iff {l : List Node} (hl : ∀ n ∈ l, n.Plain) (hfits : FitsDecoder l) {h : Heap}
    {p : Ptr} (hp : NodesAt h p l) {text t : Text} (htext : struct2file h p = .ok text)
    (ht : t <+: text) (base : Heap) (f : StackFrame) :
    WireAgrees f h p base l t ↔ ¬ f.Overruns t := by
  have hLines : ∀ n ∈ l, n.OneLine := fun n hn => (hl n hn).toOneLine
  rw [struct2file_nodesAt hp] at htext
  cases htext
  have hcut := readsWhole_iff hLines hfits f ht base
  constructor
  · rintro ⟨_, -, -, -, -, hread⟩
    exact hcut.mp hread
  · intro hnot
    have hlen : (encode l).length < 2048 := by
      have := length_encode_le hLines
      have := hfits.lines
      omega
    obtain ⟨h₁, q₁, as₁, hrun₁, hnodes₁, -⟩ := convertBufToNode_encode hLines hfits
      (readString_cbuf (noNul_encode l)) base
    obtain ⟨h₂, q₂, as₂, hrun₂, hnodes₂, -⟩ := file2struct_encode hLines base
    rw [map_stripped_of_plain hl] at hnodes₂
    exact ⟨encode l, struct2file_nodesAt hp, convertNodeToBuf_encode hp hlen,
      ⟨h₁, q₁, convertBufToNodeOn_of_ok f hrun₁, as₁, hnodes₁⟩, ⟨h₂, q₂, hrun₂, as₂, hnodes₂⟩,
      hcut.mpr hnot⟩

theorem sampleNodes_fits {l : List Int32} (hlines : lineCount (sampleNodes l) ≤ 50)
    (hids : l.all (fun id => decide (Short (decimal id))) = true) :
    FitsDecoder (sampleNodes l) where
  lines := hlines
  fields := by
    intro n hn
    obtain ⟨id, hid, rfl⟩ := List.mem_map.mp hn
    have hcount : Short (decimal sampleNode.nodeCount) := by decide
    have hreliable : Short (decimal sampleNode.reliable) := by decide
    refine ⟨of_decide_eq_true (List.all_eq_true.mp hids id hid), hcount, hreliable, fun x hx => ?_⟩
    obtain rfl := List.mem_singleton.mp hx
    exact ⟨by decide, by decide, by decide⟩

theorem sampleNode_fits : FitsDecoder [sampleNode] :=
  sampleNodes_fits (l := [123]) (by decide) (by decide)

/-- A stack whose bytes are all `b`, and sixty of them behind every array. -/
def StackFrame.filled (b : Byte) : StackFrame where
  dst := fun _ => Vector.replicate 80 b
  behind := fun _ => List.replicate 60 b ++ [0]
  ends := by simp

theorem wireAgrees_iff_sample :
    WireAgrees (.filled 49) (Heap.empty.alloc [sampleNode]).1 (Heap.empty.alloc [sampleNode]).2
      Heap.empty [sampleNode] (lit "NODE\nid:") ↔
      ¬ (StackFrame.filled 49).Overruns (lit "NODE\nid:") :=
  wireAgrees_iff (by simpa using sampleNode_plain) sampleNode_fits
    (Heap.empty.alloc_nodesAt [sampleNode])
    (struct2file_nodesAt (Heap.empty.alloc_nodesAt [sampleNode])) (by decide) Heap.empty _

/-- The text of one node, cut behind `ip:`. -/
def textCutAtIp : Text := lit "NODE\nid: 123\nnode_count: 1\nreliable: 1\nip_list\nip:"

/-- Cut behind `ip:`, the text of one node has `strcpy` take eighty bytes from a stack full
of ones, and the whole struct it writes to has fifty-six. -/
theorem not_wireAgrees_cutAtIp :
    (∀ n ∈ [sampleNode], n.Plain) ∧ FitsDecoder [sampleNode] ∧
      textCutAtIp <+: encode [sampleNode] ∧
      readString (((StackFrame.filled 1).copied 5 (lit "ip:") 4 20).map some) =
        .ok (List.replicate 80 1) ∧
      (∀ r, convertBufToNodeOn (.filled 1) Heap.empty (cbuf textCutAtIp) ≠ .ok r) ∧
      ¬ WireAgrees (.filled 1) (Heap.empty.alloc [sampleNode]).1
        (Heap.empty.alloc [sampleNode]).2 Heap.empty [sampleNode] textCutAtIp := by
  have hPlain : ∀ n ∈ [sampleNode], n.Plain := by simpa using sampleNode_plain
  have ht : textCutAtIp <+: encode [sampleNode] := by decide
  have hfault := convertBufToNodeOn_overruns (fun n hn => (hPlain n hn).toOneLine) sampleNode_fits
    (.filled 1) ht (by decide) Heap.empty
  refine ⟨hPlain, sampleNode_fits, ht, by decide +kernel, hfault, ?_⟩
  rintro ⟨_, -, -, -, -, h', p, k, hok, -⟩
  exact hfault _ hok

/-! ## Lists that do not fit -/

/-- A number that a branch has read is short. -/
theorem short_of_exec {field : Result Int32 → Op} {key : Text} {v : Int32} {c c' : Cursor}
    (hop : ∀ d, bufOp (key ++ d) = field (atoi (slice key.length 10 (row (key ++ d)))))
    (hfield : c.exec (field (.error .outOfBounds)) ≠ .ok c')
    (h : c.exec (bufOp (key ++ decimal v)) = .ok c') : Short (decimal v) := by
  by_contra hlong
  rw [hop, atoi_slice_long hlong] at h
  exact hfield h

/-- Where the decoder ends on the text of a list, the list fits it. -/
theorem fitsDecoder_of_ok {l : List Node} (hl : ∀ n ∈ l, n.OneLine) {buf : Buf}
    (hbuf : readString buf = .ok (encode l)) {base : Heap} {r : Heap × Ptr}
    (hrun : convertBufToNode base buf = .ok r) : FitsDecoder l := by
  have htokens : strtokAll (lit "\n") (encode l) = l.flatMap nodeLines := by
    have := strtokAll_lines (u := []) (line_of_mem hl) (by simp)
    rwa [List.append_nil, lastToken, if_pos rfl, List.append_nil] at this
  simp only [convertBufToNode, hbuf, ok_bind, bind_eq_ok] at hrun
  obtain ⟨dst, hsplit, c, hloop, -⟩ := hrun
  obtain ⟨rfl, hcount, -⟩ := split_eq_ok.mp hsplit
  rw [htokens] at hloop hcount
  have hstep : ∀ n ∈ l, ∀ w ∈ nodeLines n, ∃ t t' : Cursor, t.exec (bufOp w) = .ok t' :=
    fun n hn w hw => foldlM_step_of_ok hloop
      (List.mem_map.mpr ⟨w, List.mem_flatMap.mpr ⟨n, hn, hw⟩, rfl⟩)
  have hhead : ∀ n ∈ l, ∀ w ∈ headLines n, ∃ t t' : Cursor, t.exec (bufOp w) = .ok t' := by
    intro n hn w hw
    apply hstep n hn w
    simp [nodeLines, hw]
  have hip : ∀ n ∈ l, ∀ x ∈ n.ipList, ∀ w ∈ ipLines x,
      ∃ t t' : Cursor, t.exec (bufOp w) = .ok t' := by
    intro n hn x hx w hw
    apply hstep n hn w
    simp only [nodeLines, List.mem_append, List.mem_flatMap]
    exact Or.inl (Or.inr ⟨x, hx, hw⟩)
  refine ⟨length_lines l ▸ hcount, fun n hn => ⟨?_, ?_, ?_, fun x hx => ⟨?_, ?_, ?_⟩⟩⟩
  · obtain ⟨t, t', h⟩ := hhead n hn (lit "id: " ++ decimal n.id) (by simp [headLines])
    exact short_of_exec bufOp_id (fun h => by cases h) h
  · obtain ⟨t, t', h⟩ := hhead n hn (lit "node_count: " ++ decimal n.nodeCount)
      (by simp [headLines])
    exact short_of_exec bufOp_nodeCount (fun h => by cases h) h
  · obtain ⟨t, t', h⟩ := hhead n hn (lit "reliable: " ++ decimal n.reliable) (by simp [headLines])
    exact short_of_exec bufOp_reliable (fun h => by cases h) h
  · by_contra hlong
    obtain ⟨t, t', h⟩ := hip n hn x hx (lit "ip_type: " ++ x.type.val) (by simp [ipLines])
    rw [bufOp_type, strcpy_slice_long x.type.noNul (by unfold Short at hlong; omega)] at h
    cases h
  · obtain ⟨t, t', h⟩ := hip n hn x hx (lit "s_count: " ++ decimal x.sCount) (by simp [ipLines])
    exact short_of_exec bufOp_sCount (fun h => by cases h) h
  · obtain ⟨t, t', h⟩ := hip n hn x hx (lit "validity: " ++ decimal x.validity) (by simp [ipLines])
    exact short_of_exec bufOp_validity (fun h => by cases h) h

end VpnP2p.NodeInfo
