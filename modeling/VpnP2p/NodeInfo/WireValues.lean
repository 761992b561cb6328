import VpnP2p.NodeInfo.WireFormat

/-!
# What the copies of a line hold

`convert_buf_to_node` copies every field into an array of its own before it reads it.
The structs hold values whose text fills such an array to its end: a number of ten or
more characters, a type of ten or more. Only a list without them comes back.
-/

namespace VpnP2p.NodeInfo

open Foundation

/-- What the branch of a line copies into its local array. -/
def localCopy (line : Text) : Option Buf :=
  if startsWith (lit "NODE") line then none
  else if startsWith (lit "id:") line then some (slice 4 10 (row line))
  else if startsWith (lit "node_count:") line then some (slice 12 10 (row line))
  else if startsWith (lit "reliable:") line then some (slice 10 10 (row line))
  else if startsWith (lit "ip_list_ends") line then none
  else if startsWith (lit "ip:") line then some (slice 4 20 (row line))
  else if startsWith (lit "ip_type:") line then some (slice 9 10 (row line))
  else if startsWith (lit "s_count:") line then some (slice 9 10 (row line))
  else if startsWith (lit "validity: ") line then some (slice 10 10 (row line))
  else none

/-- What the decoder takes out of a line it takes out of this copy. -/
theorem bufOp_eq_localCopy (line : Text) :
    bufOp line = copyOp (fun _ _ => (localCopy line).getD []) line := by
  unfold bufOp copyOp localCopy
  generalize startsWith (lit "NODE") line = isNode, startsWith (lit "id:") line = isId,
    startsWith (lit "node_count:") line = isCount, startsWith (lit "reliable:") line = isReliable,
    startsWith (lit "ip_list_ends") line = isEnds, startsWith (lit "ip:") line = isIp,
    startsWith (lit "ip_type:") line = isType, startsWith (lit "s_count:") line = isSCount,
    startsWith (lit "validity: ") line = isValidity
  cases isNode; case true => rfl
  cases isId; case true => rfl
  cases isCount; case true => rfl
  cases isReliable; case true => rfl
  cases isEnds; case true => rfl
  cases isIp; case true => rfl
  cases isType; case true => rfl
  cases isSCount; case true => rfl
  cases isValidity; case true => rfl
  rfl

/-- The bytes hold a string with its NUL. -/
def Terminated (b : Buf) : Prop := ∃ s, readString b = .ok s

/-- The text of `l` decodes as `l`, and no copy on the way lacks its NUL. -/
structure SurvivesWire (h : Heap) (p : Ptr) (base : Heap) (l : List Node) : Prop where
  decoded : ∃ text len h' q, convertNodeToBuf 2048 h p = .ok (text, len) ∧
    convertBufToNode base (cbuf text) = .ok (h', q) ∧ NodesAt h' q l
  copies : ∀ line ∈ l.flatMap nodeLines, ∀ b, localCopy line = some b → Terminated b

theorem terminated_slice (key : Text) {d : Text} {n : Nat} (hd : 0 ∉ d) (hlen : d.length < n) :
    Terminated (slice key.length n (row (key ++ d))) := by
  obtain ⟨rest, hrow⟩ := slice_row_short key hlen
  exact ⟨d, by rw [hrow, readString_append hd]⟩

theorem terminated_decimal (key : Text) {v : Int32} (hv : Short (decimal v)) :
    Terminated (slice key.length 10 (row (key ++ decimal v))) :=
  terminated_slice key (fun h => (decimal_bytes v 0 h).1 rfl) (Nat.lt_succ_of_le hv)

theorem terminated_str (key : Text) {n : Nat} {s : CStr 20} (hs : s.val.length < n) :
    Terminated (slice key.length n (row (key ++ s.val))) := terminated_slice key s.noNul hs

theorem localCopy_terminated {n : Node} (hn : n.Narrow) {line : Text} (hline : line ∈ nodeLines n)
    {b : Buf} (hb : localCopy line = some b) : Terminated b := by
  simp only [nodeLines, headLines, List.mem_append, List.mem_cons, List.not_mem_nil, or_false,
    List.mem_flatMap] at hline
  rcases hline with ((rfl | rfl | rfl | rfl | rfl) | ⟨x, hx, hline⟩) | (rfl | rfl)
  · cases hb
  · simp only [localCopy, startsWith_eq] at hb
    cases hb
    exact terminated_decimal (lit "id: ") hn.id
  · simp only [localCopy, startsWith_eq] at hb
    cases hb
    exact terminated_decimal (lit "node_count: ") hn.nodeCount
  · simp only [localCopy, startsWith_eq] at hb
    cases hb
    exact terminated_decimal (lit "reliable: ") hn.reliable
  · cases hb
  · have hxn := hn.ips x hx
    simp only [ipLines, List.mem_cons, List.not_mem_nil, or_false] at hline
    rcases hline with rfl | rfl | rfl | rfl
    all_goals
      simp only [localCopy, startsWith_eq] at hb
      cases hb
    · exact terminated_str (lit "ip: ") x.ip.fits
    · exact terminated_str (lit "ip_type: ") (Nat.lt_succ_of_le hxn.type)
    · exact terminated_decimal (lit "s_count: ") hxn.sCount
    · exact terminated_decimal (lit "validity: ") hxn.validity
  · cases hb
  · cases hb

/-- Of the values the structs can hold, those with fewer than ten characters survive, and
an IP always does. -/
theorem survivesWire_iff {h : Heap} {p : Ptr} {l : List Node} (hp : NodesAt h p l)
    (hl : ∀ n ∈ l, n.Plain) (hlines : (l.flatMap nodeLines).length ≤ 50) (base : Heap) :
    SurvivesWire h p base l ↔ ∀ n ∈ l, n.Narrow := by
  have hLines : ∀ n ∈ l, n.OneLine := fun n hn => (hl n hn).toOneLine
  have hcount : lineCount l ≤ 50 := length_lines l ▸ hlines
  have hlen : (encode l).length < 2048 := by
    have := length_encode_le hLines
    omega
  have hwrite := convertNodeToBuf_encode hp hlen
  have hbuf := readString_cbuf (noNul_encode l)
  constructor
  · rintro ⟨⟨text, len, h', q, htext, hread, -⟩, -⟩
    rw [hwrite] at htext
    cases htext
    exact (fitsDecoder_of_ok hLines hbuf hread).fields
  · intro hfields
    obtain ⟨h', q, as, hread, hon, -⟩ :=
      convertBufToNode_encode hLines ⟨hcount, hfields⟩ hbuf base
    refine ⟨⟨encode l, _, h', q, hwrite, hread, as, hon⟩, fun line hline b hb => ?_⟩
    obtain ⟨n, hn, hline⟩ := List.mem_flatMap.mp hline
    exact localCopy_terminated (hfields n hn) hline hb

theorem survivesWire_iff_sample :
    SurvivesWire (Heap.empty.alloc [sampleNode]).1 (Heap.empty.alloc [sampleNode]).2 Heap.empty
      [sampleNode] ↔ ∀ n ∈ [sampleNode], n.Narrow :=
  survivesWire_iff (Heap.empty.alloc_nodesAt [sampleNode]) (by simpa using sampleNode_plain)
    (by decide) Heap.empty

/-- The largest id has ten digits and leaves no room for a NUL in `id[10]`. -/
theorem not_survivesWire_largestId :
    let l := sampleNodes [2147483647]
    NodesAt (Heap.empty.alloc l).1 (Heap.empty.alloc l).2 l ∧ (∀ n ∈ l, n.Plain) ∧
      (l.flatMap nodeLines).length ≤ 50 ∧
      localCopy (lit "id: 2147483647") = some ((lit "2147483647").map some) ∧
      ¬ Terminated ((lit "2147483647").map some) ∧
      ¬ SurvivesWire (Heap.empty.alloc l).1 (Heap.empty.alloc l).2 Heap.empty l := by
  have hcopy : localCopy (lit "id: 2147483647") = some ((lit "2147483647").map some) := by
    simp only [localCopy, startsWith_eq]
    rfl
  have hopen : ¬ Terminated ((lit "2147483647").map some) := by
    rintro ⟨s, hs⟩
    rw [readString_unterminated (by decide)] at hs
    cases hs
  refine ⟨Heap.empty.alloc_nodesAt _, sampleNodes_plain _, by decide, hcopy, hopen, fun hs => ?_⟩
  exact hopen (hs.copies (lit "id: 2147483647") (by decide) _ hcopy)

end VpnP2p.NodeInfo
