import VpnP2p.NodeInfo.WireFormat

/-!
# With or without the last newline

`register_node` writes a reply to the infofile without its last byte, a newline, and the
next message takes the infofile as it is. Both decoders read such a text like the whole:
`file2struct` chops the last line wherever it ends, and `strtok` needs no newline behind it.
-/

namespace VpnP2p.NodeInfo

open Foundation

/-- `t` is the text of `l`, which may lack its last newline. -/
def TextOf (l : List Node) (t : Text) : Prop := t = encode l ∨ t = (encode l).dropLast

namespace TextOf

variable {l : List Node} {t : Text}

theorem encode (l : List Node) : TextOf l (encode l) := .inl rfl

theorem dropLast (l : List Node) : TextOf l (NodeInfo.encode l).dropLast := .inr rfl

theorem subset (h : TextOf l t) : t ⊆ NodeInfo.encode l := by
  rcases h with rfl | rfl
  · exact List.Subset.refl _
  · exact (List.dropLast_prefix _).subset

theorem noNul (h : TextOf l t) : 0 ∉ t := fun hmem => noNul_encode l (h.subset hmem)

theorem length_le (h : TextOf l t) : t.length ≤ (NodeInfo.encode l).length := by
  rcases h with rfl | rfl
  · exact Nat.le_refl _
  · exact (List.dropLast_prefix _).length_le

/-- The tokens are the lines, the last one included. -/
theorem strtokAll (hl : ∀ n ∈ l, n.OneLine) (h : TextOf l t) :
    Foundation.strtokAll (lit "\n") t = l.flatMap nodeLines := by
  have hwhole : Foundation.strtokAll (lit "\n") (NodeInfo.encode l) = l.flatMap nodeLines := by
    have hlines := strtokAll_lines (u := []) (line_of_mem hl) (by simp)
    rwa [List.append_nil, lastToken, if_pos rfl, List.append_nil] at hlines
  rcases h with rfl | rfl
  · exact hwhole
  · by_cases hne : l = []
    · subst hne
      exact hwhole
    · obtain ⟨ws, hlines, hdrop⟩ := encode_dropLast hne
      have hws : ∀ w ∈ ws, Line w := fun w hw =>
        line_of_mem hl w (by rw [hlines]; exact List.mem_append_left _ hw)
      rw [hdrop, strtokAll_lines hws (by decide), hlines]
      rfl

/-- The decoder of messages makes the same of both. -/
theorem convertBufToNode_eq (hl : ∀ n ∈ l, n.OneLine) (h : TextOf l t) {buf : Buf}
    (hbuf : readString buf = .ok t) (base : Heap) :
    convertBufToNode base buf = convertBufToNode base (cbuf (NodeInfo.encode l)) := by
  have htokens := h.strtokAll hl
  rw [← (TextOf.encode l).strtokAll hl] at htokens
  simp only [convertBufToNode, hbuf, readString_cbuf (noNul_encode l), ok_bind, split, htokens]

theorem convertBufToNode (hl : ∀ n ∈ l, n.OneLine) (h : TextOf l t) (hfits : FitsDecoder l)
    {buf : Buf} (hbuf : readString buf = .ok t) (base : Heap) :
    ∃ h' p as, NodeInfo.convertBufToNode base buf = .ok (h', p) ∧ NodesOn h' p as l ∧
      base.Extends h' ∧ ∀ a ∈ as, base.nodes.length ≤ a := by
  rw [h.convertBufToNode_eq hl hbuf]
  exact convertBufToNode_encode hl hfits (readString_cbuf (noNul_encode l)) base

theorem fitsDecoder (hl : ∀ n ∈ l, n.OneLine) (h : TextOf l t) {buf : Buf}
    (hbuf : readString buf = .ok t) {base : Heap} {r : Heap × Ptr}
    (hrun : NodeInfo.convertBufToNode base buf = .ok r) : FitsDecoder l := by
  rw [h.convertBufToNode_eq hl hbuf] at hrun
  exact fitsDecoder_of_ok hl (readString_cbuf (noNul_encode l)) hrun

/-- So does the decoder of files. -/
theorem file2struct (hl : ∀ n ∈ l, n.OneLine) (h : TextOf l t) (base : Heap) :
    ∃ h' p as, NodeInfo.file2struct base (some t) = .ok (h', p) ∧
      NodesOn h' p as (l.map Node.stripped) ∧ base.Extends h' ∧
      ∀ a ∈ as, base.nodes.length ≤ a := by
  rcases h with rfl | rfl
  · exact file2struct_encode hl base
  · exact file2struct_dropLast hl base

end TextOf

end VpnP2p.NodeInfo
