import VpnP2p.Server.Register

/-!
# Handing the store to a joining node

The store of a server grows with every new id, but the node that joins decodes it into 50
lines and into fields of ten bytes. A server can hand over what it has as long as the
list fits there; the 64 KiB of a message are never the tighter bound.
-/

namespace VpnP2p.Server

open Foundation NodeInfo Util

/-- The reply's text stays inside `Message.buf`, and a node that decodes it, wherever its
memory is, gets the whole list. -/
def HandsOver (s : ServerState) (l : List Node) : Prop :=
  ∃ text, convertNodeToBuf bufSize s.heap s.localNode = .ok (text, text.length) ∧
    ∀ (base : Heap) (buf : Buf), readString buf = .ok text →
      ∃ h p, convertBufToNode base buf = .ok (h, p) ∧ NodesAt h p l

theorem handsOver_iff_fits {s : ServerState} {l : List Node} (hl : ∀ n ∈ l, n.OneLine)
    (hlocal : NodesAt s.heap s.localNode l) : HandsOver s l ↔ FitsDecoder l := by
  constructor
  · rintro ⟨text, hwrite, hread⟩
    obtain ⟨l', hl', rfl, -⟩ := (convertNodeToBuf_eq_ok (by decide)).mp hwrite
    obtain rfl := hlocal.unique hl'
    have hbuf := readString_cbuf (noNul_encode l)
    obtain ⟨h, p, hrun, -⟩ := hread Heap.empty _ hbuf
    exact fitsDecoder_of_ok hl hbuf hrun
  · intro hfits
    have hlen : (encode l).length < bufSize := by
      have hle := length_encode_le hl
      have hlines := hfits.lines
      unfold bufSize
      omega
    refine ⟨encode l, convertNodeToBuf_encode hlocal hlen, fun base buf hbuf => ?_⟩
    obtain ⟨h, p, as, hrun, hon, -⟩ := convertBufToNode_encode hl hfits hbuf base
    exact ⟨h, p, hrun, as, hon⟩

/-- Whatever has come in since a store of one node, the server hands its list over exactly
when it has at most 50 lines and its fields fit ten bytes with their terminators. -/
theorem handsOver_iff {n : Node} (hn : n.OneLine) {s₀ s s' : ServerState} (h₀ : s₀.Holds [n])
    {ms : List (List Node)} (hrun : Run s₀ ms s) {buf : Buf} {m : List Node}
    (hbuf : Decodes s buf m) (hstep : mergeAndSave s buf = .ok s') :
    s'.Holds (storeAfter [n] (ms ++ [m])) ∧
      NodesAt s'.heap s'.localNode (storeAfter [n] (ms ++ [m])) ∧
      (HandsOver s' (storeAfter [n] (ms ++ [m])) ↔ FitsDecoder (storeAfter [n] (ms ++ [m]))) := by
  have hstored := hrun.stored ⟨h₀.file, by simpa using hn, by simp⟩
  obtain ⟨hstored', hlocal⟩ := hstored.handled hbuf hstep
  rw [storeAfter_concat]
  exact ⟨hstored'.holds, hlocal, handsOver_iff_fits hstored'.oneLine hlocal⟩

theorem handsOver_iff_sample :
    ∃ s, mergeAndSave sampleServer (cbuf (encode (sampleNodes [124]))) = .ok s ∧
      s.Holds (storeAfter sampleA ([] ++ [sampleNodes [124]])) ∧
      NodesAt s.heap s.localNode (storeAfter sampleA ([] ++ [sampleNodes [124]])) ∧
      (HandsOver s (storeAfter sampleA ([] ++ [sampleNodes [124]])) ↔
        FitsDecoder (storeAfter sampleA ([] ++ [sampleNodes [124]]))) := by
  have hfits : FitsDecoder (sampleNodes [124]) := sampleNodes_fits (by decide) (by decide)
  have hbuf := decodes_encode (fun n hn => (sampleNodes_plain [124] n hn).toOneLine) hfits
    sampleServer
  obtain ⟨s, hstep, -⟩ := sampleServer_stored.handle hbuf
  exact ⟨s, hstep, handsOver_iff sampleNode_plain.toOneLine sampleServer_holds .start hbuf hstep⟩

/-- With four more nodes of one IP each the list has 55 lines. -/
theorem not_handsOver_four :
    ∃ s, Run sampleServer [sampleNodes [124, 125, 126, 127]] s ∧
      s.Holds (sampleA ++ sampleNodes [124, 125, 126, 127]) ∧
      ¬ HandsOver s (sampleA ++ sampleNodes [124, 125, 126, 127]) := by
  have hfits : FitsDecoder (sampleNodes [124, 125, 126, 127]) :=
    sampleNodes_fits (by decide) (by decide)
  obtain ⟨s, hrun, hs, hlocal⟩ := sampleServer_handles hfits rfl
  have hlines : ¬ lineCount (sampleA ++ sampleNodes [124, 125, 126, 127]) ≤ 50 := by decide
  refine ⟨s, hrun, hs.holds, fun hover => hlines ?_⟩
  exact ((handsOver_iff_fits hs.oneLine hlocal).mp hover).lines

end VpnP2p.Server
