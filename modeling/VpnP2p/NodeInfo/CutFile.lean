import VpnP2p.NodeInfo.FileFormat
import VpnP2p.NodeInfo.LedgerRun

/-!
# What is left of a cut infofile

`fopen(filename, "w")` empties the infofile, and a process that ends while it writes leaves
the first bytes of the text. `file2struct` reads from them exactly the nodes whose block is
there up to the first four characters of its last line: the last one of these is cut off,
and `end` is what the branch asks for.
-/

namespace VpnP2p.NodeInfo

open Foundation

/-- How many nodes have their block, but for the last five bytes, among `n` bytes. -/
def wholeNodes : List Node → Nat → Nat
  | [], _ => 0
  | z :: l, n =>
    if (encode [z]).length ≤ n + 5 then wholeNodes l (n - (encode [z]).length) + 1 else 0

/-- What `file2struct` finds in the first `n` bytes of the text of `l`. -/
def recovered (l : List Node) (n : Nat) : List Node := (l.map Node.stripped).take (wholeNodes l n)

/-! ## The lines of a block -/

/-- The lines of a block before its last one. -/
def bodyLines (z : Node) : List Text :=
  headLines z ++ z.ipList.flatMap ipLines ++ [lit "ip_list_ends"]

theorem nodeLines_eq (z : Node) : nodeLines z = bodyLines z ++ [lit "end_node"] := by
  simp [nodeLines, bodyLines]

theorem length_encode_singleton (z : Node) :
    (encode [z]).length = (unlines (bodyLines z)).length + 9 := by
  rw [encode, List.flatMap_singleton, nodeLines_eq, unlines_append, List.length_append]
  rfl

theorem not_isEnd_bodyLines {z : Node} : ∀ w ∈ bodyLines z, (fileOp w).isEnd = false := by
  intro w hw
  simp only [bodyLines, List.mem_append, List.mem_flatMap, List.mem_singleton] at hw
  rcases hw with (hw | ⟨x, -, hw⟩) | rfl
  · have hop : fileOp w ∈ headOps z := by
      rw [← map_fileOp_headLines]
      exact List.mem_map_of_mem hw
    simp only [headOps, List.mem_cons, List.not_mem_nil, or_false] at hop
    rcases hop with h | h | h | h | h <;> rw [h] <;> rfl
  · have hop : fileOp w ∈ ipOps x.stripped := by
      rw [← map_fileOp_ipLines]
      exact List.mem_map_of_mem hw
    simp only [ipOps, List.mem_cons, List.not_mem_nil, or_false] at hop
    rcases hop with h | h | h | h <;> rw [h] <;> rfl
  · rfl

theorem not_isEnd_of_cut {p q : Op} (h : Op.Cut p q) (hp : p.isEnd = false) : q.isEnd = false := by
  cases h <;> first | rfl | exact hp

/-! ## The ends among the first bytes -/

/-- `u` is a piece of the line `k`, or nothing. -/
def PieceOf (ws : List Text) (k : Nat) (u : Text) : Prop :=
  (u = [] ∧ k ≤ ws.length) ∨ ∃ w, ws[k]? = some w ∧ u <+: w

/-- The branches that the first lines and a piece of the next one ask for. -/
def cutOps (ws : List Text) (k : Nat) (u : Text) : List Op := (ws.take k).map fileOp ++ lastOps u

theorem countP_endLine : ∀ j ≤ 8, (lastOps ((lit "end_node").take j)).countP Op.isEnd =
    if 4 ≤ j then 1 else 0 := by
  decide

/-- Whole lines and a piece of a further one are shorter than all of them. -/
theorem length_piece_lt {ws : List Text} {k : Nat} {u : Text} (hk : k < ws.length)
    (hu : PieceOf ws k u) : (unlines (ws.take k)).length + u.length < (unlines ws).length := by
  have hlen : u.length ≤ ws[k].length := by
    rcases hu with ⟨rfl, -⟩ | ⟨w, hw, hpre⟩
    · exact Nat.zero_le _
    · obtain ⟨_, rfl⟩ := List.getElem?_eq_some_iff.mp hw
      exact hpre.length_le
  have hsplit : ws = ws.take k ++ ws[k] :: ws.drop (k + 1) := by
    rw [List.getElem_cons_drop, List.take_append_drop]
  have hunlines : (unlines ws).length =
      (unlines (ws.take k)).length + (ws[k].length + (unlines (ws.drop (k + 1))).length + 1) := by
    conv_lhs => rw [hsplit]
    simp only [unlines_append, unlines_cons, List.length_append, List.length_cons]
    omega
  omega

theorem countP_bodyLines (z : Node) (k : Nat) :
    (((bodyLines z).take k).map fileOp).countP Op.isEnd = 0 := by
  rw [List.countP_eq_zero]
  intro op hop
  obtain ⟨w, hw, rfl⟩ := List.mem_map.mp hop
  simp [not_isEnd_bodyLines w (List.mem_of_mem_take hw)]

theorem countP_nodeLines (z : Node) : ((nodeLines z).map fileOp).countP Op.isEnd = 1 := by
  have hbody := countP_bodyLines z (bodyLines z).length
  rw [List.take_length] at hbody
  rw [nodeLines_eq, List.map_append, List.countP_append, hbody]
  rfl

/-- Inside a block only a piece of its last line can close it. -/
theorem countP_block (z : Node) {k : Nat} {u : Text} (hk : k < (nodeLines z).length)
    (hu : PieceOf (nodeLines z) k u) : (cutOps (nodeLines z) k u).countP Op.isEnd =
      if (encode [z]).length ≤ (unlines ((nodeLines z).take k)).length + u.length + 5 then 1
      else 0 := by
  have hlines := nodeLines_eq z
  by_cases hbody : k < (bodyLines z).length
  · have htake : (nodeLines z).take k = (bodyLines z).take k := by
      rw [hlines, List.take_append_of_le_length (Nat.le_of_lt hbody)]
    have hget : (nodeLines z)[k]? = (bodyLines z)[k]? := by
      rw [hlines, List.getElem?_append_left hbody]
    have hpiece : PieceOf (bodyLines z) k u := by
      rcases hu with ⟨rfl, -⟩ | hu
      · exact Or.inl ⟨rfl, Nat.le_of_lt hbody⟩
      · rw [hget] at hu
        exact Or.inr hu
    have hlast : (lastOps u).countP Op.isEnd = 0 := by
      unfold lastOps
      split
      · rfl
      · rename_i hne
        rcases hpiece with ⟨rfl, -⟩ | ⟨w, hw, hpre⟩
        · exact absurd rfl hne
        · have hmem := List.mem_of_getElem? hw
          have hcut : Op.Cut (fileOp w) (fileOp u.dropLast) := by
            apply fileOp_cut (n := z) _ ((List.dropLast_prefix u).trans hpre)
            rw [hlines]
            exact List.mem_append_left _ hmem
          simp [not_isEnd_of_cut hcut (not_isEnd_bodyLines w hmem)]
    have hlt := length_piece_lt hbody hpiece
    rw [cutOps, List.countP_append, htake, countP_bodyLines, hlast, length_encode_singleton,
      if_neg (by omega)]
  · -- Everything but the last line is there.
    obtain rfl : k = (bodyLines z).length := by
      rw [hlines, List.length_append, List.length_singleton] at hk
      omega
    have htake : (nodeLines z).take (bodyLines z).length = bodyLines z := by
      rw [hlines, List.take_left]
    have hpre : u <+: lit "end_node" := by
      rcases hu with ⟨rfl, -⟩ | ⟨w, hw, hpre⟩
      · exact List.nil_prefix
      · rw [hlines, List.getElem?_concat_length] at hw
        cases hw
        exact hpre
    have hlast := countP_endLine u.length hpre.length_le
    rw [← List.prefix_iff_eq_take.mp hpre] at hlast
    have hcount := countP_bodyLines z (bodyLines z).length
    rw [List.take_length] at hcount
    rw [cutOps, List.countP_append, htake, hcount, hlast, length_encode_singleton, Nat.zero_add]
    congr 1
    rw [eq_iff_iff]
    omega

theorem wholeNodes_zero (l : List Node) : wholeNodes l 0 = 0 := by
  cases l with
  | nil => rfl
  | cons z l =>
    rw [wholeNodes, length_encode_singleton, if_neg (by omega)]

theorem encode_cons (z : Node) (l : List Node) : encode (z :: l) = encode [z] ++ encode l :=
  encode_append [z] l

/-- A text that is there whole has all its nodes. -/
theorem wholeNodes_of_le {l : List Node} {n : Nat} (h : (encode l).length ≤ n) :
    wholeNodes l n = l.length := by
  induction l generalizing n with
  | nil => rfl
  | cons z l ih =>
    rw [encode_cons, List.length_append] at h
    rw [wholeNodes, if_pos (by omega), ih (by omega), List.length_cons]

theorem wholeNodes_take (l : List Node) (n : Nat) :
    wholeNodes l ((encode l).take n).length = wholeNodes l n := by
  rw [List.length_take]
  rcases Nat.le_total n (encode l).length with hle | hle
  · rw [Nat.min_eq_left hle]
  · rw [Nat.min_eq_right hle, wholeNodes_of_le (Nat.le_refl _), wholeNodes_of_le hle]

theorem countP_cutOps {l : List Node} {k : Nat} {u : Text}
    (hu : PieceOf (l.flatMap nodeLines) k u) :
    (cutOps (l.flatMap nodeLines) k u).countP Op.isEnd =
      wholeNodes l ((unlines ((l.flatMap nodeLines).take k)).length + u.length) := by
  induction l generalizing k with
  | nil =>
    rcases hu with ⟨rfl, -⟩ | ⟨w, hw, -⟩
    · rw [cutOps, List.flatMap_nil, List.take_nil]
      rfl
    · simp at hw
  | cons z l ih =>
    rw [List.flatMap_cons] at hu ⊢
    have hblock : (unlines (nodeLines z)).length = (encode [z]).length := by
      rw [encode, List.flatMap_singleton]
    by_cases hk : k < (nodeLines z).length
    · -- The text ends inside this block.
      have hpiece : PieceOf (nodeLines z) k u := by
        rcases hu with ⟨rfl, -⟩ | hu
        · exact Or.inl ⟨rfl, Nat.le_of_lt hk⟩
        · rw [List.getElem?_append_left hk] at hu
          exact Or.inr hu
      have hlt := length_piece_lt hk hpiece
      have htake : (nodeLines z ++ l.flatMap nodeLines).take k = (nodeLines z).take k :=
        List.take_append_of_le_length (Nat.le_of_lt hk)
      have hcount := countP_block z hk hpiece
      rw [cutOps] at hcount ⊢
      rw [htake, hcount, wholeNodes, Nat.sub_eq_zero_of_le (by omega), wholeNodes_zero]
    · obtain ⟨j, rfl⟩ := Nat.exists_eq_add_of_le (not_lt.mp hk)
      have hpiece : PieceOf (l.flatMap nodeLines) j u := by
        rcases hu with ⟨rfl, hle⟩ | ⟨w, hw, hpre⟩
        · exact Or.inl ⟨rfl, by simpa using hle⟩
        · rw [List.getElem?_append_right (by omega), Nat.add_sub_cancel_left] at hw
          exact Or.inr ⟨w, hw, hpre⟩
      have htake : (nodeLines z ++ l.flatMap nodeLines).take ((nodeLines z).length + j) =
          nodeLines z ++ (l.flatMap nodeLines).take j := List.take_length_add_append j
      have hcount := ih hpiece
      rw [cutOps] at hcount ⊢
      rw [htake, List.map_append, List.append_assoc, List.countP_append, hcount, countP_nodeLines,
        unlines_append, List.length_append, hblock, wholeNodes, if_pos (by omega), Nat.add_assoc,
        Nat.add_sub_cancel_left, Nat.add_comm]

/-! ## Reading -/

/-- Where `file2struct` ends, its list has a node for each line that begins with `end`. -/
theorem file2struct_returns {ws : List Text} {u : Text} (hws : ∀ w ∈ ws, Line w)
    (hu : newline ∉ u ∧ 0 ∉ u ∧ u.length < 254) {base h : Heap} {p : Ptr}
    (hrun : file2struct base (some (unlines ws ++ u)) = .ok (h, p)) : ∃ s as,
      Returns s base h p as ∧ as.length = (ws.map fileOp ++ lastOps u).countP Op.isEnd := by
  rw [file2struct_lines hws hu] at hrun
  obtain ⟨c, hloop, hfin⟩ := bind_eq_ok.mp hrun
  obtain ⟨s, hs, hon⟩ := ((ledgerOn_fileCursor base).run _).of_ok hloop
  obtain ⟨h', p', as, hfin', hreturns⟩ := hon.finish
  rw [hfin] at hfin'
  cases hfin'
  exact ⟨s, as, hreturns, hreturns.contents.length_eq.trans (Ledger.After.run hs).count⟩

/-- What is read from the first bytes of an infofile, wherever the writing ended. -/
theorem file2struct_take {l : List Node} (hl : ∀ n ∈ l, n.OneLine) (n : Nat) (base : Heap) :
    ∃ h' p as, file2struct base (some ((encode l).take n)) = .ok (h', p) ∧
      NodesOn h' p as (recovered l n) ∧ base.Extends h' ∧ ∀ a ∈ as, base.nodes.length ≤ a := by
  have hLine := line_of_mem hl
  have ht := List.take_prefix n (encode l)
  obtain ⟨h', p, m, hrun, ⟨bs, hon⟩, -⟩ := file2struct_cut hl ht base
  obtain ⟨k, u, htext, hu, hpiece⟩ := prefix_unlines (fun w hw => (hLine w hw).noNewline) ht
  have hpieceLine : newline ∉ u ∧ 0 ∉ u ∧ u.length < 254 := by
    rcases hpiece with ⟨rfl, -⟩ | ⟨w, hw, huw⟩
    · simp
    · have hw := hLine w (List.mem_of_getElem? hw)
      exact ⟨hu, fun h => hw.noNul (huw.subset h),
        huw.length_le.trans_lt (hw.short.trans (by decide))⟩
  have hrun' := hrun
  rw [htext] at hrun'
  obtain ⟨s, as, hreturns, hcount⟩ :=
    file2struct_returns (fun w hw => hLine w (List.mem_of_mem_take hw)) hpieceLine hrun'
  obtain rfl := hreturns.links.unique hon.links
  refine ⟨h', p, as, hrun, ?_, hreturns.ext, hreturns.fresh⟩
  have hwhole : as.length = wholeNodes l n := by
    rw [← wholeNodes_take, hcount, htext, List.length_append]
    exact countP_cutOps hpiece
  have hlen := hon.contents.length_eq
  have hread : (l.map Node.stripped).take m = recovered l n := by
    rw [recovered, List.take_eq_take_iff, ← hwhole, hlen, List.length_take]
    omega
  rw [← hread]
  exact hon

end VpnP2p.NodeInfo
