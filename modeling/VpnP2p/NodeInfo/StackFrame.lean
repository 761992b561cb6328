import VpnP2p.Foundation.Unwritten
import VpnP2p.NodeInfo.Ledger

/-!
# The decoder on a stack

`convertBufToNode` stops where `convert_buf_to_node` reads a byte that `split` did not
write. The program goes on with whatever lies there. A `StackFrame` is the memory the call
finds: the old contents of `dst`, and what follows the small array of a branch. Where no
such byte is read it makes no difference.
-/

namespace VpnP2p.NodeInfo

open Foundation

/-- The bytes of `char dst[50][80]` before the call, and those behind the array into which
the branch of row `i` copies; somewhere further up the stack there is a NUL. -/
structure StackFrame where
  dst : Nat → Vector Byte 80
  behind : Nat → Text
  ends : ∀ i, 0 ∈ behind i

/-- The branches of `convert_buf_to_node`, where `copied off n` is the array of a branch after
`memcpy(.., dst[i] + off, n)`. -/
def copyOp (copied : Nat → Nat → Buf) (line : Text) : Op :=
  if startsWith (lit "NODE") line then .skip
  else if startsWith (lit "id:") line then .id (atoi (copied 4 10))
  else if startsWith (lit "node_count:") line then .nodeCount (atoi (copied 12 10))
  else if startsWith (lit "reliable:") line then .reliable (atoi (copied 10 10))
  else if startsWith (lit "ip_list_ends") line then .ipListEnds
  else if startsWith (lit "ip:") line then .ip (strcpy 20 (copied 4 20))
  else if startsWith (lit "ip_type:") line then .type (strcpy 20 (copied 9 10))
  else if startsWith (lit "s_count:") line then .sCount (atoi (copied 9 10))
  else if startsWith (lit "validity: ") line then .validity (atoi (copied 10 10))
  else if startsWith (lit "ip_list") line then .ipList
  else if startsWith (lit "end") line then .endNode
  else .skip

theorem bufOp_eq_copyOp (line : Text) :
    bufOp line = copyOp (fun off n => slice off n (row line)) line := rfl

namespace StackFrame

/-- `dst[i]` after `strcpy(dst[i], line)`. -/
def row (f : StackFrame) (i : Nat) (line : Text) : Text :=
  line ++ 0 :: (f.dst i).toList.drop (line.length + 1)

/-- What a read of the array finds after `memcpy(.., dst[i] + off, n)`. -/
def copied (f : StackFrame) (i : Nat) (line : Text) (off n : Nat) : Text :=
  ((f.row i line).drop off).take n ++ f.behind i

def bufOp (f : StackFrame) (i : Nat) (line : Text) : Op :=
  copyOp (fun off n => (f.copied i line off n).map some) line

end StackFrame

def convertBufToNodeOn (f : StackFrame) (h : Heap) (buf : Buf) : Result (Heap × Ptr) := do
  let str ← readString buf
  let dst ← split 50 80 str (lit "\n")
  let c ← (bufCursor h).run (dst.mapIdx f.bufOp)
  c.finish

/-! ## Branches that know their field -/

/-- A branch that ran had its field. -/
theorem Cursor.readable_of_exec {c c' : Cursor} {op : Op} (h : c.exec op = .ok c') :
    op.Readable := by
  cases op with
  | skip | ipListEnds | ipList | endNode => trivial
  | id v | nodeCount v | reliable v | sCount v | validity v | ip v | type v =>
    obtain ⟨a, ha, -⟩ := bind_eq_ok.mp h
    exact ⟨a, ha⟩

theorem Cursor.readable_of_run {c c' : Cursor} {ops : List Op} (h : c.run ops = .ok c') :
    ∀ op ∈ ops, op.Readable := by
  intro op hop
  obtain ⟨t, t', hstep⟩ := foldlM_step_of_ok h hop
  exact Cursor.readable_of_exec hstep

theorem ite_of_readable {b : Bool} {p p' q q' : Op} (hp : p.Readable → p' = p)
    (hq : q.Readable → q' = q) (h : (if b then p else q).Readable) :
    (if b then p' else q') = if b then p else q := by
  cases b with
  | true => exact hp h
  | false => exact hq h

/-- A field that can be read from the known bytes is read from any that fill them. -/
theorem copyOp_of_fills {copied copied' : Nat → Nat → Buf}
    (hcopied : ∀ off n, Fills (copied off n) (copied' off n)) {line : Text}
    (h : (copyOp copied line).Readable) : copyOp copied' line = copyOp copied line := by
  have hatoi : ∀ off n, (∃ v, atoi (copied off n) = .ok v) →
      atoi (copied' off n) = atoi (copied off n) := by
    rintro off n ⟨v, hv⟩
    rw [hv, (hcopied off n).atoi hv]
  have hstrcpy : ∀ off n, (∃ s, strcpy 20 (copied off n) = .ok s) →
      strcpy 20 (copied' off n) = strcpy 20 (copied off n) := by
    rintro off n ⟨s, hs⟩
    rw [hs, (hcopied off n).strcpy hs]
  unfold copyOp at h ⊢
  repeat' refine ite_of_readable (fun h => ?_) (fun h => ?_) h
  all_goals first
    | rfl
    | rw [hatoi _ _ h]
    | rw [hstrcpy _ _ h]

namespace StackFrame

theorem fills_row (f : StackFrame) (i : Nat) (line : Text) :
    Fills (NodeInfo.row line) ((f.row i line).map some) := by
  have hrow : (f.row i line).map some =
      cbuf line ++ ((f.dst i).toList.drop (line.length + 1)).map some := by
    simp [row, cbuf]
  rw [hrow, NodeInfo.row]
  exact (Fills.replicate_none (by simp)).append_left _

theorem fills_copied (f : StackFrame) (i : Nat) (line : Text) (off n : Nat) :
    Fills (slice off n (NodeInfo.row line)) ((f.copied i line off n).map some) := by
  have hcopied : (f.copied i line off n).map some =
      slice off n ((f.row i line).map some) ++ (f.behind i).map some := by
    simp [copied, slice]
  rw [hcopied]
  exact ((f.fills_row i line).slice off n).append_right _

theorem bufOp_eq (f : StackFrame) (i : Nat) {line : Text} (h : (NodeInfo.bufOp line).Readable) :
    f.bufOp i line = NodeInfo.bufOp line :=
  copyOp_of_fills (f.fills_copied i line) h

theorem mapIdx_bufOp (f : StackFrame) {lines : List Text}
    (h : ∀ op ∈ lines.map NodeInfo.bufOp, op.Readable) :
    lines.mapIdx f.bufOp = lines.map NodeInfo.bufOp := by
  rw [List.mapIdx_eq_iff]
  intro i
  rw [List.getElem?_map]
  cases hline : lines[i]? with
  | none => rfl
  | some line =>
    have hmem : NodeInfo.bufOp line ∈ lines.map NodeInfo.bufOp :=
      List.mem_map_of_mem (List.mem_of_getElem? hline)
    exact congrArg some (f.bufOp_eq i (h _ hmem)).symm

theorem nul_mem_copied (f : StackFrame) (i : Nat) (line : Text) (off n : Nat) :
    0 ∈ f.copied i line off n := List.mem_append_right _ (f.ends i)

end StackFrame

/-- Where the decoder reads no byte that nobody wrote, its stack does not matter. -/
theorem convertBufToNodeOn_of_ok (f : StackFrame) {h : Heap} {buf : Buf} {r : Heap × Ptr}
    (hrun : convertBufToNode h buf = .ok r) : convertBufToNodeOn f h buf = .ok r := by
  obtain ⟨str, hstr, hrun⟩ := bind_eq_ok.mp hrun
  obtain ⟨dst, hdst, hrun⟩ := bind_eq_ok.mp hrun
  obtain ⟨c, hc, hrun⟩ := bind_eq_ok.mp hrun
  rw [convertBufToNodeOn, hstr, ok_bind, hdst, ok_bind,
    f.mapIdx_bufOp (Cursor.readable_of_run hc), hc, ok_bind, hrun]

end VpnP2p.NodeInfo
