import VpnP2p.Foundation.Lines
import VpnP2p.NodeInfo.Model

/-!
# Reading a node list

`file2struct` and `convert_buf_to_node` classify each line by the first prefix that
matches and then move the same five cursors. What a line asks for is an `Op`; the two
decoders differ in how they get lines, in their prefixes and in how they take a field
out of a line, and share `Cursor.exec`. The decoders of the two functions are the
tables `fileOp` and `bufOp`.
-/

namespace VpnP2p.NodeInfo

open Foundation

/-! ## What a line asks for -/

/-- The branch a line takes, with the field it assigns; taking the field out of the line
may already go wrong. -/
inductive Op where
  | skip
  | id (v : Result Int32)
  | nodeCount (v : Result Int32)
  | reliable (v : Result Int32)
  | ipListEnds
  | ip (s : Result (CStr 20))
  | type (s : Result (CStr 20))
  | sCount (v : Result Int32)
  | validity (v : Result Int32)
  | ipList
  | endNode

/-- `startsWith(pre, str)`. -/
def startsWith (pre str : Text) : Bool :=
  if str.length < pre.length then false else str.take pre.length = pre

theorem startsWith_eq (pre str : Text) : startsWith pre str = pre.isPrefixOf str := by
  rw [Bool.eq_iff_iff, List.isPrefixOf_iff_prefix, List.prefix_iff_eq_take]
  unfold startsWith
  constructor
  · intro h
    split at h
    · cases h
    · exact (of_decide_eq_true h).symm
  · intro h
    have hlen : ¬ str.length < pre.length := by
      have := congrArg List.length h
      rw [List.length_take] at this
      omega
    rw [if_neg hlen, ← h]
    simp

/-- The branches of `file2struct`. -/
def fileOp (strline : Text) : Op :=
  if startsWith (lit "NODE") strline then .skip
  else if startsWith (lit "id: ") strline then .id (atoi (cbuf (strline.drop 4)))
  else if startsWith (lit "node_count: ") strline then .nodeCount (atoi (cbuf (strline.drop 12)))
  else if startsWith (lit "reliable: ") strline then .reliable (atoi (cbuf (strline.drop 10)))
  else if startsWith (lit "ip_list_ends") strline then .ipListEnds
  else if startsWith (lit "ip: ") strline then .ip (CStr.ofText 20 (strip (strline.drop 4)))
  else if startsWith (lit "ip_type: ") strline then .type (CStr.ofText 20 (strip (strline.drop 9)))
  else if startsWith (lit "s_count: ") strline then .sCount (atoi (cbuf (strline.drop 9)))
  else if startsWith (lit "validity: ") strline then .validity (atoi (cbuf (strline.drop 10)))
  else if startsWith (lit "ip_list") strline then .ipList
  else if startsWith (lit "end") strline then .endNode
  else .skip

/-- A row of `char dst[50][80]` after `strcpy(dst[n], line)`; nothing wrote the bytes
behind the terminator. -/
def row (line : Text) : Buf := cbuf line ++ List.replicate (80 - (line.length + 1)) none

/-- The branches of `convert_buf_to_node`; every field is copied with a fixed width. -/
def bufOp (line : Text) : Op :=
  if startsWith (lit "NODE") line then .skip
  else if startsWith (lit "id:") line then .id (atoi (slice 4 10 (row line)))
  else if startsWith (lit "node_count:") line then .nodeCount (atoi (slice 12 10 (row line)))
  else if startsWith (lit "reliable:") line then .reliable (atoi (slice 10 10 (row line)))
  else if startsWith (lit "ip_list_ends") line then .ipListEnds
  else if startsWith (lit "ip:") line then .ip (strcpy 20 (slice 4 20 (row line)))
  else if startsWith (lit "ip_type:") line then .type (strcpy 20 (slice 9 10 (row line)))
  else if startsWith (lit "s_count:") line then .sCount (atoi (slice 9 10 (row line)))
  else if startsWith (lit "validity: ") line then .validity (atoi (slice 10 10 (row line)))
  else if startsWith (lit "ip_list") line then .ipList
  else if startsWith (lit "end") line then .endNode
  else .skip

/-! ## The cursors -/

structure Cursor where
  heap : Heap
  nodeNew : Ptr
  header : Ptr
  prev : Ptr
  ipNew : Ptr
  ipHeader : Ptr

namespace Cursor

def writeNodeNew (c : Cursor) (f : NodeCell → NodeCell) : Result Cursor := do
  let nodes ← update c.heap.nodes c.nodeNew f
  .ok { c with heap := { c.heap with nodes := nodes } }

def writeIpNew (c : Cursor) (f : IPCell → IPCell) : Result Cursor := do
  let ips ← update c.heap.ips c.ipNew f
  .ok { c with heap := { c.heap with ips := ips } }

/-- `ip_header->next_ip = NULL`. -/
def cutIps (c : Cursor) : Result Cursor := do
  let ips ← update c.heap.ips c.ipHeader (fun x => { x with nextIp := .null })
  .ok { c with heap := { c.heap with ips := ips } }

/-- `ip_header = ip_header->next_ip`, and a new cell behind `ip_new` becomes `ip_new`. -/
def nextIp (c : Cursor) : Result Cursor := do
  let header ← load c.heap.ips c.ipHeader
  let ip_tmp := Ptr.addr c.heap.ips.length
  let ips := c.heap.ips ++ [{ IPCell.raw with nextIp := .null }]
  let ips ← update ips c.ipNew (fun x => { x with nextIp := ip_tmp })
  .ok { c with heap := { c.heap with ips := ips }, ipHeader := header.nextIp, ipNew := ip_tmp }

/-- A fresh `ip_new` behind a fresh `ip_header`, the IP list of `node_new`. -/
def openIps (c : Cursor) : Result Cursor := do
  let ip_new := Ptr.addr c.heap.ips.length
  let ip_header := Ptr.addr (c.heap.ips.length + 1)
  let ips := c.heap.ips ++
    [{ IPCell.raw with nextIp := .null }, { IPCell.raw with nextIp := ip_new }]
  let c := { c with heap := { c.heap with ips := ips }, ipNew := ip_new, ipHeader := ip_header }
  c.writeNodeNew (fun n => { n with ipList := ip_new })

/-- A new cell behind `node_new` becomes `node_new`, and `prev` moves on. -/
def nextNode (c : Cursor) : Result Cursor := do
  let node_next := Ptr.addr c.heap.nodes.length
  let nodes := c.heap.nodes ++ [NodeCell.raw]
  let nodes ← update nodes c.nodeNew (fun n => { n with nextNode := node_next })
  let prev ← load nodes c.prev
  .ok { c with
    heap := { c.heap with nodes := nodes }, nodeNew := node_next, prev := prev.nextNode }

/-- The body of a branch. -/
def exec (c : Cursor) : Op → Result Cursor
  | .skip => .ok c
  | .id v => do
    let v ← v
    c.writeNodeNew (fun n => { n with id := some v })
  | .nodeCount v => do
    let v ← v
    c.writeNodeNew (fun n => { n with nodeCount := some v })
  | .reliable v => do
    let v ← v
    c.writeNodeNew (fun n => { n with reliable := some v })
  | .ipListEnds => c.cutIps
  | .ip s => do
    let s ← s
    c.writeIpNew (fun x => { x with ip := some s })
  | .type s => do
    let s ← s
    c.writeIpNew (fun x => { x with type := some s })
  | .sCount v => do
    let v ← v
    c.writeIpNew (fun x => { x with sCount := some v })
  | .validity v => do
    let v ← v
    let c ← c.writeIpNew (fun x => { x with validity := some v })
    c.nextIp
  | .ipList => c.openIps
  | .endNode => c.nextNode

def run (c : Cursor) (ops : List Op) : Result Cursor := ops.foldlM exec c

/-- `prev->next_node = NULL; return header->next_node;` -/
def finish (c : Cursor) : Result (Heap × Ptr) := do
  let nodes ← update c.heap.nodes c.prev (fun n => { n with nextNode := .null })
  let header ← load nodes c.header
  .ok ({ c.heap with nodes := nodes }, header.nextNode)

@[simp] theorem run_nil (c : Cursor) : c.run [] = .ok c := rfl

@[simp] theorem run_cons (c : Cursor) (op : Op) (ops : List Op) :
    c.run (op :: ops) = c.exec op >>= fun c => c.run ops := List.foldlM_cons

theorem run_append (c : Cursor) (ops ops' : List Op) :
    c.run (ops ++ ops') = c.run ops >>= fun c => c.run ops' := List.foldlM_append

end Cursor

/-! ## The decoders -/

/-- `node_new` and `header` from `malloc`, with `header->next_node = node_new`. -/
def mallocNodes (nodes : Mem NodeCell) : Mem NodeCell :=
  nodes ++ [NodeCell.raw,
    { NodeCell.raw with id := some 0, nextNode := .addr nodes.length }]

/-- The cursors of `file2struct` before its loop. -/
def fileCursor (h : Heap) : Cursor where
  heap := ⟨h.ips ++ [IPCell.raw, IPCell.raw], mallocNodes h.nodes⟩
  nodeNew := .addr h.nodes.length
  header := .addr (h.nodes.length + 1)
  prev := .addr (h.nodes.length + 1)
  ipNew := .addr h.ips.length
  ipHeader := .addr (h.ips.length + 1)

/-- The cursors of `convert_buf_to_node` before its loop. -/
def bufCursor (h : Heap) : Cursor where
  heap := ⟨h.ips, mallocNodes h.nodes⟩
  nodeNew := .addr h.nodes.length
  header := .addr (h.nodes.length + 1)
  prev := .addr (h.nodes.length + 1)
  ipNew := .null
  ipHeader := .null

/-- `strline[strlen(strline) - 1] = 0`, which takes off the last character whatever it
is; on an empty string it writes in front of the array. -/
def chop (buffer : Text) : Result Text :=
  let strline := buffer.takeWhile (· ≠ 0)
  if strline = [] then .error .outOfBounds else .ok strline.dropLast

/-- `file2struct(filename)`, where `fp` is what `fopen` finds under the name. -/
def file2struct (h : Heap) (fp : Option Text) : Result (Heap × Ptr) :=
  match fp with
  | none => .error .nullDeref
  | some text => do
    let c ← (fgetsAll 255 text).foldlM
      (fun c buffer => chop buffer >>= fun strline => c.exec (fileOp strline)) (fileCursor h)
    c.finish

/-- `split(dst, str, spl)` into `char dst[rows][width]`. -/
def split (rows width : Nat) (str spl : Text) : Result (List Text) :=
  (strtokAll spl str).foldlM (fun dst result =>
    if dst.length < rows ∧ result.length < width then .ok (dst ++ [result])
    else .error .outOfBounds) []

def convertBufToNode (h : Heap) (buf : Buf) : Result (Heap × Ptr) := do
  let str ← readString buf
  let dst ← split 50 80 str (lit "\n")
  let c ← (bufCursor h).run (dst.map bufOp)
  c.finish

/-! ## The loop over a file -/

/-- Lines that can be chopped are chopped first and run then. -/
theorem foldlM_chop {buffers lines : List Text} (h : buffers.mapM chop = .ok lines) (c : Cursor) :
    buffers.foldlM (fun c buffer => chop buffer >>= fun strline => c.exec (fileOp strline)) c =
      c.run (lines.map fileOp) := by
  induction buffers generalizing c lines with
  | nil =>
    cases h
    rfl
  | cons b bs ih =>
    rw [List.mapM_cons] at h
    obtain ⟨line, hline, h⟩ := bind_eq_ok.mp h
    obtain ⟨rest, hrest, h⟩ := bind_eq_ok.mp h
    cases h
    rw [List.foldlM_cons, hline, ok_bind, List.map_cons, Cursor.run_cons]
    congr 1
    funext c'
    exact ih hrest c'

theorem file2struct_eq {text : Text} {lines : List Text}
    (h : (fgetsAll 255 text).mapM chop = .ok lines) (base : Heap) :
    file2struct base (some text) = (fileCursor base).run (lines.map fileOp) >>= Cursor.finish := by
  show (fgetsAll 255 text).foldlM _ _ >>= _ = _
  rw [foldlM_chop h]

/-- Where `file2struct` ends, the last character could be cut off every line. -/
theorem chopped_of_file2struct {base : Heap} {text : Text} {r : Heap × Ptr}
    (hrun : file2struct base (some text) = .ok r) :
    ∃ lines, (fgetsAll 255 text).mapM chop = .ok lines := by
  obtain ⟨c, hloop, -⟩ := bind_eq_ok.mp hrun
  suffices ∀ (bs : List Text) (c c' : Cursor),
      bs.foldlM (fun c buffer => chop buffer >>= fun strline => c.exec (fileOp strline)) c =
        .ok c' → ∃ lines, bs.mapM chop = .ok lines from this _ _ _ hloop
  intro bs
  induction bs with
  | nil => exact fun c c' _ => ⟨[], rfl⟩
  | cons b bs ih =>
    intro c c' hb
    rw [List.foldlM_cons] at hb
    obtain ⟨d, hstep, hrest⟩ := bind_eq_ok.mp hb
    obtain ⟨line, hline, -⟩ := bind_eq_ok.mp hstep
    obtain ⟨lines, hlines⟩ := ih d c' hrest
    exact ⟨line :: lines, by rw [List.mapM_cons, hline, ok_bind, hlines]; rfl⟩

/-! ## The rows of `split` -/

theorem split_eq_ok {rows width : Nat} {str spl : Text} {dst : List Text} :
    split rows width str spl = .ok dst ↔ dst = strtokAll spl str ∧
      (strtokAll spl str).length ≤ rows ∧ ∀ l ∈ strtokAll spl str, l.length < width := by
  suffices ∀ (ls acc : List Text), acc.length ≤ rows →
      (ls.foldlM (fun dst result =>
        if dst.length < rows ∧ result.length < width then Except.ok (dst ++ [result])
        else .error .outOfBounds) acc = (.ok dst : Result (List Text)) ↔
      dst = acc ++ ls ∧ acc.length + ls.length ≤ rows ∧ ∀ l ∈ ls, l.length < width) by
    simpa [split] using this (strtokAll spl str) [] (by simp)
  intro ls
  induction ls with
  | nil =>
    intro acc hacc
    simp [hacc, eq_comm]
  | cons l ls ih =>
    intro acc hacc
    rw [List.foldlM_cons]
    by_cases hl : acc.length < rows ∧ l.length < width
    · rw [if_pos hl, ok_bind, ih _ (by simpa using hl.1)]
      simp only [List.length_append, List.length_cons, List.length_nil, List.append_assoc,
        List.singleton_append, List.forall_mem_cons, hl.2, true_and]
      grind
    · rw [if_neg hl, error_bind]
      simp only [reduceCtorEq, List.length_cons, List.forall_mem_cons, false_iff]
      omega

end VpnP2p.NodeInfo
