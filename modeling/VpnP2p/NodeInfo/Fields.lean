import VpnP2p.NodeInfo.LedgerRun
import VpnP2p.NodeInfo.WireFormat

/-!
# Which fields can be taken out of their line

`Input` puts the two decoders side by side, as runs that follow the ledger. They differ
in what they take out of a line: `convert_buf_to_node` copies a fixed number of bytes
from behind the keyword, whatever the line holds there, and then reads the copy as a
number or a string; `file2struct` reads the line itself and copies strings of any length
into `char[20]`. `Input.Fits` says of a line when that stays within the arrays.
-/

namespace VpnP2p.NodeInfo

open Foundation

/-! ## The two decoders -/

/-- What a decoder is called on. -/
inductive Input where
  | file (text : Text)
  | body (buf : Buf)

namespace Input

/-- The lines the decoder works on, as `fgets` or `split` delivers them. -/
def lines : Input → Result (List Text)
  | .file text => (fgetsAll 255 text).mapM chop
  | .body buf => do
    let str ← readString buf
    split 50 80 str (lit "\n")

def op : Input → Text → Op
  | .file _ => fileOp
  | .body _ => bufOp

def start (h : Heap) : Input → Cursor
  | .file _ => fileCursor h
  | .body _ => bufCursor h

def decode (h : Heap) : Input → Result (Heap × Ptr)
  | .file text => file2struct h (some text)
  | .body buf => convertBufToNode h buf

/-- The decoder runs over the branches of its lines. -/
theorem decode_eq {i : Input} {lines : List Text} (h : Heap) (hlines : i.lines = .ok lines) :
    i.decode h = (i.start h).run (lines.map i.op) >>= Cursor.finish := by
  cases i with
  | file text => exact file2struct_eq hlines h
  | body buf =>
    obtain ⟨str, hstr, hsplit⟩ := bind_eq_ok.mp hlines
    rw [decode, convertBufToNode, hstr, ok_bind, hsplit, ok_bind]
    rfl

/-- The IPs before the first line. -/
def first : Input → Sheet
  | .file _ => .loose
  | .body _ => .shut

theorem ledgerOn_start (h : Heap) (i : Input) : LedgerOn h (.start i.first) (i.start h) := by
  cases i with
  | file text => exact ledgerOn_fileCursor h
  | body buf => exact ledgerOn_bufCursor h

/-- The decoder ends where the ledger has an answer to all lines, with its records. -/
theorem decode_follows {i : Input} {lines : List Text} (h : Heap) (hlines : i.lines = .ok lines) :
    Follows (fun s r => ∃ as, Returns s h r.1 r.2 as)
      ((Ledger.start i.first).run (lines.map i.op)) (i.decode h) := by
  have hrun := (ledgerOn_start h i).run (lines.map i.op)
  rw [decode_eq h hlines, ← Option.bind_fun_some (Ledger.run _ _)]
  refine hrun.bind (fun s c hon => ?_)
  obtain ⟨h', p, as, hfinish, hreturns⟩ := hon.finish
  exact ⟨(h', p), hfinish, as, hreturns⟩

/-- The lines of a body that consists of short lines. -/
theorem lines_body {buf : Buf} {ws : List Text} (hbuf : readString buf = .ok (unlines ws))
    (hws : ∀ w ∈ ws, Line w) (hcount : ws.length ≤ 50) : lines (.body buf) = .ok ws := by
  have htokens : strtokAll (lit "\n") (unlines ws) = ws := by
    have h := strtokAll_lines (u := []) hws (by simp)
    simpa [lastToken] using h
  rw [lines, hbuf, ok_bind, split_eq_ok, htokens]
  exact ⟨rfl, hcount, fun w hw => (hws w hw).short.trans (by decide)⟩

/-- The lines of a file that consists of short lines. -/
theorem lines_file {ws : List Text} (hws : ∀ w ∈ ws, Line w) :
    lines (.file (unlines ws)) = .ok ws := by
  have hshort : ShortLines (255 - 1) ws := fun w hw =>
    ⟨(hws w hw).ne_nil, (hws w hw).noNewline, (hws w hw).short.trans (by decide)⟩
  have hbuffers := fgetsAll_unlines hshort []
  rw [List.append_nil, fgetsAll_nil, List.append_nil] at hbuffers
  rw [lines, hbuffers]
  exact mapM_chop_lines hws

theorem chop_of_mem {bs lines : List Text} (h : bs.mapM chop = .ok lines) :
    ∀ line ∈ lines, ∃ buffer, chop buffer = .ok line := by
  induction bs generalizing lines with
  | nil =>
    cases h
    simp
  | cons b bs ih =>
    rw [List.mapM_cons] at h
    obtain ⟨line, hline, h⟩ := bind_eq_ok.mp h
    obtain ⟨rest, hrest, h⟩ := bind_eq_ok.mp h
    cases h
    rw [List.forall_mem_cons]
    exact ⟨⟨b, hline⟩, ih hrest⟩

theorem noNul_of_chop {buffer line : Text} (h : chop buffer = .ok line) : 0 ∉ line := by
  simp only [chop] at h
  split at h
  · cases h
  · cases h
    intro hmem
    simpa using List.mem_takeWhile_imp (List.mem_of_mem_dropLast hmem)

theorem noNul_lines {i : Input} {lines : List Text} (hlines : i.lines = .ok lines) :
    ∀ line ∈ lines, 0 ∉ line := by
  cases i with
  | file text =>
    intro line hline
    obtain ⟨buffer, hchop⟩ := chop_of_mem hlines line hline
    exact noNul_of_chop hchop
  | body buf =>
    obtain ⟨str, hstr, hsplit⟩ := bind_eq_ok.mp hlines
    obtain ⟨rfl, -, -⟩ := split_eq_ok.mp hsplit
    intro line hline hnul
    exact (readString_ok hstr).1 (strtokAll_mem hline 0 hnul).1

end Input

/-! ## Fields -/

/-- The number behind the keyword ends within its copy. -/
def NumberFits (off : Nat) (line : Text) : Prop :=
  off ≤ line.length ∧ numeralLength (line.drop off) < 10

/-- The string behind the keyword ends within its copy. -/
def StringFits (off n : Nat) (line : Text) : Prop :=
  off ≤ line.length ∧ (line.drop off).length < n

/-- The string a branch of `file2struct` takes out of its line ends within `char[20]`. -/
def Op.FitsFile (strline : Text) : Op → Prop
  | .ip _ => (strip (strline.drop 4)).length < 20
  | .type _ => (strip (strline.drop 9)).length < 20
  | _ => True

/-- The field a branch of `convert_buf_to_node` takes out of its line ends within the
array it is copied to. -/
def Op.FitsBody (line : Text) : Op → Prop
  | .id _ => NumberFits 4 line
  | .nodeCount _ => NumberFits 12 line
  | .reliable _ => NumberFits 10 line
  | .ip _ => StringFits 4 20 line
  | .type _ => StringFits 9 10 line
  | .sCount _ => NumberFits 9 line
  | .validity _ => NumberFits 10 line
  | _ => True

/-- The field of a line fits the arrays it goes through. -/
def Input.Fits : Input → Text → Prop
  | .file _, strline => (fileOp strline).FitsFile strline
  | .body _, line => (bufOp line).FitsBody line

theorem slice_row {off : Nat} {line : Text} (h : off ≤ line.length) (n : Nat) :
    ∃ rest, slice off n (row line) = ((line.drop off).map some ++ some 0 :: rest).take n := by
  have hkey : (line.take off).length = off := by
    rw [List.length_take]
    omega
  have hdrop := drop_row (line.take off) (line.drop off)
  rw [List.take_append_drop, hkey] at hdrop
  exact ⟨_, by rw [slice, hdrop]⟩

/-- Behind the terminator nobody wrote anything. -/
theorem slice_row_behind {off : Nat} {line : Text} (h : line.length < off) (n : Nat) :
    ∃ k, slice off n (row line) = List.replicate k none := by
  have hlen : (cbuf line).length = line.length + 1 := by simp [cbuf]
  have hdrop : (row line).drop off = (List.replicate (80 - (line.length + 1)) none).drop
      (off - (line.length + 1)) := by
    rw [row, List.drop_append, hlen, List.drop_eq_nil_of_le (by omega), List.nil_append]
  rw [slice, hdrop, List.drop_replicate, List.take_replicate]
  exact ⟨_, rfl⟩

theorem readString_unwritten (k : Nat) : ∃ e, readString (List.replicate k none) = .error e := by
  cases k with
  | zero => exact ⟨_, rfl⟩
  | succ k => exact ⟨_, rfl⟩

theorem atoi_unwritten (k : Nat) : ∃ e, atoi (List.replicate k none) = .error e := by
  cases k with
  | zero => exact ⟨_, rfl⟩
  | succ k => exact ⟨_, rfl⟩

theorem atoi_slice_row {off : Nat} {line : Text} :
    (∃ v, atoi (slice off 10 (row line)) = .ok v) ↔ NumberFits off line := by
  unfold NumberFits
  by_cases h : off ≤ line.length
  · obtain ⟨rest, hrow⟩ := slice_row h 10
    rw [hrow, atoi_take]
    simp [h]
  · obtain ⟨k, hrow⟩ := slice_row_behind (Nat.lt_of_not_le h) 10
    obtain ⟨e, he⟩ := atoi_unwritten k
    rw [hrow, he]
    simp [h]

theorem strcpy_slice_row {off n : Nat} {line : Text} (hnul : 0 ∉ line) (hn : n ≤ 20) :
    (∃ s : CStr 20, strcpy 20 (slice off n (row line)) = .ok s) ↔ StringFits off n line := by
  unfold StringFits
  by_cases h : off ≤ line.length
  · obtain ⟨rest, hrow⟩ := slice_row h n
    have hfield : 0 ∉ line.drop off := fun hmem => hnul (List.mem_of_mem_drop hmem)
    have hread := readString_append hfield rest
    rw [hrow, strcpy]
    by_cases hlen : (line.drop off).length < n
    · rw [readString_take hread hlen, ok_bind, CStr.ofText, dif_pos ⟨hfield, by omega⟩]
      exact ⟨fun _ => ⟨h, hlen⟩, fun _ => ⟨_, rfl⟩⟩
    · rw [readString_take_short hread (Nat.le_of_not_lt hlen), error_bind]
      constructor
      · rintro ⟨s, hs⟩
        cases hs
      · intro hfits
        exact absurd hfits.2 hlen
  · obtain ⟨k, hrow⟩ := slice_row_behind (Nat.lt_of_not_le h) n
    obtain ⟨e, he⟩ := readString_unwritten k
    rw [hrow, strcpy, he, error_bind]
    simp [h]

theorem ofText_strip_iff {d : Text} (hnul : 0 ∉ d) :
    (∃ s : CStr 20, CStr.ofText 20 (strip d) = .ok s) ↔ (strip d).length < 20 := by
  unfold CStr.ofText
  by_cases hlen : (strip d).length < 20
  · rw [dif_pos ⟨zero_not_mem_strip hnul, hlen⟩]
    simp [hlen]
  · rw [dif_neg (fun h => hlen h.2)]
    simp [hlen]

theorem Op.iff_ite {P Q : Op → Prop} {c : Prop} [Decidable c] {op op' : Op} (h : P op ↔ Q op)
    (h' : P op' ↔ Q op') : P (if c then op else op') ↔ Q (if c then op else op') := by
  split
  · exact h
  · exact h'

theorem fitsFile_iff {line : Text} (hnul : 0 ∉ line) :
    (fileOp line).FitsFile line ↔ (fileOp line).Readable := by
  have hdrop : ∀ off, 0 ∉ line.drop off := fun off hmem => hnul (List.mem_of_mem_drop hmem)
  have hatoi : ∀ d, True ↔ ∃ v, atoi (cbuf d) = .ok v :=
    fun d => (iff_true_intro (atoi_cbuf d)).symm
  unfold fileOp
  refine Op.iff_ite Iff.rfl (Op.iff_ite (hatoi _) (Op.iff_ite (hatoi _) (Op.iff_ite (hatoi _)
    (Op.iff_ite Iff.rfl (Op.iff_ite (ofText_strip_iff (hdrop 4)).symm
    (Op.iff_ite (ofText_strip_iff (hdrop 9)).symm (Op.iff_ite (hatoi _) (Op.iff_ite (hatoi _)
    (Op.iff_ite Iff.rfl (Op.iff_ite Iff.rfl Iff.rfl))))))))))

theorem fitsBody_iff {line : Text} (hnul : 0 ∉ line) :
    (bufOp line).FitsBody line ↔ (bufOp line).Readable := by
  have hnumber : ∀ off, NumberFits off line ↔ ∃ v, atoi (slice off 10 (row line)) = .ok v :=
    fun off => atoi_slice_row.symm
  unfold bufOp
  refine Op.iff_ite Iff.rfl (Op.iff_ite (hnumber 4) (Op.iff_ite (hnumber 12)
    (Op.iff_ite (hnumber 10) (Op.iff_ite Iff.rfl
    (Op.iff_ite (strcpy_slice_row hnul (by omega)).symm
    (Op.iff_ite (strcpy_slice_row hnul (by omega)).symm (Op.iff_ite (hnumber 9)
    (Op.iff_ite (hnumber 10) (Op.iff_ite Iff.rfl (Op.iff_ite Iff.rfl Iff.rfl))))))))))

theorem fits_iff_readable {i : Input} {line : Text} (hnul : 0 ∉ line) :
    i.Fits line ↔ (i.op line).Readable := by
  cases i with
  | file text => exact fitsFile_iff hnul
  | body buf => exact fitsBody_iff hnul

theorem forall_fits_iff {i : Input} {lines : List Text} (hlines : i.lines = .ok lines) :
    (∀ line ∈ lines, i.Fits line) ↔ ∀ op ∈ lines.map i.op, op.Readable := by
  rw [List.forall_mem_map]
  exact forall₂_congr (fun line hline => fits_iff_readable (Input.noNul_lines hlines line hline))

end VpnP2p.NodeInfo
