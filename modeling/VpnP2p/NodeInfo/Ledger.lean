import VpnP2p.Foundation.Positions
import VpnP2p.NodeInfo.Decode

/-!
# What the lines of a node list come to

The decoders keep five cursors into a memory of cells. `Ledger` says what they are for,
without the memory: the records finished so far, the one being filled in, and one
`Sheet` of IPs for each `ip_list` line. A record knows its sheet by number, because the
lines behind its `end` line still write into the sheet. Where the code would follow a
pointer that leads nowhere, or a field cannot be read from its line, the ledger has no
next state.
-/

namespace VpnP2p.NodeInfo

open Foundation

/-! ## Sheets -/

/-- An IP some of whose lines may be missing. -/
structure Draft where
  ip : Option (CStr 20)
  type : Option (CStr 20)
  sCount : Option Int32
  validity : Option Int32
deriving DecidableEq

def Draft.blank : Draft := ⟨none, none, none, none⟩

def IPCell.draft (c : IPCell) : Draft := ⟨c.ip, c.type, c.sCount, c.validity⟩

def IP.draft (x : IP) : Draft := ⟨some x.ip, some x.type, some x.sCount, some x.validity⟩

/-- Where `ip_header` stands: there is no `ip_new` either, in front of `ip_new`, in front
of nothing, nowhere. -/
inductive Mode where
  | shut
  | growing
  | ended
  | lost
deriving DecidableEq

/-- The IPs since an `ip_list` line. `spare` is what `ip_new` holds, and it is `attached`
as long as the list leads to it. -/
structure Sheet where
  kept : List Draft
  spare : Draft
  attached : Bool
  mode : Mode
deriving DecidableEq

namespace Sheet

/-- Before the first `ip_list` line there are no IP cells at all. -/
def shut : Sheet := ⟨[], .blank, false, .shut⟩

/-- Before the first `ip_list` line `file2struct` has two cells no node leads to. -/
def loose : Sheet := ⟨[], .blank, false, .ended⟩

def opened : Sheet := ⟨[], .blank, true, .growing⟩

/-- The IPs on the list. -/
def entries (s : Sheet) : List Draft := if s.attached then s.kept ++ [s.spare] else s.kept

/-- A line that writes a field of `ip_new`. -/
def write (s : Sheet) (f : Draft → Draft) : Option Sheet :=
  match s.mode with
  | .shut => none
  | _ => some { s with spare := f s.spare }

/-- The cell behind `ip_new` becomes `ip_new`, and `ip_header` moves on. -/
def next (s : Sheet) : Option Sheet :=
  match s.mode with
  | .growing => some { s with kept := s.entries, spare := .blank }
  | .ended => some { s with kept := s.entries, spare := .blank, mode := .lost }
  | _ => none

/-- `ip_list_ends` takes the spare cell off the list, unless it is the first cell. -/
def cut (s : Sheet) : Option Sheet :=
  match s.mode with
  | .growing => some { s with attached := s.kept.isEmpty, mode := .ended }
  | .ended => some s
  | _ => none

/-- What a line does to the sheet. -/
def exec (s : Sheet) : Op → Option Sheet
  | .ip v => v.toOption.bind fun v => s.write (fun d => { d with ip := some v })
  | .type v => v.toOption.bind fun v => s.write (fun d => { d with type := some v })
  | .sCount v => v.toOption.bind fun v => s.write (fun d => { d with sCount := some v })
  | .validity v => do
    let v ← v.toOption
    let s ← s.write (fun d => { d with validity := some v })
    s.next
  | .ipListEnds => s.cut
  | _ => some s

def run (s : Sheet) (ops : List Op) : Option Sheet := ops.foldlM exec s

/-- The pointers a line follows lead somewhere. -/
def Takes (s : Sheet) : Op → Prop
  | .ip _ | .type _ | .sCount _ => s.mode ≠ .shut
  | .validity _ | .ipListEnds => s.mode = .growing ∨ s.mode = .ended
  | _ => True

end Sheet

/-! ## Records -/

/-- The fields of a node; `ipList` is the number of its sheet. -/
structure NodeDraft where
  id : Option Int32
  nodeCount : Option Int32
  reliable : Option Int32
  ipList : Option Nat
deriving DecidableEq

def NodeDraft.blank : NodeDraft := ⟨none, none, none, none⟩

/-- What a line does to the record. -/
def NodeDraft.exec (r : NodeDraft) : Op → Option NodeDraft
  | .id v => v.toOption.map fun v => { r with id := some v }
  | .nodeCount v => v.toOption.map fun v => { r with nodeCount := some v }
  | .reliable v => v.toOption.map fun v => { r with reliable := some v }
  | _ => some r

/-! ## The ledger -/

structure Ledger where
  done : List NodeDraft
  cur : NodeDraft
  closed : List Sheet
  sheet : Sheet
deriving DecidableEq

namespace Ledger

/-- `file2struct` and `convert_buf_to_node` differ in the sheet they start with. -/
def start (first : Sheet) : Ledger := ⟨[], .blank, [], first⟩

/-- All sheets, by number. -/
def sheets (s : Ledger) : List Sheet := s.closed ++ [s.sheet]

def exec (s : Ledger) : Op → Option Ledger
  | .ipList => some { s with
      cur := { s.cur with ipList := some (s.closed.length + 1) }
      closed := s.closed ++ [s.sheet]
      sheet := .opened }
  | .endNode => some { s with done := s.done ++ [s.cur], cur := .blank }
  | op => do
    let cur ← s.cur.exec op
    let sheet ← s.sheet.exec op
    some { s with cur := cur, sheet := sheet }

def run (s : Ledger) (ops : List Op) : Option Ledger := ops.foldlM exec s

/-- The number `k` is that of a sheet with the entries `ds`. -/
def Shows (s : Ledger) (k : Nat) (ds : List Draft) : Prop :=
  ∃ t, s.sheets[k]? = some t ∧ t.entries = ds

/-- The record `r` stands for the node `n`. -/
structure Is (s : Ledger) (r : NodeDraft) (n : Node) : Prop where
  id : r.id = some n.id
  nodeCount : r.nodeCount = some n.nodeCount
  reliable : r.reliable = some n.reliable
  ipList : ∃ k, r.ipList = some k ∧ s.Shows k (n.ipList.map IP.draft)

end Ledger

/-! ## What a run comes to -/

namespace Op

def isEnd : Op → Bool
  | .endNode => true
  | _ => false

def isIpList : Op → Bool
  | .ipList => true
  | _ => false

/-- The field of a branch can be taken out of its line. -/
def Readable : Op → Prop
  | .id v | .nodeCount v | .reliable v | .sCount v | .validity v => ∃ a, v = .ok a
  | .ip s | .type s => ∃ a, s = .ok a
  | _ => True

def idValue : Op → Option Int32
  | .id v => v.toOption
  | _ => none

def nodeCountValue : Op → Option Int32
  | .nodeCount v => v.toOption
  | _ => none

def reliableValue : Op → Option Int32
  | .reliable v => v.toOption
  | _ => none

theorem isEnd_iff {op : Op} : op.isEnd = true ↔ op = .endNode := by
  cases op <;> simp [isEnd]

theorem isIpList_iff {op : Op} : op.isIpList = true ↔ op = .ipList := by
  cases op <;> simp [isIpList]

end Op

/-- The draft has the last values of the lines since the last `end` line, and the number
of the last sheet opened among them. -/
structure NodeDraft.FilledBy (pre : List Op) (r : NodeDraft) : Prop where
  id : r.id = lastValue Op.idValue (since Op.isEnd pre)
  nodeCount : r.nodeCount = lastValue Op.nodeCountValue (since Op.isEnd pre)
  reliable : r.reliable = lastValue Op.reliableValue (since Op.isEnd pre)
  ipList : r.ipList =
    if (since Op.isEnd pre).any Op.isIpList then some (pre.countP Op.isIpList) else none

theorem NodeDraft.filledBy_nil : NodeDraft.blank.FilledBy [] := ⟨rfl, rfl, rfl, rfl⟩

theorem NodeDraft.filledBy_endNode (pre : List Op) :
    NodeDraft.blank.FilledBy (pre ++ [.endNode]) := by
  have hsince : since Op.isEnd (pre ++ [.endNode]) = [] := by rw [since_concat]; rfl
  refine ⟨?_, ?_, ?_, ?_⟩
  all_goals rw [hsince]; rfl

theorem NodeDraft.exec_eq {r r' : NodeDraft} {op : Op} (h : r.exec op = some r') :
    r' = ⟨op.idValue.or r.id, op.nodeCountValue.or r.nodeCount, op.reliableValue.or r.reliable,
      r.ipList⟩ := by
  cases op with
  | id v =>
    obtain ⟨a, ha, rfl⟩ := Option.map_eq_some_iff.mp h
    simp only [Op.idValue, ha]
    rfl
  | nodeCount v =>
    obtain ⟨a, ha, rfl⟩ := Option.map_eq_some_iff.mp h
    simp only [Op.nodeCountValue, ha]
    rfl
  | reliable v =>
    obtain ⟨a, ha, rfl⟩ := Option.map_eq_some_iff.mp h
    simp only [Op.reliableValue, ha]
    rfl
  | _ =>
    cases h
    rfl

theorem NodeDraft.FilledBy.exec {pre : List Op} {r r' : NodeDraft} {op : Op} (h : r.FilledBy pre)
    (hexec : r.exec op = some r') (hend : op.isEnd = false) (hlist : op.isIpList = false) :
    r'.FilledBy (pre ++ [op]) := by
  have hsince : since Op.isEnd (pre ++ [op]) = since Op.isEnd pre ++ [op] := by
    rw [since_concat, hend]
    rfl
  obtain rfl := NodeDraft.exec_eq hexec
  refine ⟨?_, ?_, ?_, ?_⟩
  · rw [hsince, lastValue_concat, h.id]
  · rw [hsince, lastValue_concat, h.nodeCount]
  · rw [hsince, lastValue_concat, h.reliable]
  · rw [hsince, h.ipList]
    simp [hlist]

theorem NodeDraft.FilledBy.opened {pre : List Op} {r : NodeDraft} (h : r.FilledBy pre) :
    { r with ipList := some (pre.countP Op.isIpList + 1) }.FilledBy (pre ++ [Op.ipList]) := by
  have hsince : since Op.isEnd (pre ++ [Op.ipList]) = since Op.isEnd pre ++ [Op.ipList] := by
    rw [since_concat]
    rfl
  refine ⟨?_, ?_, ?_, ?_⟩
  · rw [hsince, lastValue_concat, ← h.id]
    rfl
  · rw [hsince, lastValue_concat, ← h.nodeCount]
    rfl
  · rw [hsince, lastValue_concat, ← h.reliable]
    rfl
  · rw [hsince]
    simp [Op.isIpList]

namespace Sheet

/-- The lines of a record are none of the sheet's business. -/
theorem exec_of_other (s : Sheet) {op : Op} (h : op.isEnd = true ∨ op.isIpList = true) :
    s.exec op = some s := by
  rcases h with h | h
  · rw [Op.isEnd_iff.mp h]
    rfl
  · rw [Op.isIpList_iff.mp h]
    rfl

@[simp] theorem run_nil (s : Sheet) : s.run [] = some s := rfl

theorem run_append (s : Sheet) (ops ops' : List Op) :
    s.run (ops ++ ops') = (s.run ops).bind fun t => t.run ops' := List.foldlM_append

theorem run_cons (s : Sheet) (op : Op) (ops : List Op) :
    s.run (op :: ops) = (s.exec op).bind fun t => t.run ops := List.foldlM_cons

theorem run_concat (s : Sheet) (ops : List Op) (op : Op) :
    s.run (ops ++ [op]) = (s.run ops).bind fun t => t.exec op := foldlM_concat exec s ops op

theorem write_isSome (s : Sheet) (f : Draft → Draft) :
    (s.write f).isSome = true ↔ s.mode ≠ .shut := by
  unfold write
  cases s.mode <;> simp

theorem field_isSome (s : Sheet) {ρ : Type} (v : Result ρ) (g : ρ → Draft → Draft) :
    (v.toOption.bind fun a => s.write (g a)).isSome = true ↔ (∃ a, v = .ok a) ∧ s.mode ≠ .shut := by
  cases v with
  | error e => exact ⟨nofun, fun ⟨⟨a, h⟩, _⟩ => by cases h⟩
  | ok a => exact (s.write_isSome (g a)).trans ⟨fun h => ⟨⟨a, rfl⟩, h⟩, fun h => h.2⟩

theorem next_isSome (s : Sheet) :
    s.next.isSome = true ↔ s.mode = .growing ∨ s.mode = .ended := by
  unfold next
  cases s.mode <;> simp

theorem cut_isSome (s : Sheet) : s.cut.isSome = true ↔ s.mode = .growing ∨ s.mode = .ended := by
  unfold cut
  cases s.mode <;> simp

theorem mode_of_write {s t : Sheet} {f : Draft → Draft} (h : s.write f = some t) :
    t.mode = s.mode := by
  unfold write at h
  split at h
  · cases h
  · cases h
    rfl

/-- The sheet and the record have an answer to a line with a readable field, if the
pointers lead somewhere. -/
theorem exec_isSome_iff {s : Sheet} {r : NodeDraft} {op : Op} :
    (r.exec op).isSome = true ∧ (s.exec op).isSome = true ↔ op.Readable ∧ s.Takes op := by
  cases op with
  | skip | ipList | endNode => exact ⟨fun _ => ⟨trivial, trivial⟩, fun _ => ⟨rfl, rfl⟩⟩
  | id v | nodeCount v | reliable v =>
    cases v with
    | error e => exact ⟨fun h => absurd h.1 nofun, fun h => absurd h.1 (by simp [Op.Readable])⟩
    | ok a => exact ⟨fun _ => ⟨⟨a, rfl⟩, trivial⟩, fun _ => ⟨rfl, rfl⟩⟩
  | ip v =>
    exact (and_iff_right rfl).trans (s.field_isSome v fun a d => { d with ip := some a })
  | type v =>
    exact (and_iff_right rfl).trans (s.field_isSome v fun a d => { d with type := some a })
  | sCount v =>
    exact (and_iff_right rfl).trans (s.field_isSome v fun a d => { d with sCount := some a })
  | ipListEnds =>
    exact ⟨fun h => ⟨trivial, s.cut_isSome.mp h.2⟩, fun h => ⟨rfl, s.cut_isSome.mpr h.2⟩⟩
  | validity v =>
    cases v with
    | error e => exact ⟨fun h => absurd h.2 nofun, fun h => absurd h.1 (by simp [Op.Readable])⟩
    | ok a =>
      have hexec : s.exec (.validity (.ok a)) =
          (s.write (fun d => { d with validity := some a })).bind next := rfl
      rw [hexec]
      cases hwrite : s.write (fun d => { d with validity := some a }) with
      | none =>
        have hshut : s.mode = .shut := by
          by_contra hne
          have := (s.write_isSome (fun d => { d with validity := some a })).mpr hne
          rw [hwrite] at this
          cases this
        refine ⟨fun h => absurd h.2 nofun, fun h => ?_⟩
        rcases h.2 with h | h
        · rw [hshut] at h
          cases h
        · rw [hshut] at h
          cases h
      | some t =>
        have hmode := mode_of_write hwrite
        refine ⟨fun h => ⟨⟨a, rfl⟩, ?_⟩, fun h => ⟨rfl, ?_⟩⟩
        · have := t.next_isSome.mp h.2
          rwa [hmode] at this
        · apply t.next_isSome.mpr
          rw [hmode]
          exact h.2

end Sheet

namespace Ledger

theorem run_append (s : Ledger) (ops ops' : List Op) :
    s.run (ops ++ ops') = (s.run ops).bind fun t => t.run ops' := List.foldlM_append

theorem run_cons (s : Ledger) (op : Op) (ops : List Op) :
    s.run (op :: ops) = (s.exec op).bind fun t => t.run ops := List.foldlM_cons

theorem run_concat (s : Ledger) (ops : List Op) (op : Op) :
    s.run (ops ++ [op]) = (s.run ops).bind fun t => t.exec op := foldlM_concat exec s ops op

theorem exec_other (s : Ledger) {op : Op} (hlist : op.isIpList = false) (hend : op.isEnd = false) :
    s.exec op = (s.cur.exec op).bind fun cur => (s.sheet.exec op).bind fun sheet =>
      some { s with cur := cur, sheet := sheet } := by
  cases op with
  | ipList => cases hlist
  | endNode => cases hend
  | _ => rfl

/-- A line with a readable field that the sheet has a place for is all it takes. -/
theorem exec_isSome_iff {s : Ledger} {op : Op} :
    (s.exec op).isSome = true ↔ op.Readable ∧ s.sheet.Takes op := by
  cases hlist : op.isIpList with
  | true =>
    obtain rfl := Op.isIpList_iff.mp hlist
    exact ⟨fun _ => ⟨trivial, trivial⟩, fun _ => rfl⟩
  | false =>
    cases hend : op.isEnd with
    | true =>
      obtain rfl := Op.isEnd_iff.mp hend
      exact ⟨fun _ => ⟨trivial, trivial⟩, fun _ => rfl⟩
    | false =>
      rw [exec_other s hlist hend, ← Sheet.exec_isSome_iff (r := s.cur)]
      cases s.cur.exec op <;> cases s.sheet.exec op <;> simp

/-- A ledger that runs to the end has read a field from every line. -/
theorem readable_of_run {s s' : Ledger} {ops : List Op} (h : s.run ops = some s') :
    ∀ op ∈ ops, op.Readable := by
  induction ops using List.reverseRecOn generalizing s' with
  | nil => simp
  | append_singleton ops op ih =>
    rw [run_concat] at h
    obtain ⟨t, ht, hexec⟩ := Option.bind_eq_some_iff.mp h
    have hop := (exec_isSome_iff.mp (Option.isSome_iff_exists.mpr ⟨s', hexec⟩)).1
    intro q hq
    rcases List.mem_append.mp hq with hq | hq
    · exact ih ht q hq
    · obtain rfl : q = op := by simpa using hq
      exact hop

/-- The three things a line can do. -/
theorem exec_cases {s s' : Ledger} {op : Op} (h : s.exec op = some s') :
    (op = .ipList ∧ s' = { s with
      cur := { s.cur with ipList := some (s.closed.length + 1) }
      closed := s.closed ++ [s.sheet]
      sheet := .opened }) ∨
    (op = .endNode ∧ s' = { s with done := s.done ++ [s.cur], cur := .blank }) ∨
    (op.isIpList = false ∧ op.isEnd = false ∧ ∃ cur sheet, s.cur.exec op = some cur ∧
      s.sheet.exec op = some sheet ∧ s' = { s with cur := cur, sheet := sheet }) := by
  cases hlist : op.isIpList with
  | true =>
    obtain rfl := Op.isIpList_iff.mp hlist
    cases h
    exact Or.inl ⟨rfl, rfl⟩
  | false =>
    cases hend : op.isEnd with
    | true =>
      obtain rfl := Op.isEnd_iff.mp hend
      cases h
      exact Or.inr (Or.inl ⟨rfl, rfl⟩)
    | false =>
      rw [exec_other s hlist hend] at h
      obtain ⟨cur, hcur, h⟩ := Option.bind_eq_some_iff.mp h
      obtain ⟨sheet, hsheet, h⟩ := Option.bind_eq_some_iff.mp h
      cases h
      exact Or.inr (Or.inr ⟨rfl, rfl, cur, sheet, hcur, hsheet, rfl⟩)

/-- What `s` is after the lines `ops`, when it started with the sheet `first`. -/
structure After (first : Sheet) (ops : List Op) (s : Ledger) : Prop where
  count : s.done.length = ops.countP Op.isEnd
  done : ∀ pre post, ops = pre ++ .endNode :: post →
    ∃ r, s.done[pre.countP Op.isEnd]? = some r ∧ r.FilledBy pre
  cur : s.cur.FilledBy ops
  closed : s.closed.length = ops.countP Op.isIpList
  sheets : ∀ pre post, ops = pre ++ .ipList :: post →
    ∃ t, s.sheets[pre.countP Op.isIpList + 1]? = some t ∧
      Sheet.opened.run (upTo Op.isIpList post) = some t
  sheet : (if ops.any Op.isIpList then Sheet.opened else first).run (since Op.isIpList ops) =
    some s.sheet

theorem after_start (first : Sheet) : After first [] (start first) where
  count := rfl
  done := by simp
  cur := NodeDraft.filledBy_nil
  closed := rfl
  sheets := by simp
  sheet := rfl

/-- A line that opens no sheet goes into the last one. -/
theorem After.sheet_exec {first sheet : Sheet} {ops : List Op} {s : Ledger} {op : Op}
    (h : After first ops s) (hlist : op.isIpList = false) (hsheet : s.sheet.exec op = some sheet) :
    (∀ pre post, ops ++ [op] = pre ++ .ipList :: post →
      ∃ t, (s.closed ++ [sheet])[pre.countP Op.isIpList + 1]? = some t ∧
        Sheet.opened.run (upTo Op.isIpList post) = some t) ∧
    (if (ops ++ [op]).any Op.isIpList then Sheet.opened else first).run
      (since Op.isIpList (ops ++ [op])) = some sheet := by
  constructor
  · intro pre post hops
    rcases concat_eq_append_cons.mp hops with ⟨-, rfl, -⟩ | ⟨rest, hrest, rfl⟩
    · cases hlist
    obtain ⟨t, ht, hrun⟩ := h.sheets pre rest hrest
    have hclosed : s.closed.length = pre.countP Op.isIpList + 1 + rest.countP Op.isIpList := by
      rw [h.closed, hrest, List.countP_append, List.countP_cons]
      simp only [Op.isIpList, if_true]
      omega
    by_cases hsome : ∃ a ∈ rest, a.isIpList = true
    · -- The sheet was closed before this line.
      have hpos : 0 < rest.countP Op.isIpList := List.countP_pos_iff.mpr hsome
      have hlt : pre.countP Op.isIpList + 1 < s.closed.length := by omega
      refine ⟨t, ?_, by rw [upTo_append_left hsome, hrun]⟩
      rw [Ledger.sheets, List.getElem?_append_left hlt] at ht
      rw [List.getElem?_append_left hlt, ht]
    · -- The sheet is the one the line goes into.
      have hnone : ∀ a ∈ rest, a.isIpList = false := by simpa using hsome
      have hzero : rest.countP Op.isIpList = 0 := by simpa [List.countP_eq_zero] using hnone
      have hlast : pre.countP Op.isIpList + 1 = s.closed.length := by omega
      rw [Ledger.sheets, hlast] at ht
      obtain rfl : s.sheet = t := by simpa using ht
      refine ⟨sheet, by rw [hlast]; simp, ?_⟩
      rw [upTo_eq_self hnone] at hrun
      rw [upTo_eq_self (by simpa [or_imp, forall_and, hlist] using hnone), Sheet.run_concat, hrun]
      exact hsheet
  · rw [since_concat, hlist, List.any_append]
    simp only [List.any_cons, List.any_nil, hlist, Bool.or_false, Bool.false_eq_true, if_false]
    rw [Sheet.run_concat, h.sheet]
    exact hsheet

theorem After.exec {first : Sheet} {ops : List Op} {s s' : Ledger} {op : Op}
    (h : After first ops s) (hexec : s.exec op = some s') : After first (ops ++ [op]) s' := by
  have hcounts : (ops ++ [op]).countP Op.isEnd =
      ops.countP Op.isEnd + if op.isEnd then 1 else 0 := by
    simp [List.countP_append, List.countP_singleton]
  have hlists : (ops ++ [op]).countP Op.isIpList =
      ops.countP Op.isIpList + if op.isIpList then 1 else 0 := by
    simp [List.countP_append, List.countP_singleton]
  rcases exec_cases hexec with
    ⟨rfl, rfl⟩ | ⟨rfl, rfl⟩ | ⟨hlist, hend, cur, sheet, hcur, hsheet, rfl⟩
  · refine ⟨hcounts ▸ h.count, ?_, ?_, ?_, ?_, ?_⟩
    · exact forall_split_concat.mpr ⟨h.done, nofun⟩
    · rw [h.closed]
      exact h.cur.opened
    · rw [hlists, List.length_append, h.closed]
      rfl
    · intro pre post hops
      rcases concat_eq_append_cons.mp hops with ⟨rfl, -, rfl⟩ | ⟨rest, hrest, rfl⟩
      · refine ⟨.opened, ?_, rfl⟩
        rw [Ledger.sheets, ← h.closed]
        simp
      · obtain ⟨t, ht, hrun⟩ := h.sheets pre rest hrest
        refine ⟨t, getElem?_of_prefix (List.prefix_append _ _) ht, ?_⟩
        rw [upTo_concat_of_pos rest rfl, hrun]
    · rw [since_concat]
      simp [Op.isIpList]
  · have hlist : Op.isIpList .endNode = false := rfl
    obtain ⟨hsheets, hsheet⟩ := h.sheet_exec hlist (s.sheet.exec_of_other (Or.inl rfl))
    refine ⟨?_, ?_, NodeDraft.filledBy_endNode ops, hlists ▸ h.closed, hsheets, hsheet⟩
    · rw [hcounts, List.length_append, h.count]
      rfl
    · refine forall_split_concat.mpr ⟨fun pre post hops => ?_, fun _ => ⟨s.cur, ?_, h.cur⟩⟩
      · obtain ⟨r, hr, hfilled⟩ := h.done pre post hops
        exact ⟨r, getElem?_of_prefix (List.prefix_append _ _) hr, hfilled⟩
      · rw [← h.count]
        simp
  · obtain ⟨hsheets, hsheet'⟩ := h.sheet_exec hlist hsheet
    refine ⟨?_, ?_, h.cur.exec hcur hend hlist, ?_, hsheets, hsheet'⟩
    · rw [hcounts, hend]
      exact h.count
    · refine forall_split_concat.mpr ⟨h.done, ?_⟩
      rintro rfl
      cases hend
    · rw [hlists, hlist]
      exact h.closed

theorem After.run {first : Sheet} {ops : List Op} {s : Ledger}
    (h : (start first).run ops = some s) : After first ops s := by
  induction ops using List.reverseRecOn generalizing s with
  | nil =>
    cases h
    exact after_start first
  | append_singleton ops op ih =>
    rw [run_concat] at h
    obtain ⟨t, ht, hexec⟩ := Option.bind_eq_some_iff.mp h
    exact (ih ht).exec hexec

end Ledger

end VpnP2p.NodeInfo
