import VpnP2p.Foundation.Simulation
import VpnP2p.NodeInfo.DecodeRun
import VpnP2p.NodeInfo.Ledger

/-!
# The decoders follow the ledger

`SheetAt` says where the IP cursors stand for a sheet, one case for each mode of
`ip_header`; `LedgerAt` adds the node cursors and the sheets that are closed. A line the
ledger has an answer to is taken by the code, and a line it has none to leaves the
defined behaviour, whatever the lines before it were.
-/

namespace VpnP2p.NodeInfo

open Foundation

/-! ## The IP cursors -/

/-- A pointer nobody may follow. -/
def Dead (p : Ptr) : Prop := p = .null ∨ p = .unassigned

theorem Dead.load {p : Ptr} (h : Dead p) {α : Type} (m : Mem α) : ∃ e, load m p = .error e := by
  rcases h with rfl | rfl
  · exact ⟨_, rfl⟩
  · exact ⟨_, rfl⟩

theorem Dead.update {p : Ptr} (h : Dead p) {α : Type} (m : Mem α) (f : α → α) :
    ∃ e, update m p f = .error e := by
  rcases h with rfl | rfl
  · exact ⟨_, rfl⟩
  · exact ⟨_, rfl⟩

/-- The NULL-terminated IP list at `p` has the entries `ds`. -/
def DraftsAt (m : Mem IPCell) (p : Ptr) (ds : List Draft) : Prop :=
  ∃ as, Seg IPCell.nextIp m p as .null ∧ Contents (fun c d => c.draft = d) m as ds

theorem DraftsAt.of_prefix {m m' : Mem IPCell} {p : Ptr} {ds : List Draft} (h : DraftsAt m p ds)
    (hpre : m <+: m') : DraftsAt m' p ds := by
  obtain ⟨as, hlinks, hcont⟩ := h
  exact ⟨as, hlinks.sameLinks (SameLinks.of_prefix _ hpre), hcont.of_prefix hpre⟩

/-- Where `ip_header` stands; `ks` are the cells in front of the one `ip_new` points at,
and the cells behind `lo` belong to the sheet. -/
inductive HeaderAt (lo : Nat) (m : Mem IPCell) (ks : List Nat) (spare : Nat) :
    Mode → Bool → Ptr → Prop where
  | growing {prev : Nat} {cell : IPCell} (get : m[prev]? = some cell)
      (link : cell.nextIp = .addr spare) (bound : lo ≤ prev) (apart : prev ≠ spare)
      (last : (ks = [] ∨ ∃ bs, ks = bs ++ [prev])) :
      HeaderAt lo m ks spare .growing true (.addr prev)
  | ended {prev : Nat} {cell : IPCell} (attached : Bool) (get : m[prev]? = some cell)
      (link : Dead cell.nextIp) (bound : lo ≤ prev) (apart : prev ≠ spare)
      (last : prev ∈ ks → cell.nextIp = .null) : HeaderAt lo m ks spare .ended attached (.addr prev)
  | lost {p : Ptr} (attached : Bool) (dead : Dead p) : HeaderAt lo m ks spare .lost attached p

/-- The cells of the sheet `s` lie behind `snap`, its list at `first`. -/
structure CellsAt (snap m : Mem IPCell) (first : Ptr) (s : Sheet) (ks : List Nat)
    (spare : Nat) : Prop where
  list : Seg IPCell.nextIp m first (if s.attached then ks ++ [spare] else ks) .null
  kept : Contents (fun c d => c.draft = d) m ks s.kept
  spareCell : ∃ cell, m[spare]? = some cell ∧ cell.draft = s.spare
  apart : spare ∉ ks
  bound : ∀ a ∈ spare :: ks, snap.length ≤ a
  settled : snap <+: m

structure SheetAt (snap : Mem IPCell) (c : Cursor) (first : Ptr) (s : Sheet) (ks : List Nat)
    (spare : Nat) : Prop where
  ipNewAt : c.ipNew = .addr spare
  cells : CellsAt snap c.heap.ips first s ks spare
  header : HeaderAt snap.length c.heap.ips ks spare s.mode s.attached c.ipHeader

/-- The IP cursors stand as the sheet says. -/
inductive SheetOn (snap : Mem IPCell) (c : Cursor) (first : Ptr) : Sheet → Prop where
  | shut (ipNew : c.ipNew = .null) (ipHeader : c.ipHeader = .null) (list : first = .null)
      (settled : snap <+: c.heap.ips) : SheetOn snap c first .shut
  | cells {s : Sheet} {ks : List Nat} {spare : Nat} (h : SheetAt snap c first s ks spare) :
      SheetOn snap c first s

theorem HeaderAt.write_spare {lo : Nat} {m : Mem IPCell} {ks : List Nat} {spare : Nat}
    {mode : Mode} {attached : Bool} {p : Ptr} (h : HeaderAt lo m ks spare mode attached p)
    (f : IPCell → IPCell) : HeaderAt lo (m.modify spare f) ks spare mode attached p := by
  cases h with
  | growing get link bound apart last =>
    exact .growing ((getElem?_modify_of_ne f apart).trans get) link bound apart last
  | ended _ get link bound apart last =>
    exact .ended _ ((getElem?_modify_of_ne f apart).trans get) link bound apart last
  | lost _ dead => exact .lost _ dead

namespace CellsAt

variable {snap m : Mem IPCell} {first : Ptr} {s : Sheet} {ks : List Nat} {spare : Nat}

theorem spare_lt (h : CellsAt snap m first s ks spare) : spare < m.length := by
  obtain ⟨cell, hcell, -⟩ := h.spareCell
  exact lt_of_getElem?_eq_some hcell

theorem lt_length (h : CellsAt snap m first s ks spare) : ∀ a ∈ ks ++ [spare], a < m.length := by
  intro a ha
  rcases List.mem_append.mp ha with ha | ha
  · obtain ⟨_, _, _, hcell, _⟩ := h.kept.mem_left ha
    exact lt_of_getElem?_eq_some hcell
  · obtain rfl : a = spare := by simpa using ha
    exact h.spare_lt

theorem le_spare (h : CellsAt snap m first s ks spare) : snap.length ≤ spare :=
  h.bound spare (by simp)

theorem entries (h : CellsAt snap m first s ks spare) :
    Contents (fun c d => c.draft = d) m (if s.attached then ks ++ [spare] else ks) s.entries := by
  unfold Sheet.entries
  split
  · obtain ⟨cell, hcell, hdraft⟩ := h.spareCell
    exact h.kept.append (.cons ⟨cell, hcell, hdraft⟩ .nil)
  · exact h.kept

theorem draftsAt (h : CellsAt snap m first s ks spare) : DraftsAt m first s.entries :=
  ⟨_, h.list, h.entries⟩

theorem write (h : CellsAt snap m first s ks spare) {f : IPCell → IPCell} {g : Draft → Draft}
    (hlink : ∀ d, (f d).nextIp = d.nextIp) (hdraft : ∀ d, (f d).draft = g d.draft) :
    CellsAt snap (m.modify spare f) first { s with spare := g s.spare } ks spare where
  list := h.list.sameLinks (SameLinks.modify m (fun _ => hlink))
  kept := h.kept.modify_other h.apart f
  spareCell := by
    obtain ⟨cell, hcell, hspare⟩ := h.spareCell
    exact ⟨f cell, getElem?_modify_same f hcell, by rw [hdraft, hspare]⟩
  apart := h.apart
  bound := h.bound
  settled := prefix_modify h.settled h.le_spare f

/-- A new cell behind the spare one joins the list if the spare one is on it. -/
theorem next (h : CellsAt snap m first s ks spare) (mode : Mode) :
    CellsAt snap ((m ++ [IPCell.spare]).modify spare (fun d => { d with nextIp := .addr m.length }))
      first ⟨s.entries, .blank, s.attached, mode⟩ (if s.attached then ks ++ [spare] else ks)
      m.length := by
  let f := fun d : IPCell => { d with nextIp := .addr m.length }
  have hpre : m <+: m ++ [IPCell.spare] := List.prefix_append _ _
  have hnew : ((m ++ [IPCell.spare]).modify spare f)[m.length]? = some IPCell.spare := by
    rw [getElem?_modify_of_ne f (Nat.ne_of_gt h.spare_lt)]
    simp
  have hsub : ∀ a ∈ (if s.attached then ks ++ [spare] else ks), a ∈ ks ++ [spare] := by
    intro a ha
    split at ha
    · exact ha
    · simp [ha]
  refine ⟨?_, ?_, ⟨_, hnew, rfl⟩, fun hmem => ?_, fun a ha => ?_, ?_⟩
  · have hold := h.list.sameLinks (SameLinks.of_prefix _ hpre)
    cases hs : s.attached with
    | true =>
      simp only [hs, if_true] at hold ⊢
      have hlist := hold.relink_last (f := f) (r := .addr m.length) hold.nodup (fun _ => rfl)
      exact Seg.append_iff.mpr ⟨_, hlist, rfl, _, hnew, rfl⟩
    | false =>
      simp only [hs, Bool.false_eq_true, if_false] at hold ⊢
      exact hold.sameLinks (SameLinks.modify _ (fun hmem => absurd hmem h.apart))
  · have hold : Contents (fun c d => c.draft = d) (m ++ [IPCell.spare]) _ s.entries :=
      h.entries.of_prefix hpre
    exact hold.modify_keep (f := f) (fun _ _ hd => hd) spare
  · exact absurd (h.lt_length _ (hsub _ hmem)) (Nat.lt_irrefl _)
  · rcases List.mem_cons.mp ha with rfl | ha
    · exact h.settled.length_le
    · exact h.bound a (by simpa [or_comm] using hsub a ha)
  · exact prefix_modify (h.settled.trans hpre) h.le_spare f

/-- Cutting behind `prev`, the last kept cell, takes the spare one off the list. -/
theorem cut {prev : Nat} (h : CellsAt snap m first s ks spare) (hatt : s.attached = true)
    (hprev : snap.length ≤ prev) (hne : prev ≠ spare) (hlast : ks = [] ∨ ∃ bs, ks = bs ++ [prev]) :
    CellsAt snap (m.modify prev (fun d => { d with nextIp := .null })) first
      { s with attached := s.kept.isEmpty, mode := .ended } ks spare := by
  let f := fun d : IPCell => { d with nextIp := .null }
  have hlist := h.list
  rw [if_pos hatt] at hlist
  refine ⟨?_, h.kept.modify_keep (f := f) (fun _ _ hd => hd) prev, ?_, h.apart, h.bound,
    prefix_modify h.settled hprev f⟩
  · rcases hlast with rfl | ⟨bs, rfl⟩
    · have hkept : s.kept = [] := List.forall₂_nil_left_iff.mp h.kept
      simp only [hkept, List.isEmpty_nil, if_true]
      exact hlist.sameLinks (SameLinks.modify _ (fun hmem => absurd (by simpa using hmem) hne))
    · have hkept : s.kept.isEmpty = false := by
        have hlen := h.kept.length_eq
        cases hs : s.kept with
        | nil => simp [hs] at hlen
        | cons d ds => rfl
      simp only [hkept, Bool.false_eq_true, if_false]
      have hnodup : (bs ++ [prev]).Nodup := (List.nodup_append.mp hlist.nodup).1
      obtain ⟨q, hfront, -⟩ := Seg.append_iff.mp hlist
      exact hfront.relink_last hnodup (fun _ => rfl)
  · obtain ⟨cell, hcell, hspare⟩ := h.spareCell
    exact ⟨cell, by rw [getElem?_modify_of_ne f hne.symm]; exact hcell, hspare⟩

/-- Cutting once more behind a cell that is the last of the list, or not on it. -/
theorem recut {prev : Nat} {cell : IPCell} (h : CellsAt snap m first s ks spare)
    (hcell : m[prev]? = some cell) (hprev : snap.length ≤ prev) (hne : prev ≠ spare)
    (hlast : prev ∈ ks → cell.nextIp = .null) :
    CellsAt snap (m.modify prev (fun d => { d with nextIp := .null })) first s ks spare := by
  let f := fun d : IPCell => { d with nextIp := .null }
  refine ⟨h.list.sameLinks (fun a ha d hd => ?_),
    h.kept.modify_keep (f := f) (fun _ _ hx => hx) prev, ?_, h.apart, h.bound,
    prefix_modify h.settled hprev f⟩
  · by_cases hap : a = prev
    · subst hap
      rw [hcell] at hd
      cases hd
      have hks : a ∈ ks := by
        split at ha
        · simpa [hne] using ha
        · exact ha
      exact ⟨f cell, getElem?_modify_same f hcell, (hlast hks).symm⟩
    · exact ⟨d, by rw [getElem?_modify_of_ne f hap]; exact hd, rfl⟩
  · obtain ⟨d, hd, hspare⟩ := h.spareCell
    exact ⟨d, by rw [getElem?_modify_of_ne f hne.symm]; exact hd, hspare⟩

end CellsAt

/-- `c'` differs from `c` in the IP cursors and their memory only. -/
def IpsMoved (c c' : Cursor) : Prop :=
  c' = { c with
    heap := { c.heap with ips := c'.heap.ips }, ipNew := c'.ipNew, ipHeader := c'.ipHeader }

theorem IpsMoved.trans {c c' c'' : Cursor} (h : IpsMoved c c') (h' : IpsMoved c' c'') :
    IpsMoved c c'' := by
  rw [IpsMoved, h] at h'
  exact h'

namespace SheetOn

variable {snap : Mem IPCell} {c : Cursor} {first : Ptr} {s : Sheet}

theorem settled (h : SheetOn snap c first s) : snap <+: c.heap.ips := by
  cases h with
  | shut _ _ _ settled => exact settled
  | cells h => exact h.cells.settled

theorem draftsAt (h : SheetOn snap c first s) : DraftsAt c.heap.ips first s.entries := by
  cases h with
  | shut _ _ hfirst _ => exact ⟨[], hfirst, .nil⟩
  | cells h => exact h.cells.draftsAt

theorem write (h : SheetOn snap c first s) {f : IPCell → IPCell} {g : Draft → Draft}
    (hlink : ∀ d, (f d).nextIp = d.nextIp) (hdraft : ∀ d, (f d).draft = g d.draft) :
    Follows (fun s c' => IpsMoved c c' ∧ SheetOn snap c' first s) (s.write g) (c.writeIpNew f) := by
  cases h with
  | shut hnew => exact ⟨.nullDeref, by rw [Cursor.writeIpNew, hnew]; rfl⟩
  | @cells _ ks spare h =>
    have hon : SheetAt snap { c with heap := { c.heap with ips := c.heap.ips.modify spare f } }
        first { s with spare := g s.spare } ks spare :=
      ⟨h.ipNewAt, h.cells.write hlink hdraft, h.header.write_spare f⟩
    have hwrite : s.write g = some { s with spare := g s.spare } := by
      have hheader := h.header
      unfold Sheet.write
      cases hmode : s.mode with
      | shut =>
        rw [hmode] at hheader
        cases hheader
      | growing => rfl
      | ended => rfl
      | lost => rfl
    rw [hwrite]
    exact ⟨_, Cursor.writeIpNew_eq h.ipNewAt h.cells.spare_lt f, rfl, .cells hon⟩

theorem next (h : SheetOn snap c first s) :
    Follows (fun s c' => IpsMoved c c' ∧ SheetOn snap c' first s) s.next c.nextIp := by
  cases h with
  | shut _ hheader => exact ⟨.nullDeref, by rw [Cursor.nextIp, hheader]; rfl⟩
  | @cells _ ks spare h =>
    let f := fun d : IPCell => { d with nextIp := .addr c.heap.ips.length }
    have hrun : ∀ {cell : IPCell}, load c.heap.ips c.ipHeader = .ok cell → c.nextIp = .ok _ :=
      Cursor.nextIp_eq h.ipNewAt h.cells.spare_lt
    have hcells := h.cells.next
    have hheader := h.header
    have hbound := h.cells.le_spare
    unfold Sheet.next
    generalize hp : c.ipHeader = p at hheader hrun
    generalize ha : s.attached = att at hheader hcells
    cases hmode : s.mode with
    | shut =>
      rw [hmode] at hheader
      cases hheader
    | growing =>
      rw [hmode] at hheader
      cases hheader with
      | growing get link bound apart last =>
        refine ⟨_, hrun (load_addr get), rfl, .cells ⟨rfl, hcells _, ?_⟩⟩
        simp only [link]
        obtain ⟨cell, hcell, -⟩ := h.cells.spareCell
        have hgrown := getElem?_of_prefix (List.prefix_append c.heap.ips [IPCell.spare]) hcell
        exact .growing (getElem?_modify_same f hgrown) rfl hbound
          (Nat.ne_of_lt h.cells.spare_lt) (Or.inr ⟨ks, rfl⟩)
    | ended =>
      rw [hmode] at hheader
      cases hheader with
      | ended _ get link bound apart last =>
        exact ⟨_, hrun (load_addr get), rfl, .cells ⟨rfl, hcells _, .lost _ link⟩⟩
    | lost =>
      rw [hmode] at hheader
      cases hheader with
      | lost _ dead =>
        obtain ⟨e, he⟩ := dead.load c.heap.ips
        exact ⟨e, by rw [Cursor.nextIp, hp, he]; rfl⟩

theorem cut (h : SheetOn snap c first s) :
    Follows (fun s c' => IpsMoved c c' ∧ SheetOn snap c' first s) s.cut c.cutIps := by
  cases h with
  | shut _ hheader => exact ⟨.nullDeref, by rw [Cursor.cutIps, hheader]; rfl⟩
  | @cells _ ks spare h =>
    let f := fun d : IPCell => { d with nextIp := .null }
    have hheader := h.header
    unfold Sheet.cut
    generalize hp : c.ipHeader = p at hheader
    generalize ha : s.attached = att at hheader
    cases hmode : s.mode with
    | shut =>
      rw [hmode] at hheader
      cases hheader
    | growing =>
      rw [hmode] at hheader
      cases hheader with
      | @growing prev cell get link bound apart last =>
        have hcells := h.cells.cut ha bound apart last
        have hrun := Cursor.cutIps_eq hp (lt_of_getElem?_eq_some get)
        refine ⟨_, hrun, rfl, .cells ⟨h.ipNewAt, hcells, ?_⟩⟩
        rw [hp]
        exact .ended _ (getElem?_modify_same f get) (Or.inl rfl) bound apart (fun _ => rfl)
    | ended =>
      rw [hmode] at hheader
      cases hheader with
      | ended _ get link bound apart last =>
        have hcells := h.cells.recut get bound apart last
        have hrun := Cursor.cutIps_eq hp (lt_of_getElem?_eq_some get)
        refine ⟨_, hrun, rfl, .cells ⟨h.ipNewAt, hcells, ?_⟩⟩
        rw [hp, hmode]
        exact .ended _ (getElem?_modify_same f get) (Or.inl rfl) bound apart (fun _ => rfl)
    | lost =>
      rw [hmode] at hheader
      cases hheader with
      | lost _ dead =>
        obtain ⟨e, he⟩ := dead.update c.heap.ips f
        exact ⟨e, by rw [Cursor.cutIps, hp, he]; rfl⟩

/-- Where the IP cursors and their memory are the same, so is the sheet. -/
theorem congr (h : SheetOn snap c first s) {c' : Cursor} (hips : c'.heap.ips = c.heap.ips)
    (hnew : c'.ipNew = c.ipNew) (hheader : c'.ipHeader = c.ipHeader) : SheetOn snap c' first s := by
  cases h with
  | shut h₁ h₂ hfirst hsettled =>
    exact .shut (hnew.trans h₁) (hheader.trans h₂) hfirst (hips ▸ hsettled)
  | cells h =>
    refine .cells ⟨hnew.trans h.ipNewAt, hips ▸ h.cells, ?_⟩
    rw [hips, hheader]
    exact h.header

/-- `ip_list` leaves the old sheet as it is and opens a new one behind it. -/
theorem opened (m : Mem IPCell) (c : Cursor) :
    SheetOn m { c with
      heap := { c.heap with ips := m ++ [IPCell.spare,
        { IPCell.raw with nextIp := .addr m.length }] }
      ipNew := .addr m.length
      ipHeader := .addr (m.length + 1) } (.addr m.length) .opened := by
  have hspare : (m ++ [IPCell.spare, { IPCell.raw with nextIp := .addr m.length }])[m.length]? =
      some IPCell.spare := by simp
  have hheader :
      (m ++ [IPCell.spare, { IPCell.raw with nextIp := .addr m.length }])[m.length + 1]? =
      some { IPCell.raw with nextIp := .addr m.length } := by simp
  have hcells : CellsAt m (m ++ [IPCell.spare, { IPCell.raw with nextIp := .addr m.length }])
      (.addr m.length) .opened [] m.length :=
    ⟨⟨rfl, _, hspare, rfl⟩, .nil, ⟨_, hspare, rfl⟩, by simp, by simp, List.prefix_append _ _⟩
  exact .cells ⟨rfl, hcells, .growing hheader rfl (by omega) (by omega) (Or.inl rfl)⟩

end SheetOn

/-! ## All cursors -/

/-- The cell stands for the draft; `firsts` are the lists of the sheets. -/
structure NodeDraftAt (firsts : List Ptr) (c : NodeCell) (r : NodeDraft) : Prop where
  id : c.id = r.id
  nodeCount : c.nodeCount = r.nodeCount
  reliable : c.reliable = r.reliable
  ipList : match r.ipList with
    | none => c.ipList = .unassigned
    | some k => firsts[k]? = some c.ipList

theorem NodeDraftAt.relink {firsts : List Ptr} {c : NodeCell} {r : NodeDraft}
    (h : NodeDraftAt firsts c r) (p : Ptr) : NodeDraftAt firsts { c with nextNode := p } r :=
  ⟨h.id, h.nodeCount, h.reliable, h.ipList⟩

theorem NodeDraftAt.more {firsts : List Ptr} {c : NodeCell} {r : NodeDraft}
    (h : NodeDraftAt firsts c r) (p : Ptr) : NodeDraftAt (firsts ++ [p]) c r := by
  refine ⟨h.id, h.nodeCount, h.reliable, ?_⟩
  have hlist := h.ipList
  cases hr : r.ipList with
  | none =>
    rw [hr] at hlist
    exact hlist
  | some k =>
    rw [hr] at hlist
    exact getElem?_of_prefix (List.prefix_append _ _) hlist

/-- The cursors stand as the ledger says; `snap` is the memory of the closed sheets. -/
structure LedgerAt (base : Heap) (s : Ledger) (c : Cursor) (firsts : List Ptr) (first : Ptr)
    (snap : Mem IPCell) (cell : NodeCell) : Prop where
  strand : Strand (NodeDraftAt (firsts ++ [first])) base c s.done cell
  cur : NodeDraftAt (firsts ++ [first]) cell s.cur
  closed : List.Forall₂ (fun p t => DraftsAt snap p t.entries) firsts s.closed
  sheet : SheetOn snap c first s.sheet
  base_ips : base.ips <+: snap

def LedgerOn (base : Heap) (s : Ledger) (c : Cursor) : Prop :=
  ∃ firsts first snap cell, LedgerAt base s c firsts first snap cell

namespace LedgerOn

variable {base : Heap} {s : Ledger} {c : Cursor}

theorem writeNodeNew (h : LedgerOn base s c) {f : NodeCell → NodeCell} {cur : NodeDraft}
    (hf : ∀ firsts cell, NodeDraftAt firsts cell s.cur → NodeDraftAt firsts (f cell) cur) :
    ∃ c', c.writeNodeNew f = .ok c' ∧ LedgerOn base { s with cur := cur } c' := by
  obtain ⟨firsts, first, snap, cell, h⟩ := h
  obtain ⟨nodes, hrun, hstrand⟩ := h.strand.writeNodeNew f
  exact ⟨_, hrun, firsts, first, snap, f cell, hstrand, hf _ _ h.cur, h.closed,
    h.sheet.congr rfl rfl rfl, h.base_ips⟩

theorem nextNode (h : LedgerOn base s c) : ∃ c', c.nextNode = .ok c' ∧
    LedgerOn base { s with done := s.done ++ [s.cur], cur := .blank } c' := by
  obtain ⟨firsts, first, snap, cell, h⟩ := h
  obtain ⟨nodes, nodeNew, prev, hrun, hstrand⟩ := h.strand.nextNode (fun p => h.cur.relink p)
  exact ⟨_, hrun, firsts, first, snap, _, hstrand, ⟨rfl, rfl, rfl, rfl⟩, h.closed,
    h.sheet.congr rfl rfl rfl, h.base_ips⟩

/-- From `ip_list` on nothing writes to the sheets so far. -/
theorem openIps (h : LedgerOn base s c) : ∃ c', c.openIps = .ok c' ∧
    LedgerOn base { s with
      cur := { s.cur with ipList := some (s.closed.length + 1) }
      closed := s.closed ++ [s.sheet]
      sheet := .opened } c' := by
  obtain ⟨firsts, first, snap, cell, h⟩ := h
  let m := c.heap.ips
  let ips := m ++ [IPCell.spare, { IPCell.raw with nextIp := .addr m.length }]
  obtain ⟨nodes, hrun, hstrand⟩ :=
    (h.strand.with_ips ips (.addr m.length) (.addr (m.length + 1))).writeNodeNew
      (fun n => { n with ipList := .addr m.length })
  have hclosed := h.closed.imp (fun p t ht => ht.of_prefix h.sheet.settled)
  refine ⟨_, hrun, firsts ++ [first], .addr m.length, m, { cell with ipList := .addr m.length }, ?_,
    ⟨h.cur.id, h.cur.nodeCount, h.cur.reliable, ?_⟩,
    List.rel_append hclosed (.cons h.sheet.draftsAt .nil),
    (SheetOn.opened m c).congr rfl rfl rfl, h.base_ips.trans h.sheet.settled⟩
  · exact hstrand.mono (fun _ _ hr => hr.more (.addr m.length))
  · have hlen := h.closed.length_eq
    simp [hlen]

/-- A line about the sheet moves the IP cursors only. -/
theorem follows_sheet (h : LedgerOn base s c) {o : Option Sheet} {r : Result Cursor}
    (hsheet : ∀ snap first, SheetOn snap c first s.sheet →
      Follows (fun t c' => IpsMoved c c' ∧ SheetOn snap c' first t) o r) :
    Follows (LedgerOn base) (o.bind fun t => some { s with sheet := t }) r := by
  obtain ⟨firsts, first, snap, cell, h⟩ := h
  have hfollows := hsheet snap first h.sheet
  cases o with
  | none => exact hfollows
  | some t =>
    obtain ⟨c', hr, hmoved, ht⟩ := hfollows
    refine ⟨c', hr, firsts, first, snap, cell, ?_, h.cur, h.closed, ht, h.base_ips⟩
    rw [hmoved]
    exact h.strand.with_ips _ _ _

end LedgerOn

/-- Taking a field out of a line and writing it to `ip_new`. -/
theorem SheetOn.field {snap : Mem IPCell} {c : Cursor} {first : Ptr} {s : Sheet}
    (h : SheetOn snap c first s) {ρ : Type} (v : Result ρ) {f : ρ → IPCell → IPCell}
    {g : ρ → Draft → Draft} (hlink : ∀ a d, (f a d).nextIp = d.nextIp)
    (hdraft : ∀ a d, (f a d).draft = g a d.draft) :
    Follows (fun t c' => IpsMoved c c' ∧ SheetOn snap c' first t)
      (v.toOption.bind fun a => s.write (g a)) (v >>= fun a => c.writeIpNew (f a)) := by
  apply (Follows.toOption v).bind
  rintro a _ rfl
  exact h.write (hlink a) (hdraft a)

theorem SheetOn.validity {snap : Mem IPCell} {c : Cursor} {first : Ptr} {s : Sheet}
    (h : SheetOn snap c first s) (v : Result Int32) :
    Follows (fun t c' => IpsMoved c c' ∧ SheetOn snap c' first t)
      (s.exec (.validity v)) (c.exec (.validity v)) := by
  apply (Follows.toOption v).bind
  rintro a _ rfl
  have hwrite := h.write (f := fun d => { d with validity := some a })
    (g := fun d => { d with validity := some a }) (fun _ => rfl) (fun _ => rfl)
  apply hwrite.bind
  rintro t c' ⟨hmoved, ht⟩
  exact ht.next.mono (fun _ _ ⟨hmoved', hu⟩ => ⟨hmoved.trans hmoved', hu⟩)

/-- One line. -/
theorem LedgerOn.exec {base : Heap} (s : Ledger) (c : Cursor) (op : Op) (h : LedgerOn base s c) :
    Follows (LedgerOn base) (s.exec op) (c.exec op) := by
  cases op with
  | skip => exact ⟨c, rfl, h⟩
  | id v =>
    cases v with
    | error e => exact ⟨e, rfl⟩
    | ok v => exact h.writeNodeNew (fun _ _ hr => ⟨rfl, hr.nodeCount, hr.reliable, hr.ipList⟩)
  | nodeCount v =>
    cases v with
    | error e => exact ⟨e, rfl⟩
    | ok v => exact h.writeNodeNew (fun _ _ hr => ⟨hr.id, rfl, hr.reliable, hr.ipList⟩)
  | reliable v =>
    cases v with
    | error e => exact ⟨e, rfl⟩
    | ok v => exact h.writeNodeNew (fun _ _ hr => ⟨hr.id, hr.nodeCount, rfl, hr.ipList⟩)
  | ipListEnds => exact h.follows_sheet (fun _ _ ht => ht.cut)
  | ip v =>
    exact h.follows_sheet (fun _ _ ht => ht.field v (f := fun a d => { d with ip := some a })
      (g := fun a d => { d with ip := some a }) (fun _ _ => rfl) (fun _ _ => rfl))
  | type v =>
    exact h.follows_sheet (fun _ _ ht => ht.field v (f := fun a d => { d with type := some a })
      (g := fun a d => { d with type := some a }) (fun _ _ => rfl) (fun _ _ => rfl))
  | sCount v =>
    exact h.follows_sheet (fun _ _ ht => ht.field v (f := fun a d => { d with sCount := some a })
      (g := fun a d => { d with sCount := some a }) (fun _ _ => rfl) (fun _ _ => rfl))
  | validity v => exact h.follows_sheet (fun _ _ ht => ht.validity v)
  | ipList => exact h.openIps
  | endNode => exact h.nextNode

theorem LedgerOn.run {base : Heap} {s : Ledger} {c : Cursor} (h : LedgerOn base s c)
    (ops : List Op) : Follows (LedgerOn base) (s.run ops) (c.run ops) :=
  follows_foldlM LedgerOn.exec ops h

theorem ledgerOn_fileCursor (h : Heap) : LedgerOn h (.start .loose) (fileCursor h) := by
  refine ⟨[], .null, h.ips, NodeCell.raw, .fileCursor h, ⟨rfl, rfl, rfl, rfl⟩, .nil, ?_,
    List.prefix_rfl⟩
  have hspare : (h.ips ++ [IPCell.raw, IPCell.raw])[h.ips.length]? = some IPCell.raw := by simp
  have hheader : (h.ips ++ [IPCell.raw, IPCell.raw])[h.ips.length + 1]? = some IPCell.raw := by simp
  have hcells : CellsAt h.ips (h.ips ++ [IPCell.raw, IPCell.raw]) .null .loose [] h.ips.length :=
    ⟨rfl, .nil, ⟨_, hspare, rfl⟩, by simp, by simp, List.prefix_append _ _⟩
  exact .cells ⟨rfl, hcells, .ended _ hheader (Or.inr rfl) (by omega) (by omega) (by simp)⟩

theorem ledgerOn_bufCursor (h : Heap) : LedgerOn h (.start .shut) (bufCursor h) :=
  ⟨[], .null, h.ips, NodeCell.raw, .bufCursor h, ⟨rfl, rfl, rfl, rfl⟩, .nil,
    .shut rfl rfl rfl List.prefix_rfl, List.prefix_rfl⟩

/-! ## The list that is returned -/

theorem IPCell.holds_iff {c : IPCell} {x : IP} : c.Holds x ↔ c.draft = x.draft := by
  constructor
  · intro h
    rw [IPCell.draft, IP.draft, h.ip, h.type, h.sCount, h.validity]
  · intro h
    simp only [IPCell.draft, IP.draft, Draft.mk.injEq] at h
    exact ⟨h.1, h.2.1, h.2.2.1, h.2.2.2⟩

/-- The entries of a list say everything about the values its cells stand for. -/
theorem DraftsAt.contents_iff {m : Mem IPCell} {p : Ptr} {ds : List Draft} (h : DraftsAt m p ds)
    {β : Type} {Q : Draft → β → Prop} {xs : List β} :
    (∃ as, Seg IPCell.nextIp m p as .null ∧ Contents (fun c x => Q c.draft x) m as xs) ↔
      List.Forall₂ Q ds xs := by
  obtain ⟨as, hlinks, hcont⟩ := h
  constructor
  · rintro ⟨bs, hlinks', hcont'⟩
    obtain rfl := hlinks.unique hlinks'
    refine hcont.zip hcont' ?_
    rintro c _ x rfl hx
    exact hx
  · intro hds
    refine ⟨as, hlinks, hcont.rel hds ?_⟩
    rintro c _ x rfl hx
    exact hx

theorem forall₂_draft_iff {ds : List Draft} {xs : List IP} :
    List.Forall₂ (fun d x => d = x.draft) ds xs ↔ ds = xs.map IP.draft := by
  rw [← List.forall₂_map_right_iff (R := fun d e => d = e), List.forall₂_eq_eq_eq]

/-- The cell stands for the draft, its IPs for the entries of the sheet. -/
structure NodeCell.HoldsDraft (s : Ledger) (ips : Mem IPCell) (c : NodeCell) (r : NodeDraft) :
    Prop where
  id : c.id = r.id
  nodeCount : c.nodeCount = r.nodeCount
  reliable : c.reliable = r.reliable
  ipList : match r.ipList with
    | none => c.ipList = .unassigned
    | some k => ∃ ds, s.Shows k ds ∧ DraftsAt ips c.ipList ds

theorem NodeCell.HoldsDraft.ipList_iff {s : Ledger} {ips : Mem IPCell} {c : NodeCell}
    {r : NodeDraft} (h : c.HoldsDraft s ips r) {β : Type} {Q : Draft → β → Prop} {xs : List β} :
    (∃ as, Seg IPCell.nextIp ips c.ipList as .null ∧ Contents (fun d x => Q d.draft x) ips as xs) ↔
      ∃ k t, r.ipList = some k ∧ s.sheets[k]? = some t ∧ List.Forall₂ Q t.entries xs := by
  have hlist := h.ipList
  cases hr : r.ipList with
  | none =>
    rw [hr] at hlist
    constructor
    · rintro ⟨as, hlinks, -⟩
      rw [hlist] at hlinks
      cases as with
      | nil => cases hlinks
      | cons a as => exact absurd hlinks.1 nofun
    · rintro ⟨k, t, hk, -⟩
      cases hk
  | some k =>
    rw [hr] at hlist
    obtain ⟨ds, ⟨t, ht, rfl⟩, hds⟩ := hlist
    rw [hds.contents_iff]
    constructor
    · exact fun hQ => ⟨k, t, rfl, ht, hQ⟩
    · rintro ⟨k', t', hk, ht', hQ⟩
      cases hk
      rw [ht] at ht'
      cases ht'
      exact hQ

theorem NodeCell.HoldsDraft.holds_iff {s : Ledger} {ips : Mem IPCell} {c : NodeCell}
    {r : NodeDraft} (h : c.HoldsDraft s ips r) (n : Node) : c.Holds ips n ↔ s.Is r n := by
  have hips : IpsAt ips c.ipList n.ipList ↔
      ∃ k, r.ipList = some k ∧ s.Shows k (n.ipList.map IP.draft) := by
    have hholds : IPCell.Holds = fun c x => c.draft = IP.draft x := by
      funext c x
      exact propext IPCell.holds_iff
    rw [IpsAt, hholds, h.ipList_iff (Q := fun d x => d = IP.draft x)]
    simp only [forall₂_draft_iff, Ledger.Shows, exists_and_left]
  constructor
  · intro hn
    exact ⟨h.id ▸ hn.id, h.nodeCount ▸ hn.nodeCount, h.reliable ▸ hn.reliable, hips.mp hn.ipList⟩
  · intro hn
    exact ⟨h.id.trans hn.id, h.nodeCount.trans hn.nodeCount, h.reliable.trans hn.reliable,
      hips.mpr hn.ipList⟩

/-- The decoder returned the records that are done, in fresh cells. -/
structure Returns (s : Ledger) (base h : Heap) (p : Ptr) (as : List Nat) : Prop where
  links : Seg NodeCell.nextNode h.nodes p as .null
  contents : Contents (NodeCell.HoldsDraft s h.ips) h.nodes as s.done
  ext : base.Extends h
  fresh : ∀ a ∈ as, base.nodes.length ≤ a

theorem LedgerOn.finish {base : Heap} {s : Ledger} {c : Cursor} (h : LedgerOn base s c) :
    ∃ h' p as, c.finish = .ok (h', p) ∧ Returns s base h' p as := by
  obtain ⟨firsts, first, snap, cell, h⟩ := h
  obtain ⟨nodes, p, as, hrun, hlinks, hcont, hnodes, hfresh⟩ :=
    h.strand.finish (fun _ _ p hr => hr.relink p)
  refine ⟨_, p, as, hrun, hlinks, hcont.mono (fun d r hr => ?_),
    ⟨h.base_ips.trans h.sheet.settled, hnodes⟩, hfresh⟩
  refine ⟨hr.id, hr.nodeCount, hr.reliable, ?_⟩
  have hsheets : List.Forall₂ (fun p t => DraftsAt c.heap.ips p t.entries) (firsts ++ [first])
      s.sheets :=
    List.rel_append (h.closed.imp (fun p t ht => ht.of_prefix h.sheet.settled))
      (.cons h.sheet.draftsAt .nil)
  have hlist := hr.ipList
  cases hk : r.ipList with
  | none =>
    rw [hk] at hlist
    exact hlist
  | some k =>
    rw [hk] at hlist
    obtain ⟨t, ht, hds⟩ := forall₂_getElem?_left hsheets hlist
    exact ⟨_, ⟨t, ht, rfl⟩, hds⟩

/-- The records say everything about what the node cells stand for. -/
theorem Returns.contents_iff {s : Ledger} {base h : Heap} {p : Ptr} {as : List Nat}
    (hr : Returns s base h p as) {β : Type} {P : NodeCell → β → Prop} {Q : NodeDraft → β → Prop}
    (hPQ : ∀ c r, c.HoldsDraft s h.ips r → ∀ x, P c x ↔ Q r x) {xs : List β} :
    (∃ bs, Seg NodeCell.nextNode h.nodes p bs .null ∧ Contents P h.nodes bs xs) ↔
      List.Forall₂ Q s.done xs := by
  constructor
  · rintro ⟨bs, hlinks, hcont⟩
    obtain rfl := hr.links.unique hlinks
    exact hr.contents.zip hcont (fun c r x hd hx => (hPQ c r hd x).mp hx)
  · intro hxs
    exact ⟨as, hr.links, hr.contents.rel hxs (fun c r x hd hx => (hPQ c r hd x).mpr hx)⟩

theorem Returns.nodesAt_iff {s : Ledger} {base h : Heap} {p : Ptr} {as : List Nat}
    (hr : Returns s base h p as) {l : List Node} : NodesAt h p l ↔ List.Forall₂ s.Is s.done l := by
  rw [← hr.contents_iff (fun c r hd n => hd.holds_iff n)]
  constructor
  · rintro ⟨bs, hon⟩
    exact ⟨bs, hon.links, hon.contents⟩
  · rintro ⟨bs, hlinks, hcont⟩
    exact ⟨bs, hlinks, hcont⟩

end VpnP2p.NodeInfo
