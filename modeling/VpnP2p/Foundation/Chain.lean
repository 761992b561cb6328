import Mathlib.Data.List.Basic
import Mathlib.Data.List.Forall2
import Mathlib.Data.List.Nodup
import Mathlib.Data.List.Perm.Basic
import Mathlib.Data.List.Range
import VpnP2p.Foundation.Outcome

/-!
# Linked chains in a memory of cells

A memory holds cells of one struct type; the address of a cell is its index and
`malloc` adds a cell at the end. `Seg next m p as q` says that following the link
field `next` from `p` visits the addresses `as` and arrives at `q`; with `q` NULL it
is a NULL-terminated list. A NULL-terminated list is determined by its head, visits
no cell twice and is no longer than the memory, so a loop over it ends.
-/

namespace VpnP2p.Foundation

/-- A pointer value; a pointer nobody assigned is not a value one may use. -/
inductive Ptr where
  | unassigned
  | null
  | addr (a : Nat)
deriving DecidableEq, Repr

abbrev Mem (α : Type) := List α

/-- The value of a field, if anybody wrote it. -/
def assigned {α : Type} : Option α → Result α
  | none => .error .unassigned
  | some v => .ok v

@[simp] theorem assigned_some {α : Type} (v : α) : assigned (some v) = .ok v := rfl

theorem assigned_eq_ok {α : Type} {o : Option α} {v : α} : assigned o = .ok v ↔ o = some v := by
  cases o <;> simp [assigned]

section Memory

variable {α : Type}

/-- `*p`. -/
def load (m : Mem α) : Ptr → Result α
  | .unassigned => .error .unassigned
  | .null => .error .nullDeref
  | .addr a => (m[a]?).elim (.error .outOfBounds) .ok

/-- `*p = f(*p)`: how the fields of a cell are written. -/
def update (m : Mem α) (p : Ptr) (f : α → α) : Result (Mem α) :=
  match p with
  | .unassigned => .error .unassigned
  | .null => .error .nullDeref
  | .addr a => if a < m.length then .ok (m.modify a f) else .error .outOfBounds

theorem load_addr {m : Mem α} {a : Nat} {c : α} (h : m[a]? = some c) :
    load m (.addr a) = .ok c := by
  simp [load, h]

theorem load_eq_ok {m : Mem α} {p : Ptr} {c : α} :
    load m p = .ok c ↔ ∃ a, p = .addr a ∧ m[a]? = some c := by
  cases p with
  | unassigned => simp [load]
  | null => simp [load]
  | addr a => cases h : m[a]? <;> simp [load, h]

theorem update_addr {m : Mem α} {a : Nat} (h : a < m.length) (f : α → α) :
    update m (.addr a) f = .ok (m.modify a f) := by
  simp [update, h]

theorem update_eq_ok {m m' : Mem α} {p : Ptr} {f : α → α} :
    update m p f = .ok m' ↔ ∃ a, p = .addr a ∧ a < m.length ∧ m' = m.modify a f := by
  cases p with
  | unassigned => simp [update]
  | null => simp [update]
  | addr a => by_cases h : a < m.length <;> simp [update, h, eq_comm]

theorem getElem?_modify_of_ne {m : Mem α} {a b : Nat} (f : α → α) (h : b ≠ a) :
    (m.modify a f)[b]? = m[b]? := by
  exact List.getElem?_modify_ne f m (Ne.symm h)

theorem getElem?_modify_same {m : Mem α} {a : Nat} {c : α} (f : α → α) (h : m[a]? = some c) :
    (m.modify a f)[a]? = some (f c) := by
  simp [h]

theorem lt_of_getElem?_eq_some {m : Mem α} {a : Nat} {c : α} (h : m[a]? = some c) :
    a < m.length := (List.getElem?_eq_some_iff.mp h).1

theorem getElem?_of_prefix {m m' : Mem α} (h : m <+: m') {a : Nat} {c : α}
    (hc : m[a]? = some c) : m'[a]? = some c := by
  obtain ⟨r, rfl⟩ := h
  rw [List.getElem?_append_left (lt_of_getElem?_eq_some hc)]
  exact hc

/-- A write behind a prefix of the memory leaves the prefix alone. -/
theorem prefix_modify {m m' : Mem α} (h : m <+: m') {a : Nat} (ha : m.length ≤ a) (f : α → α) :
    m <+: m'.modify a f := by
  rw [List.prefix_iff_eq_take] at h ⊢
  rw [List.take_modify, ← h, List.modify_eq_self ha]

theorem modify_concat (m : Mem α) (c : α) (f : α → α) :
    (m ++ [c]).modify m.length f = m ++ [f c] := by
  induction m with
  | nil => rfl
  | cons d m ih =>
    rw [List.cons_append, List.length_cons, List.modify_succ_cons, ih]
    rfl

theorem modify_append_left (l r : List α) {b : Nat} (hb : b < l.length) (f : α → α) :
    (l ++ r).modify b f = l.modify b f ++ r := by
  induction l generalizing b with
  | nil => cases hb
  | cons c l ih =>
    cases b with
    | zero => rfl
    | succ b =>
      rw [List.cons_append, List.modify_succ_cons, List.modify_succ_cons,
        ih (Nat.lt_of_succ_lt_succ hb), List.cons_append]

end Memory

/-! ## Segments -/

section Segment

variable {α : Type} (next : α → Ptr)

/-- Following `next` from `p` visits exactly `as` and arrives at `q`. -/
def Seg (m : Mem α) : Ptr → List Nat → Ptr → Prop
  | p, [], q => p = q
  | p, a :: as, q => p = .addr a ∧ ∃ c, m[a]? = some c ∧ Seg m (next c) as q

/-- The two memories have the same link field in every cell of `as`. -/
def SameLinks (as : List Nat) (m m' : Mem α) : Prop :=
  ∀ a ∈ as, ∀ c, m[a]? = some c → ∃ c', m'[a]? = some c' ∧ next c' = next c

variable {next}

theorem SameLinks.mono {as bs : List Nat} {m m' : Mem α} (h : SameLinks next as m m')
    (hsub : ∀ a ∈ bs, a ∈ as) : SameLinks next bs m m' :=
  fun a ha => h a (hsub a ha)

theorem SameLinks.refl (as : List Nat) (m : Mem α) : SameLinks next as m m :=
  fun _ _ c hc => ⟨c, hc, rfl⟩

theorem SameLinks.of_prefix (as : List Nat) {m m' : Mem α} (h : m <+: m') :
    SameLinks next as m m' :=
  fun _ _ c hc => ⟨c, getElem?_of_prefix h hc, rfl⟩

/-- Writing cells outside the list, or fields other than the link, keeps the links. -/
theorem SameLinks.modify {as : List Nat} (m : Mem α) {a : Nat} {f : α → α}
    (h : a ∈ as → ∀ c, next (f c) = next c) : SameLinks next as m (m.modify a f) := by
  intro b hb c hc
  by_cases hba : b = a
  · subst hba
    exact ⟨f c, getElem?_modify_same f hc, h hb c⟩
  · exact ⟨c, by rw [getElem?_modify_of_ne f hba]; exact hc, rfl⟩

theorem Seg.sameLinks {m m' : Mem α} {p q : Ptr} {as : List Nat} (h : Seg next m p as q)
    (hlinks : SameLinks next as m m') : Seg next m' p as q := by
  induction as generalizing p with
  | nil => exact h
  | cons a as ih =>
    obtain ⟨rfl, c, hc, hrest⟩ := h
    obtain ⟨c', hc', hnext⟩ := hlinks a (by simp) c hc
    refine ⟨rfl, c', hc', ?_⟩
    rw [hnext]
    exact ih hrest (hlinks.mono (fun b hb => by simp [hb]))

theorem Seg.append_iff {m : Mem α} {p r : Ptr} {as bs : List Nat} :
    Seg next m p (as ++ bs) r ↔ ∃ q, Seg next m p as q ∧ Seg next m q bs r := by
  induction as generalizing p with
  | nil => simp [Seg]
  | cons a as ih =>
    simp only [List.cons_append, Seg, ih]
    constructor
    · rintro ⟨rfl, c, hc, q, hq, hr⟩
      exact ⟨q, ⟨rfl, c, hc, hq⟩, hr⟩
    · rintro ⟨q, ⟨rfl, c, hc, hq⟩, hr⟩
      exact ⟨rfl, c, hc, q, hq, hr⟩

theorem Seg.lt_length {m : Mem α} {p q : Ptr} {as : List Nat} (h : Seg next m p as q) :
    ∀ a ∈ as, a < m.length := by
  induction as generalizing p with
  | nil => simp
  | cons a as ih =>
    obtain ⟨rfl, c, hc, hrest⟩ := h
    intro b hb
    rcases List.mem_cons.mp hb with rfl | hb
    · exact lt_of_getElem?_eq_some hc
    · exact ih hrest b hb

/-- A list that starts at a cell goes on behind it. -/
theorem Seg.behind_head {m : Mem α} {as : List Nat} {a : Nat} {c : α}
    (h : Seg next m (.addr a) as .null) (hc : m[a]? = some c) :
    ∃ bs, as = a :: bs ∧ Seg next m (next c) bs .null := by
  cases as with
  | nil => cases h
  | cons b bs =>
    obtain ⟨hb, c', hc', hrest⟩ := h
    cases hb
    rw [hc] at hc'
    cases hc'
    exact ⟨bs, rfl, hrest⟩

/-- A NULL-terminated list is determined by its head. -/
theorem Seg.unique {m : Mem α} {p : Ptr} {as bs : List Nat} (ha : Seg next m p as .null)
    (hb : Seg next m p bs .null) : as = bs := by
  induction as generalizing p bs with
  | nil =>
    cases bs with
    | nil => rfl
    | cons b bs =>
      obtain ⟨hp, -⟩ := hb
      rw [show p = .null from ha] at hp
      cases hp
  | cons a as ih =>
    obtain ⟨rfl, c, hc, hrest⟩ := ha
    obtain ⟨bs', rfl, hrest'⟩ := hb.behind_head hc
    rw [ih hrest hrest']

/-- A NULL-terminated list visits no cell twice. -/
theorem Seg.nodup {m : Mem α} {p : Ptr} {as : List Nat} (h : Seg next m p as .null) :
    as.Nodup := by
  induction as generalizing p with
  | nil => exact List.nodup_nil
  | cons a as ih =>
    obtain ⟨rfl, c, hc, hrest⟩ := h
    refine List.nodup_cons.mpr ⟨?_, ih hrest⟩
    intro hmem
    -- From the second visit on, the list would have to be its own proper tail.
    obtain ⟨before, after, rfl⟩ := List.append_of_mem hmem
    obtain ⟨q, -, hq⟩ := Seg.append_iff.mp hrest
    obtain ⟨rfl, c', hc', hafter⟩ := hq
    rw [hc] at hc'
    cases hc'
    have hlen := congrArg List.length (hrest.unique hafter)
    simp only [List.length_append, List.length_cons] at hlen
    omega

theorem Seg.length_le {m : Mem α} {p : Ptr} {as : List Nat} (h : Seg next m p as .null) :
    as.length ≤ m.length := by
  have hsub : as ⊆ List.range m.length := fun a ha => List.mem_range.mpr (h.lt_length a ha)
  simpa using (List.subperm_of_subset h.nodup hsub).length_le

/-- Relinking the last cell moves the end of the segment. -/
theorem Seg.relink_last {m : Mem α} {p q r : Ptr} {as : List Nat} {a : Nat} {f : α → α}
    (h : Seg next m p (as ++ [a]) q) (hnodup : (as ++ [a]).Nodup) (hf : ∀ c, next (f c) = r) :
    Seg next (m.modify a f) p (as ++ [a]) r := by
  have hnot : a ∉ as := fun hmem => (List.nodup_append.mp hnodup).2.2 a hmem a (by simp) rfl
  obtain ⟨t, has, rfl, c, hc, -⟩ := Seg.append_iff.mp h
  refine Seg.append_iff.mpr ⟨.addr a, has.sameLinks ?_, rfl, f c, getElem?_modify_same f hc, hf c⟩
  exact SameLinks.modify m (fun hmem => absurd hmem hnot)

/-- A cell leaves the list when the one in front of it is linked to the one behind it. -/
theorem Seg.unlink {m : Mem α} {p : Ptr} {as bs : List Nat} {a b : Nat} {c : α} {f : α → α}
    (h : Seg next m p ((as ++ [a]) ++ b :: bs) .null) (hc : m[b]? = some c)
    (hf : ∀ d, next (f d) = next c) : Seg next (m.modify a f) p ((as ++ [a]) ++ bs) .null := by
  obtain ⟨hfrontNodup, -, hdisj⟩ := List.nodup_append.mp h.nodup
  have hbehind : a ∉ bs := fun ha => hdisj a (by simp) a (by simp [ha]) rfl
  obtain ⟨q, hfront, rfl, c', hc', hback⟩ := Seg.append_iff.mp h
  rw [hc] at hc'
  cases hc'
  refine Seg.append_iff.mpr ⟨next c, hfront.relink_last hfrontNodup hf, hback.sameLinks ?_⟩
  exact SameLinks.modify m (fun hmem => absurd hmem hbehind)

end Segment

/-! ## Loops over a list -/

section Loop

variable {α σ : Type} (cells : σ → Mem α) (next : α → Ptr) (body : Nat → σ → Result σ)

/-- `for (p = head; p != NULL; p = p->next) body`, where the loop's state holds the
memory; more rounds than `fuel` count as an endless loop. -/
def forChain : Nat → Ptr → σ → Result σ
  | 0, _, _ => .error .diverges
  | _ + 1, .unassigned, _ => .error .unassigned
  | _ + 1, .null, s => .ok s
  | fuel + 1, .addr a, s => do
    let s ← body a s
    let c ← load (cells s) (.addr a)
    forChain fuel (next c) s

variable {cells next body}

/-- As long as the body does not relink the list, the loop is a fold over its cells. -/
theorem forChain_eq_foldlM (J : σ → Prop) {p : Ptr} {as : List Nat} {s : σ} {fuel : Nat}
    (hSeg : Seg next (cells s) p as .null) (hFuel : as.length < fuel) (hJ : J s)
    (hBody : ∀ a ∈ as, ∀ t t', J t → body a t = .ok t' →
      J t' ∧ SameLinks next as (cells t) (cells t')) :
    forChain cells next body fuel p s = as.foldlM (fun t a => body a t) s := by
  induction as generalizing p s fuel with
  | nil =>
    cases fuel with
    | zero => omega
    | succ fuel =>
      rw [show p = .null from hSeg]
      rfl
  | cons a as ih =>
    cases fuel with
    | zero => omega
    | succ fuel =>
      simp only [List.length_cons] at hFuel
      have hp : p = .addr a := hSeg.1
      subst hp
      rw [forChain, List.foldlM_cons]
      cases hRun : body a s with
      | error e => rfl
      | ok t =>
        obtain ⟨hJt, hlinks⟩ := hBody a (by simp) s t hJ hRun
        obtain ⟨-, c, hc, hrest⟩ := hSeg.sameLinks hlinks
        simp only [ok_bind, load_addr hc]
        apply ih hrest (by omega) hJt
        intro b hb u u' hu hub
        obtain ⟨hJ', hlinks'⟩ := hBody b (by simp [hb]) u u' hu hub
        exact ⟨hJ', hlinks'.mono (fun d hd => by simp [hd])⟩

/-- A loop over a memory that its body only reads. -/
theorem forChain_read_eq_foldlM {m : Mem α} {p : Ptr} {as : List Nat} {s : σ} {fuel : Nat}
    (hSeg : Seg next m p as .null) (hFuel : as.length < fuel) :
    forChain (fun _ => m) next body fuel p s = as.foldlM (fun t a => body a t) s := by
  apply forChain_eq_foldlM (fun _ => True) hSeg hFuel trivial
  exact fun _ _ _ _ _ _ => ⟨trivial, SameLinks.refl _ _⟩

/-- Where such a loop ends, it went over a NULL-terminated list. -/
theorem seg_of_forChain_read {m : Mem α} {p : Ptr} {s s' : σ} {fuel : Nat}
    (h : forChain (fun _ => m) next body fuel p s = .ok s') :
    ∃ as, Seg next m p as .null ∧ as.foldlM (fun t a => body a t) s = .ok s' := by
  induction fuel generalizing p s with
  | zero => cases h
  | succ fuel ih =>
    cases p with
    | unassigned => cases h
    | null =>
      cases h
      exact ⟨[], rfl, rfl⟩
    | addr a =>
      rw [forChain] at h
      obtain ⟨t, hRun, h⟩ := bind_eq_ok.mp h
      obtain ⟨c, hload, h⟩ := bind_eq_ok.mp h
      obtain ⟨b, hb, hc⟩ := load_eq_ok.mp hload
      cases hb
      obtain ⟨as, hSeg, hFold⟩ := ih h
      exact ⟨a :: as, ⟨rfl, c, hc, hSeg⟩, by rw [List.foldlM_cons, hRun]; exact hFold⟩

/-- With as many rounds as there are cells, the loop over a memory that is only read
ends exactly when the list is NULL-terminated and the fold over its cells ends. -/
theorem forChain_read_eq_ok {m : Mem α} {p : Ptr} {s s' : σ} :
    forChain (fun _ => m) next body (m.length + 1) p s = .ok s' ↔
      ∃ as, Seg next m p as .null ∧ as.foldlM (fun t a => body a t) s = .ok s' := by
  constructor
  · exact seg_of_forChain_read
  · rintro ⟨as, hSeg, hFold⟩
    rw [forChain_read_eq_foldlM hSeg (Nat.lt_succ_of_le hSeg.length_le)]
    exact hFold

end Loop

/-! ## Lists related item by item -/

section Forall₂

variable {α β : Type} {R : α → β → Prop} {xs : List α} {ys : List β}

theorem forall₂_getElem?_left (h : List.Forall₂ R xs ys) {k : Nat} {x : α}
    (hx : xs[k]? = some x) : ∃ y, ys[k]? = some y ∧ R x y := by
  induction h generalizing k with
  | nil => simp at hx
  | cons hxy _ ih =>
    cases k with
    | zero =>
      cases hx
      exact ⟨_, rfl, hxy⟩
    | succ k => exact ih hx

theorem forall₂_getElem?_right (h : List.Forall₂ R xs ys) {k : Nat} {y : β}
    (hy : ys[k]? = some y) : ∃ x, xs[k]? = some x ∧ R x y := forall₂_getElem?_left h.flip hy

theorem forall₂_mem_left (h : List.Forall₂ R xs ys) {x : α} (hx : x ∈ xs) : ∃ y ∈ ys, R x y := by
  obtain ⟨k, hk⟩ := List.mem_iff_getElem?.mp hx
  obtain ⟨y, hy, hxy⟩ := forall₂_getElem?_left h hk
  exact ⟨y, List.mem_of_getElem? hy, hxy⟩

theorem forall₂_mem_right (h : List.Forall₂ R xs ys) {y : β} (hy : y ∈ ys) : ∃ x ∈ xs, R x y :=
  forall₂_mem_left h.flip hy

/-- A list of values that stand for the items, one by one. -/
theorem exists_forall₂_iff :
    (∃ ys, List.Forall₂ R xs ys) ↔ ∀ x ∈ xs, ∃ y, R x y := by
  induction xs with
  | nil => exact ⟨fun _ => by simp, fun _ => ⟨[], .nil⟩⟩
  | cons x xs ih =>
    rw [List.forall_mem_cons]
    constructor
    · rintro ⟨ys, hys⟩
      cases hys with
      | @cons _ y _ ys hy hys => exact ⟨⟨y, hy⟩, ih.mp ⟨ys, hys⟩⟩
    · rintro ⟨⟨y, hy⟩, hxs⟩
      obtain ⟨ys, hys⟩ := ih.mpr hxs
      exact ⟨y :: ys, .cons hy hys⟩

/-- A relation that comes down to the second items. -/
theorem forall₂_iff_forall {Q : α → β → Prop} {S : β → Prop} (h : List.Forall₂ R xs ys)
    (hQ : ∀ x y, R x y → (Q x y ↔ S y)) : List.Forall₂ Q xs ys ↔ ∀ y ∈ ys, S y := by
  induction h with
  | nil => simp
  | cons hxy _ ih => rw [List.forall₂_cons, List.forall_mem_cons, hQ _ _ hxy, ih]

end Forall₂

/-! ## Contents -/

section Contents

variable {α β : Type}

/-- The cells `as` hold the values `xs`, in order. -/
def Contents (holds : α → β → Prop) (m : Mem α) (as : List Nat) (xs : List β) : Prop :=
  List.Forall₂ (fun a x => ∃ c, m[a]? = some c ∧ holds c x) as xs

variable {holds holds' : α → β → Prop} {m m' : Mem α} {as bs : List Nat} {xs ys : List β}

/-- The first cell of a list holds the first value. -/
theorem Seg.first_cell {next : α → Ptr} {p q : Ptr} {a : Nat} {x : β}
    (h : Seg next m p (a :: as) q) (ha : ∃ c, m[a]? = some c ∧ holds c x) :
    p = .addr a ∧ ∃ c, m[a]? = some c ∧ holds c x ∧ Seg next m (next c) as q := by
  obtain ⟨hp, c, hc, hrest⟩ := h
  obtain ⟨c', hc', hx⟩ := ha
  rw [hc] at hc'
  cases hc'
  exact ⟨hp, c, hc, hx, hrest⟩

theorem Contents.transport (h : Contents holds m as xs)
    (hcells : ∀ a ∈ as, ∀ c x, m[a]? = some c → holds c x →
      ∃ c', m'[a]? = some c' ∧ holds' c' x) : Contents holds' m' as xs := by
  induction h with
  | nil => exact .nil
  | @cons a x as xs hax _ ih =>
    obtain ⟨c, hc, hx⟩ := hax
    exact .cons (hcells a (by simp) c x hc hx) (ih (fun b hb => hcells b (by simp [hb])))

theorem Contents.mono (h : Contents holds m as xs) (hholds : ∀ c x, holds c x → holds' c x) :
    Contents holds' m as xs :=
  h.transport (fun _ _ c x hc hx => ⟨c, hc, hholds c x hx⟩)

theorem Contents.of_prefix (h : Contents holds m as xs) (hpre : m <+: m') :
    Contents holds m' as xs :=
  h.transport (fun _ _ c _ hc hx => ⟨c, getElem?_of_prefix hpre hc, hx⟩)

theorem Contents.modify_other (h : Contents holds m as xs) {a : Nat} (ha : a ∉ as) (f : α → α) :
    Contents holds (m.modify a f) as xs := by
  refine h.transport (fun b hb c _ hc hx => ⟨c, ?_, hx⟩)
  have hne : b ≠ a := by
    rintro rfl
    exact ha hb
  rw [getElem?_modify_of_ne f hne]
  exact hc

/-- A write that leaves the value of a cell alone, such as one to its link. -/
theorem Contents.modify_keep (h : Contents holds m as xs) {f : α → α}
    (hf : ∀ c x, holds c x → holds (f c) x) (a : Nat) : Contents holds (m.modify a f) as xs := by
  apply h.transport
  intro b _ c x hc hx
  by_cases hba : b = a
  · subst hba
    exact ⟨f c, getElem?_modify_same f hc, hf c x hx⟩
  · exact ⟨c, by rw [getElem?_modify_of_ne f hba]; exact hc, hx⟩

theorem Contents.append (h : Contents holds m as xs) (h' : Contents holds m bs ys) :
    Contents holds m (as ++ bs) (xs ++ ys) := List.rel_append h h'

/-- The cells of a list that is split at an item. -/
theorem Contents.split {x : β} (h : Contents holds m as (xs ++ x :: ys)) :
    ∃ as₁ a as₂, as = as₁ ++ a :: as₂ ∧ Contents holds m as₁ xs ∧
      (∃ c, m[a]? = some c ∧ holds c x) ∧ Contents holds m as₂ ys := by
  have hfront := List.forall₂_take_append as xs (x :: ys) h
  have hback := List.forall₂_drop_append as xs (x :: ys) h
  obtain ⟨a, as₂, ha, has₂, hdrop⟩ := List.forall₂_cons_right_iff.mp hback
  exact ⟨as.take xs.length, a, as₂, by rw [← hdrop, List.take_append_drop], hfront, ha, has₂⟩

theorem Contents.unique (hholds : ∀ c x y, holds c x → holds c y → x = y)
    (h : Contents holds m as xs) (h' : Contents holds m as ys) : xs = ys := by
  induction h generalizing ys with
  | nil =>
    cases h'
    rfl
  | cons hax _ ih =>
    obtain ⟨c, hc, hx⟩ := hax
    cases h' with
    | cons hay htail =>
      obtain ⟨c', hc', hy⟩ := hay
      rw [hc] at hc'
      cases hc'
      rw [hholds c _ _ hx hy, ih htail]

/-- The same cells, seen in two ways. -/
theorem Contents.zip {γ : Type} {zs : List γ} {seen : α → γ → Prop} {R : β → γ → Prop}
    (h : Contents holds m as xs) (h' : Contents seen m as zs)
    (hR : ∀ c x z, holds c x → seen c z → R x z) : List.Forall₂ R xs zs := by
  induction h generalizing zs with
  | nil =>
    cases h'
    exact .nil
  | cons hax _ ih =>
    obtain ⟨c, hc, hx⟩ := hax
    cases h' with
    | cons haz htail =>
      obtain ⟨c', hc', hz⟩ := haz
      rw [hc] at hc'
      cases hc'
      exact .cons (hR c _ _ hx hz) (ih htail)

/-- Cells that hold `xs` hold what stands for `xs`. -/
theorem Contents.rel {γ : Type} {zs : List γ} {seen : α → γ → Prop} {R : β → γ → Prop}
    (h : Contents holds m as xs) (h' : List.Forall₂ R xs zs)
    (hR : ∀ c x z, holds c x → R x z → seen c z) : Contents seen m as zs := by
  induction h generalizing zs with
  | nil =>
    cases h'
    exact .nil
  | cons hax _ ih =>
    obtain ⟨c, hc, hx⟩ := hax
    cases h' with
    | cons hxz htail => exact .cons ⟨c, hc, hR c _ _ hx hxz⟩ (ih htail)

theorem Contents.mem_left (h : Contents holds m as xs) {a : Nat} (ha : a ∈ as) :
    ∃ x ∈ xs, ∃ c, m[a]? = some c ∧ holds c x := forall₂_mem_left h ha

theorem Contents.mem_right (h : Contents holds m as xs) {x : β} (hx : x ∈ xs) :
    ∃ a ∈ as, ∃ c, m[a]? = some c ∧ holds c x := forall₂_mem_right h hx

end Contents

/-! ## Memory behind an address -/

section Behind

variable {α : Type} {lo : Nat} {P : α → Prop} {m : Mem α}

/-- The pointer does not lead below `lo`. -/
def Ptr.From (lo : Nat) (p : Ptr) : Prop := ∀ a, p = .addr a → lo ≤ a

theorem Ptr.from_null (lo : Nat) : Ptr.From lo .null := fun _ h => by cases h

theorem Ptr.from_unassigned (lo : Nat) : Ptr.From lo .unassigned := fun _ h => by cases h

theorem Ptr.from_addr {a : Nat} (h : lo ≤ a) : Ptr.From lo (.addr a) := by
  intro b hb
  cases hb
  exact h

/-- Every cell from `lo` on satisfies `P`. -/
def Behind (lo : Nat) (P : α → Prop) (m : Mem α) : Prop :=
  ∀ a c, lo ≤ a → m[a]? = some c → P c

theorem behind_length (P : α → Prop) (m : Mem α) : Behind m.length P m :=
  fun _ _ ha hc => absurd (lt_of_getElem?_eq_some hc) (Nat.not_lt.mpr ha)

theorem Behind.append (h : Behind lo P m) {cs : List α} (hcs : ∀ c ∈ cs, P c) :
    Behind lo P (m ++ cs) := by
  intro a c ha hc
  by_cases hlt : a < m.length
  · rw [List.getElem?_append_left hlt] at hc
    exact h a c ha hc
  · rw [List.getElem?_append_right (Nat.not_lt.mp hlt)] at hc
    exact hcs c (List.mem_of_getElem? hc)

theorem Behind.modify (h : Behind lo P m) {a : Nat} {f : α → α} (hf : ∀ c, P c → P (f c)) :
    Behind lo P (m.modify a f) := by
  intro b c hb hc
  by_cases hba : b = a
  · subst hba
    obtain ⟨d, hd, rfl⟩ : ∃ d, m[b]? = some d ∧ f d = c := by
      simpa using hc
    exact hf d (h b d hb hd)
  · rw [getElem?_modify_of_ne f hba] at hc
    exact h b c hb hc

/-- A list that starts behind `lo` and whose links stay there lies there. -/
theorem Seg.behind {next : α → Ptr} (h : Behind lo P m) (hnext : ∀ c, P c → Ptr.From lo (next c))
    {p q : Ptr} {as : List Nat} (hp : Ptr.From lo p) (hseg : Seg next m p as q) :
    ∀ a ∈ as, lo ≤ a := by
  induction as generalizing p with
  | nil => simp
  | cons b as ih =>
    obtain ⟨rfl, c, hc, hrest⟩ := hseg
    have hb := hp b rfl
    intro a ha
    rcases List.mem_cons.mp ha with rfl | ha
    · exact hb
    · exact ih (hnext c (h b c hb hc)) hrest a ha

end Behind

/-! ## Rewriting the contents of cells -/

section Rewriting

variable {α β : Type} {next : α → Ptr} {holds : α → β → Prop} {as bs : List Nat}
  {m m' m₁ m₂ m₃ : Mem α}

/-- Only cells of `as` differ, and their links do not. -/
structure Rewritten (next : α → Ptr) (as : List Nat) (m m' : Mem α) : Prop where
  length : m'.length = m.length
  cells : ∀ a c, m[a]? = some c → ∃ c', m'[a]? = some c' ∧ next c' = next c ∧ (a ∉ as → c' = c)

namespace Rewritten

theorem refl (as : List Nat) (m : Mem α) : Rewritten next as m m :=
  ⟨rfl, fun _ c hc => ⟨c, hc, rfl, fun _ => rfl⟩⟩

theorem trans (h₁ : Rewritten next as m₁ m₂) (h₂ : Rewritten next as m₂ m₃) :
    Rewritten next as m₁ m₃ where
  length := h₂.length.trans h₁.length
  cells := by
    intro a c hc
    obtain ⟨c₂, hc₂, hn₂, he₂⟩ := h₁.cells a c hc
    obtain ⟨c₃, hc₃, hn₃, he₃⟩ := h₂.cells a c₂ hc₂
    exact ⟨c₃, hc₃, hn₃.trans hn₂, fun ha => (he₃ ha).trans (he₂ ha)⟩

theorem mono (h : Rewritten next as m m') (hsub : ∀ a ∈ as, a ∈ bs) : Rewritten next bs m m' where
  length := h.length
  cells := by
    intro a c hc
    obtain ⟨c', hc', hn, he⟩ := h.cells a c hc
    exact ⟨c', hc', hn, fun ha => he (fun hmem => ha (hsub a hmem))⟩

theorem modify (m : Mem α) {a : Nat} (ha : a ∈ as) {f : α → α} (hf : ∀ c, next (f c) = next c) :
    Rewritten next as m (m.modify a f) where
  length := by simp
  cells := by
    intro b c hc
    by_cases hba : b = a
    · subst hba
      exact ⟨f c, getElem?_modify_same f hc, hf c, fun hb => absurd ha hb⟩
    · exact ⟨c, by rw [getElem?_modify_of_ne f hba]; exact hc, rfl, fun _ => rfl⟩

theorem sameLinks (h : Rewritten next as m m') (bs : List Nat) : SameLinks next bs m m' := by
  intro a _ c hc
  obtain ⟨c', hc', hn, -⟩ := h.cells a c hc
  exact ⟨c', hc', hn⟩

theorem get (h : Rewritten next as m m') {a : Nat} (ha : a ∉ as) {c : α} (hc : m[a]? = some c) :
    m'[a]? = some c := by
  obtain ⟨c', hc', -, he⟩ := h.cells a c hc
  rw [hc', he ha]

theorem contents (h : Rewritten next as m m') {xs : List β} (hbs : ∀ b ∈ bs, b ∉ as)
    (hcont : Contents holds m bs xs) : Contents holds m' bs xs :=
  hcont.transport (fun b hb c _ hc hx => ⟨c, h.get (hbs b hb) hc, hx⟩)

end Rewritten

end Rewriting

end VpnP2p.Foundation
