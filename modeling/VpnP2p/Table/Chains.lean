import VpnP2p.Table.Code

/-!
# Searching and unlinking in a bucket

A bucket is a NULL-terminated list of bindings. What a search finds in it splits the list
at the first binding of the key; taking that binding out relinks the pointer in front of
it and touches no other binding.
-/

namespace VpnP2p.Table

open Foundation

/-- The cell holds this key with this value. -/
structure Binding.Holds (c : Binding) (b : Key × Value) : Prop where
  key : c.key = some b.1
  value : c.value = some b.2

theorem Binding.Holds.unique {c : Binding} {b b' : Key × Value} (h : c.Holds b)
    (h' : c.Holds b') : b = b' := by
  have hkey := h.key.symm.trans h'.key
  have hvalue := h.value.symm.trans h'.value
  exact Prod.ext (Option.some.inj hkey) (Option.some.inj hvalue)

/-- The bucket at `p` has the cells `as` and holds the bindings `xs`. -/
structure BucketOn (m : Mem Binding) (p : Ptr) (as : List Nat) (xs : List (Key × Value)) :
    Prop where
  links : Seg Binding.link m p as .null
  contents : Contents Binding.Holds m as xs

def BucketAt (m : Mem Binding) (p : Ptr) (xs : List (Key × Value)) : Prop :=
  ∃ as, BucketOn m p as xs

/-- A bucket whose cells are unchanged is unchanged. -/
theorem BucketAt.frame {m m' : Mem Binding} {p : Ptr} {xs : List (Key × Value)}
    (h : BucketAt m p xs)
    (hcells : ∀ (a : Nat) (c : Binding), m[a]? = some c → (∃ b ∈ xs, c.Holds b) →
      m'[a]? = some c) : BucketAt m' p xs := by
  obtain ⟨as, hlinks, hcont⟩ := h
  have hsame : ∀ a ∈ as, ∀ c, m[a]? = some c → m'[a]? = some c := by
    intro a ha c hc
    obtain ⟨b, hb, c', hc', hcb⟩ := hcont.mem_left ha
    rw [hc] at hc'
    cases hc'
    exact hcells a c hc ⟨b, hb, hcb⟩
  exact ⟨as, hlinks.sameLinks (fun a ha c hc => ⟨c, hsame a ha c hc, rfl⟩),
    hcont.transport (fun a ha c b hc hcb => ⟨c, hsame a ha c hc, hcb⟩)⟩

/-! ## Searching -/

section Search

variable {cmp : Key → Key → Int32} {m : Mem Binding} {key : Key} {a : Nat} {b : Key × Value}
  {as as₁ as₂ : List Nat} {xs pre : List (Key × Value)}

theorem meet_spec (a : Nat) (b : Key × Value) (ha : ∃ c, m[a]? = some c ∧ c.Holds b) :
    meet cmp m key a () = .ok (if cmp key b.1 = 0 then .done a else .next ()) := by
  obtain ⟨c, hc, hb⟩ := ha
  rw [meet, load_addr hc, ok_bind, hb.key, assigned_some, ok_bind]
  split <;> rfl

theorem meet_fold_none (hcont : Contents Binding.Holds m as xs)
    (hno : ∀ b ∈ xs, cmp key b.1 ≠ 0) : foldFlow (meet cmp m key) as () = .ok (.next ()) :=
  foldFlow_search_none meet_spec hcont hno

theorem meet_fold_some (hpre : Contents Binding.Holds m as₁ pre)
    (hno : ∀ b ∈ pre, cmp key b.1 ≠ 0) {c : Binding} (hc : m[a]? = some c) (hb : c.Holds b)
    (heq : cmp key b.1 = 0) :
    foldFlow (meet cmp m key) (as₁ ++ a :: as₂) () = .ok (.done a) := by
  have hfound : meet cmp m key a () = _ := meet_spec a b ⟨c, hc, hb⟩
  rw [if_pos heq] at hfound
  rw [foldFlow_append_next (meet_fold_none hpre hno), foldFlow_cons_done hfound]

end Search

/-- The first binding of a key splits the bucket. -/
theorem first_binding (cmp : Key → Key → Int32) (key : Key) (xs : List (Key × Value)) :
    (∀ b ∈ xs, cmp key b.1 ≠ 0) ∨ ∃ pre b post, xs = pre ++ b :: post ∧
      (∀ c ∈ pre, cmp key c.1 ≠ 0) ∧ cmp key b.1 = 0 := by
  cases hfind : xs.find? (fun b => cmp key b.1 = 0) with
  | none =>
    refine Or.inl (fun b hb => ?_)
    simpa using List.find?_eq_none.mp hfind b hb
  | some b =>
    obtain ⟨heq, pre, post, hxs, hpre⟩ := List.find?_eq_some_iff_append.mp hfind
    exact Or.inr ⟨pre, b, post, hxs, by simpa using hpre, by simpa using heq⟩

section TableSearch

variable {table : T} {m : Mem Binding} {key : Key} {p : Ptr} {as : List Nat}
  {xs pre post : List (Key × Value)} {b : Key × Value}

theorem bucket_eq {i : Nat} (hp : table.buckets[i]? = some p) : table.bucket i = .ok p := by
  rw [T.bucket, hp]
  rfl

theorem search_none (hp : table.buckets[table.slot key]? = some p) (hon : BucketOn m p as xs)
    (hno : ∀ b ∈ xs, table.cmp key b.1 ≠ 0) : table.search m key = .ok .null := by
  have hfuel : as.length < m.length + 1 := Nat.lt_succ_of_le hon.links.length_le
  rw [T.search, bucket_eq hp, ok_bind, forChainFlow_read_eq_foldFlow hon.links hfuel,
    meet_fold_none hon.contents hno]
  rfl

theorem search_some {a : Nat} {as₁ as₂ : List Nat} {c : Binding}
    (hp : table.buckets[table.slot key]? = some p)
    (hlinks : Seg Binding.link m p (as₁ ++ a :: as₂) .null)
    (hpre : Contents Binding.Holds m as₁ pre) (hno : ∀ b ∈ pre, table.cmp key b.1 ≠ 0)
    (hc : m[a]? = some c) (hb : c.Holds b) (heq : table.cmp key b.1 = 0) :
    table.search m key = .ok (.addr a) := by
  have hfuel : (as₁ ++ a :: as₂).length < m.length + 1 := Nat.lt_succ_of_le hlinks.length_le
  rw [T.search, bucket_eq hp, ok_bind, forChainFlow_read_eq_foldFlow hlinks hfuel,
    meet_fold_some hpre hno hc hb heq]
  rfl

end TableSearch

/-! ## Unlinking -/

section Unlink

variable {s : State} {key : Key} {q : Ptr} {as as₁ as₂ : List Nat} {a fuel : Nat}
  {xs pre : List (Key × Value)} {b : Key × Value} {c : Binding}

theorem removeFrom_none {pp : Place} (hpp : pp.read s = .ok q) (hon : BucketOn s.cells q as xs)
    (hno : ∀ b ∈ xs, s.table.cmp key b.1 ≠ 0) (hfuel : as.length < fuel) :
    removeFrom s key fuel pp = .ok (s, 0) := by
  obtain ⟨hlinks, hcont⟩ := hon
  induction hcont generalizing pp q fuel with
  | nil =>
    obtain ⟨fuel, rfl⟩ := Nat.exists_eq_add_of_lt hfuel
    rw [show q = .null from hlinks] at hpp
    rw [removeFrom, hpp]
    rfl
  | @cons d e as xs hd _ ih =>
    obtain ⟨fuel, rfl⟩ : ∃ n, fuel = n + 1 := ⟨fuel - 1, by omega⟩
    obtain ⟨rfl, c, hc, hce, hrest⟩ := hlinks.first_cell hd
    obtain ⟨hne, hno⟩ := List.forall_mem_cons.mp hno
    have hlink : (Place.link d).read s = .ok c.link := by
      simp only [Place.read, load_addr hc, ok_bind]
    rw [removeFrom, hpp]
    simp only [ok_bind, load_addr hc, hce.key, assigned_some, if_neg hne]
    exact ih hlink hno (by simpa using hfuel) hrest

/-- The pointer that leads to the cell behind `as₁`. -/
def placeBehind (pp : Place) (as₁ : List Nat) : Place := as₁.getLast?.elim pp Place.link

theorem placeBehind_cons (pp : Place) (d : Nat) (as₁ : List Nat) :
    placeBehind pp (d :: as₁) = placeBehind (.link d) as₁ := by
  cases as₁ with
  | nil => rfl
  | cons e as₁ => simp [placeBehind, List.getLast?_cons]

/-- The loop arrives at the binding of the key. -/
theorem removeFrom_some {pp : Place} (hpp : pp.read s = .ok q)
    (hlinks : Seg Binding.link s.cells q (as₁ ++ a :: as₂) .null)
    (hpre : Contents Binding.Holds s.cells as₁ pre) (hno : ∀ b ∈ pre, s.table.cmp key b.1 ≠ 0)
    (hc : s.cells[a]? = some c) (hb : c.Holds b) (heq : s.table.cmp key b.1 = 0)
    (hfuel : as₁.length < fuel) :
    removeFrom s key fuel pp = (do
      let s ← (placeBehind pp as₁).write s c.link
      let cells ← update s.cells (.addr a) (fun _ => .raw)
      .ok (⟨cells, { s.table with length := s.table.length - 1 }⟩, b.2)) := by
  induction hpre generalizing pp q fuel with
  | nil =>
    obtain ⟨fuel, rfl⟩ : ∃ n, fuel = n + 1 := ⟨fuel - 1, by omega⟩
    rw [show q = .addr a from hlinks.1] at hpp
    rw [removeFrom, hpp]
    simp only [ok_bind, load_addr hc, hb.key, hb.value, assigned_some, if_pos heq]
    rfl
  | @cons d e as pre hd _ ih =>
    obtain ⟨fuel, rfl⟩ : ∃ n, fuel = n + 1 := ⟨fuel - 1, by omega⟩
    obtain ⟨rfl, cd, hcd, hce, hrest⟩ := hlinks.first_cell hd
    obtain ⟨hne, hno⟩ := List.forall_mem_cons.mp hno
    have hlink : (Place.link d).read s = .ok cd.link := by
      simp only [Place.read, load_addr hcd, ok_bind]
    rw [removeFrom, hpp]
    simp only [ok_bind, load_addr hcd, hce.key, assigned_some, if_neg hne]
    rw [ih hlink hrest hno (by simpa using hfuel), placeBehind_cons]

end Unlink

theorem set_self_of_getElem? {α : Type} {l : List α} {i : Nat} {x : α} (h : l[i]? = some x) :
    l.set i x = l := by
  obtain ⟨hlt, rfl⟩ := List.getElem?_eq_some_iff.mp h
  exact List.set_getElem_self hlt

/-- The cell is taken out through the pointer that leads to it, and freed. -/
theorem unlink_spec {s : State} {i a : Nat} {p : Ptr} {as₁ as₂ : List Nat} {c : Binding}
    {pre post : List (Key × Value)} (hp : s.table.buckets[i]? = some p)
    (hlinks : Seg Binding.link s.cells p (as₁ ++ a :: as₂) .null) (hc : s.cells[a]? = some c)
    (hpre : Contents Binding.Holds s.cells as₁ pre)
    (hpost : Contents Binding.Holds s.cells as₂ post) :
    ∃ s' cells p', (placeBehind (.bucket i) as₁).write s c.link = .ok s' ∧
      update s'.cells (.addr a) (fun _ => .raw) = .ok cells ∧
      s'.table = { s.table with buckets := s.table.buckets.set i p' } ∧
      BucketAt cells p' (pre ++ post) ∧
      ∀ (d : Nat) (e : Binding), d ∉ as₁ ++ a :: as₂ → s.cells[d]? = some e →
        cells[d]? = some e := by
  have hi := (List.getElem?_eq_some_iff.mp hp).1
  have ha : a ∉ as₁ ++ as₂ := (List.nodup_cons.mp (List.nodup_middle.mp hlinks.nodup)).1
  have hfree : ∀ (m : Mem Binding) (as : List Nat), a ∉ as →
      SameLinks Binding.link as m (m.modify a (fun _ => .raw)) :=
    fun m as ha => SameLinks.modify m (fun hmem => absurd hmem ha)
  rcases List.eq_nil_or_concat as₁ with rfl | ⟨l, e, rfl⟩
  · -- The bucket itself leads to the cell.
    cases hpre
    obtain ⟨rfl, c', hc', hback⟩ := hlinks
    rw [hc] at hc'
    cases hc'
    refine ⟨{ s with table := { s.table with buckets := s.table.buckets.set i c.link } },
      s.cells.modify a (fun _ => .raw), c.link, if_pos hi,
      update_addr (lt_of_getElem?_eq_some hc) _, rfl, ?_, ?_⟩
    · exact ⟨as₂, hback.sameLinks (hfree _ _ ha), hpost.modify_other ha _⟩
    · intro d e hd he
      have hda : d ≠ a := fun h => hd (by simp [h])
      rw [getElem?_modify_of_ne _ hda]
      exact he
  · -- The cell in front of it does.
    rw [List.concat_eq_append] at *
    let f : Binding → Binding := fun b => { b with link := c.link }
    have helt : e < s.cells.length := hlinks.lt_length e (by simp)
    have hrelinked : Seg Binding.link (s.cells.modify e f) p ((l ++ [e]) ++ as₂) .null :=
      hlinks.unlink hc (fun _ => rfl)
    have hkept : Contents Binding.Holds (s.cells.modify e f) ((l ++ [e]) ++ as₂) (pre ++ post) :=
      (hpre.append hpost).modify_keep (f := f) (fun _ _ hb => ⟨hb.key, hb.value⟩) e
    refine ⟨{ s with cells := s.cells.modify e f },
      (s.cells.modify e f).modify a (fun _ => .raw), p, ?_, ?_, ?_, ?_, ?_⟩
    · simp only [placeBehind, List.getLast?_concat, Option.elim_some, Place.write,
        update_addr helt, ok_bind]
      rfl
    · exact update_addr (by simpa using lt_of_getElem?_eq_some hc) _
    · rw [set_self_of_getElem? hp]
    · exact ⟨_, hrelinked.sameLinks (hfree _ _ ha), hkept.modify_other ha _⟩
    · intro d b hd hb
      simp only [List.mem_append, List.mem_cons, List.not_mem_nil, or_false, not_or] at hd
      rw [getElem?_modify_of_ne _ hd.2.1, getElem?_modify_of_ne _ hd.1.2]
      exact hb

end VpnP2p.Table
