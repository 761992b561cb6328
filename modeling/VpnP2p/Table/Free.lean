import VpnP2p.Table.FiniteMap

/-!
# Freeing the table

`Table_free` frees the bindings of all buckets, where `length` is positive, and leaves the
pointers to them where they are. A table that was filled past `INT_MAX` is not freed at all;
after one that was, a bucket that had a binding cannot be searched any more.
-/

namespace VpnP2p.Table

open Foundation

/-! ## The code -/

/-- The inner loop: `q = p->link; free(p);` from `p` on. -/
def freeFrom : Nat → Ptr → Mem Binding → Result (Mem Binding)
  | 0, _, _ => .error .diverges
  | _ + 1, .null, m => .ok m
  | _ + 1, .unassigned, _ => .error .unassigned
  | fuel + 1, .addr p, m => do
    let b ← load m (.addr p)
    let q := b.link
    let m ← update m (.addr p) (fun _ => .raw)
    freeFrom fuel q m

/-- The body of the outer loop, for bucket `i`. -/
def freeBucket (table : T) (m : Mem Binding) (i : Nat) : Result (Mem Binding) := do
  let p ← table.bucket i
  freeFrom (m.length + 1) p m

/-- `Table_free(&table)`; the block of the table itself is not freed. -/
def tableFree (s : State) : Result (Mem Binding) :=
  if s.table.length > 0 then
    (List.range s.table.size.toNatClampNeg).foldlM (freeBucket s.table) s.cells
  else .ok s.cells

/-! ## The cells of the buckets -/

/-- Bucket by bucket, the cells that it links. -/
structure Chains (s : State) (ass : List (List Nat)) : Prop where
  length : ass.length = s.table.buckets.length
  links : ∀ (i : Nat) p as, s.table.buckets[i]? = some p → ass[i]? = some as →
    Seg Binding.link s.cells p as .null

/-- A binding that was allocated and not freed. -/
def Live (m : Mem Binding) (a : Nat) : Prop := ∃ c, m[a]? = some c ∧ c ≠ .raw

/-- Behind the cells `m₀`, which are as they were, the live ones are those of the buckets. -/
structure Owned (m₀ : Mem Binding) (s : State) (ass : List (List Nat)) : Prop where
  chains : Chains s ass
  before : ∀ a < m₀.length, s.cells[a]? = m₀[a]?
  live : ∀ a, a ∈ ass.flatten ↔ m₀.length ≤ a ∧ Live s.cells a

theorem live_of_holds {m : Mem Binding} {a : Nat} {c : Binding} {b : Key × Value}
    (hc : m[a]? = some c) (hb : c.Holds b) : Live m a := by
  refine ⟨c, hc, ?_⟩
  rintro rfl
  cases hb.key

theorem BucketOn.live {m : Mem Binding} {p : Ptr} {as : List Nat} {xs : List (Key × Value)}
    (hon : BucketOn m p as xs) {a : Nat} (ha : a ∈ as) : Live m a := by
  obtain ⟨b, -, c, hc, hb⟩ := hon.contents.mem_left ha
  exact live_of_holds hc hb

theorem not_live_raw {m : Mem Binding} {a : Nat} (h : m[a]? = some .raw) : ¬ Live m a := by
  rintro ⟨c, hc, hne⟩
  rw [h] at hc
  cases hc
  exact hne rfl

theorem live_congr {m m' : Mem Binding} {a : Nat} (h : m'[a]? = m[a]?) : Live m' a ↔ Live m a := by
  rw [Live, Live, h]

theorem Chains.set {s s' : State} {ass : List (List Nat)} {i : Nat} {p' : Ptr} {as' : List Nat}
    (hC : Chains s ass) (hbuckets : s'.table.buckets = s.table.buckets.set i p')
    (hother : ∀ (j : Nat) cs, j ≠ i → ass[j]? = some cs →
      SameLinks Binding.link cs s.cells s'.cells)
    (hnew : Seg Binding.link s'.cells p' as' .null) : Chains s' (ass.set i as') where
  length := by rw [hbuckets, List.length_set, List.length_set, hC.length]
  links := by
    intro j p cs hp hcs
    rw [hbuckets] at hp
    by_cases hij : i = j
    · subst hij
      have hi := (List.getElem?_eq_some_iff.mp hcs).1
      rw [List.length_set] at hi
      rw [List.getElem?_set_self (hC.length ▸ hi)] at hp
      rw [List.getElem?_set_self hi] at hcs
      cases hp
      cases hcs
      exact hnew
    · rw [List.getElem?_set_ne hij] at hp hcs
      exact (hC.links j p cs hp hcs).sameLinks (hother j cs (Ne.symm hij) hcs)

theorem tablePut_new {s : State} {key : Key} {p : Ptr}
    (hp : s.table.buckets[s.table.slot key]? = some p)
    (hsearch : s.table.search s.cells key = .ok .null) (value : Value) :
    tablePut s key value = .ok (⟨(s.cells ++
        [{ Binding.raw with key := some key, link := p }]).modify s.cells.length
          (fun b => { b with value := some value }), { s.table with
        buckets := s.table.buckets.set (s.table.slot key) (.addr s.cells.length)
        length := s.table.length + 1
        timestamp := s.table.timestamp + 1 }⟩, 0) := by
  simp only [tablePut, hsearch, ok_bind, if_true, bucket_eq hp]
  rw [update_addr (by simp)]
  rfl

section Stands

variable {cmp : Key → Key → Int32} {hash : Key → UInt32} {h : Compatible cmp hash} {s : State}
  {bs : List (List (KeyOf h × Value))} {ass : List (List Nat)} {m₀ : Mem Binding} {key : Key}

theorem Stands.bucketOn (hS : Stands h s bs) (hC : Chains s ass) {i : Nat} {as : List Nat}
    (has : ass[i]? = some as) : ∃ p xs, s.table.buckets[i]? = some p ∧ bs[i]? = some xs ∧
      BucketOn s.cells p as xs := by
  have hi := (List.getElem?_eq_some_iff.mp has).1
  have hp := List.getElem?_eq_getElem (hC.length ▸ hi)
  have hxs := List.getElem?_eq_getElem (hS.buckets.length ▸ hC.length ▸ hi)
  obtain ⟨as', hon⟩ := hS.buckets.holds i _ _ hp hxs
  have hsame := hon.links.unique (hC.links i _ _ hp has)
  exact ⟨_, _, hp, hxs, hsame ▸ hon⟩

/-- No cell lies in two buckets. -/
theorem Stands.disjoint (hS : Stands h s bs) (hC : Chains s ass) {i j a : Nat}
    {as cs : List Nat} (has : ass[i]? = some as) (hcs : ass[j]? = some cs) (ha : a ∈ as)
    (hmem : a ∈ cs) : i = j := by
  obtain ⟨p, xs, -, hxs, hon⟩ := hS.bucketOn hC has
  obtain ⟨q, ys, -, hys, hon'⟩ := hS.bucketOn hC hcs
  obtain ⟨b, hb, c, hc, hcb⟩ := hon.contents.mem_left ha
  obtain ⟨b', hb', c', hc', hcb'⟩ := hon'.contents.mem_left hmem
  rw [hc] at hc'
  cases hc'
  obtain rfl := hcb.unique hcb'
  exact (hS.spread.placed i xs hxs b hb).symm.trans (hS.spread.placed j ys hys b hb')

theorem Stands.nodup (hS : Stands h s bs) (hC : Chains s ass) : ass.flatten.Nodup := by
  rw [List.nodup_flatten]
  constructor
  · intro as has
    obtain ⟨i, hi⟩ := List.mem_iff_getElem?.mp has
    obtain ⟨p, xs, -, -, hon⟩ := hS.bucketOn hC hi
    exact hon.links.nodup
  · rw [List.pairwise_iff_getElem]
    intro i j hi hj hij a ha ha'
    exact absurd (hS.disjoint hC (List.getElem?_eq_getElem hi) (List.getElem?_eq_getElem hj) ha ha')
      (Nat.ne_of_lt hij)

theorem Owned.length_le (hO : Owned m₀ s ass) : m₀.length ≤ s.cells.length := by
  by_contra hlt
  have hnone := hO.before s.cells.length (not_le.mp hlt)
  rw [List.getElem?_eq_none (Nat.le_refl _), List.getElem?_eq_getElem (not_le.mp hlt)] at hnone
  cases hnone

/-- An empty table owns no cells. -/
theorem Stands.owned_new {n : Nat} (hS : Stands h s (List.replicate n [])) :
    Owned s.cells s (List.replicate n []) where
  chains := by
    refine ⟨List.length_replicate.trans (List.length_replicate.symm.trans hS.buckets.length),
      fun i p as hp has => ?_⟩
    obtain rfl := List.eq_of_mem_replicate (List.mem_of_getElem? has)
    have hi := (List.getElem?_eq_some_iff.mp has).1
    rw [List.length_replicate] at hi
    have hxs : (List.replicate n ([] : List (KeyOf h × Value)))[i]? = some [] := by
      rw [List.getElem?_replicate, if_pos hi]
    obtain ⟨as', hon⟩ := hS.buckets.holds i p [] hp hxs
    obtain rfl : as' = [] := List.forall₂_nil_right_iff.mp hon.contents
    exact hon.links
  before := fun a _ => rfl
  live := by
    intro a
    rw [List.flatten_replicate_nil]
    refine iff_of_false (List.not_mem_nil) ?_
    rintro ⟨hge, c, hc, -⟩
    exact absurd (lt_of_getElem?_eq_some hc) (Nat.not_lt.mpr hge)

/-- A call that rewrites the cells of one bucket, and new ones. -/
theorem Owned.step {s' : State} {i : Nat} {p' : Ptr} {as as' : List Nat} (hS : Stands h s bs)
    (hO : Owned m₀ s ass) (has : ass[i]? = some as)
    (hbuckets : s'.table.buckets = s.table.buckets.set i p')
    (hlinks : Seg Binding.link s'.cells p' as' .null)
    (hsame : ∀ a < s.cells.length, a ∉ as → s'.cells[a]? = s.cells[a]?)
    (hnew : ∀ a, a ∈ as ∨ s.cells.length ≤ a → (a ∈ as' ↔ Live s'.cells a))
    (hsub : ∀ a ∈ as', a ∈ as ∨ s.cells.length ≤ a) : Owned m₀ s' (ass.set i as') where
  chains := by
    apply hO.chains.set hbuckets _ hlinks
    intro j cs hji hcs a ha c hc
    have hnot : a ∉ as := fun hmem => hji (hS.disjoint hO.chains hcs has ha hmem)
    exact ⟨c, (hsame a (lt_of_getElem?_eq_some hc) hnot).trans hc, rfl⟩
  before := by
    intro a ha
    have hnot : a ∉ as := by
      intro hmem
      have hge := ((hO.live a).mp (List.mem_flatten.mpr ⟨as, List.mem_of_getElem? has, hmem⟩)).1
      omega
    rw [hsame a (Nat.lt_of_lt_of_le ha hO.length_le) hnot, hO.before a ha]
  live := by
    intro a
    have hle := hO.length_le
    rw [mem_flatten_set (hS.nodup hO.chains) has]
    by_cases hcell : a ∈ as ∨ s.cells.length ≤ a
    · have hge : m₀.length ≤ a := by
        rcases hcell with hmem | hge
        · exact ((hO.live a).mp (List.mem_flatten.mpr ⟨as, List.mem_of_getElem? has, hmem⟩)).1
        · omega
      have hold : ¬ (a ∈ ass.flatten ∧ a ∉ as) := by
        rintro ⟨hmem, hnot⟩
        obtain ⟨-, c, hc, -⟩ := (hO.live a).mp hmem
        have hlt := lt_of_getElem?_eq_some hc
        rcases hcell with hmem | hge
        · exact hnot hmem
        · omega
      rw [hnew a hcell]
      exact ⟨fun h => ⟨hge, h.resolve_right hold⟩, fun h => .inl h.2⟩
    · have hnot : a ∉ as' := fun hmem => hcell (hsub a hmem)
      rw [not_or, not_le] at hcell
      rw [live_congr (hsame a hcell.2 hcell.1), ← hO.live a]
      exact ⟨fun h => (h.resolve_left hnot).1, fun h => .inr ⟨h, hcell.1⟩⟩

/-! ## The calls -/

/-- A new binding is live, in front of its bucket. -/
theorem Owned.put_new (hS : Stands h s bs) (hO : Owned m₀ s ass) {p : Ptr}
    {xs : List (KeyOf h × Value)} {as : List Nat}
    (hp : s.table.buckets[s.table.slot key]? = some p) (has : ass[s.table.slot key]? = some as)
    (hon : BucketOn s.cells p as xs) (hno : ∀ b ∈ xs, ¬ keyOf h key ≈ b.1) (value : Value) :
    ∃ s' ass', tablePut s key value = .ok (s', 0) ∧ Owned m₀ s' ass' := by
  let c : Binding := { Binding.raw with key := some key, link := p }
  let f : Binding → Binding := fun b => { b with value := some value }
  let s' : State := ⟨(s.cells ++ [c]).modify s.cells.length f, { s.table with
    buckets := s.table.buckets.set (s.table.slot key) (.addr s.cells.length)
    length := s.table.length + 1
    timestamp := s.table.timestamp + 1 }⟩
  have hcell : s'.cells[s.cells.length]? = some (f c) := getElem?_modify_same f (by simp)
  have hkept : ∀ a d, s.cells[a]? = some d → s'.cells[a]? = some d :=
    fun a d hd => getElem?_of_malloc hd
  have hsame : ∀ a < s.cells.length, s'.cells[a]? = s.cells[a]? := by
    intro a ha
    rw [List.getElem?_eq_getElem ha]
    exact hkept a _ (List.getElem?_eq_getElem ha)
  refine ⟨s', ass.set (s.table.slot key) (s.cells.length :: as),
    tablePut_new hp (hS.search_none hp hon hno) value,
    hO.step hS has rfl ⟨rfl, f c, hcell, ?_⟩ (fun a ha _ => hsame a ha) ?_ ?_⟩
  · exact hon.links.sameLinks (fun a _ d hd => ⟨d, hkept a d hd, rfl⟩)
  · intro a ha
    rw [List.mem_cons]
    rcases ha with hmem | hge
    · have hlive := hon.live hmem
      rw [live_congr (hsame a (hon.links.lt_length a hmem))]
      exact ⟨fun _ => hlive, fun _ => .inr hmem⟩
    · constructor
      · rintro (rfl | hmem)
        · refine ⟨f c, hcell, fun hraw => ?_⟩
          cases congrArg Binding.key hraw
        · have hlt := hon.links.lt_length a hmem
          omega
      · rintro ⟨d, hd, -⟩
        have hlt := lt_of_getElem?_eq_some hd
        have hlen : s'.cells.length = s.cells.length + 1 := by simp [s']
        left
        omega
  · intro a ha
    rcases List.mem_cons.mp ha with rfl | ha
    · exact .inr (Nat.le_refl _)
    · exact .inl ha

section Found

variable {p : Ptr} {as : List Nat} {xs pre post : List (KeyOf h × Value)} {b : KeyOf h × Value}

/-- Another value in a binding that was found. -/
theorem Owned.put_old (hS : Stands h s bs) (hO : Owned m₀ s ass)
    (hp : s.table.buckets[s.table.slot key]? = some p) (has : ass[s.table.slot key]? = some as)
    (hon : BucketOn s.cells p as (pre ++ b :: post)) (hno : ∀ c ∈ pre, ¬ keyOf h key ≈ c.1)
    (heq : keyOf h key ≈ b.1) (value : Value) :
    ∃ s' ass', tablePut s key value = .ok (s', b.2) ∧ Owned m₀ s' ass' := by
  obtain ⟨as₁, a, as₂, rfl, hpre, ⟨c, hc, hcb⟩, hpost⟩ := hon.contents.split
  have hsearch : s.table.search s.cells key = .ok (.addr a) := by
    apply search_some hp hon.links hpre _ hc hcb ((hS.cmp_iff key b.1).mpr heq)
    exact fun c hc h0 => hno c hc ((hS.cmp_iff key c.1).mp h0)
  let f : Binding → Binding := fun b => { b with value := some value }
  let s' : State := ⟨s.cells.modify a f, { s.table with timestamp := s.table.timestamp + 1 }⟩
  have hne : ∀ d ≠ a, s'.cells[d]? = s.cells[d]? := fun d hd => getElem?_modify_of_ne f hd
  refine ⟨s', ass.set (s.table.slot key) (as₁ ++ a :: as₂), ?_,
    hO.step hS has (set_self_of_getElem? hp).symm ?_ ?_ ?_ (fun _ ha => .inl ha)⟩
  · simp only [tablePut, hsearch, ok_bind, if_neg (show Ptr.addr a ≠ .null by simp), load_addr hc,
      hcb.value, assigned_some, update_addr (lt_of_getElem?_eq_some hc)]
    rfl
  · exact hon.links.sameLinks (SameLinks.modify _ (fun _ _ => rfl))
  · intro d _ hd
    exact hne d (fun hda => hd (by simp [hda]))
  · intro d hd
    by_cases hda : d = a
    · subst hda
      have hlive : Live s'.cells d := by
        refine ⟨f c, getElem?_modify_same f hc, fun hraw => ?_⟩
        have hkey := congrArg Binding.key hraw
        rw [show (f c).key = some b.1 from hcb.key] at hkey
        cases hkey
      exact iff_of_true (by simp) hlive
    · rw [live_congr (hne d hda)]
      constructor
      · exact hon.live
      · rintro ⟨e, he, -⟩
        have hlt := lt_of_getElem?_eq_some he
        exact hd.resolve_right (by omega)

/-- The cells of a bucket when one of them is taken out and freed. -/
theorem unlink_cells {s : State} {i a : Nat} {as₁ as₂ : List Nat} {c : Binding}
    (hp : s.table.buckets[i]? = some p) (hon : BucketOn s.cells p (as₁ ++ a :: as₂) xs)
    (hc : s.cells[a]? = some c) : ∃ s' cells p',
      (placeBehind (.bucket i) as₁).write s c.link = .ok s' ∧
      update s'.cells (.addr a) (fun _ => .raw) = .ok cells ∧
      s'.table = { s.table with buckets := s.table.buckets.set i p' } ∧
      Seg Binding.link cells p' (as₁ ++ as₂) .null ∧ cells[a]? = some .raw ∧
      ∀ d ≠ a, (d ∉ as₁ → cells[d]? = s.cells[d]?) ∧ (Live s.cells d → Live cells d) := by
  have hi := (List.getElem?_eq_some_iff.mp hp).1
  have ha := List.nodup_cons.mp (List.nodup_middle.mp hon.links.nodup)
  have hfreed : ∀ m : Mem Binding,
      SameLinks Binding.link (as₁ ++ as₂) m (m.modify a (fun _ => .raw)) :=
    fun m => SameLinks.modify m (fun hmem => absurd hmem ha.1)
  have hlt := lt_of_getElem?_eq_some hc
  rcases List.eq_nil_or_concat as₁ with rfl | ⟨l, e, rfl⟩
  · obtain ⟨rfl, c', hc', hback⟩ := hon.links
    rw [hc] at hc'
    cases hc'
    refine ⟨{ s with table := { s.table with buckets := s.table.buckets.set i c.link } },
      s.cells.modify a (fun _ => .raw), c.link, if_pos hi, update_addr hlt _, rfl,
      hback.sameLinks (hfreed _), getElem?_modify_same _ hc, fun d hd => ?_⟩
    have hsame := getElem?_modify_of_ne (m := s.cells) (fun _ => Binding.raw) hd
    exact ⟨fun _ => hsame, (live_congr hsame).mpr⟩
  · rw [List.concat_eq_append] at *
    let f : Binding → Binding := fun b => { b with link := c.link }
    have hmem : e ∈ (l ++ [e]) ++ a :: as₂ := by simp
    have helt : e < s.cells.length := hon.links.lt_length e hmem
    have hae : a ≠ e := fun h => ha.1 (by simp [h])
    have hlinks : Seg Binding.link (s.cells.modify e f) p ((l ++ [e]) ++ as₂) .null :=
      hon.links.unlink hc (fun _ => rfl)
    have hc' : (s.cells.modify e f)[a]? = some c := (getElem?_modify_of_ne f hae).trans hc
    refine ⟨{ s with cells := s.cells.modify e f }, (s.cells.modify e f).modify a (fun _ => .raw),
      p, ?_, update_addr (lt_of_getElem?_eq_some hc') _, ?_, hlinks.sameLinks (hfreed _),
      getElem?_modify_same _ hc', fun d hd => ?_⟩
    · simp only [placeBehind, List.getLast?_concat, Option.elim_some, Place.write,
        update_addr helt, ok_bind]
      rfl
    · rw [set_self_of_getElem? hp]
    · have hsame := getElem?_modify_of_ne (m := s.cells.modify e f) (fun _ => Binding.raw) hd
      rw [live_congr hsame, hsame]
      by_cases hde : d = e
      · subst hde
        refine ⟨fun h => absurd (by simp) h, fun _ => ?_⟩
        obtain ⟨b, -, c'', hc'', hb⟩ := hon.contents.mem_left hmem
        exact live_of_holds (getElem?_modify_same f hc'') ⟨hb.key, hb.value⟩
      · have hother := getElem?_modify_of_ne (m := s.cells) f hde
        exact ⟨fun _ => hother, (live_congr hother).mpr⟩

/-- A binding that was found leaves its bucket and is freed. -/
theorem Owned.remove_old (hS : Stands h s bs) (hO : Owned m₀ s ass)
    (hp : s.table.buckets[s.table.slot key]? = some p) (has : ass[s.table.slot key]? = some as)
    (hon : BucketOn s.cells p as (pre ++ b :: post)) (hno : ∀ c ∈ pre, ¬ keyOf h key ≈ c.1)
    (heq : keyOf h key ≈ b.1) :
    ∃ s' ass', tableRemove s key = .ok (s', b.2) ∧ Owned m₀ s' ass' := by
  obtain ⟨as₁, a, as₂, rfl, hpre, ⟨c, hc, hcb⟩, hpost⟩ := hon.contents.split
  let t : State := { s with table := { s.table with timestamp := s.table.timestamp + 1 } }
  obtain ⟨s₁, cells, p', hwrite, hfree, htable, hlinks, hraw, hcells⟩ :=
    unlink_cells (s := t) hp hon hc
  have hfuel : as₁.length < s.cells.length + 1 := by
    have hle := hon.links.length_le
    rw [List.length_append] at hle
    omega
  have hrun : tableRemove s key =
      .ok (⟨cells, { s₁.table with length := s₁.table.length - 1 }⟩, b.2) := by
    have hread : (Place.bucket (s.table.slot key)).read t = .ok p := bucket_eq hp
    have hloop := removeFrom_some (s := t) hread
      hon.links hpre (fun c hc h0 => hno c hc ((hS.cmp_iff key c.1).mp h0)) hc hcb
      ((hS.cmp_iff key b.1).mpr heq) hfuel
    rw [hwrite, ok_bind, hfree] at hloop
    exact hloop
  refine ⟨_, ass.set (s.table.slot key) (as₁ ++ as₂), hrun,
    hO.step hS has (congrArg T.buckets htable) hlinks ?_ ?_ ?_⟩
  · intro d _ hd
    rw [List.mem_append, List.mem_cons, not_or, not_or] at hd
    exact (hcells d hd.2.1).1 hd.1
  · intro d hd
    by_cases hda : d = a
    · subst hda
      have hnot := (List.nodup_cons.mp (List.nodup_middle.mp hon.links.nodup)).1
      exact iff_of_false hnot (not_live_raw hraw)
    · constructor
      · intro hmem
        exact (hcells d hda).2 (hon.live (by grind))
      · intro hlive
        rcases hd with hmem | hge
        · grind
        · have hnot : d ∉ as₁ := fun hmem => by
            have hlt := hon.links.lt_length d (by simp [hmem])
            omega
          rw [live_congr ((hcells d hda).1 hnot)] at hlive
          obtain ⟨e, he, -⟩ := hlive
          have hlt : d < s.cells.length := lt_of_getElem?_eq_some he
          omega
  · intro d hd
    left
    grind

end Found

theorem Stands.exec_owned (hS : Stands h s bs) (hO : Owned m₀ s ass) (call : Call) :
    ∃ s' ass' v, call.exec s = .ok (s', v) ∧ Owned m₀ s' ass' := by
  obtain ⟨p, xs, as, hp, hxs, hon, hcases⟩ := hS.cases call.key
  have has : ass[s.table.slot call.key]? = some as := by
    have hlt := hO.chains.length ▸ (List.getElem?_eq_some_iff.mp hp).1
    have hcs := List.getElem?_eq_getElem hlt
    rw [hcs, hon.links.unique (hO.chains.links _ _ _ hp hcs)]
  cases call with
  | put key value =>
    rcases hcases with hno | ⟨pre, b, post, rfl, hno, heq⟩
    · obtain ⟨s', ass', hrun, hO'⟩ := hO.put_new hS hp has hon hno value
      exact ⟨s', ass', 0, hrun, hO'⟩
    · obtain ⟨s', ass', hrun, hO'⟩ := hO.put_old hS hp has hon hno heq value
      exact ⟨s', ass', b.2, hrun, hO'⟩
  | get key =>
    refine ⟨s, ass, ((mapOf bs.flatten).lookup (classOf h key)).getD 0, ?_, hO⟩
    rw [Call.exec, hS.get key]
    rfl
  | remove key =>
    rcases hcases with hno | ⟨pre, b, post, rfl, hno, heq⟩
    · refine ⟨_, ass, 0, removeFrom_none (bucket_eq hp) hon
        (fun b hb h0 => hno b hb ((hS.cmp_iff key b.1).mp h0))
        (Nat.lt_succ_of_le hon.links.length_le), ?_⟩
      exact ⟨⟨hO.chains.length, hO.chains.links⟩, hO.before, hO.live⟩
    · obtain ⟨s', ass', hrun, hO'⟩ := hO.remove_old hS hp has hon hno heq
      exact ⟨s', ass', b.2, hrun, hO'⟩

/-- What the buckets link is what was allocated and not freed, after any calls. -/
theorem Stands.run_owned (hS : Stands h s bs) (hO : Owned m₀ s ass) (calls : List Call) :
    ∃ s' ass' vs, runCalls calls s = .ok (s', vs) ∧ Owned m₀ s' ass' := by
  induction calls generalizing s bs ass with
  | nil => exact ⟨s, ass, [], rfl, hO⟩
  | cons call calls ih =>
    obtain ⟨s₁, ass₁, v, hexec, hO₁⟩ := hS.exec_owned hO call
    obtain ⟨s₁', bs₁, hexec', hS₁, -⟩ := hS.exec call
    obtain ⟨rfl, -⟩ : s₁ = s₁' ∧ _ := Prod.mk.inj (Except.ok.inj (hexec.symm.trans hexec'))
    obtain ⟨s', ass', vs, hrun, hO'⟩ := ih hS₁ hO₁
    refine ⟨s', ass', v :: vs, ?_, hO'⟩
    simp only [runCalls, hexec, hrun, ok_bind]

end Stands

/-! ## Freeing -/

/-- The memory when the cells `as` were freed. -/
def freed (m : Mem Binding) (as : List Nat) : Mem Binding :=
  as.foldl (fun m a => m.modify a (fun _ => .raw)) m

section Freed

variable {m : Mem Binding} {as : List Nat} {a : Nat}

theorem length_freed (m : Mem Binding) (as : List Nat) : (freed m as).length = m.length := by
  induction as generalizing m with
  | nil => rfl
  | cons b as ih => exact (ih _).trans (List.length_modify ..)

theorem freed_append (m : Mem Binding) (as cs : List Nat) :
    freed m (as ++ cs) = freed (freed m as) cs := List.foldl_append

theorem freed_other (ha : a ∉ as) : (freed m as)[a]? = m[a]? := by
  induction as generalizing m with
  | nil => rfl
  | cons b as ih =>
    rw [List.mem_cons, not_or] at ha
    exact (ih ha.2).trans (getElem?_modify_of_ne _ ha.1)

/-- What was freed once stays freed. -/
theorem freed_raw (hraw : m[a]? = some .raw) : (freed m as)[a]? = some .raw := by
  induction as generalizing m with
  | nil => exact hraw
  | cons b as ih =>
    apply ih
    by_cases hab : a = b
    · subst hab
      exact getElem?_modify_same _ hraw
    · rw [getElem?_modify_of_ne _ hab, hraw]

theorem freed_mem (ha : a ∈ as) (hlt : a < m.length) : (freed m as)[a]? = some .raw := by
  obtain ⟨as₁, as₂, rfl⟩ := List.append_of_mem ha
  rw [freed_append]
  have hlt' : a < (freed m as₁).length := (length_freed m as₁).symm ▸ hlt
  exact freed_raw (m := (freed m as₁).modify a (fun _ => .raw))
    (getElem?_modify_same _ (List.getElem?_eq_getElem hlt'))

/-- The link is read before the cell is freed. -/
theorem freeFrom_eq {fuel : Nat} {p : Ptr} (hlinks : Seg Binding.link m p as .null)
    (hfuel : as.length < fuel) : freeFrom fuel p m = .ok (freed m as) := by
  induction as generalizing m p fuel with
  | nil =>
    obtain ⟨fuel, rfl⟩ := Nat.exists_eq_add_of_lt hfuel
    rw [show p = .null from hlinks]
    rfl
  | cons a as ih =>
    obtain ⟨fuel, rfl⟩ : ∃ n, fuel = n + 1 := ⟨fuel - 1, by omega⟩
    have hnot := (List.nodup_cons.mp hlinks.nodup).1
    obtain ⟨rfl, c, hc, hrest⟩ := hlinks
    rw [freeFrom, load_addr hc, ok_bind, update_addr (lt_of_getElem?_eq_some hc), ok_bind]
    apply ih _ (by simpa using hfuel)
    exact hrest.sameLinks (SameLinks.modify m (fun hmem => absurd hmem hnot))

/-- A freed binding has no link. -/
theorem freeFrom_freed {fuel : Nat} (hraw : m[a]? = some .raw) :
    freeFrom (fuel + 2) (.addr a) m = .error .unassigned := by
  rw [freeFrom, load_addr hraw, ok_bind, update_addr (lt_of_getElem?_eq_some hraw), ok_bind]
  rfl

end Freed

section Table

variable {s : State} {ass : List (List Nat)} {m : Mem Binding}

/-- The first `k` buckets are freed, and the others are as they were. -/
theorem freeBucket_fold (hC : Chains s ass) (hnodup : ass.flatten.Nodup) {k : Nat}
    (hk : k ≤ ass.length) : (List.range k).foldlM (freeBucket s.table) s.cells =
      .ok (freed s.cells (ass.take k).flatten) := by
  induction k with
  | zero => rfl
  | succ k ih =>
    have hlt : k < ass.length := by omega
    have has := List.getElem?_eq_getElem hlt
    have hp := List.getElem?_eq_getElem (hC.length ▸ hlt)
    have htake : (ass.take (k + 1)).flatten = (ass.take k).flatten ++ ass[k] := by
      rw [List.take_succ_eq_append_getElem hlt, List.flatten_append, List.flatten_singleton]
    have hback : ∀ a ∈ ass[k], a ∉ (ass.take k).flatten := by
      intro a ha hmem
      have hfront : ((ass.take (k + 1)).flatten).Nodup :=
        hnodup.sublist (List.take_sublist _ _).flatten
      rw [htake] at hfront
      exact (List.nodup_append.mp hfront).2.2 a hmem a ha rfl
    have hlinks : Seg Binding.link (freed s.cells (ass.take k).flatten) _ ass[k] .null :=
      (hC.links k _ _ hp has).sameLinks (fun a ha c hc =>
        ⟨c, (freed_other (hback a ha)).trans hc, rfl⟩)
    rw [List.range_succ, List.foldlM_append, ih (by omega), htake, freed_append]
    simp only [ok_bind, List.foldlM_cons, List.foldlM_nil, freeBucket, bucket_eq hp,
      freeFrom_eq hlinks (Nat.lt_succ_of_le hlinks.length_le), bind_pure]

/-- In a memory where all of them are freed, the first bucket that has one ends the loop. -/
theorem freeBucket_fold_freed (hC : Chains s ass)
    (hraw : ∀ a ∈ ass.flatten, m[a]? = some .raw) {k : Nat} (hk : k ≤ ass.length) :
    (List.range k).foldlM (freeBucket s.table) m =
      if (ass.take k).flatten = [] then .ok m else .error .unassigned := by
  induction k with
  | zero => rfl
  | succ k ih =>
    have hlt : k < ass.length := by omega
    have has := List.getElem?_eq_getElem hlt
    have hp := List.getElem?_eq_getElem (hC.length ▸ hlt)
    have hlinks := hC.links k _ _ hp has
    rw [List.range_succ, List.foldlM_append, ih (by omega), List.take_succ_eq_append_getElem hlt,
      List.flatten_append, List.flatten_singleton]
    by_cases hempty : (ass.take k).flatten = []
    · rw [if_pos hempty, hempty, List.nil_append, ok_bind, List.foldlM_cons, freeBucket,
        bucket_eq hp, ok_bind]
      cases hcase : ass[k] with
      | nil =>
        rw [hcase] at hlinks
        rw [hlinks]
        rfl
      | cons a as =>
        rw [hcase] at hlinks
        have hcell := hraw a (List.mem_flatten.mpr ⟨ass[k], List.getElem_mem hlt, by simp [hcase]⟩)
        obtain ⟨n, hn⟩ : ∃ n, m.length = n + 1 :=
          ⟨m.length - 1, by have := lt_of_getElem?_eq_some hcell; omega⟩
        rw [hlinks.1, hn, freeFrom_freed hcell]
        rfl
    · rw [if_neg hempty, if_neg (by simp [hempty])]
      rfl

end Table

/-! ## The table afterwards -/

section After

variable {cmp : Key → Key → Int32} {hash : Key → UInt32} {h : Compatible cmp hash} {s : State}
  {bs : List (List (KeyOf h × Value))} {ass : List (List Nat)} {m m₀ : Mem Binding}

/-- A table has a binding exactly if some bucket has a cell. -/
theorem Stands.flatten_eq_nil (hS : Stands h s bs) (hC : Chains s ass) :
    ass.flatten = [] ↔ bs.flatten = [] := by
  have hcount : ass.length = bs.length := hC.length.trans hS.buckets.length.symm
  rw [List.flatten_eq_nil_iff, List.flatten_eq_nil_iff]
  constructor
  · intro hnone xs hxs
    obtain ⟨i, hi⟩ := List.mem_iff_getElem?.mp hxs
    have hlt := hcount ▸ (List.getElem?_eq_some_iff.mp hi).1
    obtain ⟨p, ys, -, hys, hon⟩ := hS.bucketOn hC (List.getElem?_eq_getElem hlt)
    rw [hi] at hys
    cases hys
    have hcont := hon.contents
    rw [hnone _ (List.getElem_mem hlt)] at hcont
    cases hcont
    rfl
  · intro hnone as has
    obtain ⟨i, hi⟩ := List.mem_iff_getElem?.mp has
    obtain ⟨p, ys, -, hys, hon⟩ := hS.bucketOn hC hi
    have hcont := hon.contents
    rw [hnone ys (List.mem_of_getElem? hys)] at hcont
    cases hcont
    rfl

/-- Nothing is left behind the old cells, which are as they were. -/
theorem Owned.all_freed (hO : Owned m₀ s ass) :
    freed s.cells ass.flatten = m₀ ++ List.replicate (s.cells.length - m₀.length) .raw := by
  have hle := hO.length_le
  apply List.ext_getElem?
  intro a
  by_cases hlt : a < m₀.length
  · have hnot : a ∉ ass.flatten := fun hmem => absurd ((hO.live a).mp hmem).1 (Nat.not_le.mpr hlt)
    rw [freed_other hnot, hO.before a hlt, List.getElem?_append_left hlt]
  · rw [List.getElem?_append_right (not_lt.mp hlt), List.getElem?_replicate]
    by_cases hcell : a < s.cells.length
    · rw [if_pos (by omega)]
      by_cases hmem : a ∈ ass.flatten
      · exact freed_mem hmem hcell
      · rw [freed_other hmem]
        by_contra hraw
        refine hmem ((hO.live a).mpr ⟨not_lt.mp hlt, _, List.getElem?_eq_getElem hcell, ?_⟩)
        rintro heq
        exact hraw ((List.getElem?_eq_getElem hcell).trans (congrArg some heq))
    · rw [if_neg (by omega), List.getElem?_eq_none]
      rw [length_freed]
      exact not_lt.mp hcell

theorem Owned.tableFree_eq (hS : Stands h s bs) (hO : Owned m₀ s ass) : tableFree s =
    .ok (if 0 < s.table.length then m₀ ++ List.replicate (s.cells.length - m₀.length) .raw
      else s.cells) := by
  have hcount : s.table.size.toNatClampNeg = ass.length := (hO.chains.length.trans hS.count).symm
  have hloop := freeBucket_fold hO.chains (hS.nodup hO.chains) (Nat.le_refl ass.length)
  rw [List.take_length, hO.all_freed] at hloop
  unfold tableFree
  split
  · rw [hcount, hloop]
  · rfl

/-- The table leaks nothing if it is freed, or had nothing to free. -/
theorem Owned.no_leak_iff (hS : Stands h s bs) (hO : Owned m₀ s ass)
    (hrun : tableFree s = .ok m) : (∃ k, m = m₀ ++ List.replicate k .raw) ↔
      bs.flatten = [] ∨ 0 < s.table.length := by
  rw [hO.tableFree_eq hS] at hrun
  by_cases hpos : 0 < s.table.length
  · rw [if_pos hpos] at hrun
    cases hrun
    exact iff_of_true ⟨_, rfl⟩ (.inr hpos)
  · rw [if_neg hpos] at hrun
    cases hrun
    rw [← hS.flatten_eq_nil hO.chains, or_iff_left hpos]
    constructor
    · rintro ⟨k, hk⟩
      refine List.eq_nil_iff_forall_not_mem.mpr (fun a ha => ?_)
      obtain ⟨hge, c, hc, hne⟩ := (hO.live a).mp ha
      rw [hk, List.getElem?_append_right hge] at hc
      exact hne (List.eq_of_mem_replicate (List.mem_of_getElem? hc))
    · intro hnone
      have hall := hO.all_freed
      rw [hnone] at hall
      exact ⟨_, hall⟩

theorem removeFrom_raw {s : State} {key : Key} {pp : Place} {a : Nat}
    (hpp : pp.read s = .ok (.addr a)) (hraw : s.cells[a]? = some .raw) (fuel : Nat) :
    removeFrom s key (fuel + 1) pp = .error .unassigned := by
  rw [removeFrom, hpp]
  simp only [ok_bind, load_addr hraw]
  rfl

/-- With a binding in its bucket a key cannot be looked for any more. -/
theorem Chains.exec_freed (hC : Chains s ass) (hraw : ∀ a ∈ ass.flatten, m[a]? = some .raw)
    {call : Call} {as : List Nat} (has : ass[s.table.slot call.key]? = some as) :
    (∃ r, call.exec ⟨m, s.table⟩ = .ok r) ↔ as = [] := by
  obtain ⟨p, hp⟩ : ∃ p, s.table.buckets[s.table.slot call.key]? = some p :=
    ⟨_, List.getElem?_eq_getElem (hC.length ▸ (List.getElem?_eq_some_iff.mp has).1)⟩
  have hlinks := hC.links _ _ _ hp has
  let t : State := ⟨m, s.table⟩
  cases as with
  | nil =>
    obtain rfl : p = .null := hlinks
    have hon : BucketOn m .null [] [] := ⟨rfl, .nil⟩
    have hsearch : s.table.search m call.key = .ok .null := search_none hp hon (by simp)
    refine iff_of_true ?_ rfl
    cases call with
    | put key value => exact ⟨_, tablePut_new (s := t) hp hsearch value⟩
    | get key =>
      have hget : tableGet m s.table key = .ok 0 := by
        rw [tableGet, show s.table.search m key = .ok .null from hsearch]
        rfl
      refine ⟨(t, 0), ?_⟩
      show (tableGet m s.table key >>= fun value => .ok (t, value)) = _
      rw [hget]
      rfl
    | remove key => exact ⟨_, removeFrom_none (bucket_eq hp) hon (by simp) (Nat.succ_pos _)⟩
  | cons a as =>
    obtain rfl : p = .addr a := hlinks.1
    have hcell := hraw a (List.mem_flatten.mpr ⟨_, List.mem_of_getElem? has, by simp⟩)
    have hsearch : s.table.search m call.key = .error .unassigned := by
      rw [T.search, bucket_eq hp, ok_bind, forChainFlow, meet, load_addr hcell]
      rfl
    have hfail : call.exec t = .error .unassigned := by
      cases call with
      | put key value =>
        show tablePut t key value = _
        rw [tablePut, show t.table.search t.cells key = .error .unassigned from hsearch]
        rfl
      | get key =>
        show (tableGet m s.table key >>= fun value => .ok (t, value)) = _
        rw [tableGet, show s.table.search m key = .error .unassigned from hsearch]
        rfl
      | remove key =>
        let t' : State := { t with table := { t.table with timestamp := t.table.timestamp + 1 } }
        have hread : (Place.bucket (t'.table.slot key)).read t' = .ok (.addr a) := bucket_eq hp
        exact removeFrom_raw hread hcell _
    refine iff_of_false ?_ (List.cons_ne_nil _ _)
    rintro ⟨r, hr⟩
    rw [hfail] at hr
    cases hr

/-- The freed bindings still hang in their buckets. -/
theorem freed_spec {m : Mem Binding} (hS : Stands h s bs) (hO : Owned m₀ s ass)
    (hrun : tableFree s = .ok m) (hpos : 0 < s.table.length) :
    tableFree ⟨m, s.table⟩ = .error .unassigned ∧ ∀ call : Call,
      (∃ r, call.exec ⟨m, s.table⟩ = .ok r) ↔
        ∀ key : Key, classOf h key ∈ mapOf bs.flatten →
          s.table.slot key ≠ s.table.slot call.key := by
  have hne : ass.flatten ≠ [] := by
    rw [Ne, hS.flatten_eq_nil hO.chains]
    intro hnone
    rw [hS.length, hnone] at hpos
    exact Int32.lt_irrefl hpos
  have hcount : s.table.size.toNatClampNeg = ass.length := (hO.chains.length.trans hS.count).symm
  have hmem : m = freed s.cells ass.flatten := by
    rw [hO.tableFree_eq hS, if_pos hpos, ← hO.all_freed] at hrun
    exact (Except.ok.inj hrun).symm
  have hraw : ∀ a ∈ ass.flatten, m[a]? = some .raw := by
    intro a ha
    obtain ⟨-, c, hc, -⟩ := (hO.live a).mp ha
    rw [hmem]
    exact freed_mem ha (lt_of_getElem?_eq_some hc)
  constructor
  · have hloop := freeBucket_fold_freed hO.chains hraw (Nat.le_refl ass.length)
    rw [List.take_length, if_neg hne] at hloop
    have hpos' : s.table.length > 0 := hpos
    rw [tableFree, if_pos hpos', hcount]
    exact hloop
  · intro call
    obtain ⟨as, has⟩ : ∃ as, ass[s.table.slot call.key]? = some as :=
      ⟨_, List.getElem?_eq_getElem (hO.chains.length ▸ hS.slot_lt call.key)⟩
    obtain ⟨p, xs, -, hxs, hon⟩ := hS.bucketOn hO.chains has
    rw [hO.chains.exec_freed hraw has]
    constructor
    · rintro rfl key hkey hslot
      obtain ⟨b, hb, heq⟩ := mem_mapOf.mp hkey
      obtain ⟨ys, hys, hb⟩ := List.mem_flatten.mp hb
      obtain ⟨j, hj⟩ := List.mem_iff_getElem?.mp hys
      have hplaced := hS.spread.placed j ys hj b hb
      have hsame : s.table.slotOf h (keyOf h key) = s.table.slotOf h b.1 := hS.slot_eq _ _ heq
      obtain rfl : s.table.slot call.key = j := hslot.symm.trans (hsame.trans hplaced)
      rw [hxs] at hj
      cases hj
      have hcont := hon.contents
      cases hcont
      cases hb
    · intro hother
      refine List.eq_nil_iff_forall_not_mem.mpr (fun a ha => ?_)
      obtain ⟨b, hb, -⟩ := hon.contents.mem_left ha
      have hbound : classOf h b.1 ∈ mapOf bs.flatten :=
        mem_mapOf.mpr ⟨b, List.mem_flatten.mpr ⟨xs, List.mem_of_getElem? hxs, hb⟩, Setoid.refl _⟩
      exact hother b.1 hbound (hS.spread.placed _ xs hxs b hb)

end After

/-! ## The life of a table -/

/-- From `Table_new` on, after any calls, `Table_free` ends, and no binding is left in memory
exactly if there were none any more or `length` is positive. Where it is, a second `Table_free`
reads a freed binding, and so does every call for a key whose bucket had one, but no other;
elsewhere `Table_free` never does anything. -/
theorem table_freed (hint : Int32) {cmp : Option (Key → Key → Int32)}
    {hash : Option (Key → UInt32)} (h : Compatible (cmp.getD cmpatom) (hash.getD hashatom))
    (cells : Mem Binding) (calls : List Call) : ∃ table s m,
      tableNew hint cmp hash = .ok table ∧
      runCalls calls ⟨cells, table⟩ = .ok (s, (mapCalls (h := h) calls ∅).2) ∧
      tableFree s = .ok m ∧
      tableLength s.table = Int32.ofNat (mapCalls (h := h) calls ∅).1.keys.card ∧
      ((∃ k, m = cells ++ List.replicate k .raw) ↔
        (mapCalls (h := h) calls ∅).1 = ∅ ∨ 0 < tableLength s.table) ∧
      (0 < tableLength s.table → tableFree ⟨m, s.table⟩ = .error .unassigned ∧
        ∀ call : Call, (∃ r, call.exec ⟨m, s.table⟩ = .ok r) ↔
          ∀ key : Key, classOf h key ∈ (mapCalls (h := h) calls ∅).1 →
            s.table.slot key ≠ s.table.slot call.key) ∧
      (¬ 0 < tableLength s.table → m = s.cells ∧ tableFree ⟨m, s.table⟩ = .ok m) := by
  obtain ⟨table, n, hnew, hS₀⟩ := tableNew_stands hint h cells
  obtain ⟨s, bs, hrun, hS, hmap⟩ := hS₀.run calls
  rw [mapOf_replicate] at hrun hmap
  obtain ⟨s', ass, vs, hrun', hO⟩ := hS₀.run_owned hS₀.owned_new calls
  obtain ⟨rfl, -⟩ : s' = s ∧ _ := Prod.mk.inj (Except.ok.inj (hrun'.symm.trans hrun))
  have hfree := hO.tableFree_eq hS
  refine ⟨table, s', _, hnew, hrun, hfree, ?_, ?_, fun hpos => ?_, fun hnot => ?_⟩
  · rw [← hmap, card_mapOf hS.spread.apart]
    exact hS.length
  · rw [hO.no_leak_iff hS hfree, ← hmap, mapOf_eq_empty]
    rfl
  · rw [← hmap]
    exact freed_spec hS hO hfree hpos
  · have hidle : ∀ cells : Mem Binding, tableFree ⟨cells, s'.table⟩ = .ok cells :=
      fun cells => if_neg hnot
    have hcells := Except.ok.inj (hfree.symm.trans (hidle s'.cells))
    exact ⟨hcells, hidle _⟩

theorem table_freed_atoms : ∃ table s m,
    tableNew 3 none none = .ok table ∧
    runCalls [.put (sampleKey 1) 7, .put (sampleKey 2) 8, .remove (sampleKey 1)] ⟨[], table⟩ =
      .ok (s, (mapCalls (h := compatible_atoms)
        [.put (sampleKey 1) 7, .put (sampleKey 2) 8, .remove (sampleKey 1)] ∅).2) ∧
    tableFree s = .ok m ∧ ((∃ k, m = [] ++ List.replicate k .raw) ↔
      (mapCalls (h := compatible_atoms)
        [.put (sampleKey 1) 7, .put (sampleKey 2) 8, .remove (sampleKey 1)] ∅).1 = ∅ ∨
        0 < tableLength s.table) := by
  obtain ⟨table, s, m, hnew, hrun, hfree, -, hleak, -⟩ := @table_freed 3 none none
    compatible_atoms [] [.put (sampleKey 1) 7, .put (sampleKey 2) 8, .remove (sampleKey 1)]
  exact ⟨table, s, m, hnew, hrun, hfree, hleak⟩

end VpnP2p.Table
