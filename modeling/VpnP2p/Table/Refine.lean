import VpnP2p.Foundation.Buckets
import VpnP2p.Table.Chains

/-!
# The table as a finite map

Where `cmp` tells the classes of keys apart and `hash` does not look inside a class, the
bindings of the table are a finite map on the classes: each call returns what the map
returns and leaves what the map leaves. Only `Table_length` is an `int` and stops
following the number of classes at `INT_MAX`.
-/

namespace VpnP2p.Table

open Foundation

/-! ## Classes of keys -/

/-- `cmp` is 0 on the classes of an equivalence, and `hash` is constant on each. -/
structure Compatible (cmp : Key → Key → Int32) (hash : Key → UInt32) : Prop where
  equiv : Equivalence (fun x y => cmp x y = 0)
  hash : ∀ x y, cmp x y = 0 → hash x = hash y

/-- The defaults tell all keys apart. -/
theorem compatible_atoms : Compatible cmpatom hashatom := by
  have heq : ∀ x y, cmpatom x y = 0 ↔ x = y := by
    intro x y
    unfold cmpatom
    by_cases hxy : x = y <;> simp [hxy]
  refine ⟨⟨fun x => (heq x x).mpr rfl, fun {x y} h => ?_, fun {x y z} h h' => ?_⟩, fun x y h => ?_⟩
  · exact (heq y x).mpr ((heq x y).mp h).symm
  · exact (heq x z).mpr (((heq x y).mp h).trans ((heq y z).mp h'))
  · rw [(heq x y).mp h]

section Classes

variable {cmp : Key → Key → Int32} {hash : Key → UInt32} (h : Compatible cmp hash)

/-- A key, to be compared with `cmp`. -/
def KeyOf (_ : Compatible cmp hash) : Type := Key

instance classes : Setoid (KeyOf h) := ⟨fun x y => cmp x y = 0, h.equiv⟩

instance : DecidableRel (α := KeyOf h) (· ≈ ·) :=
  fun x y => inferInstanceAs (Decidable (cmp x y = 0))

abbrev Class := Quotient (classes h)

def keyOf (key : Key) : KeyOf h := key

def classOf (key : Key) : Class h := ⟦keyOf h key⟧

/-- What the table is for. -/
abbrev TableMap := Finmap (fun _ : Class h => Value)

/-- The bucket of a key. -/
def T.slotOf (table : T) (key : KeyOf h) : Nat := table.slot key

variable {h}

/-- A call on the map, with what it returns. -/
def Call.onMap (f : TableMap h) : Call → TableMap h × Value
  | .put key value => (f.insert (classOf h key) value, (f.lookup (classOf h key)).getD 0)
  | .get key => (f, (f.lookup (classOf h key)).getD 0)
  | .remove key => (f.erase (classOf h key), (f.lookup (classOf h key)).getD 0)

def mapCalls : List Call → TableMap h → TableMap h × List Value
  | [], f => (f, [])
  | call :: calls, f =>
    let (f, value) := call.onMap f
    let (f, values) := mapCalls calls f
    (f, value :: values)

end Classes

/-! ## The buckets of a table -/

/-- The buckets of the table hold the bindings `bs`. -/
structure Buckets (s : State) (bs : List (List (Key × Value))) : Prop where
  length : bs.length = s.table.buckets.length
  holds : ∀ (i : Nat) p xs, s.table.buckets[i]? = some p → bs[i]? = some xs → BucketAt s.cells p xs

/-- One bucket is changed, in its own cells. -/
theorem Buckets.replace {s s' : State} {bs : List (List (Key × Value))} {i : Nat} {p p' : Ptr}
    {as : List Nat} {xs ys : List (Key × Value)} {slot : Key → Nat} (hB : Buckets s bs)
    (hplaced : ∀ (i : Nat) xs, bs[i]? = some xs → ∀ b ∈ xs, slot b.1 = i) (hxs : bs[i]? = some xs)
    (hon : BucketOn s.cells p as xs) (hbuckets : s'.table.buckets = s.table.buckets.set i p')
    (hcells : ∀ (a : Nat) (c : Binding), a ∉ as → s.cells[a]? = some c → s'.cells[a]? = some c)
    (hnew : BucketAt s'.cells p' ys) : Buckets s' (bs.set i ys) where
  length := by rw [hbuckets, List.length_set, List.length_set, hB.length]
  holds := by
    intro j q zs hq hzs
    rw [hbuckets] at hq
    have hi := (List.getElem?_eq_some_iff.mp hxs).1
    by_cases hij : i = j
    · subst hij
      rw [List.getElem?_set_self (hB.length ▸ hi)] at hq
      rw [List.getElem?_set_self hi] at hzs
      cases hq
      cases hzs
      exact hnew
    · rw [List.getElem?_set_ne hij] at hq hzs
      apply (hB.holds j q zs hq hzs).frame
      rintro a c hc ⟨b, hb, hcb⟩
      -- A cell of bucket `i` holds a binding that does not belong to bucket `j`.
      refine hcells a c (fun ha => hij ?_) hc
      obtain ⟨b', hb', c', hc', hcb'⟩ := hon.contents.mem_left ha
      rw [hc] at hc'
      cases hc'
      obtain rfl := hcb.unique hcb'
      exact (hplaced i xs hxs b hb').symm.trans (hplaced j zs hzs b hb)

/-- The table stands for the bindings `bs`, each in the bucket of its key. -/
structure Stands {cmp : Key → Key → Int32} {hash : Key → UInt32} (h : Compatible cmp hash)
    (s : State) (bs : List (List (KeyOf h × Value))) : Prop where
  cmp : s.table.cmp = cmp
  hash : s.table.hash = hash
  size : 0 < s.table.size
  count : s.table.buckets.length = s.table.size.toNatClampNeg
  buckets : Buckets s bs
  spread : Spread (s.table.slotOf h) bs
  length : s.table.length = Int32.ofNat bs.flatten.length

section Calls

variable {cmp : Key → Key → Int32} {hash : Key → UInt32} {h : Compatible cmp hash} {s : State}
  {bs : List (List (KeyOf h × Value))} {key : Key}

theorem Stands.slot_lt (hS : Stands h s bs) (key : Key) :
    s.table.slot key < s.table.buckets.length := by
  have hsize := Int32.toNat_toUInt32_of_le (Int32.le_of_lt hS.size)
  have hpos := Int32.lt_iff_toInt_lt.mp hS.size
  have hclamp := Int32.cast_toNatClampNeg s.table.size (Int32.le_of_lt hS.size)
  rw [Int32.toInt_zero] at hpos
  rw [hS.count, ← hsize]
  unfold T.slot
  rw [UInt32.toNat_mod]
  apply Nat.mod_lt
  omega

theorem Stands.slot_def (hS : Stands h s bs) (key : Key) :
    s.table.slot key = (hash key % s.table.size.toUInt32).toNat := by
  rw [T.slot, hS.hash]

/-- Keys of a class have a bucket in common. -/
theorem Stands.slot_eq (hS : Stands h s bs) (x y : KeyOf h) (hxy : x ≈ y) :
    s.table.slotOf h x = s.table.slotOf h y := by
  unfold T.slotOf T.slot
  rw [hS.hash, h.hash x y hxy]

theorem Stands.cmp_iff (hS : Stands h s bs) (key : Key) (k : KeyOf h) :
    s.table.cmp key k = 0 ↔ keyOf h key ≈ k := by
  rw [hS.cmp]
  exact Iff.rfl

theorem Stands.bucketOf (hS : Stands h s bs) (key : Key) : ∃ p xs as,
    s.table.buckets[s.table.slot key]? = some p ∧ bs[s.table.slotOf h (keyOf h key)]? = some xs ∧
      BucketOn s.cells p as xs := by
  have hlt := hS.slot_lt key
  have hp := List.getElem?_eq_getElem hlt
  have hxs := List.getElem?_eq_getElem (hS.buckets.length ▸ hlt)
  obtain ⟨as, hon⟩ := hS.buckets.holds _ _ _ hp hxs
  exact ⟨_, _, as, hp, hxs, hon⟩

/-- The search ends at NULL where the bucket has no binding of the key's class. -/
theorem Stands.search_none (hS : Stands h s bs) {p : Ptr} {xs : List (KeyOf h × Value)}
    {as : List Nat} (hp : s.table.buckets[s.table.slot key]? = some p)
    (hon : BucketOn s.cells p as xs) (hno : ∀ b ∈ xs, ¬ keyOf h key ≈ b.1) :
    s.table.search s.cells key = .ok .null := by
  apply Table.search_none hp hon
  exact fun b hb h0 => hno b hb ((hS.cmp_iff key b.1).mp h0)

/-- What a call leaves of the table, when the map is left as `f` and bindings of other
classes than `key`'s are left alone. -/
structure Leaves (h : Compatible cmp hash) (key : Key) (bs : List (List (KeyOf h × Value)))
    (s' : State) (f : TableMap h) (bs' : List (List (KeyOf h × Value))) : Prop where
  stands : Stands h s' bs'
  map : mapOf bs'.flatten = f
  others : OthersKept (keyOf h key) bs bs'

/-- The cells of other buckets do not see a new cell. -/
theorem getElem?_of_malloc {m : Mem Binding} {c : Binding} {f : Binding → Binding} {a : Nat}
    {d : Binding} (hd : m[a]? = some d) :
    ((m ++ [c]).modify m.length f)[a]? = some d := by
  have hlt := lt_of_getElem?_eq_some hd
  rw [getElem?_modify_of_ne f (Nat.ne_of_lt hlt), List.getElem?_append_left hlt]
  exact hd

theorem Stands.put_new (hS : Stands h s bs) {p : Ptr} {xs : List (KeyOf h × Value)}
    {as : List Nat} (hp : s.table.buckets[s.table.slot key]? = some p)
    (hxs : bs[s.table.slotOf h (keyOf h key)]? = some xs) (hon : BucketOn s.cells p as xs)
    (hno : ∀ b ∈ xs, ¬ keyOf h key ≈ b.1) (value : Value) : ∃ s' bs',
    tablePut s key value = .ok (s', 0) ∧
      Leaves h key bs s' ((mapOf bs.flatten).insert (classOf h key) value) bs' := by
  obtain ⟨hspread, hmap, hothers⟩ := hS.spread.bind_new hS.slot_eq hxs hno value
  have hsearch := hS.search_none hp hon hno
  let c : Binding := { Binding.raw with key := some key, link := p }
  let f : Binding → Binding := fun b => { b with value := some value }
  let s' : State := ⟨(s.cells ++ [c]).modify s.cells.length f, { s.table with
    buckets := s.table.buckets.set (s.table.slot key) (.addr s.cells.length)
    length := s.table.length + 1
    timestamp := s.table.timestamp + 1 }⟩
  have hrun : tablePut s key value = .ok (s', 0) := by
    simp only [tablePut, hsearch, ok_bind, if_true, bucket_eq hp]
    rw [update_addr (by simp)]
    rfl
  have hcell : s'.cells[s.cells.length]? = some (f c) :=
    getElem?_modify_same f (by simp)
  have hbucket : BucketAt s'.cells (.addr s.cells.length) ((keyOf h key, value) :: xs) := by
    have hold : BucketOn s'.cells p as xs := by
      constructor
      · exact hon.links.sameLinks (fun a _ d hd => ⟨d, getElem?_of_malloc hd, rfl⟩)
      · exact hon.contents.transport (fun a _ d _ hd hb => ⟨d, getElem?_of_malloc hd, hb⟩)
    exact ⟨_ :: as, ⟨rfl, f c, hcell, hold.links⟩, .cons ⟨f c, hcell, rfl, rfl⟩ hold.contents⟩
  have hlength := hS.spread.length_set hxs ((keyOf h key, value) :: xs)
  refine ⟨s', _, hrun, ?_, hmap, hothers⟩
  exact {
    cmp := hS.cmp
    hash := hS.hash
    size := hS.size
    count := (List.length_set ..).trans hS.count
    buckets := hS.buckets.replace hS.spread.placed hxs hon rfl
      (fun a d _ hd => getElem?_of_malloc hd) hbucket
    spread := hspread
    length := by
      have hone : (bs.set (s.table.slotOf h (keyOf h key))
          ((keyOf h key, value) :: xs)).flatten.length = bs.flatten.length + 1 := by
        rw [List.length_cons] at hlength
        omega
      show s.table.length + 1 = _
      rw [hone, Int32.ofNat_add, hS.length]
      rfl }

section Found

variable {p : Ptr} {as : List Nat} {pre post : List (KeyOf h × Value)} {b : KeyOf h × Value}

theorem Stands.put_old (hS : Stands h s bs)
    (hp : s.table.buckets[s.table.slot key]? = some p)
    (hxs : bs[s.table.slotOf h (keyOf h key)]? = some (pre ++ b :: post))
    (hon : BucketOn s.cells p as (pre ++ b :: post)) (hno : ∀ c ∈ pre, ¬ keyOf h key ≈ c.1)
    (heq : keyOf h key ≈ b.1) (value : Value) : ∃ s' bs',
    tablePut s key value = .ok (s', b.2) ∧
      Leaves h key bs s' ((mapOf bs.flatten).insert (classOf h key) value) bs' := by
  obtain ⟨hspread, hmap, hothers⟩ := hS.spread.bind_old hS.slot_eq hxs heq value
  obtain ⟨as₁, a, as₂, rfl, hpre, ⟨c, hc, hcb⟩, hpost⟩ := hon.contents.split
  have hsearch : s.table.search s.cells key = .ok (.addr a) := by
    apply search_some hp hon.links hpre _ hc hcb ((hS.cmp_iff key b.1).mpr heq)
    exact fun c hc h0 => hno c hc ((hS.cmp_iff key c.1).mp h0)
  let f : Binding → Binding := fun b => { b with value := some value }
  let s' : State :=
    ⟨s.cells.modify a f, { s.table with timestamp := s.table.timestamp + 1 }⟩
  have hrun : tablePut s key value = .ok (s', b.2) := by
    simp only [tablePut, hsearch, ok_bind, if_neg (show Ptr.addr a ≠ .null by simp), load_addr hc,
      hcb.value, assigned_some, update_addr (lt_of_getElem?_eq_some hc)]
    rfl
  have hnot := (List.nodup_cons.mp (List.nodup_middle.mp hon.links.nodup)).1
  rw [List.mem_append, not_or] at hnot
  have hbucket : BucketAt s'.cells p (pre ++ (b.1, value) :: post) :=
    ⟨_, hon.links.sameLinks (SameLinks.modify _ (fun _ _ => rfl)),
      (hpre.modify_other hnot.1 f).append
        (.cons ⟨f c, getElem?_modify_same f hc, hcb.key, rfl⟩ (hpost.modify_other hnot.2 f))⟩
  have hlength := hS.spread.length_set hxs (pre ++ (b.1, value) :: post)
  refine ⟨s', _, hrun, ?_, hmap, hothers⟩
  exact {
    cmp := hS.cmp
    hash := hS.hash
    size := hS.size
    count := hS.count
    buckets := by
      have hbuckets : s'.table.buckets = s.table.buckets.set (s.table.slot key) p :=
        (set_self_of_getElem? hp).symm
      apply hS.buckets.replace hS.spread.placed hxs hon hbuckets _ hbucket
      intro d e hd he
      have hda : d ≠ a := fun h => hd (by simp [h])
      exact (getElem?_modify_of_ne f hda).trans he
    spread := hspread
    length := by
      have hsame : (bs.set (s.table.slotOf h (keyOf h key))
          (pre ++ (b.1, value) :: post)).flatten.length = bs.flatten.length := by
        simp only [List.length_append, List.length_cons] at hlength
        omega
      rw [hsame]
      exact hS.length }

theorem Stands.remove_old (hS : Stands h s bs)
    (hp : s.table.buckets[s.table.slot key]? = some p)
    (hxs : bs[s.table.slotOf h (keyOf h key)]? = some (pre ++ b :: post))
    (hon : BucketOn s.cells p as (pre ++ b :: post)) (hno : ∀ c ∈ pre, ¬ keyOf h key ≈ c.1)
    (heq : keyOf h key ≈ b.1) : ∃ s' bs', tableRemove s key = .ok (s', b.2) ∧
      Leaves h key bs s' ((mapOf bs.flatten).erase (classOf h key)) bs' := by
  obtain ⟨hspread, hmap, hothers⟩ := hS.spread.unbind hS.slot_eq hxs heq
  obtain ⟨as₁, a, as₂, rfl, hpre, ⟨c, hc, hcb⟩, hpost⟩ := hon.contents.split
  let t : State := { s with table := { s.table with timestamp := s.table.timestamp + 1 } }
  obtain ⟨s₁, cells, p', hwrite, hfree, htable, hbucket, hcells⟩ :=
    unlink_spec (s := t) hp hon.links hc hpre hpost
  have hfuel : as₁.length < s.cells.length + 1 := by
    have hle := hon.links.length_le
    rw [List.length_append] at hle
    omega
  have hread : (Place.bucket (s.table.slot key)).read t = .ok p := bucket_eq hp
  have hrun : tableRemove s key =
      .ok (⟨cells, { s₁.table with length := s₁.table.length - 1 }⟩, b.2) := by
    have hloop := removeFrom_some hread hon.links hpre
      (fun c hc h0 => hno c hc ((hS.cmp_iff key c.1).mp h0)) hc hcb
      ((hS.cmp_iff key b.1).mpr heq) hfuel
    refine Eq.trans hloop ?_
    simp only [hwrite, hfree, ok_bind]
  have hlength := hS.spread.length_set hxs (pre ++ post)
  refine ⟨_, _, hrun, ?_, hmap, hothers⟩
  rw [htable]
  exact {
    cmp := hS.cmp
    hash := hS.hash
    size := hS.size
    count := (List.length_set ..).trans hS.count
    buckets := hS.buckets.replace hS.spread.placed hxs hon rfl hcells hbucket
    spread := hspread
    length := by
      have hone : bs.flatten.length = (bs.set (s.table.slotOf h (keyOf h key))
          (pre ++ post)).flatten.length + 1 := by
        simp only [List.length_append, List.length_cons] at hlength
        omega
      show s.table.length - 1 = _
      rw [hS.length, hone, Int32.ofNat_add]
      exact Int32.add_sub_cancel _ _ }

end Found

/-- What a search in the bucket of a key finds. -/
theorem Stands.cases (hS : Stands h s bs) (key : Key) : ∃ p xs as,
    s.table.buckets[s.table.slot key]? = some p ∧
      bs[s.table.slotOf h (keyOf h key)]? = some xs ∧ BucketOn s.cells p as xs ∧
      ((∀ b ∈ xs, ¬ keyOf h key ≈ b.1) ∨ ∃ pre b post, xs = pre ++ b :: post ∧
        (∀ c ∈ pre, ¬ keyOf h key ≈ c.1) ∧ keyOf h key ≈ b.1) := by
  obtain ⟨p, xs, as, hp, hxs, hon⟩ := hS.bucketOf key
  exact ⟨p, xs, as, hp, hxs, hon, first_binding cmp key xs⟩

theorem Stands.put (hS : Stands h s bs) (key : Key) (value : Value) : ∃ s' bs',
    tablePut s key value = .ok (s', ((mapOf bs.flatten).lookup (classOf h key)).getD 0) ∧
      Leaves h key bs s' ((mapOf bs.flatten).insert (classOf h key) value) bs' := by
  obtain ⟨p, xs, as, hp, hxs, hon, hno | ⟨pre, b, post, rfl, hno, heq⟩⟩ := hS.cases key
  · rw [show (mapOf bs.flatten).lookup (classOf h key) = none from
      hS.spread.absent hS.slot_eq hxs hno]
    exact hS.put_new hp hxs hon hno value
  · rw [show (mapOf bs.flatten).lookup (classOf h key) = some b.2 from
      hS.spread.present hS.slot_eq hxs heq]
    exact hS.put_old hp hxs hon hno heq value

theorem Stands.get (hS : Stands h s bs) (key : Key) : tableGet s.cells s.table key =
    .ok (((mapOf bs.flatten).lookup (classOf h key)).getD 0) := by
  obtain ⟨p, xs, as, hp, hxs, hon, hno | ⟨pre, b, post, rfl, hno, heq⟩⟩ := hS.cases key
  · rw [show (mapOf bs.flatten).lookup (classOf h key) = none from
      hS.spread.absent hS.slot_eq hxs hno, tableGet, hS.search_none hp hon hno]
    rfl
  · obtain ⟨as₁, a, as₂, rfl, hpre, ⟨c, hc, hcb⟩, -⟩ := hon.contents.split
    rw [show (mapOf bs.flatten).lookup (classOf h key) = some b.2 from
      hS.spread.present hS.slot_eq hxs heq, tableGet,
      search_some hp hon.links hpre (fun c hc h0 => hno c hc ((hS.cmp_iff key c.1).mp h0)) hc hcb
        ((hS.cmp_iff key b.1).mpr heq)]
    simp only [ok_bind, if_neg (show Ptr.addr a ≠ .null by simp), load_addr hc, hcb.value,
      assigned_some, Option.getD_some]

theorem Stands.remove (hS : Stands h s bs) (key : Key) : ∃ s' bs',
    tableRemove s key = .ok (s', ((mapOf bs.flatten).lookup (classOf h key)).getD 0) ∧
      Leaves h key bs s' ((mapOf bs.flatten).erase (classOf h key)) bs' := by
  obtain ⟨p, xs, as, hp, hxs, hon, hno | ⟨pre, b, post, rfl, hno, heq⟩⟩ := hS.cases key
  · have hlookup : (mapOf bs.flatten).lookup (classOf h key) = none :=
      hS.spread.absent hS.slot_eq hxs hno
    have herase := erase_of_lookup_none hlookup
    rw [hlookup, herase]
    let t : State := { s with table := { s.table with timestamp := s.table.timestamp + 1 } }
    have hfuel : as.length < s.cells.length + 1 := Nat.lt_succ_of_le hon.links.length_le
    refine ⟨t, bs, ?_, ?_, rfl, fun _ _ => Iff.rfl⟩
    · have hread : (Place.bucket (s.table.slot key)).read t = .ok p := bucket_eq hp
      exact removeFrom_none hread hon (fun b hb h0 => hno b hb ((hS.cmp_iff key b.1).mp h0)) hfuel
    · exact ⟨hS.cmp, hS.hash, hS.size, hS.count, ⟨hS.buckets.length, hS.buckets.holds⟩, hS.spread,
        hS.length⟩
  · rw [show (mapOf bs.flatten).lookup (classOf h key) = some b.2 from
      hS.spread.present hS.slot_eq hxs heq]
    exact hS.remove_old hp hxs hon hno heq

end Calls

end VpnP2p.Table
