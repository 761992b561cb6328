import VpnP2p.Table.FiniteMap

/-!
# Enumerating the table

`Table_toArray` writes the bindings of all buckets into an array that it allocates for
`Table_length` of them. The count of slots is an `int`, so it is right for fewer than 2^30
bindings; and the table exists in the first place only if the block `Table_put` allocates for
a pointer has room for a whole binding.
-/

namespace VpnP2p.Table

open Foundation

/-! ## The code -/

/-- `array[j++] = v`, in an array of `size` slots. -/
def store (size : Nat) : List (Option Value) × Nat → Value → Result (List (Option Value) × Nat)
  | (array, j), v =>
    if j < size then .ok (array.set j (some v), j + 1) else .error .outOfBounds

/-- The body of the inner loop: the key and the value of a binding. -/
def storeBinding (m : Mem Binding) (size p : Nat) (st : List (Option Value) × Nat) :
    Result (List (Option Value) × Nat) := do
  let b ← load m (.addr p)
  let k ← assigned b.key
  let st ← store size st k.val
  let v ← assigned b.value
  store size st v

/-- The body of the outer loop, for bucket `i`. -/
def storeBucket (m : Mem Binding) (table : T) (size : Nat) (st : List (Option Value) × Nat)
    (i : Nat) : Result (List (Option Value) × Nat) := do
  let p ← table.bucket i
  forChain (fun _ => m) Binding.link (storeBinding m size) (m.length + 1) p st

/-- `Table_toArray(table, end)`. -/
def tableToArray (m : Mem Binding) (table : T) (last : Value) :
    Result (List (Option Value)) := do
  let count := 2 * table.length + 1
  -- A negative `int` is too much for `malloc`, which returns NULL.
  if count < 0 then .error .nullDeref
  else do
    let size := count.toNatClampNeg
    let st ← (List.range table.size.toNatClampNeg).foldlM (storeBucket m table size)
      (List.replicate size none, 0)
    let (array, _) ← store size st last
    .ok array

/-! ## What it writes -/

/-- The slots of a binding. -/
def slots (b : Key × Value) : List Value := [b.1.val, b.2]

theorem length_slots (xs : List (Key × Value)) (last : Value) :
    (xs.flatMap slots ++ [last]).length = 2 * xs.length + 1 := by
  simp [List.length_flatMap, slots, Nat.mul_comm]

section Writes

variable {m : Mem Binding} {size : Nat} {as : List Nat} {xs : List (Key × Value)}

theorem storeBinding_fold (hcont : Contents Binding.Holds m as xs)
    (st : List (Option Value) × Nat) :
    as.foldlM (fun t a => storeBinding m size a t) st =
      (xs.flatMap slots).foldlM (store size) st := by
  induction hcont generalizing st with
  | nil => rfl
  | @cons a b as xs ha _ ih =>
    obtain ⟨c, hc, hcb⟩ := ha
    have hstep : storeBinding m size a st = (slots b).foldlM (store size) st := by
      rw [storeBinding, load_addr hc, ok_bind, hcb.key, assigned_some, ok_bind, slots,
        List.foldlM_cons]
      simp only [hcb.value, assigned_some, ok_bind, List.foldlM_cons, List.foldlM_nil, bind_pure]
    rw [List.foldlM_cons, List.flatMap_cons, List.foldlM_append, hstep]
    congr 1
    funext t
    exact ih t

end Writes

section Buckets

variable {s : State}

theorem storeBucket_fold (size : Nat) {bs : List (List (Key × Value))} (hB : Buckets s bs)
    {k : Nat} (hk : k ≤ bs.length) (st : List (Option Value) × Nat) :
    (List.range k).foldlM (storeBucket s.cells s.table size) st =
      ((bs.take k).flatten.flatMap slots).foldlM (store size) st := by
  induction k with
  | zero => rfl
  | succ k ih =>
    have hlt : k < bs.length := by omega
    have hxs := List.getElem?_eq_getElem hlt
    have hp := List.getElem?_eq_getElem (hB.length ▸ hlt)
    obtain ⟨as, hon⟩ := hB.holds k _ _ hp hxs
    have hbucket : ∀ t, storeBucket s.cells s.table size t k =
        (bs[k].flatMap slots).foldlM (store size) t := by
      intro t
      rw [storeBucket, bucket_eq hp, ok_bind, forChain_read_eq_foldlM hon.links
        (Nat.lt_succ_of_le hon.links.length_le)]
      exact storeBinding_fold hon.contents t
    have htake : (bs.take (k + 1)).flatten.flatMap slots =
        (bs.take k).flatten.flatMap slots ++ bs[k].flatMap slots := by
      rw [List.take_add_one, hxs, List.flatten_append, List.flatMap_append]
      simp
    rw [List.range_succ, List.foldlM_append, ih (by omega), htake, List.foldlM_append]
    congr 1
    funext t
    simp only [List.foldlM_cons, List.foldlM_nil, bind_pure, hbucket]

variable {bs : List (List (Key × Value))}

/-- The loops write the bindings in the order of the buckets, if there is room. -/
theorem storeBuckets_eq (size : Nat) (hB : Buckets s bs)
    (hcount : bs.length = s.table.size.toNatClampNeg) (last : Value) :
    (do
      let st ← (List.range s.table.size.toNatClampNeg).foldlM (storeBucket s.cells s.table size)
        (List.replicate size none, 0)
      store size st last) =
      if 2 * bs.flatten.length + 1 ≤ size then
        .ok ((bs.flatten.flatMap slots ++ [last]).map some ++
          List.replicate (size - (2 * bs.flatten.length + 1)) none, 2 * bs.flatten.length + 1)
      else .error .outOfBounds := by
  have hloop := storeBucket_fold size hB hcount.ge (List.replicate size none, 0)
  have hall : bs.take s.table.size.toNatClampNeg = bs := List.take_of_length_le hcount.le
  have hfill := foldlM_fill (f := store size) (fun _ _ _ => rfl) none
    (bs.flatten.flatMap slots ++ [last]) [] size (by simp)
  rw [length_slots, List.foldlM_append] at hfill
  rw [hloop, hall]
  simpa only [List.nil_append, List.length_nil, Nat.zero_add, List.foldlM_cons, List.foldlM_nil,
    bind_pure] using hfill

/-- The count of slots, as long as it is an `int`. -/
theorem toInt_slots {n : Nat} (hn : n < 2 ^ 30) :
    (2 * Int32.ofNat n + 1).toInt = 2 * (n : Int) + 1 := by
  have hcount : 2 * Int32.ofNat n + 1 = Int32.ofNat (2 * n + 1) := by
    rw [Int32.ofNat_add, Int32.ofNat_mul]
    rfl
  rw [hcount, Int32.toInt_ofNat_of_lt (by omega)]
  omega

theorem tableToArray_eq (hB : Buckets s bs) (hcount : bs.length = s.table.size.toNatClampNeg)
    (hlength : s.table.length = Int32.ofNat bs.flatten.length) (last : Value)
    (hfew : bs.flatten.length < 2 ^ 30) : tableToArray s.cells s.table last =
      .ok ((bs.flatten.flatMap slots ++ [last]).map some) := by
  have hslots := toInt_slots hfew
  have hsize : (2 * s.table.length + 1).toNatClampNeg = 2 * bs.flatten.length + 1 := by
    rw [hlength, ← Int32.toNat_toInt, hslots]
    omega
  have hpos : ¬ 2 * s.table.length + 1 < 0 := by
    rw [hlength, Int32.lt_iff_toInt_lt, hslots, Int32.toInt_zero]
    omega
  have hloop := storeBuckets_eq (2 * bs.flatten.length + 1) hB hcount last
  rw [if_pos (Nat.le_refl _), Nat.sub_self, List.replicate_zero, List.append_nil] at hloop
  obtain ⟨st, hst, hlast⟩ := bind_eq_ok.mp hloop
  rw [tableToArray, if_neg hpos]
  simp only [hsize, hst, hlast, ok_bind]

/-- From 2^30 bindings on, the array has too few slots, if it exists. -/
theorem few_of_tableToArray (hB : Buckets s bs)
    (hcount : bs.length = s.table.size.toNatClampNeg) {last : Value} {array : List (Option Value)}
    (hrun : tableToArray s.cells s.table last = .ok array) : bs.flatten.length < 2 ^ 30 := by
  rw [tableToArray] at hrun
  by_cases hneg : 2 * s.table.length + 1 < 0
  · rw [if_pos hneg] at hrun
    cases hrun
  · rw [if_neg hneg] at hrun
    obtain ⟨st, hst, hrun⟩ := bind_eq_ok.mp hrun
    obtain ⟨r, hlast, -⟩ := bind_eq_ok.mp hrun
    have hloop := storeBuckets_eq (2 * s.table.length + 1).toNatClampNeg hB hcount last
    rw [hst, ok_bind, hlast] at hloop
    by_cases hroom : 2 * bs.flatten.length + 1 ≤ (2 * s.table.length + 1).toNatClampNeg
    · have hmax := Int32.toInt_lt (2 * s.table.length + 1)
      rw [← Int32.toNat_toInt] at hroom
      omega
    · rw [if_neg hroom] at hloop
      cases hloop

end Buckets

/-! ## The memory of a binding -/

/-- `sizeof(struct binding *)`. -/
def pointerSize : Nat := 8

/-- `sizeof(struct binding)`: the link, the key and the value. -/
def bindingSize : Nat := 24

/-- `Table_put(table, key, value)`, where the block of `malloc(n)` has `usable n` bytes. -/
def tablePutIn (usable : Nat → Nat) (s : State) (key : Key) (value : Value) :
    Result (State × Value) := do
  let p ← s.table.search s.cells key
  -- `p = malloc(sizeof(struct binding*))`, and then `p->key`, `p->link` and `p->value`.
  if p = .null ∧ usable pointerSize < bindingSize then .error .outOfBounds
  else tablePut s key value

def Call.execIn (usable : Nat → Nat) (s : State) : Call → Result (State × Value)
  | .put key value => tablePutIn usable s key value
  | call => call.exec s

/-- `runCalls`, where the block of `malloc(n)` has `usable n` bytes. -/
def runCallsIn (usable : Nat → Nat) : List Call → State → Result (State × List Value)
  | [], s => .ok (s, [])
  | call :: calls, s => do
    let (s, value) ← call.execIn usable s
    let (s, values) ← runCallsIn usable calls s
    .ok (s, value :: values)

/-- `Table_put`. -/
def Call.isPut : Call → Bool
  | .put _ _ => true
  | _ => false

section Memory

variable {cmp : Key → Key → Int32} {hash : Key → UInt32} {h : Compatible cmp hash} {s : State}
  {bs : List (List (KeyOf h × Value))} {usable : Nat → Nat} {calls : List Call}

/-- Without a new binding the size of its block does not matter. -/
theorem execIn_eq (hS : Stands h s bs) {call : Call}
    (hroom : bindingSize ≤ usable pointerSize ∨ call.isPut = false) :
    call.execIn usable s = call.exec s := by
  cases call with
  | put key value =>
    rcases hroom with hroom | hput
    · obtain ⟨s', bs', hrun, -⟩ := hS.put key value
      obtain ⟨p, hsearch, -⟩ := bind_eq_ok.mp hrun
      show tablePutIn usable s key value = tablePut s key value
      rw [tablePutIn, hsearch, ok_bind, if_neg (fun h => absurd h.2 (Nat.not_lt.mpr hroom))]
    · cases hput
  | get key => rfl
  | remove key => rfl

theorem runCallsIn_eq (hS : Stands h s bs)
    (hroom : bindingSize ≤ usable pointerSize ∨ ∀ call ∈ calls, call.isPut = false) :
    runCallsIn usable calls s = runCalls calls s := by
  induction calls generalizing s bs with
  | nil => rfl
  | cons call calls ih =>
    obtain ⟨s', bs', hexec, hleaves⟩ := hS.exec call
    have hhead := hroom.imp_right (fun h => h call (by simp))
    have htail := hroom.imp_right (fun h c hc => h c (List.mem_cons_of_mem _ hc))
    rw [runCallsIn, runCalls, execIn_eq hS hhead, hexec]
    simp only [ok_bind, ih hleaves.stands htail]

/-- The first binding does not fit in the block of a pointer. -/
theorem execIn_put_empty (hS : Stands h s bs) (hempty : mapOf bs.flatten = ∅)
    (hsmall : usable pointerSize < bindingSize) (key : Key) (value : Value) :
    Call.execIn usable s (.put key value) = .error .outOfBounds := by
  obtain ⟨p, xs, as, hp, hxs, hon, hno | ⟨pre, b, post, rfl, hno, heq⟩⟩ := hS.cases key
  · rw [Call.execIn, tablePutIn, hS.search_none hp hon hno, ok_bind, if_pos ⟨rfl, hsmall⟩]
  · have hpresent := hS.spread.present hS.slot_eq hxs heq
    rw [hempty] at hpresent
    cases hpresent

/-- A table that nothing was put into stays empty. -/
theorem onMap_empty {call : Call} (hput : call.isPut = false) :
    (call.onMap (∅ : TableMap h)).1 = ∅ := by
  cases call with
  | put key value => cases hput
  | get key => rfl
  | remove key => exact erase_of_lookup_none (Finmap.lookup_empty _)

theorem no_put_of_runCallsIn (hS : Stands h s bs) (hempty : mapOf bs.flatten = ∅)
    (hsmall : usable pointerSize < bindingSize) {r : State × List Value}
    (hrun : runCallsIn usable calls s = .ok r) : ∀ call ∈ calls, call.isPut = false := by
  induction calls generalizing s bs r with
  | nil => simp
  | cons call calls ih =>
    obtain ⟨⟨s', value⟩, hexec, hrun⟩ := bind_eq_ok.mp hrun
    obtain ⟨⟨s'', values⟩, hrest, -⟩ := bind_eq_ok.mp hrun
    have hhead : call.isPut = false := by
      cases call with
      | put key value =>
        rw [execIn_put_empty hS hempty hsmall] at hexec
        cases hexec
      | get key => rfl
      | remove key => rfl
    obtain ⟨t, bs', hexec', hleaves⟩ := hS.exec call
    rw [execIn_eq hS (.inr hhead), hexec'] at hexec
    cases hexec
    have hempty' : mapOf bs'.flatten = ∅ := by
      rw [hleaves.map, hempty]
      exact onMap_empty hhead
    exact List.forall_mem_cons.mpr ⟨hhead, ih hleaves.stands hempty' hrest⟩

end Memory

/-! ## Enumerating -/

/-- `array` lists the bindings `xs` of the map `f` and then `last`. -/
structure Enumerates {cmp : Key → Key → Int32} {hash : Key → UInt32} (h : Compatible cmp hash)
    (s : State) (last : Value) (f : TableMap h) (array : List (Option Value))
    (xs : List (Key × Value)) : Prop where
  written : array = (xs.flatMap slots ++ [last]).map some
  length : (array.length : Int) = 2 * (tableLength s.table).toInt + 1
  apart : xs.Pairwise (fun b c => cmp b.1 c.1 ≠ 0)
  values : ∀ b ∈ xs, tableGet s.cells s.table b.1 = .ok b.2
  bindings : mapOf (K := KeyOf h) xs = f

/-- The table that the calls leave of a new one exists, and `Table_toArray` enumerates it. -/
def EnumeratesAfter (usable : Nat → Nat) (hint : Int32) {cmp : Option (Key → Key → Int32)}
    {hash : Option (Key → UInt32)} (h : Compatible (cmp.getD cmpatom) (hash.getD hashatom))
    (cells : Mem Binding) (calls : List Call) (last : Value) : Prop :=
  ∃ table s values array xs, tableNew hint cmp hash = .ok table ∧
    runCallsIn usable calls ⟨cells, table⟩ = .ok (s, values) ∧
    tableToArray s.cells s.table last = .ok array ∧
    Enumerates h s last (mapCalls (h := h) calls ∅).1 array xs

section Stands

variable {cmp : Key → Key → Int32} {hash : Key → UInt32} {h : Compatible cmp hash} {s : State}
  {bs : List (List (KeyOf h × Value))}

theorem Stands.bucketCount (hS : Stands h s bs) : bs.length = s.table.size.toNatClampNeg :=
  hS.buckets.length.trans hS.count

/-- `Table_get` returns the value of a binding. -/
theorem Stands.get_mem (hS : Stands h s bs) {b : KeyOf h × Value} (hb : b ∈ bs.flatten) :
    tableGet s.cells s.table b.1 = .ok b.2 := by
  obtain ⟨xs, hxs, hmem⟩ := List.mem_flatten.mp hb
  obtain ⟨i, hi⟩ := List.mem_iff_getElem?.mp hxs
  have hslot := hS.spread.placed i xs hi b hmem
  obtain ⟨pre, post, rfl⟩ := List.append_of_mem hmem
  rw [← hslot] at hi
  have hlookup : (mapOf bs.flatten).lookup (classOf h b.1) = some b.2 :=
    hS.spread.present hS.slot_eq hi (Setoid.refl _)
  rw [hS.get b.1, hlookup, Option.getD_some]

/-- The array of a table of few bindings. -/
theorem Stands.enumerates (hS : Stands h s bs) (last : Value)
    (hfew : bs.flatten.length < 2 ^ 30) : ∃ array xs,
      tableToArray s.cells s.table last = .ok array ∧
        Enumerates h s last (mapOf bs.flatten) array xs := by
  refine ⟨_, bs.flatten, tableToArray_eq hS.buckets hS.bucketCount hS.length last hfew, ?_⟩
  exact {
    written := rfl
    length := by
      have hlen : tableLength s.table = Int32.ofNat bs.flatten.length := hS.length
      rw [List.length_map, hlen, Int32.toInt_ofNat_of_lt (by omega)]
      exact congrArg Nat.cast (length_slots bs.flatten last)
    apart := hS.spread.apart
    values := fun b hb => hS.get_mem hb
    bindings := rfl }

end Stands

section New

variable (usable : Nat → Nat) (hint : Int32) {cmp : Option (Key → Key → Int32)}
  {hash : Option (Key → UInt32)} (h : Compatible (cmp.getD cmpatom) (hash.getD hashatom))
  (cells : Mem Binding) (calls : List Call) (last : Value)

/-- The run from a new table, as far as it is defined, and what it leaves. -/
theorem run_of_enumeratesAfter (hall : EnumeratesAfter usable hint h cells calls last) :
    (bindingSize ≤ usable pointerSize ∨ ∀ call ∈ calls, call.isPut = false) ∧
      (mapCalls (h := h) calls ∅).1.keys.card < 2 ^ 30 := by
  obtain ⟨table, s, values, array, xs, hnew, hrun, harray, -⟩ := hall
  obtain ⟨table', n, hnew', hS⟩ := tableNew_stands hint h cells
  rw [hnew] at hnew'
  cases hnew'
  have hempty := mapOf_replicate (h := h) n
  have hroom : bindingSize ≤ usable pointerSize ∨ ∀ call ∈ calls, call.isPut = false := by
    rcases Nat.lt_or_ge (usable pointerSize) bindingSize with hsmall | hroom
    · exact .inr (no_put_of_runCallsIn hS hempty hsmall hrun)
    · exact .inl hroom
  obtain ⟨s', bs, hrun', hS', hmap⟩ := hS.run calls
  rw [runCallsIn_eq hS hroom, hrun'] at hrun
  cases hrun
  refine ⟨hroom, ?_⟩
  rw [← hempty, ← hmap, card_mapOf hS'.spread.apart]
  exact few_of_tableToArray hS'.buckets hS'.bucketCount harray

/-- The table can be enumerated iff the block for a pointer has room for a binding, or nothing
is ever put in, and fewer than 2^30 classes are bound. -/
theorem tableToArray_enumerates_iff : EnumeratesAfter usable hint h cells calls last ↔
    (bindingSize ≤ usable pointerSize ∨ ∀ call ∈ calls, call.isPut = false) ∧
      (mapCalls (h := h) calls ∅).1.keys.card < 2 ^ 30 := by
  constructor
  · exact run_of_enumeratesAfter usable hint h cells calls last
  · rintro ⟨hroom, hfew⟩
    obtain ⟨table, n, hnew, hS⟩ := tableNew_stands hint h cells
    obtain ⟨s, bs, hrun, hS', hmap⟩ := hS.run calls
    rw [mapOf_replicate] at hmap
    rw [← hmap, card_mapOf hS'.spread.apart] at hfew
    obtain ⟨array, xs, harray, hxs⟩ := hS'.enumerates last hfew
    rw [hmap] at hxs
    exact ⟨table, s, _, array, xs, hnew, (runCallsIn_eq hS hroom).trans hrun, harray, hxs⟩

end New

/-- Two keys, where every block has at least 24 bytes. -/
theorem enumeratesAfter_sampleKeys : @EnumeratesAfter (max 24) 0 none none compatible_atoms []
    ((sampleKeys 2).map (fun key => .put key 1)) 0 := by
  refine (@tableToArray_enumerates_iff (max 24) 0 none none compatible_atoms []
    ((sampleKeys 2).map (fun key => .put key 1)) 0).mpr ⟨.inl (by decide), ?_⟩
  exact (card_sampleKeys (by omega) 1).trans_lt (by omega)

/-- A single key does not fit where a block has the bytes that were asked for; and with
1073741824 keys the count of slots is negative, whatever `malloc` returns. -/
theorem not_enumeratesAfter :
    (¬ @EnumeratesAfter id 0 none none compatible_atoms [] [.put (sampleKey 1) 7] 0) ∧
      ∀ usable, ¬ @EnumeratesAfter usable 0 none none compatible_atoms []
        ((sampleKeys (2 ^ 30)).map (fun key => .put key 1)) 0 := by
  constructor
  · intro hall
    obtain ⟨hroom, -⟩ := run_of_enumeratesAfter _ _ _ _ _ _ hall
    rcases hroom with hroom | hput
    · exact absurd hroom (by decide)
    · cases hput _ (List.mem_singleton_self _)
  · intro usable hall
    obtain ⟨-, hfew⟩ := run_of_enumeratesAfter _ _ _ _ _ _ hall
    have hcard := card_sampleKeys (n := 2 ^ 30) (by omega) 1
    exact absurd hfew (Nat.not_lt.mpr hcard.ge)

end VpnP2p.Table
