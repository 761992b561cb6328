import VpnP2p.Table.Refine

/-!
# Sequences of calls on a new table

From `Table_new` on, any sequence of calls returns what a finite map returns.
-/

namespace VpnP2p.Table

open Foundation

/-! ## The new table -/

theorem clearBuckets_eq (size : Nat) : clearBuckets size = List.replicate size .null := by
  have hfold : ∀ k ≤ size, (List.range k).foldl (fun buckets i => buckets.set i Ptr.null)
      (List.replicate size .unassigned) =
        List.replicate k .null ++ List.replicate (size - k) .unassigned := by
    intro k
    induction k with
    | zero => simp
    | succ k ih =>
      intro hk
      obtain ⟨j, hj⟩ : ∃ j, size - k = j + 1 := ⟨size - k - 1, by omega⟩
      have hlast : size - (k + 1) = j := by omega
      rw [List.range_succ, List.foldl_append, ih (by omega), hj, hlast]
      show (List.replicate k Ptr.null ++
        Ptr.unassigned :: List.replicate j Ptr.unassigned).set k .null = _
      rw [List.replicate_succ', List.append_assoc]
      simp
  rw [clearBuckets, hfold size (Nat.le_refl _), Nat.sub_self, List.replicate_zero, List.append_nil]

theorem prime_eq {i : Nat} (hi : i < 10) : ∃ p, prime i = .ok p ∧ 0 < p ∧ p ∈ primes := by
  have hlt : i < primes.length := hi
  refine ⟨primes[i], ?_, ?_, List.getElem_mem hlt⟩
  · rw [prime, List.getElem?_eq_getElem hlt]
    rfl
  · have hpos : primes.all (fun p => decide (0 < p)) = true := by decide
    exact of_decide_eq_true (List.all_eq_true.mp hpos _ (List.getElem_mem hlt))

/-- The search for a prime ends at `INT_MAX` at the latest. -/
theorem searchPrime_spec (hint : Int32) (fuel i : Nat) (hi : 1 ≤ i ∧ i ≤ 9)
    (hfuel : 10 ≤ i + fuel) : ∃ j, searchPrime hint fuel i = .ok j ∧ 1 ≤ j ∧ j ≤ 9 := by
  induction fuel generalizing i with
  | zero => omega
  | succ fuel ih =>
    obtain ⟨p, hp, -⟩ := prime_eq (show i < 10 by omega)
    rw [searchPrime, hp, ok_bind]
    by_cases hlt : p < hint
    · rw [if_pos hlt]
      by_cases h9 : i = 9
      · subst h9
        have hmax : p = Int32.maxValue := by
          have h : prime 9 = .ok Int32.maxValue := rfl
          rw [hp] at h
          cases h
          rfl
        rw [hmax] at hlt
        exact absurd (Int32.le_maxValue hint) (Int32.not_le.mpr hlt)
      · exact ih (i + 1) (by omega) (by omega)
    · rw [if_neg hlt]
      exact ⟨i, rfl, hi⟩

section Calls

variable {cmp : Key → Key → Int32} {hash : Key → UInt32} {h : Compatible cmp hash}

/-- A new table has no bindings. -/
theorem tableNew_stands (hint : Int32) {cmp : Option (Key → Key → Int32)}
    {hash : Option (Key → UInt32)} (h : Compatible (cmp.getD cmpatom) (hash.getD hashatom))
    (cells : Mem Binding) : ∃ table n, tableNew hint cmp hash = .ok table ∧
      Stands h ⟨cells, table⟩ (List.replicate n []) := by
  obtain ⟨i, hi, hlow, hhigh⟩ :=
    searchPrime_spec hint primes.length 1 (by omega) (by decide)
  obtain ⟨size, hsize, hpos, -⟩ := prime_eq (show i - 1 < 10 by omega)
  refine ⟨_, size.toNatClampNeg, by rw [tableNew, hi, ok_bind, hsize, ok_bind], ?_⟩
  rw [clearBuckets_eq]
  exact {
    cmp := rfl
    hash := rfl
    size := hpos
    count := List.length_replicate
    buckets := by
      refine ⟨List.length_replicate.trans List.length_replicate.symm, fun j p xs hp hxs => ?_⟩
      obtain rfl := List.eq_of_mem_replicate (List.mem_of_getElem? hp)
      obtain rfl := List.eq_of_mem_replicate (List.mem_of_getElem? hxs)
      exact ⟨[], rfl, .nil⟩
    spread := spread_replicate _ _
    length := by simp }

theorem mapOf_replicate (n : Nat) :
    mapOf (List.replicate n ([] : List (KeyOf h × Value))).flatten = ∅ := by
  rw [List.flatten_replicate_nil]
  rfl

/-! ## The calls -/

theorem Stands.exec {s : State} {bs : List (List (KeyOf h × Value))} (hS : Stands h s bs)
    (call : Call) : ∃ s' bs', call.exec s = .ok (s', (call.onMap (mapOf bs.flatten)).2) ∧
      Leaves h call.key bs s' (call.onMap (mapOf bs.flatten)).1 bs' := by
  cases call with
  | put key value => exact hS.put key value
  | get key =>
    refine ⟨s, bs, ?_, hS, rfl, fun _ _ => Iff.rfl⟩
    rw [Call.exec, hS.get key]
    rfl
  | remove key => exact hS.remove key

/-- A sequence of calls returns what the map returns and leaves what the map leaves. -/
theorem Stands.run {s : State} {bs : List (List (KeyOf h × Value))} (hS : Stands h s bs)
    (calls : List Call) :
    ∃ s' bs', runCalls calls s = .ok (s', (mapCalls calls (mapOf bs.flatten)).2) ∧
      Stands h s' bs' ∧ mapOf bs'.flatten = (mapCalls calls (mapOf bs.flatten)).1 := by
  induction calls generalizing s bs with
  | nil => exact ⟨s, bs, rfl, hS, rfl⟩
  | cons call calls ih =>
    obtain ⟨s₁, bs₁, hexec, hS₁, hmap, -⟩ := hS.exec call
    obtain ⟨s', bs', hrun, hS', hmap'⟩ := ih hS₁
    rw [hmap] at hrun hmap'
    refine ⟨s', bs', ?_, hS', hmap'⟩
    simp only [runCalls, hexec, hrun, ok_bind]
    rfl

theorem runCalls_new (hint : Int32) (cmp : Option (Key → Key → Int32))
    (hash : Option (Key → UInt32)) (h : Compatible (cmp.getD cmpatom) (hash.getD hashatom))
    (cells : Mem Binding) (calls : List Call) : ∃ table s bs, tableNew hint cmp hash = .ok table ∧
      runCalls calls ⟨cells, table⟩ = .ok (s, (mapCalls (h := h) calls ∅).2) ∧ Stands h s bs ∧
      mapOf bs.flatten = (mapCalls (h := h) calls ∅).1 := by
  obtain ⟨table, n, hnew, hS⟩ := tableNew_stands hint h cells
  obtain ⟨s, bs, hrun, hS', hmap⟩ := hS.run calls
  rw [mapOf_replicate] at hrun hmap
  exact ⟨table, s, bs, hnew, hrun, hS', hmap⟩

/-- The keys 1, 2, .. -/
def sampleKey (i : UInt32) : Key := ⟨i.toUInt64 + 1, by
  intro h
  have hnat := congrArg UInt64.toNat h
  rw [UInt64.toNat_add, UInt32.toNat_toUInt64] at hnat
  have hlt := i.toNat_lt
  have hone : (1 : UInt64).toNat = 1 := rfl
  have hzero : (0 : UInt64).toNat = 0 := rfl
  omega⟩

/-- From `Table_new` on, any calls return what the finite map on the classes returns;
`Table_length` is the number of classes bound as long as an `int` can hold it; every
binding lies in its bucket, no two are equal for `cmp`, and the next call leaves the
bindings of other classes alone. -/
theorem table_refines_map (hint : Int32) {cmp : Option (Key → Key → Int32)}
    {hash : Option (Key → UInt32)} (h : Compatible (cmp.getD cmpatom) (hash.getD hashatom))
    (cells : Mem Binding) (calls : List Call) : ∃ table s, ∃ bs : List (List (KeyOf h × Value)),
      tableNew hint cmp hash = .ok table ∧
      runCalls calls ⟨cells, table⟩ = .ok (s, (mapCalls (h := h) calls ∅).2) ∧
      Buckets s bs ∧ mapOf bs.flatten = (mapCalls (h := h) calls ∅).1 ∧
      ((mapCalls (h := h) calls ∅).1.keys.card ≤ Int32.maxValue.toInt →
        (tableLength s.table).toInt = (mapCalls (h := h) calls ∅).1.keys.card) ∧
      (∀ (i : Nat) xs, bs[i]? = some xs → ∀ b ∈ xs,
        ((hash.getD hashatom b.1) % s.table.size.toUInt32).toNat = i) ∧
      bs.flatten.Pairwise (fun b c => cmp.getD cmpatom b.1 c.1 ≠ 0) ∧
      ∀ call : Call, ∃ s', ∃ bs' : List (List (KeyOf h × Value)),
        call.exec s = .ok (s', (call.onMap (mapOf bs.flatten)).2) ∧ Buckets s' bs' ∧
        OthersKept (keyOf h call.key) bs bs' := by
  obtain ⟨table, s, bs, hnew, hrun, hS, hmap⟩ := runCalls_new hint cmp hash h cells calls
  refine ⟨table, s, bs, hnew, hrun, hS.buckets, hmap, ?_, ?_, hS.spread.apart, ?_⟩
  · rw [← hmap, card_mapOf hS.spread.apart]
    intro hle
    rw [tableLength, hS.length]
    apply Int32.toInt_ofNat_of_lt
    have hmax : Int32.maxValue.toInt = 2147483647 := rfl
    omega
  · intro i xs hxs b hb
    exact (hS.slot_def b.1).symm.trans (hS.spread.placed i xs hxs b hb)
  · intro call
    obtain ⟨s', bs', hexec, hleaves⟩ := hS.exec call
    exact ⟨s', bs', hexec, hleaves.stands.buckets, hleaves.others⟩

/-- The default comparison and hash. -/
theorem table_refines_map_atoms : ∃ table s, ∃ bs : List (List (KeyOf compatible_atoms × Value)),
    tableNew 3 none none = .ok table ∧
      runCalls [.put (sampleKey 1) 7, .get (sampleKey 2), .remove (sampleKey 1)] ⟨[], table⟩ =
        .ok (s, (mapCalls (h := compatible_atoms)
          [.put (sampleKey 1) 7, .get (sampleKey 2), .remove (sampleKey 1)] ∅).2) ∧
      mapOf bs.flatten = (mapCalls (h := compatible_atoms)
        [.put (sampleKey 1) 7, .get (sampleKey 2), .remove (sampleKey 1)] ∅).1 := by
  obtain ⟨table, s, bs, hnew, hrun, -, hmap, -⟩ := @table_refines_map 3 none none
    compatible_atoms [] [.put (sampleKey 1) 7, .get (sampleKey 2), .remove (sampleKey 1)]
  exact ⟨table, s, bs, hnew, hrun, hmap⟩

end Calls

theorem card_puts {cmp : Key → Key → Int32} {hash : Key → UInt32} {h : Compatible cmp hash}
    {keys : List Key} (value : Value) (hkeys : keys.Pairwise (fun x y => cmp x y ≠ 0))
    {f : TableMap h} (hnew : ∀ key ∈ keys, classOf h key ∉ f) :
    (mapCalls (keys.map (fun key => .put key value)) f).1.keys.card =
      f.keys.card + keys.length := by
  induction keys generalizing f with
  | nil => rfl
  | cons key keys ih =>
    obtain ⟨hkey, hkeys⟩ := List.pairwise_cons.mp hkeys
    obtain ⟨hfresh, hnew⟩ := List.forall_mem_cons.mp hnew
    have hrest : ∀ k ∈ keys, classOf h k ∉ f.insert (classOf h key) value := by
      intro k hk hmem
      rcases Finmap.mem_insert.mp hmem with heq | hmem
      · have hclass : keyOf h k ≈ keyOf h key := Quotient.exact heq
        exact hkey k hk (h.equiv.symm hclass)
      · exact hnew k hk hmem
    show (mapCalls (keys.map (fun key => .put key value))
      (f.insert (classOf h key) value)).1.keys.card = _
    rw [ih hkeys hrest, card_insert hfresh, List.length_cons]
    omega

theorem sampleKey_ne {i j : UInt32} (h : i ≠ j) : cmpatom (sampleKey i) (sampleKey j) ≠ 0 := by
  have hne : sampleKey i ≠ sampleKey j := by
    intro heq
    have hval : i.toUInt64 + 1 = j.toUInt64 + 1 := congrArg Subtype.val heq
    exact h (UInt32.toUInt64_inj.mp ((UInt64.add_left_inj 1).mp hval))
  rw [cmpatom, if_pos hne]
  decide

def sampleKeys (n : Nat) : List Key := (List.range n).map (fun i => sampleKey (UInt32.ofNat i))

theorem sampleKeys_apart {n : Nat} (hn : n ≤ 2 ^ 32) :
    (sampleKeys n).Pairwise (fun x y => cmpatom x y ≠ 0) := by
  refine List.pairwise_map.mpr (List.Pairwise.imp_of_mem ?_ List.nodup_range)
  intro i j hi hj hij
  apply sampleKey_ne
  intro heq
  have hnat := congrArg UInt32.toNat heq
  have hsize : UInt32.size = 2 ^ 32 := rfl
  rw [List.mem_range] at hi hj
  rw [UInt32.toNat_ofNat_of_lt' (by omega), UInt32.toNat_ofNat_of_lt' (by omega)] at hnat
  exact hij hnat

/-- Each of these keys binds a class of its own. -/
theorem card_sampleKeys {n : Nat} (hn : n ≤ 2 ^ 32) (value : Value) :
    (mapCalls (h := compatible_atoms)
      ((sampleKeys n).map (fun key => .put key value)) ∅).1.keys.card = n := by
  have hlength : (sampleKeys n).length = n := by
    rw [sampleKeys, List.length_map, List.length_range]
  rw [card_puts value (sampleKeys_apart hn) (fun _ _ => Finmap.notMem_empty), hlength,
    Finmap.keys_empty, Finset.card_empty, Nat.zero_add]

/-- With 2147483648 keys in the table, `Table_length` is negative. -/
theorem not_tableLength_full : ∃ table s,
    tableNew 0 none none = .ok table ∧
    runCalls ((sampleKeys (2 ^ 31)).map (fun key => .put key 1)) ⟨[], table⟩ = .ok (s,
      (mapCalls (h := compatible_atoms)
        ((sampleKeys (2 ^ 31)).map (fun key => .put key 1)) ∅).2) ∧
    (mapCalls (h := compatible_atoms)
      ((sampleKeys (2 ^ 31)).map (fun key => .put key 1)) ∅).1.keys.card = 2 ^ 31 ∧
    (tableLength s.table).toInt = - 2 ^ 31 := by
  obtain ⟨table, s, bs, hnew, hrun, hS, hmap⟩ := runCalls_new 0 none none compatible_atoms []
    ((sampleKeys (2 ^ 31)).map (fun key => .put key 1))
  have hcard := card_sampleKeys (n := 2 ^ 31) (by omega) 1
  refine ⟨table, s, hnew, hrun, hcard, ?_⟩
  have hflat : bs.flatten.length = 2 ^ 31 := by
    rw [← card_mapOf hS.spread.apart, hmap]
    exact hcard
  rw [tableLength, hS.length, hflat]
  rfl

end VpnP2p.Table
