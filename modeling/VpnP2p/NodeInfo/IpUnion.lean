import Mathlib.Data.List.TakeWhile
import VpnP2p.NodeInfo.IpMerge

/-!
# The union of two IP lists

What `ip_list_merge` is for: behind the IPs of `ip1` stand the new IPs of `ip2`, and an IP
of both lists has the entry with the larger `s_count`; a strong conflict is refused and
nothing is changed. The code meets this as long as no IP of both lists stands behind a new
one and no overwritten entry had another validity, and a refusal is clean exactly when
the IPs in front of the conflict had nothing to change.
-/

namespace VpnP2p.NodeInfo

open Foundation

/-- Two IP lists as `ip_list_merge` expects them. -/
structure IpPair (m : Mem IPCell) (ip1 ip2 : Ptr) (as bs : List Nat) (xs ys : List IP) :
    Prop where
  ours : IpsOn m ip1 as xs
  theirs : IpsOn m ip2 bs ys
  nonempty : xs ≠ []
  apart : as.Disjoint bs
  distinct : (ipStrings xs).Nodup
  theirsDistinct : (ipStrings ys).Nodup

/-- The entry with the larger `s_count`, ours if they are equal. -/
def newer (ys : List IP) (x : IP) : IP :=
  match ys.find? (fun y => y.ip = x.ip) with
  | none => x
  | some y => if x.sCount < y.sCount then y else x

def unionIps (xs ys : List IP) : List IP :=
  xs.map (newer ys) ++ ys.filter (fun y => y.ip ∉ ipStrings xs)

/-- `ip_list_merge` returns 1 and leaves the union at `ip1`. -/
def Unites (m : Mem IPCell) (ip1 ip2 : Ptr) (xs ys : List IP) : Prop :=
  ∃ m' cs, ipListMerge m ip1 ip2 = .ok (1, m') ∧ IpsOn m' ip1 cs (unionIps xs ys) ∧ cs.Nodup ∧
    (ipStrings (unionIps xs ys)).Nodup

/-- Where `ip_list_merge` returns -1, the list at `ip1` is what it was. -/
def RefusesCleanly (m : Mem IPCell) (ip1 ip2 : Ptr) (xs : List IP) : Prop :=
  ∀ m', ipListMerge m ip1 ip2 = .ok (-1, m') → IpsAt m' ip1 xs

/-- No IP of both lists stands behind a new one. -/
def NewLast (xs ys : List IP) : Prop :=
  ys.Pairwise (fun y z => z.ip ∈ ipStrings xs → y.ip ∈ ipStrings xs)

instance (xs ys : List IP) : Decidable (NewLast xs ys) :=
  inferInstanceAs (Decidable (List.Pairwise _ _))

/-- An entry that is overwritten has the validity of the newer one. -/
def ValidityAgrees (xs ys : List IP) : Prop :=
  ∀ x ∈ xs, ∀ y ∈ ys, x.ip = y.ip → x.sCount < y.sCount → x.validity = y.validity

instance (xs ys : List IP) : Decidable (ValidityAgrees xs ys) :=
  inferInstanceAs (Decidable (∀ x ∈ xs, ∀ y ∈ ys, x.ip = y.ip → x.sCount < y.sCount →
    x.validity = y.validity))

/-- No IP of `ys` is new or newer. -/
def NothingNew (xs ys : List IP) : Prop :=
  ∀ y ∈ ys, y.ip ∈ ipStrings xs ∧ ∀ x ∈ xs, x.ip = y.ip → ¬ x.sCount < y.sCount

instance (xs ys : List IP) : Decidable (NothingNew xs ys) :=
  inferInstanceAs (Decidable (∀ y ∈ ys, y.ip ∈ ipStrings xs ∧ ∀ x ∈ xs, x.ip = y.ip →
    ¬ x.sCount < y.sCount))

def Conflicts (xs : List IP) (y : IP) : Prop := ∃ x ∈ xs, Clash x y

instance (xs : List IP) (y : IP) : Decidable (Conflicts xs y) :=
  inferInstanceAs (Decidable (∃ x ∈ xs, Clash x y))

/-- The IPs of `ip2` in front of the first conflict. -/
def beforeConflict (xs ys : List IP) : List IP := ys.takeWhile (fun y => ¬ Conflicts xs y)

/-! ## The entries -/

section Entries

variable {x y : IP} {xs ys : List IP}

theorem joinAll_of_mem (hys : (ipStrings ys).Nodup) (hy : y ∈ ys) (hip : x.ip = y.ip) :
    joinAll ys x = joinIp y x := by
  induction ys generalizing x with
  | nil => simp at hy
  | cons z ys ih =>
    obtain ⟨hz, hys⟩ := List.nodup_cons.mp hys
    show joinAll ys (joinIp z x) = joinIp y x
    rcases List.mem_cons.mp hy with rfl | hy
    · apply joinAll_of_not_mem
      rw [ip_joinIp, hip]
      exact hz
    · have hne : x.ip ≠ z.ip := by
        intro hxz
        exact hz (List.mem_map.mpr ⟨y, hy, hip.symm.trans hxz⟩)
      rw [joinIp_of_ne hne]
      exact ih hys hy hip

theorem newer_of_mem (hys : (ipStrings ys).Nodup) (hy : y ∈ ys) (hip : x.ip = y.ip) :
    newer ys x = if x.sCount < y.sCount then y else x := by
  have hfind : ys.find? (fun y => y.ip = x.ip) = some y := by
    cases hfind : ys.find? (fun y => y.ip = x.ip) with
    | none =>
      have hnone := List.find?_eq_none.mp hfind y hy
      exact absurd hip.symm (by simpa using hnone)
    | some z =>
      have hz : z.ip = x.ip := by simpa using List.find?_some hfind
      rw [eq_of_key_eq hys (List.mem_of_find?_eq_some hfind) hy (hz.trans hip)]
  rw [newer, hfind]

theorem newer_of_not_mem (h : x.ip ∉ ipStrings ys) : newer ys x = x := by
  have hfind : ys.find? (fun y => y.ip = x.ip) = none := by
    apply List.find?_eq_none.mpr
    intro y hy
    have hne : y.ip ≠ x.ip := fun hip => h (List.mem_map.mpr ⟨y, hy, hip⟩)
    simpa using hne
  rw [newer, hfind]

theorem ip_newer (ys : List IP) (x : IP) : (newer ys x).ip = x.ip := by
  unfold newer
  cases hfind : ys.find? (fun y => y.ip = x.ip) with
  | none => rfl
  | some y =>
    show (if x.sCount < y.sCount then y else x).ip = x.ip
    split
    · simpa using List.find?_some hfind
    · rfl

theorem nodup_unionIps (hxs : (ipStrings xs).Nodup) (hys : (ipStrings ys).Nodup) :
    (ipStrings (unionIps xs ys)).Nodup := by
  have hours : ipStrings (xs.map (newer ys)) = ipStrings xs := by
    unfold ipStrings
    rw [List.map_map]
    exact List.map_congr_left (fun x _ => ip_newer ys x)
  have htheirs := (List.filter_sublist (p := fun y => y.ip ∉ ipStrings xs) (l := ys)).map IP.ip
  have hsplit : ipStrings (unionIps xs ys) = ipStrings (xs.map (newer ys)) ++
      ipStrings (ys.filter (fun y => y.ip ∉ ipStrings xs)) := List.map_append
  rw [hsplit, hours]
  apply List.Nodup.append hxs (hys.sublist htheirs)
  intro s hs hs'
  obtain ⟨y, hy, rfl⟩ := List.mem_map.mp hs'
  have hnot := (List.mem_filter.mp hy).2
  exact absurd hs (by simpa using hnot)

/-- The overwriting leaves the newer entry, but for its validity. -/
theorem joinAll_eq_newer_iff (hys : (ipStrings ys).Nodup) : joinAll ys x = newer ys x ↔
    ∀ y ∈ ys, x.ip = y.ip → x.sCount < y.sCount → x.validity = y.validity := by
  by_cases hmem : x.ip ∈ ipStrings ys
  · obtain ⟨y, hy, hip⟩ := List.mem_map.mp hmem
    rw [joinAll_of_mem hys hy hip.symm, newer_of_mem hys hy hip.symm]
    have hall : (∀ z ∈ ys, x.ip = z.ip → x.sCount < z.sCount → x.validity = z.validity) ↔
        (x.sCount < y.sCount → x.validity = y.validity) := by
      constructor
      · exact fun h => h y hy hip.symm
      · intro h z hz hxz
        obtain rfl := eq_of_key_eq hys hz hy (hxz.symm.trans hip.symm)
        exact h
    rw [hall]
    by_cases hlt : x.sCount < y.sCount
    · rw [joinIp, if_pos ⟨hip.symm, hlt⟩, if_pos hlt]
      constructor
      · intro heq _
        have hval := congrArg IP.validity heq
        exact hval
      · intro h
        rw [h hlt, ← hip]
    · rw [joinIp_of_le hlt, if_neg hlt]
      simp [hlt]
  · rw [joinAll_of_not_mem hmem, newer_of_not_mem hmem]
    have hno : ∀ y ∈ ys, x.ip ≠ y.ip := fun y hy hip =>
      hmem (List.mem_map.mpr ⟨y, hy, hip.symm⟩)
    simp only [true_iff]
    intro y hy hip
    exact absurd hip (hno y hy)

theorem joinAll_eq_self_iff (hys : (ipStrings ys).Nodup) : joinAll ys x = x ↔
    ∀ y ∈ ys, x.ip = y.ip → ¬ x.sCount < y.sCount := by
  constructor
  · intro heq y hy hip hlt
    rw [joinAll_of_mem hys hy hip, joinIp, if_pos ⟨hip, hlt⟩] at heq
    have hcount := congrArg IP.sCount heq
    exact Int32.lt_irrefl (hcount ▸ hlt)
  · intro h
    by_cases hmem : x.ip ∈ ipStrings ys
    · obtain ⟨y, hy, hip⟩ := List.mem_map.mp hmem
      rw [joinAll_of_mem hys hy hip.symm, joinIp_of_le (h y hy hip.symm)]
    · exact joinAll_of_not_mem hmem

end Entries

/-! ## What is linked behind them -/

theorem dropWhile_eq_filter_iff {α : Type} (p : α → Bool) (l : List α) :
    l.dropWhile p = l.filter (fun y => !p y) ↔ l.Pairwise (fun y z => p z → p y) := by
  induction l with
  | nil => simp
  | cons y l ih =>
    rw [List.pairwise_cons]
    by_cases hy : p y
    · rw [List.dropWhile_cons_of_pos hy, List.filter_cons_of_neg (by simp [hy]), ih]
      simp [hy]
    · rw [List.dropWhile_cons_of_neg hy, List.filter_cons_of_pos (by simp [hy])]
      -- Behind the first new item nothing may be left out.
      have hall : l = l.filter (fun y => !p y) ↔ ∀ z ∈ l, ¬ p z := by
        rw [eq_comm, List.filter_eq_self]
        simp
      rw [List.cons_inj_right, hall]
      constructor
      · intro h
        exact ⟨fun z hz hpz => absurd hpz (h z hz),
          List.pairwise_of_forall_mem_list (fun a _ b hb hpb => absurd hpb (h b hb))⟩
      · rintro ⟨h, -⟩ z hz hpz
        exact hy (h z hz hpz)

theorem linked_nil (xs ys : List IP) :
    linked xs ys [] = ys.dropWhile (fun y => y.ip ∈ ipStrings xs) := by
  unfold linked
  split
  · rename_i h
    exact h.symm
  · exact List.append_nil _

theorem linked_eq_filter_iff {xs ys : List IP} :
    linked xs ys [] = ys.filter (fun y => y.ip ∉ ipStrings xs) ↔ NewLast xs ys := by
  have h := dropWhile_eq_filter_iff (fun y : IP => decide (y.ip ∈ ipStrings xs)) ys
  rw [linked_nil]
  simpa [NewLast] using h

theorem linked_eq_nil_iff {xs ys zs : List IP} :
    linked xs ys zs = [] ↔ ∀ y ∈ ys, y.ip ∈ ipStrings xs := by
  have hdrop :
      ys.dropWhile (fun y => y.ip ∈ ipStrings xs) = [] ↔ ∀ y ∈ ys, y.ip ∈ ipStrings xs := by
    rw [List.dropWhile_eq_nil_iff]
    simp
  rw [← hdrop]
  unfold linked
  by_cases h : ys.dropWhile (fun y => y.ip ∈ ipStrings xs) = []
  · rw [if_pos h]
    exact iff_of_true rfl h
  · rw [if_neg h]
    simp [h]

/-! ## Three IPs in memory -/

def sampleIp (s_count : Int32) : IP := ⟨sampleHere, clientIP, s_count, 1⟩

def sampleNewIp : IP := ⟨sampleThere, serverIP, 1, 1⟩

/-- The same ip and count, judged differently. -/
def sampleClash : IP := { sampleIp 1 with type := sampleNewIp.type }

/-- `ip1` has the IP `x` in cell 0, `ip2` the IPs `y` and `z` in the cells 1 and 2. -/
def sampleMemory (x y z : IP) : Mem IPCell :=
  [⟨some x.ip, some x.type, some x.sCount, some x.validity, .null⟩,
    ⟨some y.ip, some y.type, some y.sCount, some y.validity, .addr 2⟩,
    ⟨some z.ip, some z.type, some z.sCount, some z.validity, .null⟩]

theorem sampleMemory_pair {x y z : IP} (hyz : y.ip ≠ z.ip) :
    IpPair (sampleMemory x y z) (.addr 0) (.addr 1) [0] [1, 2] [x] [y, z] where
  ours := ⟨⟨rfl, _, rfl, rfl⟩, .cons ⟨_, rfl, rfl, rfl, rfl, rfl⟩ .nil⟩
  theirs := ⟨⟨rfl, _, rfl, rfl, _, rfl, rfl⟩,
    .cons ⟨_, rfl, rfl, rfl, rfl, rfl⟩ (.cons ⟨_, rfl, rfl, rfl, rfl, rfl⟩ .nil)⟩
  nonempty := by simp
  apart := by simp
  distinct := by simp [ipStrings]
  theirsDistinct := by simp [ipStrings, hyz]

/-! ## What `ip_list_merge` achieves -/

section Achieves

variable {m : Mem IPCell} {ip1 ip2 : Ptr} {as bs : List Nat} {xs ys : List IP}

theorem IpsOn.ipsAt (h : IpsOn m ip1 as xs) : IpsAt m ip1 xs := ⟨as, h.links, h.contents⟩

theorem map_append_eq_iff {α : Type} {f g : α → α} {l u v : List α} :
    l.map f ++ u = l.map g ++ v ↔ (∀ x ∈ l, f x = g x) ∧ u = v := by
  rw [List.append_eq_append_iff_of_size_eq_left (by simp), List.map_inj_left]

/-- Without a strong conflict, the union is built when what the code makes of the lists
is the union. -/
theorem unites_iff_eq (h : IpPair m ip1 ip2 as bs xs ys) (hno : ∀ y ∈ ys, ¬ Conflicts xs y) :
    Unites m ip1 ip2 xs ys ↔ xs.map (joinAll ys) ++ linked xs ys [] = unionIps xs ys := by
  have hclash : ∀ y ∈ ys, ∀ x ∈ xs, ¬ Clash x y := fun y hy x hx hxy => hno y hy ⟨x, hx, hxy⟩
  obtain ⟨m', ls, hrun, hon⟩ := ipListMerge_ok h.ours h.theirs h.nonempty h.apart h.distinct
    h.theirsDistinct hclash
  constructor
  · rintro ⟨m₁, cs, hrun₁, hon₁, -⟩
    rw [hrun] at hrun₁
    cases hrun₁
    exact hon.ipsAt.unique hon₁.ipsAt
  · intro heq
    rw [heq] at hon
    exact ⟨m', _, hrun, hon, hon.links.nodup, nodup_unionIps h.distinct h.theirsDistinct⟩

/-- Without a strong conflict, the union is built exactly when no IP of both lists stands
behind a new one and no validity is lost. -/
theorem unites_iff (h : IpPair m ip1 ip2 as bs xs ys) (hno : ∀ y ∈ ys, ¬ Conflicts xs y) :
    Unites m ip1 ip2 xs ys ↔ NewLast xs ys ∧ ValidityAgrees xs ys := by
  rw [unites_iff_eq h hno, unionIps, map_append_eq_iff, linked_eq_filter_iff, and_comm]
  simp only [joinAll_eq_newer_iff h.theirsDistinct]
  rfl

/-- An IP of both lists in front of a new one. -/
theorem unites_iff_sample :
    let m := sampleMemory (sampleIp 1) (sampleIp 2) sampleNewIp
    Unites m (.addr 0) (.addr 1) [sampleIp 1] [sampleIp 2, sampleNewIp] ↔
      NewLast [sampleIp 1] [sampleIp 2, sampleNewIp] ∧
        ValidityAgrees [sampleIp 1] [sampleIp 2, sampleNewIp] :=
  unites_iff (sampleMemory_pair (by decide)) (by decide)

/-- Behind a new one it is linked a second time. -/
theorem not_unites_sharedBehindNew :
    let m := sampleMemory (sampleIp 1) sampleNewIp (sampleIp 2)
    IpPair m (.addr 0) (.addr 1) [0] [1, 2] [sampleIp 1] [sampleNewIp, sampleIp 2] ∧
      (∀ y ∈ [sampleNewIp, sampleIp 2], ¬ Conflicts [sampleIp 1] y) ∧
      ¬ Unites m (.addr 0) (.addr 1) [sampleIp 1] [sampleNewIp, sampleIp 2] := by
  have hpair := sampleMemory_pair (x := sampleIp 1) (y := sampleNewIp) (z := sampleIp 2) (by decide)
  refine ⟨hpair, by decide, ?_⟩
  rw [unites_iff_eq hpair (by decide)]
  decide

theorem beforeConflict_spec (hex : ∃ y ∈ ys, Conflicts xs y) : ∃ y post,
    ys = beforeConflict xs ys ++ y :: post ∧ Conflicts xs y := by
  have hsplit := List.takeWhile_append_dropWhile (p := fun y => decide (¬ Conflicts xs y)) (l := ys)
  cases hdrop : ys.dropWhile (fun y => decide (¬ Conflicts xs y)) with
  | nil =>
    obtain ⟨y, hy, hconf⟩ := hex
    have hall := List.dropWhile_eq_nil_iff.mp hdrop y hy
    exact absurd hconf (by simpa using hall)
  | cons y post =>
    refine ⟨y, post, ?_, ?_⟩
    · rw [← hdrop]
      exact hsplit.symm
    · have hhead := List.head?_dropWhile_not (fun y => decide (¬ Conflicts xs y)) ys
      rw [hdrop] at hhead
      simpa using hhead

theorem not_conflicts_of_mem_beforeConflict {z : IP} (hz : z ∈ beforeConflict xs ys) :
    ¬ Conflicts xs z := by
  have h := List.mem_takeWhile_imp hz
  simpa using h

/-- What a refusal leaves is what the IPs in front of the conflict made of the list. -/
theorem refusesCleanly_iff_eq {pre post : List IP} {y : IP}
    (h : IpPair m ip1 ip2 as bs xs (pre ++ y :: post)) (hpre : ∀ z ∈ pre, ¬ Conflicts xs z)
    (hconf : Conflicts xs y) : RefusesCleanly m ip1 ip2 xs ↔
      xs.map (joinAll pre) ++ linked xs pre (y :: post) = xs := by
  obtain ⟨m', ls, hrun, hon⟩ := ipListMerge_refused h.ours h.theirs h.nonempty h.apart h.distinct
    h.theirsDistinct (fun z hz x hx hxz => hpre z hz ⟨x, hx, hxz⟩) hconf
  constructor
  · exact fun hclean => hon.ipsAt.unique (hclean m' hrun)
  · intro heq m₁ hrun₁
    rw [hrun] at hrun₁
    cases hrun₁
    exact heq ▸ hon.ipsAt

/-- A refusal leaves the list at `ip1` alone exactly when the IPs in front of the first
conflict are all there already, none of them newer. -/
theorem refusesCleanly_iff (h : IpPair m ip1 ip2 as bs xs ys) :
    RefusesCleanly m ip1 ip2 xs ↔
      ((∃ y ∈ ys, Conflicts xs y) → NothingNew xs (beforeConflict xs ys)) := by
  by_cases hex : ∃ y ∈ ys, Conflicts xs y
  · obtain ⟨y, post, hys, hconf⟩ := beforeConflict_spec hex
    have hpre : (ipStrings (beforeConflict xs ys)).Nodup :=
      h.theirsDistinct.sublist ((List.takeWhile_sublist _).map IP.ip)
    rw [refusesCleanly_iff_eq (hys ▸ h) (fun z => not_conflicts_of_mem_beforeConflict) hconf]
    have hself : xs = xs.map id ++ [] := by rw [List.map_id, List.append_nil]
    conv_lhs => rhs; rw [hself]
    rw [map_append_eq_iff, linked_eq_nil_iff]
    simp only [id, joinAll_eq_self_iff hpre]
    constructor
    · rintro ⟨hours, hold⟩ - z hz
      exact ⟨hold z hz, fun x hx => hours x hx z hz⟩
    · intro hnothing
      exact ⟨fun x hx z hz => (hnothing hex z hz).2 x hx, fun z hz => (hnothing hex z hz).1⟩
  · have hclash : ∀ y ∈ ys, ∀ x ∈ xs, ¬ Clash x y := fun y hy x hx hxy => hex ⟨y, hy, x, hx, hxy⟩
    obtain ⟨m', ls, hrun, -⟩ := ipListMerge_ok h.ours h.theirs h.nonempty h.apart h.distinct
      h.theirsDistinct hclash
    refine iff_of_true ?_ (fun hex' => absurd hex' hex)
    intro m₁ hrun₁
    rw [hrun] at hrun₁
    cases hrun₁

/-- A conflict in front of everything else. -/
theorem refusesCleanly_iff_sample :
    let m := sampleMemory (sampleIp 1) sampleClash sampleNewIp
    RefusesCleanly m (.addr 0) (.addr 1) [sampleIp 1] ↔
      ((∃ y ∈ [sampleClash, sampleNewIp], Conflicts [sampleIp 1] y) →
        NothingNew [sampleIp 1] (beforeConflict [sampleIp 1] [sampleClash, sampleNewIp])) :=
  refusesCleanly_iff (sampleMemory_pair (by decide))

/-- Behind a new IP the conflict is found too late. -/
theorem not_refusesCleanly_newBefore :
    let m := sampleMemory (sampleIp 1) sampleNewIp sampleClash
    IpPair m (.addr 0) (.addr 1) [0] [1, 2] [sampleIp 1] [sampleNewIp, sampleClash] ∧
      ¬ RefusesCleanly m (.addr 0) (.addr 1) [sampleIp 1] := by
  have hpair :=
    sampleMemory_pair (x := sampleIp 1) (y := sampleNewIp) (z := sampleClash) (by decide)
  have hsplit : IpPair (sampleMemory (sampleIp 1) sampleNewIp sampleClash) (.addr 0) (.addr 1)
      [0] [1, 2] [sampleIp 1] ([sampleNewIp] ++ sampleClash :: []) := hpair
  refine ⟨hpair, ?_⟩
  rw [refusesCleanly_iff_eq hsplit (by decide) (by decide)]
  decide

end Achieves

end VpnP2p.NodeInfo
