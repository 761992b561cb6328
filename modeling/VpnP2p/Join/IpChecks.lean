import VpnP2p.CronJob.Interleaving
import VpnP2p.Join.Join

/-!
# Two ways to ask whether the IPs have changed

`judge_local_ip` and `local_ip_refresh` both compare the lengths of two lists and then
look for the strings of one in the other, but not the same way round. Without a
repetition that decides whether the lists are permutations; a repetition can take the
place of an address, and then the answers depend on which list it is in.
-/

namespace VpnP2p.Join

open Foundation NodeInfo Util Server
open CronJob (strings)

/-! ## Lists of addresses -/

/-- The lists have the same length, and one has all strings of the other, but not as
often as the other has them. -/
def RepetitionHides (xs ys : List (CStr 20)) : Prop :=
  xs.length = ys.length ∧ ¬ xs.Perm ys ∧ (xs ⊆ ys ∨ ys ⊆ xs)

theorem perm_of_subset {α : Type} {xs ys : List α} (hnodup : xs.Nodup) (hsub : xs ⊆ ys)
    (hlen : xs.length = ys.length) : xs.Perm ys :=
  (List.subperm_of_subset hnodup hsub).perm_of_length_le (Nat.le_of_eq hlen.symm)

/-- Where neither list repeats an address, nothing is hidden. -/
theorem not_repetitionHides {xs ys : List (CStr 20)} (hxs : xs.Nodup) (hys : ys.Nodup) :
    ¬ RepetitionHides xs ys := by
  rintro ⟨hlen, hperm, hsub | hsub⟩
  · exact hperm (perm_of_subset hxs hsub hlen)
  · exact hperm (perm_of_subset hys hsub hlen.symm).symm

/-- `b` is the answer of all three questions. -/
structure Verdict (xs ys : List (CStr 20)) (b : Bool) : Prop where
  forth : b = true ↔ xs.length = ys.length ∧ xs ⊆ ys
  back : b = true ↔ ys.length = xs.length ∧ ys ⊆ xs
  perm : b = true ↔ xs.Perm ys

theorem exists_verdict_iff {xs ys : List (CStr 20)} :
    (∃ b, Verdict xs ys b) ↔ ¬ RepetitionHides xs ys := by
  constructor
  · rintro ⟨b, h⟩ ⟨hlen, hperm, hsub | hsub⟩
    · exact hperm (h.perm.mp (h.forth.mpr ⟨hlen, hsub⟩))
    · exact hperm (h.perm.mp (h.back.mpr ⟨hlen.symm, hsub⟩))
  · intro hhides
    refine ⟨decide (xs.Perm ys), ?_, ?_, decide_eq_true_iff⟩
    all_goals
      rw [decide_eq_true_iff]
      constructor
    · intro hperm
      exact ⟨hperm.length_eq, hperm.subset⟩
    · rintro ⟨hlen, hsub⟩
      by_contra hperm
      exact hhides ⟨hlen, hperm, .inl hsub⟩
    · intro hperm
      exact ⟨hperm.symm.length_eq, hperm.symm.subset⟩
    · rintro ⟨hlen, hsub⟩
      by_contra hperm
      exact hhides ⟨hlen.symm, hperm, .inr hsub⟩

/-! ## The loops -/

section Slots

variable {local_ip_list rest : List Slot} {ip : CStr 20} {i : Nat}

theorem readSlot_of_drop {a : Address} (h : local_ip_list.drop i = .ip a :: rest) :
    readSlot local_ip_list i = .ok (some a) := by
  have hget : local_ip_list[i]? = some (.ip a) := by
    rw [← List.head?_drop, h]
    rfl
  rw [readSlot, hget]

theorem drop_succ {s : Slot} (h : local_ip_list.drop i = s :: rest) :
    local_ip_list.drop (i + 1) = rest := by
  rw [← List.tail_drop, h]
  rfl

/-- `ip_match` counts the slots that are filled and then looks at the next. -/
theorem countSlots_filled (as : List Address)
    (h : local_ip_list.drop i = as.map .ip ++ rest) (room : Nat) :
    countSlots local_ip_list (as.length + room) i =
      countSlots local_ip_list room (i + as.length) := by
  induction as generalizing i with
  | nil => simp
  | cons a as ih =>
    have hrounds : (a :: as).length + room = (as.length + room) + 1 := by
      rw [List.length_cons]
      omega
    rw [hrounds, countSlots, readSlot_of_drop h, ok_bind]
    simp only
    rw [ih (drop_succ h), List.length_cons, Nat.add_right_comm, Nat.add_assoc]

/-- `ip_list_contains` over the slots that are filled. -/
theorem ipListContains_filled {as : List Address}
    (h : local_ip_list.drop i = as.map .ip ++ rest) :
    ipListContains local_ip_list ip as.length i = .ok (decide (ip ∈ as.map Address.ip)) := by
  induction as generalizing i with
  | nil => rfl
  | cons a as ih =>
    rw [List.length_cons, ipListContains, readSlot_of_drop h, ok_bind]
    simp only
    by_cases hip : a.ip = ip
    · have htext : a.text = ip.val := congrArg CStr.val hip
      simp [htext, hip]
    · have htext : ¬ a.text = ip.val := fun h => hip (CStr.ext' h)
      rw [if_neg htext, ih (drop_succ h)]
      simp [Ne.symm hip]

end Slots

/-! ## The verdicts -/

/-- The array of `get_local_ip` has an end that `ip_match` can find. -/
def Ends (host : Host) : Prop :=
  host.addresses.length ≤ ipListSize ∧
    (host.addresses.length = ipListSize ∨ host.cleared = true)

instance (host : Host) : Decidable (Ends host) := inferInstanceAs (Decidable (_ ∧ _))

section Match

variable {host : Host}

theorem countSlots_of_ends (h : Ends host) :
    countSlots (host.addresses.map .ip ++
      List.replicate (ipListSize - host.addresses.length) host.mallocSlot) ipListSize 0 =
      .ok host.addresses.length := by
  obtain ⟨room, hroom⟩ : ∃ room, ipListSize = host.addresses.length + room :=
    Nat.exists_eq_add_of_le h.1
  have hrest : ipListSize - host.addresses.length = room := by omega
  rw [hrest]
  conv_lhs => rw [hroom]
  rw [countSlots_filled host.addresses rfl, Nat.zero_add]
  cases room with
  | zero => rfl
  | succ room =>
    have hcleared : host.cleared = true := h.2.resolve_left (by omega)
    have hnull : readSlot (host.addresses.map .ip ++ List.replicate (room + 1) host.mallocSlot)
        host.addresses.length = .ok none := by
      simp [readSlot, Host.mallocSlot, hcleared]
    rw [countSlots, hnull, ok_bind]

theorem ends_of_countSlots (hle : host.addresses.length ≤ ipListSize) {n : Nat}
    (h : countSlots (host.addresses.map .ip ++
      List.replicate (ipListSize - host.addresses.length) host.mallocSlot) ipListSize 0 =
      .ok n) : Ends host := by
  refine ⟨hle, ?_⟩
  by_contra hnot
  simp only [not_or] at hnot
  obtain ⟨room, hroom⟩ : ∃ room, ipListSize = host.addresses.length + (room + 1) :=
    ⟨ipListSize - host.addresses.length - 1, by omega⟩
  have hrest : ipListSize - host.addresses.length = room + 1 := by omega
  have hraw : readSlot (host.addresses.map .ip ++ List.replicate (room + 1) host.mallocSlot)
      host.addresses.length = .error .unassigned := by
    simp [readSlot, Host.mallocSlot, hnot.2]
  rw [hrest] at h
  conv_lhs at h => rw [hroom]
  rw [countSlots_filled host.addresses rfl, Nat.zero_add, countSlots, hraw] at h
  cases h

/-- The second loop of `ip_match`. -/
theorem foldlM_contains {local_ip_list rest : List Slot} {as : List Address}
    (h : local_ip_list.drop 0 = as.map .ip ++ rest) (xs : List (CStr 20)) (found : Bool) :
    xs.foldlM (fun found ip =>
      if found then ipListContains local_ip_list ip as.length 0 else .ok false) found =
      (.ok (found && decide (xs ⊆ as.map Address.ip)) : Result Bool) := by
  induction xs generalizing found with
  | nil => simp
  | cons x xs ih =>
    rw [List.foldlM_cons]
    cases found with
    | false => rw [if_neg (by decide), ok_bind, ih, Bool.false_and, Bool.false_and]
    | true =>
      rw [if_pos rfl, ipListContains_filled h, ok_bind, ih]
      simp [List.cons_subset, Bool.decide_and]

theorem ipMatch_of_ends (h : Ends host) (xs : List (CStr 20)) : ipMatch host xs =
    .ok (decide (xs.length = host.addresses.length ∧ xs ⊆ strings host)) := by
  rw [ipMatch, getLocalIp_eq, if_pos h.1, ok_bind, countSlots_of_ends h, ok_bind]
  by_cases hlen : xs.length = host.addresses.length
  · rw [if_neg (not_not.mpr hlen), foldlM_contains rfl]
    simp [hlen, strings]
  · rw [if_pos hlen]
    simp [hlen]

theorem ends_of_ipMatch {xs : List (CStr 20)} {b : Bool} (h : ipMatch host xs = .ok b) :
    Ends host := by
  rw [ipMatch, getLocalIp_eq] at h
  split at h
  · rename_i hle
    rw [ok_bind] at h
    obtain ⟨n, hcount, -⟩ := bind_eq_ok.mp h
    exact ends_of_countSlots hle hcount
  · cases h

end Match

section Judge

variable {h : Heap} {local_node : Ptr} {c : NodeCell} {xs : List IP}

/-- The loop of `judge_local_ip`. -/
theorem foldlM_collectIp {ips : Mem IPCell} {as : List Nat}
    (hcont : Contents IPCell.Holds ips as xs)
    (acc : List (CStr 20)) (hacc : acc.length ≤ ipListSize) :
    as.foldlM (fun acc a => collectIp ips a acc) acc =
      if acc.length + xs.length ≤ ipListSize then .ok (acc ++ ipStrings xs)
      else .error .outOfBounds := by
  induction hcont generalizing acc with
  | nil => simp [ipStrings, hacc]
  | @cons a x as xs ha _ ih =>
    obtain ⟨d, hd, hx⟩ := ha
    rw [List.foldlM_cons, collectIp, load_addr hd, ok_bind, hx.ip, assigned_some, ok_bind]
    by_cases hroom : acc.length < ipListSize
    · rw [if_pos hroom, ok_bind, ih _ (by simpa using hroom), List.length_append,
        List.length_singleton, List.length_cons, Nat.add_assoc, Nat.add_comm 1, List.append_assoc]
      rfl
    · rw [if_neg hroom, error_bind, if_neg (by rw [List.length_cons]; omega)]

theorem judgeLocalIp_eq (host : Host) (hload : load h.nodes local_node = .ok c)
    (hxs : IpsAt h.ips c.ipList xs) :
    judgeLocalIp host h local_node =
      if xs.length ≤ ipListSize then ipMatch host (ipStrings xs) else .error .outOfBounds := by
  obtain ⟨as, hlinks, hcont⟩ := hxs
  rw [judgeLocalIp, hload, ok_bind,
    forChain_read_eq_foldlM hlinks (Nat.lt_succ_of_le hlinks.length_le),
    foldlM_collectIp hcont [] (by decide), List.length_nil, Nat.zero_add, List.nil_append]
  split <;> rfl

end Judge

/-! ## Both checks -/

/-- Both checks give one answer, whichever list comes first: whether the local node has
the addresses of the host, each as often. -/
def ChecksAgree (host : Host) (h : Heap) (local_node cached observed : Ptr) (xs : List IP) : Prop :=
  ∃ b : Bool, judgeLocalIp host h local_node = .ok b ∧
    ipListIdentical h.ips observed cached = .ok (if b then 1 else 0) ∧
    ipListIdentical h.ips cached observed = .ok (if b then 1 else 0) ∧
    (b = true ↔ (ipStrings xs).Perm (strings host))

theorem ofNat_length_inj {m n : Nat} (hm : m ≤ ipListSize) (hn : n ≤ ipListSize) :
    Int32.ofNat m = Int32.ofNat n ↔ m = n := by
  unfold ipListSize at hm hn
  constructor
  · intro h
    have hint := congrArg Int32.toInt h
    rw [Int32.toInt_ofNat_of_lt (by omega), Int32.toInt_ofNat_of_lt (by omega)] at hint
    exact Int.ofNat_inj.mp hint
  · rintro rfl
    rfl

theorem ipListIdentical_strings {ips : Mem IPCell} {p q : Ptr} {xs ys : List IP}
    (hp : IpsAt ips p xs) (hq : IpsAt ips q ys) (hxs : xs.length ≤ ipListSize)
    (hys : ys.length ≤ ipListSize) : ipListIdentical ips p q =
      .ok (if xs.length = ys.length ∧ ipStrings xs ⊆ ipStrings ys then 1 else 0) := by
  rw [ipListIdentical_eq hp hq]
  simp only [ofNat_length_inj hxs hys]

section Checks

variable {host : Host} {h : Heap} {local_node observed : Ptr} {c : NodeCell} {xs ys : List IP}
  (hload : load h.nodes local_node = .ok c) (hcached : IpsAt h.ips c.ipList xs)
  (hobserved : IpsAt h.ips observed ys) (hys : ipStrings ys = strings host)

include hload hcached

theorem fits_of_judgeLocalIp {b : Bool} (hrun : judgeLocalIp host h local_node = .ok b) :
    Ends host ∧ xs.length ≤ ipListSize := by
  rw [judgeLocalIp_eq host hload hcached] at hrun
  split at hrun
  · rename_i hfits
    exact ⟨ends_of_ipMatch hrun, hfits⟩
  · cases hrun

include hobserved hys

/-- On lists that both checks can take, they ask how the strings compare. -/
theorem checksAgree_iff_verdict (hends : Ends host) (hfits : xs.length ≤ ipListSize) :
    ChecksAgree host h local_node c.ipList observed xs ↔
      ∃ b, Verdict (ipStrings xs) (strings host) b := by
  have hxlen : (ipStrings xs).length = xs.length := List.length_map _
  have hylen : (ipStrings ys).length = ys.length := List.length_map _
  have hslen : (strings host).length = host.addresses.length := List.length_map _
  have hyfits : ys.length ≤ ipListSize := by
    rw [← hylen, hys, hslen]
    exact hends.1
  have hjudge := judgeLocalIp_eq host hload hcached
  have hswap := ipListIdentical_strings hobserved hcached hyfits hfits
  have hdirect := ipListIdentical_strings hcached hobserved hfits hyfits
  rw [if_pos hfits, ipMatch_of_ends hends, ← hslen] at hjudge
  rw [← hxlen, ← hylen, hys] at hswap hdirect
  unfold ChecksAgree
  rw [hjudge, hswap, hdirect]
  simp only [Except.ok.injEq, ite_eq_ite_iff (show (1 : Int32) ≠ 0 by decide)]
  constructor
  · rintro ⟨b, -, hback, hforth, hperm⟩
    exact ⟨b, hforth.symm, hback.symm, hperm⟩
  · rintro ⟨b, hforth, hback, hperm⟩
    refine ⟨b, ?_, hback.symm, hforth.symm, hperm⟩
    rw [Bool.eq_iff_iff, decide_eq_true_iff]
    exact hforth.symm

/-- The checks agree on the lists they can take, unless a repetition hides a change. -/
theorem checksAgree_iff : ChecksAgree host h local_node c.ipList observed xs ↔
    Ends host ∧ xs.length ≤ ipListSize ∧ ¬ RepetitionHides (ipStrings xs) (strings host) := by
  constructor
  · intro hchecks
    obtain ⟨b, hrun, -⟩ := id hchecks
    obtain ⟨hends, hfits⟩ := fits_of_judgeLocalIp hload hcached hrun
    have hverdict := (checksAgree_iff_verdict hload hcached hobserved hys hends hfits).mp hchecks
    exact ⟨hends, hfits, exists_verdict_iff.mp hverdict⟩
  · rintro ⟨hends, hfits, hhides⟩
    exact (checksAgree_iff_verdict hload hcached hobserved hys hends hfits).mpr
      (exists_verdict_iff.mpr hhides)

end Checks

/-! ## A repeated address -/

/-- Memory with a local node and, beside it, the list of what is observed. -/
def sideBySide (n : Node) (ys : List IP) : Heap × Ptr × Ptr :=
  let (h, local_node) := Heap.empty.alloc [n]
  let (ips, observed) := allocIps h.ips ys
  (⟨ips, h.nodes⟩, local_node, observed)

theorem sideBySide_spec (n : Node) (ys : List IP) :
    ∃ c, load (sideBySide n ys).1.nodes (sideBySide n ys).2.1 = .ok c ∧
      IpsAt (sideBySide n ys).1.ips c.ipList n.ipList ∧
      IpsAt (sideBySide n ys).1.ips (sideBySide n ys).2.2 ys := by
  obtain ⟨hips, hlist⟩ := allocIps_spec Heap.empty.ips n.ipList
  obtain ⟨hobs, hobsList⟩ := allocIps_spec (allocIps Heap.empty.ips n.ipList).1 ys
  exact ⟨_, rfl, hlist.of_prefix hobs, hobsList⟩

/-- The entries that a refresh would make of the addresses. -/
def freshIps (host : Host) : List IP := (strings host).map (fun s => ⟨s, clientIP, 0, 1⟩)

theorem ipStrings_freshIps (host : Host) : ipStrings (freshIps host) = strings host := by
  rw [ipStrings, freshIps, List.map_map]
  exact List.map_id _

/-- The node that `generate_node_info` writes where the server is the host itself. -/
def sampleRepeated : Node := sampleHost.nodeInfo 1 sampleAddress

def sampleSecond : Address := ⟨lit "10.0.0.3", by simp [lit, isDigit], by decide⟩

/-- The host after it got a second address. -/
def sampleTwoAddresses : Host := ⟨0, [sampleAddress, sampleSecond], true⟩

theorem checksAgree_iff_sample :
    let m := sideBySide sampleRepeated (freshIps sampleHost)
    ∃ c, load m.1.nodes m.2.1 = .ok c ∧
      (ChecksAgree sampleHost m.1 m.2.1 c.ipList m.2.2 sampleRepeated.ipList ↔
        Ends sampleHost ∧ sampleRepeated.ipList.length ≤ ipListSize ∧
          ¬ RepetitionHides (ipStrings sampleRepeated.ipList) (strings sampleHost)) := by
  obtain ⟨c, hload, hcached, hobserved⟩ := sideBySide_spec sampleRepeated (freshIps sampleHost)
  exact ⟨c, hload, checksAgree_iff hload hcached hobserved (ipStrings_freshIps sampleHost)⟩

/-- The server's address stands a second time where the new address should be, and only
one of the checks sees that it is new. -/
theorem not_checksAgree_second :
    let m := sideBySide sampleRepeated (freshIps sampleTwoAddresses)
    ∃ c, load m.1.nodes m.2.1 = .ok c ∧ IpsAt m.1.ips c.ipList sampleRepeated.ipList ∧
      IpsAt m.1.ips m.2.2 (freshIps sampleTwoAddresses) ∧
      judgeLocalIp sampleTwoAddresses m.1 m.2.1 = .ok true ∧
      ipListIdentical m.1.ips m.2.2 c.ipList = .ok 0 ∧
      ¬ ChecksAgree sampleTwoAddresses m.1 m.2.1 c.ipList m.2.2 sampleRepeated.ipList := by
  obtain ⟨c, hload, hcached, hobserved⟩ :=
    sideBySide_spec sampleRepeated (freshIps sampleTwoAddresses)
  have hjudge := judgeLocalIp_eq sampleTwoAddresses hload hcached
  rw [if_pos (by decide), ipMatch_of_ends (by decide), decide_eq_true (by decide)] at hjudge
  have hswap := ipListIdentical_strings hobserved hcached (by decide) (by decide)
  rw [if_neg (by decide)] at hswap
  refine ⟨c, hload, hcached, hobserved, hjudge, hswap, ?_⟩
  rintro ⟨b, hb, hb', -⟩
  rw [hjudge] at hb
  rw [hswap] at hb'
  cases hb
  cases hb'

end VpnP2p.Join
