import VpnP2p.NodeInfo.IpMerge

/-!
# Comparing IP lists

`ip_list_identical` compares the lengths of two IP lists and looks for each string of the
first in the second.
-/

namespace VpnP2p.NodeInfo

open Foundation

/-! ## The code -/

def ipListLength (ips : Mem IPCell) (ip_list : Ptr) : Result Int32 :=
  forChain (fun _ => ips) IPCell.nextIp (fun _ length => .ok (length + 1)) (ips.length + 1)
    ip_list 0

/-- The body of the loop in `contain_ip`. -/
def compareIp (ips : Mem IPCell) (ip : CStr 20) (ptr : Nat) (_ : Unit) :
    Result (Flow Unit Int32) := do
  let c ← load ips (.addr ptr)
  let s ← assigned c.ip
  if s = ip then .ok (.done 1) else .ok (.next ())

def containIp (ips : Mem IPCell) (ip_list : Ptr) (ip : CStr 20) : Result Int32 := do
  match ← forChainFlow (fun _ => ips) IPCell.nextIp (compareIp ips ip) (ips.length + 1) ip_list ()
    with
  | .done r => .ok r
  | .next () => .ok 0

/-- The body of the loop in `ip_list_identical`. -/
def lookForIp (ips : Mem IPCell) (ip_list2 : Ptr) (ptr : Nat) (_ : Unit) :
    Result (Flow Unit Int32) := do
  let c ← load ips (.addr ptr)
  let s ← assigned c.ip
  let contained ← containIp ips ip_list2 s
  if contained = 0 then .ok (.done 0) else .ok (.next ())

def ipListIdentical (ips : Mem IPCell) (ip_list1 ip_list2 : Ptr) : Result Int32 := do
  let length1 ← ipListLength ips ip_list1
  let length2 ← ipListLength ips ip_list2
  if length1 ≠ length2 then .ok 0
  else
    match ← forChainFlow (fun _ => ips) IPCell.nextIp (lookForIp ips ip_list2) (ips.length + 1)
      ip_list1 () with
    | .done r => .ok r
    | .next () => .ok 1

/-! ## What it computes -/

section Lists

variable {ips : Mem IPCell} {p q : Ptr} {xs ys : List IP}

theorem ipListLength_eq (hp : IpsAt ips p xs) :
    ipListLength ips p = .ok (Int32.ofNat xs.length) := by
  obtain ⟨as, hlinks, hcont⟩ := hp
  have hfold : ∀ (bs : List Nat) (n : Int32),
      bs.foldlM (fun length _ => Except.ok (length + 1)) n =
        (.ok (n + Int32.ofNat bs.length) : Result Int32) := by
    intro bs
    induction bs with
    | nil => simp
    | cons b bs ih =>
      intro n
      rw [List.foldlM_cons, ok_bind, ih, List.length_cons]
      congr 1
      rw [Int32.ofNat_add, Int32.add_assoc, Int32.add_comm 1]
      rfl
  rw [ipListLength, forChain_read_eq_foldlM hlinks (Nat.lt_succ_of_le hlinks.length_le), hfold,
    hcont.length_eq, Int32.zero_add]

theorem containIp_eq (hp : IpsAt ips p xs) (ip : CStr 20) :
    containIp ips p ip = .ok (if ip ∈ ipStrings xs then 1 else 0) := by
  obtain ⟨as, hlinks, hcont⟩ := hp
  have hbody : ∀ a x, (∃ c, ips[a]? = some c ∧ c.Holds x) →
      compareIp ips ip a () = .ok (if x.ip = ip then .done 1 else .next ()) := by
    rintro a x ⟨c, hc, hx⟩
    rw [compareIp, load_addr hc, ok_bind, hx.ip, assigned_some, ok_bind]
    split <;> rfl
  rw [containIp, forChainFlow_read_eq_foldFlow hlinks (Nat.lt_succ_of_le hlinks.length_le)]
  by_cases hmem : ip ∈ ipStrings xs
  · obtain ⟨x, hx, hip⟩ := List.mem_map.mp hmem
    obtain ⟨a, -, y, -, -, hrun⟩ := foldFlow_search_some hbody hcont ⟨x, hx, hip⟩
    rw [hrun, if_pos hmem]
    rfl
  · have hno : ∀ x ∈ xs, ¬ x.ip = ip := fun x hx hip => hmem (List.mem_map.mpr ⟨x, hx, hip⟩)
    rw [foldFlow_search_none hbody hcont hno, if_neg hmem]
    rfl

theorem lookForIp_eq (hq : IpsAt ips q ys) (a : Nat) (x : IP)
    (ha : ∃ c, ips[a]? = some c ∧ c.Holds x) :
    lookForIp ips q a () = .ok (if x.ip ∉ ipStrings ys then .done 0 else .next ()) := by
  obtain ⟨c, hc, hx⟩ := ha
  rw [lookForIp, load_addr hc, ok_bind, hx.ip, assigned_some, ok_bind, containIp_eq hq, ok_bind]
  by_cases hmem : x.ip ∈ ipStrings ys
  · rw [if_pos hmem, if_neg (by decide), if_neg (not_not.mpr hmem)]
  · rw [if_neg hmem, if_pos rfl, if_pos hmem]

/-- The lists are identical for it when they have the same length and the strings of the
first are among those of the second. -/
theorem ipListIdentical_eq (hp : IpsAt ips p xs) (hq : IpsAt ips q ys) :
    ipListIdentical ips p q =
      .ok (if Int32.ofNat xs.length = Int32.ofNat ys.length ∧ ipStrings xs ⊆ ipStrings ys
        then 1 else 0) := by
  have ⟨as, hlinks, hcont⟩ := hp
  rw [ipListIdentical, ipListLength_eq hp, ok_bind, ipListLength_eq hq, ok_bind]
  by_cases hlength : Int32.ofNat xs.length = Int32.ofNat ys.length
  · rw [if_neg (not_not.mpr hlength),
      forChainFlow_read_eq_foldFlow hlinks (Nat.lt_succ_of_le hlinks.length_le)]
    by_cases hsub : ipStrings xs ⊆ ipStrings ys
    · have hno : ∀ x ∈ xs, ¬ x.ip ∉ ipStrings ys :=
        fun x hx => not_not.mpr (hsub (List.mem_map.mpr ⟨x, hx, rfl⟩))
      rw [foldFlow_search_none (lookForIp_eq hq) hcont hno, if_pos ⟨hlength, hsub⟩]
      rfl
    · have hyes : ∃ x ∈ xs, x.ip ∉ ipStrings ys := by
        by_contra hall
        apply hsub
        intro s hs
        obtain ⟨x, hx, rfl⟩ := List.mem_map.mp hs
        exact not_not.mp (fun hmem => hall ⟨x, hx, hmem⟩)
      obtain ⟨a, -, x, -, -, hrun⟩ :=
        foldFlow_search_some (lookForIp_eq hq) hcont hyes
      rw [hrun, if_neg (fun h => hsub h.2)]
      rfl
  · rw [if_pos hlength, if_neg (fun h => hlength h.1)]

theorem ipListIdentical_self (hp : IpsAt ips p xs) : ipListIdentical ips p p = .ok 1 := by
  rw [ipListIdentical_eq hp hp, if_pos ⟨rfl, fun _ h => h⟩]

end Lists

end VpnP2p.NodeInfo
