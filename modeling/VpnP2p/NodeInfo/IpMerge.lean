import VpnP2p.Foundation.Loops
import VpnP2p.NodeInfo.Model

/-!
# Merging IP lists

`ip_list_merge` offers every IP of `ip2` to the IPs of `ip1` and links what it does not
find behind them. The cell that it links still leads to the rest of `ip2`, so from the
first new IP on `ip1` ends with the whole rest, the loop over `ip1` runs through that rest
as well, and every later IP of `ip2` meets itself there.
-/

namespace VpnP2p.NodeInfo

open Foundation

/-! ## The code -/

/-- The body of the inner loop, for `ip_ptr` and `ip_tmp`, with `flag`; it returns -1 from
the whole function at a strong conflict. -/
def offerIp (ip_ptr ip_tmp : Nat) (s : Mem IPCell × Bool) :
    Result (Flow (Mem IPCell × Bool) (Int32 × Mem IPCell)) := do
  let tmp ← load s.1 (.addr ip_tmp)
  let ptr ← load s.1 (.addr ip_ptr)
  let ip ← assigned tmp.ip
  let ip' ← assigned ptr.ip
  if ip = ip' then
    let s_count' ← assigned ptr.sCount
    let s_count ← assigned tmp.sCount
    if s_count < s_count' then
      let type' ← assigned ptr.type
      let ips ← update s.1 (.addr ip_tmp) (fun c =>
        { c with ip := some ip', type := some type', sCount := some s_count' })
      .ok (.next (ips, false))
    else if s_count' = s_count then
      let type ← assigned tmp.type
      let type' ← assigned ptr.type
      if ip' ≠ ip ∨ type' ≠ type then .ok (.done (-1, s.1)) else .ok (.next (s.1, false))
    else .ok (.next (s.1, false))
  else .ok (.next s)

structure IpMergeState where
  ips : Mem IPCell
  ipListTail : Ptr

/-- The body of the outer loop, for `ip_ptr`. -/
def mergeIp (fuel : Nat) (ip1 : Ptr) (ip_ptr : Nat) (s : IpMergeState) :
    Result (Flow IpMergeState (Int32 × Mem IPCell)) := do
  match ← forChainFlow Prod.fst IPCell.nextIp (offerIp ip_ptr) fuel ip1 (s.ips, true) with
  | .done r => .ok (.done r)
  | .next (ips, flag) =>
    if flag then
      let ips ← update ips s.ipListTail (fun c => { c with nextIp := .addr ip_ptr })
      let tail ← load ips s.ipListTail
      .ok (.next ⟨ips, tail.nextIp⟩)
    else .ok (.next { s with ips := ips })

/-- `ip_list_merge(ip1, ip2)`, with the IPs it leaves. -/
def ipListMerge (ips : Mem IPCell) (ip1 ip2 : Ptr) : Result (Int32 × Mem IPCell) := do
  let fuel := ips.length + 1
  let ip_list_tail ← lastCell IPCell.nextIp ips fuel ip1
  match ← forChainFlow IpMergeState.ips IPCell.nextIp (mergeIp fuel ip1) fuel ip2
    ⟨ips, ip_list_tail⟩ with
  | .done r => .ok r
  | .next s => .ok (1, s.ips)

/-! ## What it computes -/

def ipStrings (xs : List IP) : List (CStr 20) := xs.map IP.ip

/-- What an IP of `ip1` becomes when `y` is offered to it: its validity stays. -/
def joinIp (y x : IP) : IP :=
  if x.ip = y.ip ∧ x.sCount < y.sCount then { x with type := y.type, sCount := y.sCount } else x

def joinAll (ys : List IP) (x : IP) : IP := ys.foldl (fun x y => joinIp y x) x

/-- A strong conflict. -/
def Clash (x y : IP) : Prop := x.ip = y.ip ∧ x.sCount = y.sCount ∧ x.type ≠ y.type

instance (x y : IP) : Decidable (Clash x y) := inferInstanceAs (Decidable (_ ∧ _ ∧ _))

/-- What is linked behind `ip1` once the IPs `ys` of `ip2` are through and `zs` are not:
from the first new IP on everything. -/
def linked (xs ys zs : List IP) : List IP :=
  if ys.dropWhile (fun y => y.ip ∈ ipStrings xs) = [] then []
  else ys.dropWhile (fun y => y.ip ∈ ipStrings xs) ++ zs

/-- The NULL-terminated IP list at `p` has the cells `as` and stands for `xs`. -/
structure IpsOn (m : Mem IPCell) (p : Ptr) (as : List Nat) (xs : List IP) : Prop where
  links : Seg IPCell.nextIp m p as .null
  contents : Contents IPCell.Holds m as xs

theorem joinIp_of_ne {x y : IP} (h : x.ip ≠ y.ip) : joinIp y x = x := if_neg (fun hxy => h hxy.1)

theorem joinIp_of_le {x y : IP} (h : ¬ x.sCount < y.sCount) : joinIp y x = x :=
  if_neg (fun hxy => h hxy.2)

theorem ip_joinIp (y x : IP) : (joinIp y x).ip = x.ip := by
  unfold joinIp
  split <;> rfl

theorem ipStrings_map_joinIp (y : IP) (xs : List IP) :
    ipStrings (xs.map (joinIp y)) = ipStrings xs := by
  unfold ipStrings
  rw [List.map_map]
  exact List.map_congr_left (fun x _ => ip_joinIp y x)

/-- Another ip does not care. -/
theorem clash_joinIp {x y z : IP} (h : y.ip ≠ z.ip) : Clash (joinIp y x) z ↔ Clash x z := by
  by_cases hxy : x.ip = y.ip
  · have hxz : x.ip ≠ z.ip := hxy ▸ h
    constructor
    · rintro ⟨hip, -⟩
      exact absurd (ip_joinIp y x ▸ hip) hxz
    · rintro ⟨hip, -⟩
      exact absurd hip hxz
  · rw [joinIp_of_ne hxy]

/-! ## The inner loop -/

section InnerLoop

variable {m : Mem IPCell} {as : List Nat} {a b : Nat} {x y : IP} {c1 c2 : IPCell}

theorem offerIp_ne (hc1 : m[a]? = some c1) (hx : c1.Holds x) (hc2 : m[b]? = some c2)
    (hy : c2.Holds y) (hne : x.ip ≠ y.ip) (flag : Bool) :
    offerIp b a (m, flag) = .ok (.next (m, flag)) := by
  simp only [offerIp, load_addr hc1, load_addr hc2, hx.ip, hy.ip, assigned_some, ok_bind,
    if_neg hne]

theorem offerIp_clash (hc1 : m[a]? = some c1) (hx : c1.Holds x) (hc2 : m[b]? = some c2)
    (hy : c2.Holds y) (hclash : Clash x y) (flag : Bool) :
    offerIp b a (m, flag) = .ok (.done (-1, m)) := by
  obtain ⟨hip, hcount, htype⟩ := hclash
  simp only [offerIp, load_addr hc1, load_addr hc2, hx.ip, hy.ip, hx.sCount, hy.sCount, hx.type,
    hy.type, assigned_some, ok_bind, hip, hcount, if_true, Int32.lt_irrefl, if_false,
    if_pos (Or.inr (Ne.symm htype) : y.ip ≠ y.ip ∨ y.type ≠ x.type)]

theorem offerIp_join (hc1 : m[a]? = some c1) (hx : c1.Holds x) (hc2 : m[b]? = some c2)
    (hy : c2.Holds y) (hip : x.ip = y.ip) (hno : ¬ Clash x y) (flag : Bool) :
    ∃ m', offerIp b a (m, flag) = .ok (.next (m', false)) ∧ Rewritten IPCell.nextIp [a] m m' ∧
      (¬ x.sCount < y.sCount → m' = m) ∧ ∃ c, m'[a]? = some c ∧ c.Holds (joinIp y x) := by
  simp only [offerIp, load_addr hc1, load_addr hc2, hx.ip, hy.ip, hx.sCount, hy.sCount, hx.type,
    hy.type, assigned_some, ok_bind, if_pos hip]
  by_cases hlt : x.sCount < y.sCount
  · let f := fun c : IPCell =>
      { c with ip := some y.ip, type := some y.type, sCount := some y.sCount }
    have hjoin : joinIp y x = { x with type := y.type, sCount := y.sCount } := if_pos ⟨hip, hlt⟩
    simp only [if_pos hlt, update_addr (lt_of_getElem?_eq_some hc1), ok_bind]
    refine ⟨_, rfl, .modify m (by simp) (fun _ => rfl), fun h => absurd hlt h, f c1,
      getElem?_modify_same f hc1, ?_⟩
    rw [hjoin]
    exact ⟨congrArg some hip.symm, rfl, rfl, hx.validity⟩
  · rw [if_neg hlt, joinIp_of_le hlt]
    refine ⟨m, ?_, .refl _ m, fun _ => rfl, c1, hc1, hx⟩
    by_cases hcount : y.sCount = x.sCount
    · have htype : y.type = x.type := by
        by_contra hne
        exact hno ⟨hip, hcount.symm, Ne.symm hne⟩
      simp only [if_pos hcount, hip, htype, ne_eq, not_true_eq_false, or_self, if_false]
    · rw [if_neg hcount]

theorem offerIp_sameLinks (bs : List Nat) {t t' : Mem IPCell × Bool}
    (hrun : offerIp b a t = .ok (.next t')) : SameLinks IPCell.nextIp bs t.1 t'.1 := by
  simp only [offerIp, bind_eq_ok] at hrun
  obtain ⟨tmp, -, ptr, -, ip, -, ip', -, hrun⟩ := hrun
  split at hrun
  · obtain ⟨count', -, hrun⟩ := bind_eq_ok.mp hrun
    obtain ⟨count, -, hrun⟩ := bind_eq_ok.mp hrun
    split at hrun
    · obtain ⟨type', -, hrun⟩ := bind_eq_ok.mp hrun
      obtain ⟨ips, hupd, hrun⟩ := bind_eq_ok.mp hrun
      obtain ⟨d, -, -, rfl⟩ := update_eq_ok.mp hupd
      cases hrun
      exact SameLinks.modify _ (fun _ _ => rfl)
    · split at hrun
      · obtain ⟨type, -, hrun⟩ := bind_eq_ok.mp hrun
        obtain ⟨type', -, hrun⟩ := bind_eq_ok.mp hrun
        split at hrun
        · cases hrun
        · cases hrun
          exact SameLinks.refl _ _
      · cases hrun
        exact SameLinks.refl _ _
  · cases hrun
    exact SameLinks.refl _ _

variable {xs zs : List IP}

/-- A pass that meets a conflict has changed nothing in front of it. -/
theorem offerIp_fold_clash (hcont : Contents IPCell.Holds m as xs) (hxs : (ipStrings xs).Nodup)
    (hc2 : m[b]? = some c2) (hy : c2.Holds y) (hclash : ∃ x ∈ xs, Clash x y) (flag : Bool) :
    foldFlow (offerIp b) as (m, flag) = .ok (.done (-1, m)) := by
  induction hcont with
  | nil => simp at hclash
  | @cons a x as xs hax _ ih =>
    obtain ⟨c1, hc1, hx⟩ := hax
    obtain ⟨hxnot, hxs⟩ := List.nodup_cons.mp hxs
    by_cases hhere : Clash x y
    · exact foldFlow_cons_done (offerIp_clash hc1 hx hc2 hy hhere flag)
    · obtain ⟨z, hz, hzy⟩ : ∃ z ∈ xs, Clash z y := by simpa [hhere] using hclash
      have hne : x.ip ≠ y.ip := fun hip => hxnot (List.mem_map.mpr ⟨z, hz, hzy.1.trans hip.symm⟩)
      rw [foldFlow_cons_next (offerIp_ne hc1 hx hc2 hy hne flag)]
      exact ih hxs ⟨z, hz, hzy⟩

/-- A pass without a conflict. -/
theorem offerIp_fold (hcont : Contents IPCell.Holds m as xs) (hnodup : as.Nodup) (hb : b ∉ as)
    (hc2 : m[b]? = some c2) (hy : c2.Holds y) (hno : ∀ x ∈ xs, ¬ Clash x y) (flag : Bool) :
    ∃ m', foldFlow (offerIp b) as (m, flag) = .ok (.next (m', flag && y.ip ∉ ipStrings xs)) ∧
      Rewritten IPCell.nextIp as m m' ∧ Contents IPCell.Holds m' as (xs.map (joinIp y)) := by
  induction as generalizing m xs flag with
  | nil =>
    cases hcont
    exact ⟨m, by simp [ipStrings], .refl _ m, .nil⟩
  | cons a as ih =>
    obtain ⟨hanot, hnodup⟩ := List.nodup_cons.mp hnodup
    simp only [List.mem_cons, not_or] at hb
    cases hcont with
    | @cons _ x _ xs hax hcont =>
      obtain ⟨c1, hc1, hx⟩ := hax
      have hrest : ∀ z ∈ xs, ¬ Clash z y := fun z hz => hno z (by simp [hz])
      by_cases hip : x.ip = y.ip
      · obtain ⟨m₁, hrun₁, hrew₁, -, hax₁⟩ := offerIp_join hc1 hx hc2 hy hip (hno x (by simp)) flag
        have hcont₁ :=
          hrew₁.contents (fun d hd => by simpa using ne_of_mem_of_not_mem hd hanot) hcont
        have hc2₁ := hrew₁.get (by simpa using hb.1) hc2
        obtain ⟨m₂, hrun₂, hrew₂, hcont₂⟩ := ih hcont₁ hnodup hb.2 hc2₁ hrest false
        obtain ⟨c, hc, hx'⟩ := hax₁
        refine ⟨m₂, ?_, (hrew₁.mono (by simp)).trans (hrew₂.mono (by simp; tauto)),
          .cons ⟨c, hrew₂.get hanot hc, hx'⟩ hcont₂⟩
        rw [foldFlow_cons_next hrun₁, hrun₂]
        simp [ipStrings, hip]
      · obtain ⟨m₂, hrun₂, hrew₂, hcont₂⟩ := ih hcont hnodup hb.2 hc2 hrest flag
        refine ⟨m₂, ?_, hrew₂.mono (by simp; tauto),
          .cons ⟨c1, hrew₂.get hanot hc1, ?_⟩ hcont₂⟩
        · rw [foldFlow_cons_next (offerIp_ne hc1 hx hc2 hy hip flag), hrun₂]
          simp [ipStrings, Ne.symm hip]
        · rw [joinIp_of_ne hip]
          exact hx

/-- A pass over cells where the IP can meet itself only. -/
theorem offerIp_fold_self (hcont : Contents IPCell.Holds m as zs) (hc2 : m[b]? = some c2)
    (hy : c2.Holds y) (hself : ∀ z ∈ zs, z.ip = y.ip → z = y) (flag : Bool) :
    foldFlow (offerIp b) as (m, flag) = .ok (.next (m, flag && y.ip ∉ ipStrings zs)) := by
  induction hcont generalizing flag with
  | nil => simp [ipStrings]
  | @cons a z as zs haz _ ih =>
    obtain ⟨c1, hc1, hz⟩ := haz
    have hrest : ∀ w ∈ zs, w.ip = y.ip → w = y := fun w hw => hself w (by simp [hw])
    by_cases hip : z.ip = y.ip
    · have hzy := hself z (by simp) hip
      have hno : ¬ Clash z y := by
        rintro ⟨-, -, htype⟩
        exact htype (congrArg IP.type hzy)
      obtain ⟨m', hrun, -, hsame, -⟩ := offerIp_join hc1 hz hc2 hy hip hno flag
      obtain rfl := hsame (hzy ▸ Int32.lt_irrefl)
      rw [foldFlow_cons_next hrun, ih hrest]
      simp [ipStrings, hip]
    · rw [foldFlow_cons_next (offerIp_ne hc1 hz hc2 hy hip flag), ih hrest]
      simp [ipStrings, Ne.symm hip]

end InnerLoop

/-! ## The outer loop -/

/-- During the outer loop, at `p` in `ip2`: `ip1` stands for `xs` in its old cells and for
`zs` in the cells `ls` of `ip2`, and the IPs `ys` in the cells `bs` are still to come. -/
structure IpMerging (ip1 p : Ptr) (as ls bs : List Nat) (xs zs ys : List IP) (n : Nat)
    (s : IpMergeState) : Prop where
  size : s.ips.length = n
  links : Seg IPCell.nextIp s.ips ip1 (as ++ ls) .null
  ours : Contents IPCell.Holds s.ips as xs
  theirs : Contents IPCell.Holds s.ips ls zs
  todo : Contents IPCell.Holds s.ips bs ys
  todoLinks : Seg IPCell.nextIp s.ips p bs .null
  apart : ∀ b ∈ ls ++ bs, b ∉ as
  tail : ls = [] → ∃ cs a, as = cs ++ [a] ∧ s.ipListTail = .addr a
  behind : ls ≠ [] → ∀ b ∈ bs, b ∈ ls
  distinct : (ipStrings xs).Nodup ∧ (ipStrings ys).Nodup
  self : ∀ y ∈ ys, ∀ z ∈ zs, z.ip = y.ip → z = y

section OuterLoop

variable {ip1 p : Ptr} {as ls bs : List Nat} {xs zs ys : List IP} {n b : Nat} {y : IP}
  {s : IpMergeState}

theorem IpMerging.nil_iff (hM : IpMerging ip1 p as ls bs xs zs ys n s) : ls = [] ↔ zs = [] := by
  have hlen := List.Forall₂.length_eq hM.theirs
  rw [← List.length_eq_zero_iff, ← List.length_eq_zero_iff, hlen]

/-- The pass over `ip1` in a round without a conflict. -/
theorem IpMerging.pass (hM : IpMerging ip1 p as ls (b :: bs) xs zs (y :: ys) n s)
    (hno : ∀ x ∈ xs, ¬ Clash x y) :
    ∃ ips, forChainFlow Prod.fst IPCell.nextIp (offerIp b) (n + 1) ip1 (s.ips, true) =
        .ok (.next (ips, y.ip ∉ ipStrings xs ∧ zs = [])) ∧
      Rewritten IPCell.nextIp as s.ips ips ∧
      Contents IPCell.Holds ips as (xs.map (joinIp y)) := by
  obtain ⟨⟨c2, hc2, hy⟩, -⟩ := List.forall₂_cons.mp hM.todo
  have hnodup := (List.nodup_append.mp hM.links.nodup).1
  have hb : b ∉ as := hM.apart b (by simp)
  obtain ⟨ips, hrun, hrew, hcont⟩ := offerIp_fold hM.ours hnodup hb hc2 hy hno true
  have htheirs := hrew.contents (fun d hd => hM.apart d (by simp [hd])) hM.theirs
  have hrun' := offerIp_fold_self htheirs (hrew.get hb hc2) hy (hM.self y (by simp))
    (true && y.ip ∉ ipStrings xs)
  have hlinks : Seg IPCell.nextIp (Prod.fst (s.ips, true)) ip1 (as ++ ls) .null := hM.links
  have hfuel : (as ++ ls).length < n + 1 := hM.size ▸ Nat.lt_succ_of_le hM.links.length_le
  refine ⟨ips, ?_, hrew, hcont⟩
  rw [forChainFlow_eq_foldFlow hlinks hfuel (fun a _ t t' h => offerIp_sameLinks _ h),
    foldFlow_append_next hrun, hrun']
  -- An IP of the appended rest finds itself there.
  have hfound : y.ip ∉ ipStrings zs ↔ zs = [] := by
    constructor
    · intro hnot
      by_contra hzs
      have hbls := hM.behind (fun h => hzs (hM.nil_iff.mp h)) b (by simp)
      obtain ⟨z, hz, c, hc, hzc⟩ := hM.theirs.mem_left hbls
      rw [hc2] at hc
      cases hc
      exact hnot (List.mem_map.mpr ⟨z, hz, congrArg IP.ip (hzc.unique hy)⟩)
    · rintro rfl
      simp [ipStrings]
  simp only [Bool.true_and, hfound, Bool.decide_and]

/-- A round in which nothing is linked. -/
theorem IpMerging.rewrite (hM : IpMerging ip1 p as ls (b :: bs) xs zs (y :: ys) n s)
    {ips : Mem IPCell} (hrew : Rewritten IPCell.nextIp as s.ips ips)
    (hcont : Contents IPCell.Holds ips as (xs.map (joinIp y))) :
    ∃ c, ips[b]? = some c ∧
      IpMerging ip1 c.nextIp as ls bs (xs.map (joinIp y)) zs ys n { s with ips := ips } := by
  obtain ⟨-, c2, hc2, hrest⟩ := hM.todoLinks
  have hb : b ∉ as := hM.apart b (by simp)
  refine ⟨c2, hrew.get hb hc2, ?_⟩
  exact {
    size := hrew.length.trans hM.size
    links := hM.links.sameLinks (hrew.sameLinks _)
    ours := hcont
    theirs := hrew.contents (fun d hd => hM.apart d (by simp [hd])) hM.theirs
    todo := hrew.contents (fun d hd => hM.apart d (by simp [hd])) (List.forall₂_cons.mp hM.todo).2
    todoLinks := hrest.sameLinks (hrew.sameLinks _)
    apart := fun d hd => hM.apart d (by
      simp only [List.mem_append, List.mem_cons] at hd ⊢
      tauto)
    tail := hM.tail
    behind := fun hls d hd => hM.behind hls d (by simp [hd])
    distinct := by
      rw [ipStrings_map_joinIp]
      exact ⟨hM.distinct.1, (List.nodup_cons.mp hM.distinct.2).2⟩
    self := fun z hz => hM.self z (by simp [hz]) }

/-- A round that links the rest of `ip2`. -/
theorem IpMerging.link (hM : IpMerging ip1 p as [] (b :: bs) xs [] (y :: ys) n s)
    {ips : Mem IPCell} (hrew : Rewritten IPCell.nextIp as s.ips ips)
    (hcont : Contents IPCell.Holds ips as (xs.map (joinIp y))) :
    ∃ ips' tail c, update ips s.ipListTail (fun c => { c with nextIp := .addr b }) = .ok ips' ∧
      load ips' s.ipListTail = .ok tail ∧ ips'[b]? = some c ∧
      IpMerging ip1 c.nextIp as (b :: bs) bs (xs.map (joinIp y)) (y :: ys) ys n
        ⟨ips', tail.nextIp⟩ := by
  obtain ⟨cs, a, rfl, htail⟩ := hM.tail rfl
  let f := fun c : IPCell => { c with nextIp := .addr b }
  have hanot : ∀ d ∈ b :: bs, d ≠ a := by
    rintro d hd rfl
    exact hM.apart d (by simpa using hd) (by simp)
  have hlinks := hM.links.sameLinks (hrew.sameLinks _)
  rw [List.append_nil] at hlinks
  obtain ⟨e, he⟩ : ∃ e, ips[a]? = some e :=
    ⟨_, List.getElem?_eq_getElem (hlinks.lt_length a (by simp))⟩
  have hsame : SameLinks IPCell.nextIp (b :: bs) ips (ips.modify a f) :=
    SameLinks.modify _ (fun hmem => absurd rfl (hanot a hmem))
  have hrest := (hM.todoLinks.sameLinks (hrew.sameLinks _)).sameLinks hsame
  have htodo := (hrew.contents (fun d hd => hM.apart d (by simpa using hd)) hM.todo).modify_keep
    (f := f) (fun _ _ hx => hx.relink) a
  obtain ⟨rfl, c, hc, hnext⟩ := hrest
  refine ⟨ips.modify a f, f e, c, ?_, ?_, hc, ?_⟩
  · rw [htail, update_addr (lt_of_getElem?_eq_some he)]
  · rw [htail, load_addr (getElem?_modify_same f he)]
  · exact {
      size := by rw [List.length_modify, hrew.length, hM.size]
      links := Seg.append_iff.mpr
        ⟨.addr b, hlinks.relink_last hlinks.nodup (fun _ => rfl), rfl, c, hc, hnext⟩
      ours := hcont.modify_keep (f := f) (fun _ _ hx => hx.relink) a
      theirs := htodo
      todo := (List.forall₂_cons.mp htodo).2
      todoLinks := hnext
      apart := fun d hd => hM.apart d (by
        simp only [List.mem_append, List.mem_cons, List.nil_append] at hd ⊢
        tauto)
      tail := fun h => absurd h (by simp)
      behind := fun _ d hd => by simp [hd]
      distinct := by
        rw [ipStrings_map_joinIp]
        exact ⟨hM.distinct.1, (List.nodup_cons.mp hM.distinct.2).2⟩
      self := fun z hz w hw hip =>
        List.inj_on_of_nodup_map hM.distinct.2 hw (by simp [hz]) hip }

/-- One round without a conflict. -/
theorem IpMerging.step (hM : IpMerging ip1 p as ls (b :: bs) xs zs (y :: ys) n s)
    (hno : ∀ x ∈ xs, ¬ Clash x y) :
    ∃ s' c ls', mergeIp (n + 1) ip1 b s = .ok (.next s') ∧ s'.ips[b]? = some c ∧
      IpMerging ip1 c.nextIp as ls' bs (xs.map (joinIp y))
        (if y.ip ∉ ipStrings xs ∧ zs = [] then y :: ys else zs) ys n s' := by
  obtain ⟨ips, hrun, hrew, hcont⟩ := hM.pass hno
  by_cases hnew : y.ip ∉ ipStrings xs ∧ zs = []
  · rw [decide_eq_true hnew] at hrun
    obtain rfl : zs = [] := hnew.2
    obtain rfl := hM.nil_iff.mpr rfl
    obtain ⟨ips', tail, c, hupd, hload, hc, hM'⟩ := hM.link hrew hcont
    refine ⟨⟨ips', tail.nextIp⟩, c, b :: bs, ?_, hc, by rw [if_pos hnew]; exact hM'⟩
    simp only [mergeIp, hrun, ok_bind, if_true, hupd, hload]
  · rw [decide_eq_false hnew] at hrun
    obtain ⟨c, hc, hM'⟩ := hM.rewrite hrew hcont
    refine ⟨{ s with ips := ips }, c, ls, ?_, hc, by rw [if_neg hnew]; exact hM'⟩
    simp only [mergeIp, hrun, ok_bind, Bool.false_eq_true, if_false]

theorem linked_cons (xs ys zs : List IP) (y : IP) : linked xs (y :: ys) zs =
    if y.ip ∈ ipStrings xs then linked xs ys zs else y :: (ys ++ zs) := by
  unfold linked
  by_cases hy : y.ip ∈ ipStrings xs
  · simp only [List.dropWhile_cons, hy, decide_true, if_true]
  · simp [hy]

/-- The rounds for the IPs `pre` of `ip2`. -/
theorem IpMerging.rounds {pre : List IP} (fuel : Nat)
    (hM : IpMerging ip1 p as ls bs xs zs (pre ++ ys) n s)
    (hno : ∀ y ∈ pre, ∀ x ∈ xs, ¬ Clash x y) :
    ∃ s' p' ls' bs', forChainFlow IpMergeState.ips IPCell.nextIp (mergeIp (n + 1) ip1)
        (pre.length + fuel) p s =
          forChainFlow IpMergeState.ips IPCell.nextIp (mergeIp (n + 1) ip1) fuel p' s' ∧
      IpMerging ip1 p' as ls' bs' (xs.map (joinAll pre))
        (if zs = [] then linked xs pre ys else zs) ys n s' := by
  induction pre generalizing p ls bs xs zs s with
  | nil =>
    refine ⟨s, p, ls, bs, by rw [List.length_nil, Nat.zero_add], ?_⟩
    have hmap : xs.map (joinAll []) = xs := List.map_id xs
    have hzs : (if zs = [] then linked xs [] ys else zs) = zs := by
      split
      · rename_i h
        rw [h]
        rfl
      · rfl
    rw [hmap, hzs]
    exact hM
  | cons y pre ih =>
    obtain ⟨b, bs, rfl⟩ : ∃ b bs', bs = b :: bs' := by
      cases hM.todo with
      | cons _ _ => exact ⟨_, _, rfl⟩
    obtain ⟨s₁, c, ls₁, hround, hc, hM₁⟩ := hM.step (hno y (by simp))
    have hp : p = .addr b := hM.todoLinks.1
    have hno₁ : ∀ z ∈ pre, ∀ x ∈ xs.map (joinIp y), ¬ Clash x z := by
      intro z hz x' hx'
      obtain ⟨x, hx, rfl⟩ := List.mem_map.mp hx'
      have hne : y.ip ≠ z.ip := by
        intro hip
        have hnot := (List.nodup_cons.mp hM.distinct.2).1
        exact hnot (List.mem_map.mpr ⟨z, by simp [hz], hip.symm⟩)
      rw [clash_joinIp hne]
      exact hno z (by simp [hz]) x hx
    obtain ⟨s', p', ls', bs', hrun, hM'⟩ := ih hM₁ hno₁
    refine ⟨s', p', ls', bs', ?_, ?_⟩
    · rw [List.length_cons, Nat.succ_add, hp, forChainFlow_next hround hc, hrun]
    · have hmap : (xs.map (joinIp y)).map (joinAll pre) = xs.map (joinAll (y :: pre)) := by
        rw [List.map_map]
        rfl
      have hlinked : linked (xs.map (joinIp y)) pre ys = linked xs pre ys := by
        unfold linked
        rw [ipStrings_map_joinIp]
      rw [hmap, hlinked] at hM'
      convert hM' using 1
      rw [linked_cons]
      by_cases hzs : zs = [] <;> by_cases hy : y.ip ∈ ipStrings xs <;> simp [hzs, hy]

end OuterLoop

/-! ## The whole function -/

section Whole

variable {ips : Mem IPCell} {ip1 ip2 : Ptr} {as bs : List Nat} {xs ys : List IP}

/-- The function up to the IP `ys` of `ip2`, if none of `pre` conflicts. -/
theorem ipListMerge_rounds {pre : List IP} (hx : IpsOn ips ip1 as xs)
    (hy : IpsOn ips ip2 bs (pre ++ ys)) (hne : xs ≠ []) (hdisj : as.Disjoint bs)
    (hxs : (ipStrings xs).Nodup) (hys : (ipStrings (pre ++ ys)).Nodup)
    (hno : ∀ y ∈ pre, ∀ x ∈ xs, ¬ Clash x y) :
    ∃ s p ls bs' fuel, ipListMerge ips ip1 ip2 = (do
        match ← forChainFlow IpMergeState.ips IPCell.nextIp (mergeIp (ips.length + 1) ip1)
          (fuel + 1) p s with
        | .done r => .ok r
        | .next s => .ok (1, s.ips)) ∧
      IpMerging ip1 p as ls bs' (xs.map (joinAll pre)) (linked xs pre ys) ys ips.length s := by
  have hasne : as ≠ [] := by
    rintro rfl
    cases hx.contents
    exact hne rfl
  obtain ⟨cs, a, rfl⟩ : ∃ cs a, as = cs ++ [a] := by
    rcases List.eq_nil_or_concat as with rfl | ⟨cs, a, rfl⟩
    · exact absurd rfl hasne
    · exact ⟨cs, a, List.concat_eq_append⟩
  have hlen : (cs ++ [a]).length < ips.length + 1 := Nat.lt_succ_of_le hx.links.length_le
  have hlast := lastCell_spec hx.links (show cs.length < ips.length + 1 by simp at hlen; omega)
  have hM : IpMerging ip1 ip2 (cs ++ [a]) [] bs xs [] (pre ++ ys) ips.length ⟨ips, .addr a⟩ := {
    size := rfl
    links := by rw [List.append_nil]; exact hx.links
    ours := hx.contents
    theirs := .nil
    todo := hy.contents
    todoLinks := hy.links
    apart := fun d hd hda => hdisj hda (by simpa using hd)
    tail := fun _ => ⟨cs, a, rfl, rfl⟩
    behind := fun h => absurd rfl h
    distinct := ⟨hxs, hys⟩
    self := fun _ _ z hz => by simp at hz }
  have hpre : pre.length ≤ ips.length := by
    have hbs := List.Forall₂.length_eq hy.contents
    have hle := hy.links.length_le
    rw [List.length_append] at hbs
    omega
  obtain ⟨fuel, hfuel⟩ : ∃ fuel, ips.length + 1 = pre.length + (fuel + 1) :=
    ⟨ips.length - pre.length, by omega⟩
  obtain ⟨s, p, ls, bs', hrun, hM'⟩ := hM.rounds (fuel + 1) hno
  rw [if_pos rfl] at hM'
  refine ⟨s, p, ls, bs', fuel, ?_, hM'⟩
  simp only [ipListMerge, hlast, ok_bind]
  rw [← hrun, ← hfuel]

theorem IpMerging.ipsOn {p : Ptr} {ls : List Nat} {zs : List IP} {n : Nat} {s : IpMergeState}
    (hM : IpMerging ip1 p as ls bs xs zs ys n s) : IpsOn s.ips ip1 (as ++ ls) (xs ++ zs) :=
  ⟨hM.links, hM.ours.append hM.theirs⟩

/-- Without a strong conflict `ip_list_merge` returns 1. -/
theorem ipListMerge_ok (hx : IpsOn ips ip1 as xs) (hy : IpsOn ips ip2 bs ys) (hne : xs ≠ [])
    (hdisj : as.Disjoint bs) (hxs : (ipStrings xs).Nodup) (hys : (ipStrings ys).Nodup)
    (hno : ∀ y ∈ ys, ∀ x ∈ xs, ¬ Clash x y) :
    ∃ ips' ls, ipListMerge ips ip1 ip2 = .ok (1, ips') ∧
      IpsOn ips' ip1 (as ++ ls) (xs.map (joinAll ys) ++ linked xs ys []) := by
  have hy' : IpsOn ips ip2 bs (ys ++ []) := by rwa [List.append_nil]
  have hys' : (ipStrings (ys ++ [])).Nodup := by rwa [List.append_nil]
  obtain ⟨s, p, ls, bs', fuel, hrun, hM⟩ := ipListMerge_rounds hx hy' hne hdisj hxs hys' hno
  obtain rfl : bs' = [] := by
    cases hM.todo
    rfl
  have hp : p = .null := hM.todoLinks
  rw [hp] at hrun
  exact ⟨s.ips, ls, hrun, hM.ipsOn⟩

theorem joinAll_of_not_mem {x : IP} {ys : List IP} (h : x.ip ∉ ipStrings ys) :
    joinAll ys x = x := by
  induction ys with
  | nil => rfl
  | cons y ys ih =>
    have hne : x.ip ≠ y.ip := fun hip => h (by simp [ipStrings, hip])
    show joinAll ys (joinIp y x) = x
    rw [joinIp_of_ne hne]
    exact ih (fun hmem => h (List.mem_cons_of_mem _ hmem))

/-- At the first strong conflict it returns -1, and what it did before stays. -/
theorem ipListMerge_refused {pre post : List IP} {y : IP} (hx : IpsOn ips ip1 as xs)
    (hy : IpsOn ips ip2 bs (pre ++ y :: post)) (hne : xs ≠ []) (hdisj : as.Disjoint bs)
    (hxs : (ipStrings xs).Nodup) (hys : (ipStrings (pre ++ y :: post)).Nodup)
    (hno : ∀ z ∈ pre, ∀ x ∈ xs, ¬ Clash x z) (hclash : ∃ x ∈ xs, Clash x y) :
    ∃ ips' ls, ipListMerge ips ip1 ip2 = .ok (-1, ips') ∧
      IpsOn ips' ip1 (as ++ ls) (xs.map (joinAll pre) ++ linked xs pre (y :: post)) := by
  obtain ⟨s, p, ls, bs', fuel, hrun, hM⟩ := ipListMerge_rounds hx hy hne hdisj hxs hys hno
  obtain ⟨b, bs, rfl⟩ : ∃ b bs, bs' = b :: bs := by
    cases hM.todo with
    | cons _ _ => exact ⟨_, _, rfl⟩
  obtain ⟨⟨c2, hc2, hyc⟩, -⟩ := List.forall₂_cons.mp hM.todo
  have hp : p = .addr b := hM.todoLinks.1
  -- No IP in front of `y` has its string, so the conflict is still there.
  have hclash' : ∃ x ∈ xs.map (joinAll pre), Clash x y := by
    obtain ⟨x, hxmem, hxy⟩ := hclash
    refine ⟨x, List.mem_map.mpr ⟨x, hxmem, joinAll_of_not_mem (fun hmem => ?_)⟩, hxy⟩
    have hsplit : (ipStrings pre ++ y.ip :: ipStrings post).Nodup := by
      simpa [ipStrings] using hys
    exact (List.nodup_append.mp hsplit).2.2 _ hmem _ (by simp) hxy.1
  have hlinks : Seg IPCell.nextIp (Prod.fst (s.ips, true)) ip1 (as ++ ls) .null := hM.links
  have hfuel : (as ++ ls).length < ips.length + 1 :=
    hM.size ▸ Nat.lt_succ_of_le hM.links.length_le
  have hpass := offerIp_fold_clash hM.ours hM.distinct.1 hc2 hyc hclash' true
  have hround : mergeIp (ips.length + 1) ip1 b s = .ok (.done (-1, s.ips)) := by
    rw [mergeIp, forChainFlow_eq_foldFlow hlinks hfuel (fun a _ t t' h => offerIp_sameLinks _ h),
      foldFlow_append_done ls hpass]
    rfl
  refine ⟨s.ips, ls, ?_, hM.ipsOn⟩
  rw [hrun, hp, forChainFlow_done hround]
  rfl

end Whole

end VpnP2p.NodeInfo
