import VpnP2p.NodeInfo.Ledger

/-!
# What the lines behind an `ip_list` line come to

An IP is complete when its four lines stand in front of its `validity` line, since that
line moves on to the next cell. The list is what was moved past when `ip_list_ends`
comes, and with nothing moved past the half-filled spare cell stays on it for good.
`Whole` says of the lines of a sheet that every IP on the list is complete, `Overrun`
that no further `validity` or `ip_list_ends` line may follow.
-/

namespace VpnP2p.NodeInfo

open Foundation

/-! ## Lines of a sheet -/

namespace Op

def isValidity : Op → Bool
  | .validity _ => true
  | _ => false

def isIpListEnds : Op → Bool
  | .ipListEnds => true
  | _ => false

/-- A line whose branch follows `ip_new` or `ip_header`. -/
def isAboutIps : Op → Bool
  | .ip _ | .type _ | .sCount _ | .validity _ | .ipListEnds => true
  | _ => false

def ipValue : Op → Option (CStr 20)
  | .ip s => s.toOption
  | _ => none

def typeValue : Op → Option (CStr 20)
  | .type s => s.toOption
  | _ => none

def sCountValue : Op → Option Int32
  | .sCount v => v.toOption
  | _ => none

theorem of_toOption {ρ : Type} {v : Result ρ} {a : ρ} (h : v.toOption = some a) : v = .ok a := by
  cases v with
  | error e => cases h
  | ok b =>
    cases h
    rfl

/-- A branch that has a value is the branch of that field. -/
structure HasOwnValues (op : Op) : Prop where
  id : ∀ a, op.idValue = some a → op = .id (.ok a)
  nodeCount : ∀ a, op.nodeCountValue = some a → op = .nodeCount (.ok a)
  reliable : ∀ a, op.reliableValue = some a → op = .reliable (.ok a)
  ip : ∀ a, op.ipValue = some a → op = .ip (.ok a)
  type : ∀ a, op.typeValue = some a → op = .type (.ok a)
  sCount : ∀ a, op.sCountValue = some a → op = .sCount (.ok a)

theorem hasOwnValues (op : Op) : op.HasOwnValues := by
  cases op <;> constructor <;> intro a h <;> first
    | cases h
    | rw [of_toOption h]

theorem isIpListEnds_iff {op : Op} : op.isIpListEnds = true ↔ op = .ipListEnds := by
  cases op <;> simp [isIpListEnds]

end Op

/-- The fields of an IP that come before its validity are on these lines. -/
structure HasFields (ops : List Op) : Prop where
  ip : ∃ op ∈ ops, op.ipValue.isSome = true
  type : ∃ op ∈ ops, op.typeValue.isSome = true
  sCount : ∃ op ∈ ops, op.sCountValue.isSome = true

/-- Each `validity` line has the other lines of its IP between the one before and it. -/
def FieldsFirst (ops : List Op) : Prop :=
  EachAt (fun pre op => op.isValidity = true → HasFields (since Op.isValidity pre)) ops

/-- In front of the first `ip_list_ends` there is an IP, and all of them are complete. -/
def Whole (ops : List Op) : Prop :=
  ∃ front rest, ops = front ++ .ipListEnds :: rest ∧ (∀ op ∈ front, op.isIpListEnds = false) ∧
    (∃ op ∈ front, op.isValidity = true) ∧ FieldsFirst front

/-- There is a `validity` line behind an `ip_list_ends`. -/
def Overrun (ops : List Op) : Prop :=
  ∃ front rest, ops = front ++ .ipListEnds :: rest ∧ ∃ op ∈ rest, op.isValidity = true

structure Draft.Complete (d : Draft) : Prop where
  ip : d.ip.isSome = true
  type : d.type.isSome = true
  sCount : d.sCount.isSome = true
  validity : d.validity.isSome = true

namespace Sheet

/-! ## One line -/

theorem write_eq_some {s t : Sheet} {f : Draft → Draft} (h : s.write f = some t) :
    t = { s with spare := f s.spare } := by
  unfold write at h
  split at h
  · cases h
  · cases h
    rfl

theorem next_eq_some {s t : Sheet} (h : s.next = some t) :
    (s.mode = .growing ∨ s.mode = .ended) ∧ t = ⟨s.entries, .blank, s.attached,
      if s.mode = .growing then .growing else .lost⟩ := by
  unfold next at h
  split at h
  · rename_i hmode
    cases h
    exact ⟨Or.inl hmode, by simp [hmode]⟩
  · rename_i hmode
    cases h
    exact ⟨Or.inr hmode, by simp [hmode]⟩
  · cases h

theorem cut_eq_some {s t : Sheet} (h : s.cut = some t) :
    (s.mode = .growing ∧ t = { s with attached := s.kept.isEmpty, mode := .ended }) ∨
      (s.mode = .ended ∧ t = s) := by
  unfold cut at h
  split at h
  · rename_i hmode
    cases h
    exact Or.inl ⟨hmode, rfl⟩
  · rename_i hmode
    cases h
    exact Or.inr ⟨hmode, rfl⟩
  · cases h

/-- The three things a line can do to a sheet. -/
theorem exec_cases {s t : Sheet} {op : Op} (h : s.exec op = some t) :
    (∃ v, op = .validity (.ok v) ∧ (s.mode = .growing ∨ s.mode = .ended) ∧
      t = ⟨{ s with spare := { s.spare with validity := some v } }.entries, .blank, s.attached,
        if s.mode = .growing then .growing else .lost⟩) ∨
    (op = .ipListEnds ∧ ((s.mode = .growing ∧
      t = { s with attached := s.kept.isEmpty, mode := .ended }) ∨ (s.mode = .ended ∧ t = s))) ∨
    (op.isValidity = false ∧ op.isIpListEnds = false ∧ t = { s with
      spare := ⟨op.ipValue.or s.spare.ip, op.typeValue.or s.spare.type,
        op.sCountValue.or s.spare.sCount, s.spare.validity⟩ }) := by
  cases op with
  | ipListEnds => exact Or.inr (Or.inl ⟨rfl, cut_eq_some h⟩)
  | validity v =>
    obtain ⟨a, ha, h⟩ := Option.bind_eq_some_iff.mp h
    obtain ⟨u, hu, hnext⟩ := Option.bind_eq_some_iff.mp h
    obtain rfl := write_eq_some hu
    obtain ⟨hmode, rfl⟩ := next_eq_some hnext
    cases v with
    | error e => cases ha
    | ok v =>
      cases ha
      exact Or.inl ⟨_, rfl, hmode, rfl⟩
  | ip v =>
    obtain ⟨a, ha, h⟩ := Option.bind_eq_some_iff.mp h
    refine Or.inr (Or.inr ⟨rfl, rfl, (write_eq_some h).trans ?_⟩)
    simp only [Op.ipValue, ha]
    rfl
  | type v =>
    obtain ⟨a, ha, h⟩ := Option.bind_eq_some_iff.mp h
    refine Or.inr (Or.inr ⟨rfl, rfl, (write_eq_some h).trans ?_⟩)
    simp only [Op.typeValue, ha]
    rfl
  | sCount v =>
    obtain ⟨a, ha, h⟩ := Option.bind_eq_some_iff.mp h
    refine Or.inr (Or.inr ⟨rfl, rfl, (write_eq_some h).trans ?_⟩)
    simp only [Op.sCountValue, ha]
    rfl
  | _ =>
    cases h
    exact Or.inr (Or.inr ⟨rfl, rfl, rfl⟩)

/-! ## In front of `ip_list_ends` -/

/-- What the sheet is after the lines `ops`, none of them `ip_list_ends`. -/
structure Filling (ops : List Op) (t : Sheet) : Prop where
  mode : t.mode = .growing
  attached : t.attached = true
  ip : t.spare.ip = lastValue Op.ipValue (since Op.isValidity ops)
  type : t.spare.type = lastValue Op.typeValue (since Op.isValidity ops)
  sCount : t.spare.sCount = lastValue Op.sCountValue (since Op.isValidity ops)
  validity : t.spare.validity = none
  empty : t.kept = [] ↔ ∀ op ∈ ops, op.isValidity = false
  whole : (∀ d ∈ t.kept, d.Complete) ↔ FieldsFirst ops

theorem filling_opened : Filling [] .opened where
  mode := rfl
  attached := rfl
  ip := rfl
  type := rfl
  sCount := rfl
  validity := rfl
  empty := by simp [opened]
  whole := ⟨fun _ => eachAt_nil _, fun _ => by simp [opened]⟩

/-- The IP a `validity` line moves past. -/
theorem Filling.complete_iff {ops : List Op} {t : Sheet} (h : Filling ops t) (v : Int32) :
    { t.spare with validity := some v }.Complete ↔ HasFields (since Op.isValidity ops) := by
  constructor
  · intro hd
    exact ⟨lastValue_isSome.mp (h.ip ▸ hd.ip), lastValue_isSome.mp (h.type ▸ hd.type),
      lastValue_isSome.mp (h.sCount ▸ hd.sCount)⟩
  · intro hd
    exact ⟨h.ip ▸ lastValue_isSome.mpr hd.ip, h.type ▸ lastValue_isSome.mpr hd.type,
      h.sCount ▸ lastValue_isSome.mpr hd.sCount, rfl⟩

theorem Filling.exec {ops : List Op} {t u : Sheet} {op : Op} (h : Filling ops t)
    (hop : op.isIpListEnds = false) (hexec : t.exec op = some u) : Filling (ops ++ [op]) u := by
  rcases exec_cases hexec with ⟨v, rfl, -, rfl⟩ | ⟨rfl, -⟩ | ⟨hval, -, rfl⟩
  · have hsince : since Op.isValidity (ops ++ [.validity (.ok v)]) = [] := by
      rw [since_concat]
      rfl
    have hentries : { t with spare := { t.spare with validity := some v } }.entries =
        t.kept ++ [{ t.spare with validity := some v }] := by
      rw [entries, if_pos h.attached]
    refine ⟨?_, h.attached, ?_, ?_, ?_, rfl, ?_, ?_⟩
    · rw [if_pos h.mode]
    · rw [hsince]
      rfl
    · rw [hsince]
      rfl
    · rw [hsince]
      rfl
    · rw [hentries]
      simp [Op.isValidity]
    · rw [hentries, FieldsFirst, eachAt_concat]
      simp only [List.forall_mem_append, List.forall_mem_singleton, Op.isValidity, true_imp_iff]
      exact and_congr h.whole (h.complete_iff v)
  · cases hop
  · have hsince : since Op.isValidity (ops ++ [op]) = since Op.isValidity ops ++ [op] := by
      rw [since_concat, hval]
      rfl
    refine ⟨h.mode, h.attached, ?_, ?_, ?_, h.validity, ?_, ?_⟩
    · rw [hsince, lastValue_concat, h.ip]
    · rw [hsince, lastValue_concat, h.type]
    · rw [hsince, lastValue_concat, h.sCount]
    · simpa [or_imp, forall_and, hval] using h.empty
    · rw [FieldsFirst, eachAt_concat, hval]
      exact h.whole.trans ⟨fun hops => ⟨hops, nofun⟩, fun hops => hops.1⟩

theorem filling_run {ops : List Op} (hops : ∀ op ∈ ops, op.isIpListEnds = false) {t : Sheet}
    (h : opened.run ops = some t) : Filling ops t := by
  induction ops using List.reverseRecOn generalizing t with
  | nil =>
    cases h
    exact filling_opened
  | append_singleton ops op ih =>
    rw [run_concat] at h
    obtain ⟨u, hu, hexec⟩ := Option.bind_eq_some_iff.mp h
    exact (ih (fun op hop => hops op (by simp [hop])) hu).exec (hops op (by simp)) hexec

/-! ## Behind it -/

/-- What the lines `ops` leave of the sheet `s`, which has been cut. -/
structure Cut (s : Sheet) (ops : List Op) (t : Sheet) : Prop where
  attached : t.attached = s.attached
  kept : s.attached = false → t.kept = s.kept
  validity : t.spare.validity = none
  mode : (t.mode = .ended ∧ ∀ op ∈ ops, op.isValidity = false) ∨
    (t.mode = .lost ∧ ∃ op ∈ ops, op.isValidity = true)

theorem Cut.exec {s t u : Sheet} {ops : List Op} {op : Op} (h : Cut s ops t)
    (hexec : t.exec op = some u) : Cut s (ops ++ [op]) u := by
  rcases exec_cases hexec with ⟨v, rfl, hmode, rfl⟩ | ⟨rfl, hmode⟩ | ⟨hval, -, rfl⟩
  · have hended : t.mode = .ended := by
      rcases h.mode with ⟨hm, -⟩ | ⟨hm, -⟩
      · exact hm
      · simp [hm] at hmode
    refine ⟨h.attached, fun hs => ?_, rfl,
      Or.inr ⟨by simp [hended], .validity (.ok v), by simp, rfl⟩⟩
    have hatt : t.attached = false := h.attached.trans hs
    rw [entries, if_neg (by simp [hatt])]
    exact h.kept hs
  · rcases h.mode with ⟨hm, hnone⟩ | ⟨hm, hsome⟩
    · rcases hmode with ⟨hm', -⟩ | ⟨-, rfl⟩
      · simp [hm] at hm'
      · exact ⟨h.attached, h.kept, h.validity,
          Or.inl ⟨hm, by simpa [or_imp, forall_and, Op.isValidity] using hnone⟩⟩
    · simp [hm] at hmode
  · refine ⟨h.attached, h.kept, h.validity, ?_⟩
    simpa [or_imp, forall_and, hval, or_and_right, exists_or] using h.mode

theorem Cut.run {s t : Sheet} {ops : List Op} (hended : s.mode = .ended)
    (hval : s.spare.validity = none) (h : s.run ops = some t) : Cut s ops t := by
  induction ops using List.reverseRecOn generalizing t with
  | nil =>
    cases h
    exact ⟨rfl, fun _ => rfl, hval, Or.inl ⟨hended, by simp⟩⟩
  | append_singleton ops op ih =>
    rw [run_concat] at h
    obtain ⟨u, hu, hexec⟩ := Option.bind_eq_some_iff.mp h
    exact (ih hu).exec hexec

/-! ## All lines of a sheet -/

/-- The lines split at the first `ip_list_ends`. -/
theorem run_split {front rest : List Op} (hfront : ∀ op ∈ front, op.isIpListEnds = false)
    {t : Sheet} (h : opened.run (front ++ .ipListEnds :: rest) = some t) :
    ∃ s, Filling front s ∧ Cut { s with attached := s.kept.isEmpty, mode := .ended } rest t := by
  rw [run_append] at h
  obtain ⟨s, hs, h⟩ := Option.bind_eq_some_iff.mp h
  have hfilling := filling_run hfront hs
  rw [run_cons] at h
  obtain ⟨u, hu, h⟩ := Option.bind_eq_some_iff.mp h
  rcases cut_eq_some hu with ⟨-, rfl⟩ | ⟨hended, -⟩
  · exact ⟨s, hfilling, Cut.run rfl hfilling.validity h⟩
  · rw [hfilling.mode] at hended
    cases hended

/-- The spare cell has no validity, so it is never a complete IP. -/
theorem not_complete_of_attached {t : Sheet} (hatt : t.attached = true)
    (hval : t.spare.validity = none) : ¬ ∀ d ∈ t.entries, d.Complete := by
  intro h
  have hspare := (h t.spare (by simp [entries, hatt])).validity
  rw [hval] at hspare
  cases hspare

theorem complete_iff_split {front rest : List Op}
    (hfront : ∀ op ∈ front, op.isIpListEnds = false) {t : Sheet}
    (h : opened.run (front ++ .ipListEnds :: rest) = some t) :
    (∀ d ∈ t.entries, d.Complete) ↔
      (∃ op ∈ front, op.isValidity = true) ∧ FieldsFirst front := by
  obtain ⟨s, hs, hcut⟩ := run_split hfront h
  by_cases hempty : s.kept = []
  · have hatt : t.attached = true := by
      rw [hcut.attached]
      simp [hempty]
    have hnone := hs.empty.mp hempty
    refine ⟨fun hall => absurd hall (not_complete_of_attached hatt hcut.validity), ?_⟩
    rintro ⟨⟨op, hop, hval⟩, -⟩
    rw [hnone op hop] at hval
    cases hval
  · have hs' : s.kept.isEmpty = false := by simpa using hempty
    have hatt : t.attached = false := hcut.attached.trans hs'
    have hsome : ∃ op ∈ front, op.isValidity = true := by
      by_contra hnone
      exact hempty (hs.empty.mpr (by simpa using hnone))
    rw [entries, if_neg (by simp [hatt]), hcut.kept hs']
    exact hs.whole.trans ⟨fun hf => ⟨hsome, hf⟩, fun hf => hf.2⟩

/-- The IPs on the list are complete exactly when the lines are whole. -/
theorem complete_iff_whole {ops : List Op} {t : Sheet} (h : opened.run ops = some t) :
    (∀ d ∈ t.entries, d.Complete) ↔ Whole ops := by
  by_cases hends : ∃ op ∈ ops, op.isIpListEnds = true
  · constructor
    · intro hall
      obtain ⟨front, e, rest, rfl, he, hfront⟩ := exists_first hends
      obtain rfl := Op.isIpListEnds_iff.mp he
      obtain ⟨hsome, hfields⟩ := (complete_iff_split hfront h).mp hall
      exact ⟨front, rest, rfl, hfront, hsome, hfields⟩
    · rintro ⟨front, rest, rfl, hfront, hsome, hfields⟩
      exact (complete_iff_split hfront h).mpr ⟨hsome, hfields⟩
  · have hfilling := filling_run (by simpa using hends) h
    have hpartial := not_complete_of_attached hfilling.attached hfilling.validity
    refine ⟨fun hall => absurd hall hpartial, ?_⟩
    rintro ⟨front, rest, rfl, -⟩
    exact absurd ⟨.ipListEnds, by simp, rfl⟩ hends

/-- Only what is behind the first `ip_list_ends` can overrun. -/
theorem overrun_iff {front rest : List Op} (hfront : ∀ op ∈ front, op.isIpListEnds = false) :
    Overrun (front ++ .ipListEnds :: rest) ↔ ∃ op ∈ rest, op.isValidity = true := by
  constructor
  · rintro ⟨front', rest', heq, op, hop, hval⟩
    rcases List.append_eq_append_iff.mp heq with ⟨k, -, hrest⟩ | ⟨k, hk, hrest⟩
    · have hmem : op ∈ Op.ipListEnds :: rest := by
        rw [hrest]
        simp [hop]
      rcases List.mem_cons.mp hmem with rfl | hmem
      · cases hval
      · exact ⟨op, hmem, hval⟩
    · cases k with
      | nil =>
        cases hrest
        exact ⟨op, hop, hval⟩
      | cons e k =>
        obtain ⟨rfl, -⟩ := List.cons.inj hrest
        exact absurd (hfront .ipListEnds (by simp [hk])) nofun
  · rintro ⟨op, hop, hval⟩
    exact ⟨front, rest, rfl, op, hop, hval⟩

/-- `ip_header` leads somewhere as long as the lines have not overrun. -/
theorem header_iff {ops : List Op} {t : Sheet} (h : opened.run ops = some t) :
    (t.mode = .growing ∨ t.mode = .ended) ↔ ¬ Overrun ops := by
  by_cases hends : ∃ op ∈ ops, op.isIpListEnds = true
  · obtain ⟨front, e, rest, rfl, he, hfront⟩ := exists_first hends
    obtain rfl := Op.isIpListEnds_iff.mp he
    obtain ⟨s, -, hcut⟩ := run_split hfront h
    rw [overrun_iff hfront]
    rcases hcut.mode with ⟨hmode, hnone⟩ | ⟨hmode, hsome⟩
    · simpa [hmode] using hnone
    · simpa [hmode] using hsome
  · have hmode := (filling_run (by simpa using hends) h).mode
    refine ⟨fun _ => ?_, fun _ => Or.inl hmode⟩
    rintro ⟨front, rest, rfl, -⟩
    exact hends ⟨.ipListEnds, by simp, rfl⟩

theorem mode_ne_shut {ops : List Op} {t : Sheet} (h : opened.run ops = some t) :
    t.mode ≠ .shut := by
  by_cases hends : ∃ op ∈ ops, op.isIpListEnds = true
  · obtain ⟨front, e, rest, rfl, he, hfront⟩ := exists_first hends
    obtain rfl := Op.isIpListEnds_iff.mp he
    obtain ⟨s, -, hcut⟩ := run_split hfront h
    rcases hcut.mode with ⟨hmode, -⟩ | ⟨hmode, -⟩
    · simp [hmode]
    · simp [hmode]
  · simp [(filling_run (by simpa using hends) h).mode]

/-- Before the first `ip_list` there is no place for any line about IPs. -/
theorem exec_shut {op : Op} {t : Sheet} (h : shut.exec op = some t) : t = shut := by
  cases op with
  | ip v | type v | sCount v | validity v =>
    cases v with
    | error e => cases h
    | ok a => cases h
  | ipListEnds => cases h
  | _ =>
    cases h
    rfl

theorem run_shut {ops : List Op} {t : Sheet} (h : shut.run ops = some t) : t = shut := by
  induction ops using List.reverseRecOn generalizing t with
  | nil =>
    cases h
    rfl
  | append_singleton ops op ih =>
    rw [run_concat] at h
    obtain ⟨u, hu, hexec⟩ := Option.bind_eq_some_iff.mp h
    rw [ih hu] at hexec
    exact exec_shut hexec

/-! ## Where the values come from -/

end Sheet

/-- Every value of the IP is on one of the lines. -/
structure Draft.From (ops : List Op) (d : Draft) : Prop where
  ip : ∀ a, d.ip = some a → .ip (.ok a) ∈ ops
  type : ∀ a, d.type = some a → .type (.ok a) ∈ ops
  sCount : ∀ a, d.sCount = some a → .sCount (.ok a) ∈ ops
  validity : ∀ a, d.validity = some a → .validity (.ok a) ∈ ops

theorem Draft.From.mono {ops ops' : List Op} {d : Draft} (h : d.From ops)
    (hsub : ∀ op ∈ ops, op ∈ ops') : d.From ops' where
  ip := fun a ha => hsub _ (h.ip a ha)
  type := fun a ha => hsub _ (h.type a ha)
  sCount := fun a ha => hsub _ (h.sCount a ha)
  validity := fun a ha => hsub _ (h.validity a ha)

theorem Draft.from_blank (ops : List Op) : Draft.blank.From ops :=
  ⟨nofun, nofun, nofun, nofun⟩

/-- All IPs of the sheet have their values from these lines. -/
structure Sheet.From (ops : List Op) (s : Sheet) : Prop where
  kept : ∀ d ∈ s.kept, d.From ops
  spare : s.spare.From ops

theorem Sheet.From.entries {ops : List Op} {s : Sheet} (h : s.From ops) :
    ∀ d ∈ s.entries, d.From ops := by
  intro d hd
  unfold Sheet.entries at hd
  split at hd
  · rcases List.mem_append.mp hd with hd | hd
    · exact h.kept d hd
    · rw [List.mem_singleton.mp hd]
      exact h.spare
  · exact h.kept d hd

theorem Sheet.From.exec {ops : List Op} {s t : Sheet} {op : Op} (h : s.From ops)
    (hexec : s.exec op = some t) : t.From (ops ++ [op]) := by
  have hsub : ∀ q ∈ ops, q ∈ ops ++ [op] := fun q hq => by simp [hq]
  have hold : s.From (ops ++ [op]) := ⟨fun d hd => (h.kept d hd).mono hsub, h.spare.mono hsub⟩
  rcases Sheet.exec_cases hexec with ⟨v, rfl, -, rfl⟩ | ⟨-, ⟨-, rfl⟩ | ⟨-, rfl⟩⟩ | ⟨-, -, rfl⟩
  · have hspare : Draft.From (ops ++ [.validity (.ok v)]) { s.spare with validity := some v } := by
      refine ⟨hold.spare.ip, hold.spare.type, hold.spare.sCount, ?_⟩
      rintro a ⟨⟩
      simp
    have hfilled : Sheet.From (ops ++ [.validity (.ok v)])
        { s with spare := { s.spare with validity := some v } } := ⟨hold.kept, hspare⟩
    exact ⟨hfilled.entries, Draft.from_blank _⟩
  · exact ⟨hold.kept, hold.spare⟩
  · exact hold
  · refine ⟨hold.kept, fun a ha => ?_, fun a ha => ?_, fun a ha => ?_, hold.spare.validity⟩
    · rcases Option.or_eq_some_iff.mp ha with ha | ⟨-, ha⟩
      · simp [op.hasOwnValues.ip a ha]
      · exact hold.spare.ip a ha
    · rcases Option.or_eq_some_iff.mp ha with ha | ⟨-, ha⟩
      · simp [op.hasOwnValues.type a ha]
      · exact hold.spare.type a ha
    · rcases Option.or_eq_some_iff.mp ha with ha | ⟨-, ha⟩
      · simp [op.hasOwnValues.sCount a ha]
      · exact hold.spare.sCount a ha

theorem Sheet.From.mono {ops ops' : List Op} {s : Sheet} (h : s.From ops)
    (hsub : ∀ op ∈ ops, op ∈ ops') : s.From ops' :=
  ⟨fun d hd => (h.kept d hd).mono hsub, h.spare.mono hsub⟩

theorem Sheet.from_opened (ops : List Op) : Sheet.opened.From ops :=
  ⟨by simp [Sheet.opened], Draft.from_blank ops⟩

theorem Sheet.from_shut (ops : List Op) : Sheet.shut.From ops :=
  ⟨by simp [Sheet.shut], Draft.from_blank ops⟩

theorem Sheet.from_loose (ops : List Op) : Sheet.loose.From ops :=
  ⟨by simp [Sheet.loose], Draft.from_blank ops⟩

/-- No sheet of a run has a value that was not on one of its lines. -/
theorem Ledger.from_run {ops : List Op} {s s' : Ledger} (hs : ∀ t ∈ s.sheets, t.From [])
    (h : s.run ops = some s') : ∀ t ∈ s'.sheets, t.From ops := by
  induction ops using List.reverseRecOn generalizing s' with
  | nil =>
    cases h
    exact hs
  | append_singleton ops op ih =>
    rw [Ledger.run_concat] at h
    obtain ⟨u, hu, hexec⟩ := Option.bind_eq_some_iff.mp h
    have hsub : ∀ q ∈ ops, q ∈ ops ++ [op] := fun q hq => by simp [hq]
    have hold : ∀ t ∈ u.sheets, t.From (ops ++ [op]) := fun t ht => (ih hu t ht).mono hsub
    rcases Ledger.exec_cases hexec with ⟨rfl, rfl⟩ | ⟨rfl, rfl⟩ | ⟨-, -, cur, sheet, -, hsheet, rfl⟩
    · intro t ht
      rcases List.mem_append.mp ht with ht | ht
      · exact hold t ht
      · rw [List.mem_singleton.mp ht]
        exact Sheet.from_opened _
    · exact hold
    · intro t ht
      rcases List.mem_append.mp ht with ht | ht
      · exact hold t (List.mem_append_left _ ht)
      · rw [List.mem_singleton.mp ht]
        exact (ih hu u.sheet (by simp [Ledger.sheets])).exec hsheet

end VpnP2p.NodeInfo
