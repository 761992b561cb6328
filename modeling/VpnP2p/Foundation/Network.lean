import Mathlib.Data.List.Induction
import Mathlib.Logic.Function.Basic
import VpnP2p.Foundation.Outcome

/-!
# Parties on a network

A party has a state of its own and takes one input after the other: an action of its own, or
something that arrives. Either may make it send. The network remembers everything that was
ever sent and by whom; what arrives is made of something on it, any number of times, in any
order, or never. What a party is after a run is up to its own inputs, and these are bound to
the other parties only through the wire.
-/

namespace VpnP2p.Foundation

/-- What a party takes: `α` are the actions, `ν` is what arrives. -/
inductive Input (α ν : Type) where
  | act (a : α)
  | arrival (n : ν)
deriving DecidableEq

/-! ## A party on its own -/

section Alone

variable {σ μ α ν : Type} {exec : σ → Input α ν → Result (σ × List μ)}

/-- The inputs of a party one after the other, with what it sends. -/
def alone (exec : σ → Input α ν → Result (σ × List μ)) (s : σ) (inputs : List (Input α ν)) :
    Result (σ × List μ) :=
  inputs.foldlM (fun (s, sent) input => do
    let (s, out) ← exec s input
    .ok (s, sent ++ out)) (s, [])

variable {s s' : σ} {inputs : List (Input α ν)} {sent : List μ}

@[simp] theorem alone_nil : alone exec s [] = .ok (s, []) := rfl

theorem alone_concat (input : Input α ν) : alone exec s (inputs ++ [input]) = .ok (s', sent) ↔
    ∃ t before out, alone exec s inputs = .ok (t, before) ∧ exec t input = .ok (s', out) ∧
      sent = before ++ out := by
  rw [alone, List.foldlM_append, bind_eq_ok]
  simp only [List.foldlM_cons, List.foldlM_nil, bind_pure]
  constructor
  · rintro ⟨⟨t, before⟩, hrun, hlast⟩
    obtain ⟨⟨t', out⟩, hexec, heq⟩ := bind_eq_ok.mp hlast
    cases heq
    exact ⟨t, before, out, hrun, hexec, rfl⟩
  · rintro ⟨t, before, out, hrun, hexec, rfl⟩
    refine ⟨(t, before), hrun, ?_⟩
    rw [hexec, ok_bind]

end Alone

/-! ## The network -/

/-- The parties `ι` have states `σ` and send `μ`. -/
structure Protocol (ι σ μ α ν : Type) where
  exec : σ → Input α ν → Result (σ × List μ)
  /-- `n` may arrive at the second party when the first has sent `m`. -/
  Arrives : ι → ι → μ → ν → Prop

structure Net (ι σ μ : Type) where
  party : ι → σ
  wire : List (ι × μ)

namespace Net

variable {ι σ μ : Type} [DecidableEq ι] (net : Net ι σ μ) (i : ι) (s : σ) (out : List μ)

/-- The party `i` is now `s` and has sent `out`. -/
def after : Net ι σ μ := ⟨Function.update net.party i s, net.wire ++ out.map (Prod.mk i)⟩

@[simp] theorem after_self : (net.after i s out).party i = s := by simp [after]

theorem after_other {j : ι} (h : j ≠ i) : (net.after i s out).party j = net.party j := by
  simp [after, h]

@[simp] theorem after_wire : (net.after i s out).wire = net.wire ++ out.map (Prod.mk i) := rfl

variable {net i s out}

theorem mem_after {j : ι} {m : μ} :
    (j, m) ∈ (net.after i s out).wire ↔ (j, m) ∈ net.wire ∨ j = i ∧ m ∈ out := by
  rw [after_wire, List.mem_append, List.mem_map]
  constructor
  · rintro (h | ⟨m', hm', heq⟩)
    · exact .inl h
    · cases heq
      exact .inr ⟨rfl, hm'⟩
  · rintro (h | ⟨rfl, hm⟩)
    · exact .inl h
    · exact .inr ⟨m, hm, rfl⟩

end Net

/-! ## The inputs of one party -/

section Inputs

variable {ι α ν : Type} [DecidableEq ι] {steps : List (ι × Input α ν)}

/-- The inputs of one party. -/
def inputsOf (i : ι) (steps : List (ι × Input α ν)) : List (Input α ν) :=
  (steps.filter (fun step => step.1 = i)).map Prod.snd

theorem inputsOf_append (i : ι) (steps steps' : List (ι × Input α ν)) :
    inputsOf i (steps ++ steps') = inputsOf i steps ++ inputsOf i steps' := by
  rw [inputsOf, List.filter_append, List.map_append]
  rfl

theorem inputsOf_self (i : ι) (input : Input α ν) : inputsOf i [(i, input)] = [input] := by
  simp [inputsOf]

theorem inputsOf_other {i j : ι} (h : j ≠ i) (input : Input α ν) :
    inputsOf i [(j, input)] = [] := by
  simp [inputsOf, h]

theorem mem_inputsOf {i : ι} {input : Input α ν} :
    input ∈ inputsOf i steps ↔ (i, input) ∈ steps := by
  rw [inputsOf, List.mem_map]
  constructor
  · rintro ⟨⟨j, x⟩, hx, rfl⟩
    obtain ⟨hmem, hj⟩ := List.mem_filter.mp hx
    rw [← of_decide_eq_true hj]
    exact hmem
  · intro hmem
    exact ⟨(i, input), List.mem_filter.mpr ⟨hmem, decide_eq_true rfl⟩, rfl⟩

end Inputs

namespace Protocol

variable {ι σ μ α ν : Type} (P : Protocol ι σ μ α ν)

/-- The input may come to `i` with this wire. -/
def Ready (wire : List (ι × μ)) (i : ι) : Input α ν → Prop
  | .act _ => True
  | .arrival n => ∃ j m, (j, m) ∈ wire ∧ P.Arrives j i m n

/-- One party after the other takes an input. -/
inductive Run [DecidableEq ι] (init : ι → σ) : List (ι × Input α ν) → Net ι σ μ → Prop
  | start : Run init [] ⟨init, []⟩
  | step {steps : List (ι × Input α ν)} {net : Net ι σ μ} {i : ι} {input : Input α ν} {s : σ}
      {out : List μ} : Run init steps net → P.Ready net.wire i input →
      P.exec (net.party i) input = .ok (s, out) →
      Run init (steps ++ [(i, input)]) (net.after i s out)

/-! ## Runs of the network -/

section Runs

variable [DecidableEq ι] {P} {init : ι → σ} {steps : List (ι × Input α ν)} {net : Net ι σ μ}

/-- What arrived was made of something on the wire. -/
theorem Run.arrived (h : P.Run init steps net) {i : ι} {n : ν} (hn : (i, .arrival n) ∈ steps) :
    ∃ j m, (j, m) ∈ net.wire ∧ P.Arrives j i m n := by
  induction h with
  | start => cases hn
  | step hrun hready _ ih =>
    rcases List.mem_append.mp hn with hn | hn
    · obtain ⟨j, m, hm, harrives⟩ := ih hn
      exact ⟨j, m, Net.mem_after.mpr (.inl hm), harrives⟩
    · cases List.mem_singleton.mp hn
      obtain ⟨j, m, hm, harrives⟩ := hready
      exact ⟨j, m, Net.mem_after.mpr (.inl hm), harrives⟩

/-- What the parties keep, of their inputs and their states, as long as only `Sent` things come
from the others, and send as long as they keep it. -/
theorem Run.keeps (I : ι → List (Input α ν) → σ → Prop) (Sent : ι → μ → Prop)
    (hstart : ∀ i, I i [] (init i))
    (hstep : ∀ i inputs s input s' out, I i inputs s →
      (∀ n, input = .arrival n → ∃ j m, Sent j m ∧ P.Arrives j i m n) →
      P.exec s input = .ok (s', out) → I i (inputs ++ [input]) s' ∧ ∀ m ∈ out, Sent i m)
    (h : P.Run init steps net) :
    (∀ i, I i (inputsOf i steps) (net.party i)) ∧ ∀ i m, (i, m) ∈ net.wire → Sent i m := by
  induction h with
  | start => exact ⟨hstart, fun i m hm => by cases hm⟩
  | @step steps net j input s out _ hready hexec ih =>
    obtain ⟨hI, hSent⟩ := ih
    have hinput : ∀ n, input = .arrival n → ∃ k m, Sent k m ∧ P.Arrives k j m n := by
      rintro n rfl
      obtain ⟨k, m, hm, harrives⟩ := hready
      exact ⟨k, m, hSent k m hm, harrives⟩
    obtain ⟨hI', hout⟩ := hstep j _ _ input s out (hI j) hinput hexec
    constructor
    · intro i
      rw [inputsOf_append]
      by_cases hij : i = j
      · subst hij
        rw [Net.after_self, inputsOf_self]
        exact hI'
      · rw [Net.after_other _ _ _ _ hij, inputsOf_other (Ne.symm hij), List.append_nil]
        exact hI i
    · intro i m hm
      rcases Net.mem_after.mp hm with hm | ⟨rfl, hlast⟩
      · exact hSent i m hm
      · exact hout m hlast

/-- The same where the states alone are kept. -/
theorem Run.invariant (I : ι → σ → Prop) (Sent : ι → μ → Prop) (hstart : ∀ i, I i (init i))
    (hstep : ∀ i s input s' out, I i s →
      (∀ n, input = .arrival n → ∃ j m, Sent j m ∧ P.Arrives j i m n) →
      P.exec s input = .ok (s', out) → I i s' ∧ ∀ m ∈ out, Sent i m)
    (h : P.Run init steps net) :
    (∀ i, I i (net.party i)) ∧ ∀ i m, (i, m) ∈ net.wire → Sent i m :=
  h.keeps (fun i _ => I i) Sent hstart (fun i _ => hstep i)

end Runs

end Protocol

/-! ## Whose news a party has -/

/-- What the input is without its tag. -/
def Input.untag {α ν ι : Type} : Input α (ν × List ι) → Input α ν
  | .act a => .act a
  | .arrival (n, _) => .arrival n

def Input.brings {α ν ι : Type} : Input α (ν × List ι) → List ι
  | .act _ => []
  | .arrival (_, brought) => brought

/-- The news behind the input: what arrives adds to those that are there, or replaces them. -/
def Input.newsAfter {α ν ι : Type} (replaces : ν → Bool) (news : List ι) :
    Input α (ν × List ι) → List ι
  | .act _ => news
  | .arrival (n, brought) => if replaces n then brought else news ++ brought

/-- The input replaces nothing. -/
def Input.Adds {α ν ι : Type} (replaces : ν → Bool) : Input α (ν × List ι) → Prop
  | .act _ => True
  | .arrival (n, _) => replaces n = false

theorem Input.Adds.newsAfter {α ν ι : Type} {replaces : ν → Bool} {input : Input α (ν × List ι)}
    (h : input.Adds replaces) (news : List ι) :
    input.newsAfter replaces news = news ++ input.brings := by
  cases input with
  | act a => exact (List.append_nil news).symm
  | arrival n => exact if_neg (Bool.eq_false_iff.mp h)

def Net.untag {ι σ μ : Type} (net : Net ι (σ × List ι) (μ × List ι)) : Net ι σ μ :=
  ⟨fun i => (net.party i).1, net.wire.map (fun sent => (sent.1, sent.2.1))⟩

theorem Net.untag_after {ι σ μ : Type} [DecidableEq ι] (net : Net ι (σ × List ι) (μ × List ι))
    (i : ι) (s : σ) (news : List ι) (out : List μ) :
    (net.after i (s, news) (out.map (·, news))).untag = net.untag.after i s out := by
  have hparty : (fun j => (Function.update net.party i (s, news) j).1) =
      Function.update (fun j => (net.party j).1) i s := by
    funext j
    by_cases hj : j = i
    · subst hj
      simp
    · simp [hj]
  simp only [untag, after, hparty, List.map_append, List.map_map]
  rfl

namespace Protocol

variable {ι σ μ α ν : Type} (P : Protocol ι σ μ α ν) (replaces : ν → Bool)

/-- Every message says whose news its sender had, and who takes it has them, too. -/
def traced : Protocol ι (σ × List ι) (μ × List ι) α (ν × List ι) where
  exec := fun (s, news) input => do
    let (s, out) ← P.exec s input.untag
    let news := input.newsAfter replaces news
    .ok ((s, news), out.map (·, news))
  Arrives := fun j i (m, news) (n, brought) => P.Arrives j i m n ∧ brought = news

/-- A run that says so. -/
abbrev TracedRun [DecidableEq ι] (init : ι → σ) :=
  (P.traced replaces).Run (fun i => (init i, [i]))

variable {P replaces}

theorem exec_traced {s s' : σ} {news news' : List ι} {input : Input α (ν × List ι)}
    {out : List (μ × List ι)} : (P.traced replaces).exec (s, news) input = .ok ((s', news'), out) ↔
      ∃ sent, P.exec s input.untag = .ok (s', sent) ∧ news' = input.newsAfter replaces news ∧
        out = sent.map (·, news') := by
  constructor
  · intro h
    obtain ⟨⟨t, sent⟩, hexec, heq⟩ := bind_eq_ok.mp h
    cases heq
    exact ⟨sent, hexec, rfl, rfl⟩
  · rintro ⟨sent, hexec, rfl, rfl⟩
    exact bind_eq_ok.mpr ⟨_, hexec, rfl⟩

section Tracing

variable [DecidableEq ι] {init : ι → σ}

/-- The tags change nothing. -/
theorem TracedRun.untag {steps : List (ι × Input α (ν × List ι))}
    {net : Net ι (σ × List ι) (μ × List ι)} (h : P.TracedRun replaces init steps net) :
    P.Run init (steps.map (fun step => (step.1, step.2.untag))) net.untag := by
  induction h with
  | start => exact .start
  | @step steps net i input s out _ hready hexec ih =>
    obtain ⟨s, news⟩ := s
    obtain ⟨sent, hrun, -, rfl⟩ := exec_traced.mp hexec
    rw [Net.untag_after, List.map_append]
    refine .step ih ?_ hrun
    cases input with
    | act a => trivial
    | arrival n =>
      obtain ⟨j, m, hm, harrives, -⟩ := hready
      exact ⟨j, m.1, List.mem_map.mpr ⟨_, hm, rfl⟩, harrives⟩

/-- And every run can be told with them. -/
theorem Run.traced {steps : List (ι × Input α ν)} {net : Net ι σ μ} (h : P.Run init steps net) :
    ∃ steps' net', P.TracedRun replaces init steps' net' ∧
      steps'.map (fun step => (step.1, step.2.untag)) = steps ∧ net'.untag = net := by
  induction h with
  | start => exact ⟨[], _, .start, rfl, rfl⟩
  | @step steps net i input s out _ hready hexec ih =>
    obtain ⟨steps', net', hrun, rfl, rfl⟩ := ih
    obtain ⟨input', hready', rfl⟩ : ∃ input' : Input α (ν × List ι),
        (P.traced replaces).Ready net'.wire i input' ∧ input'.untag = input := by
      cases input with
      | act a => exact ⟨.act a, trivial, rfl⟩
      | arrival n =>
        obtain ⟨j, m, hm, harrives⟩ := hready
        obtain ⟨⟨j, m', brought⟩, hm', heq⟩ := List.mem_map.mp hm
        cases heq
        exact ⟨.arrival (n, brought), ⟨j, (m', brought), hm', harrives, rfl⟩, rfl⟩
    refine ⟨_, _, .step hrun hready' (exec_traced.mpr ⟨out, hexec, rfl, rfl⟩), ?_, ?_⟩
    · rw [List.map_append]
      rfl
    · exact Net.untag_after ..

/-- A party takes an input that replaces nothing: nobody loses news, it has what the input
brings, and says so. -/
theorem TracedRun.take {steps : List (ι × Input α (ν × List ι))}
    {net : Net ι (σ × List ι) (μ × List ι)} (h : P.TracedRun replaces init steps net) {i : ι}
    {input : Input α (ν × List ι)} (hready : (P.traced replaces).Ready net.wire i input)
    (hadds : input.Adds replaces) {s : σ} {out : List μ}
    (hexec : P.exec (net.party i).1 input.untag = .ok (s, out)) : ∃ net',
    P.TracedRun replaces init (steps ++ [(i, input)]) net' ∧
      (∀ k, (net.party k).2 ⊆ (net'.party k).2) ∧ input.brings ⊆ (net'.party i).2 ∧
      ∀ m ∈ out, ∃ news, (net.party i).2 ⊆ news ∧ (i, m, news) ∈ net'.wire := by
  let news := (net.party i).2 ++ input.brings
  have hnews : news = input.newsAfter replaces (net.party i).2 := (hadds.newsAfter _).symm
  refine ⟨net.after i (s, news) (out.map (·, news)),
    .step h hready (exec_traced.mpr ⟨out, hexec, hnews, rfl⟩), fun k => ?_, ?_, fun m hm => ?_⟩
  · by_cases hk : k = i
    · subst hk
      rw [Net.after_self]
      exact List.subset_append_left _ _
    · rw [Net.after_other _ _ _ _ hk]
      exact List.Subset.refl _
  · rw [Net.after_self]
    exact List.subset_append_right _ _
  · exact ⟨news, List.subset_append_left _ _,
      Net.mem_after.mpr (.inr ⟨rfl, List.mem_map.mpr ⟨m, hm, rfl⟩⟩)⟩

/-- Where every party has its own news, and from every run on one can bring its news to another,
every one of some parties can bring them to any other. -/
theorem TracedRun.spread
    (hown : ∀ steps net, P.TracedRun replaces init steps net → ∀ i, i ∈ (net.party i).2)
    (hbring : ∀ steps net, P.TracedRun replaces init steps net → ∀ j i, ∃ more net',
      P.TracedRun replaces init (steps ++ more) net' ∧ (∀ k, (net.party k).2 ⊆ (net'.party k).2) ∧
        (net.party j).2 ⊆ (net'.party i).2)
    {steps : List (ι × Input α (ν × List ι))} {net : Net ι (σ × List ι) (μ × List ι)}
    (h : P.TracedRun replaces init steps net) (pairs : List (ι × ι)) : ∃ more net',
      P.TracedRun replaces init (steps ++ more) net' ∧ (∀ k, (net.party k).2 ⊆ (net'.party k).2) ∧
        ∀ pair ∈ pairs, pair.1 ∈ (net'.party pair.2).2 := by
  induction pairs with
  | nil => exact ⟨[], net, by rwa [List.append_nil], fun _ => List.Subset.refl _, by simp⟩
  | cons pair pairs ih =>
    obtain ⟨more, net', hrun, hgrow, hpairs⟩ := ih
    obtain ⟨last, net'', hrun', hgrow', hpair⟩ := hbring _ net' hrun pair.1 pair.2
    refine ⟨more ++ last, net'', ?_, fun k => List.Subset.trans (hgrow k) (hgrow' k), ?_⟩
    · rwa [← List.append_assoc]
    · intro p hp
      rcases List.mem_cons.mp hp with rfl | hp
      · exact hpair (hown _ net' hrun p.1)
      · exact hgrow' p.2 (hpairs p hp)

end Tracing

end Protocol

end VpnP2p.Foundation
