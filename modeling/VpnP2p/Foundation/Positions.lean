import Mathlib.Data.List.DropRight

/-!
# What stands in front of an item

A run over a list reads its items from the left, so what it makes of an item depends
on what stands in front of it. `EachAt P l` says that every item `e` of `l` satisfies
`P pre e`, where `pre` is that part; it is proved along a list that grows at the end.
`since p l` is the part of `l` behind its last item with `p`, and `upTo p l` the part
in front of its first one; `lastValue f l` is the value of the last item that has one.
-/

namespace VpnP2p.Foundation

variable {α β : Type} {l pre post : List α} {x e : α}

theorem concat_eq_append_cons : l ++ [x] = pre ++ e :: post ↔
    (l = pre ∧ x = e ∧ post = []) ∨ ∃ rest, l = pre ++ e :: rest ∧ post = rest ++ [x] := by
  rcases post.eq_nil_or_concat' with rfl | ⟨rest, y, rfl⟩
  · rw [List.append_singleton_inj]
    simp
  · have hassoc : pre ++ e :: (rest ++ [y]) = (pre ++ e :: rest) ++ [y] := by simp
    rw [hassoc, List.append_singleton_inj]
    constructor
    · rintro ⟨h, rfl⟩
      exact Or.inr ⟨rest, h, rfl⟩
    · rintro (⟨-, -, hnil⟩ | ⟨rest', h, hrest⟩)
      · simp at hnil
      · obtain ⟨rfl, rfl⟩ := List.append_singleton_inj.mp hrest
        exact ⟨h, rfl⟩

/-- A run over a list with one more item. -/
theorem foldlM_concat {σ : Type*} (f : σ → α → Option σ) (s : σ) (l : List α) (x : α) :
    (l ++ [x]).foldlM f s = (l.foldlM f s).bind fun t => f t x := by
  rw [List.foldlM_append]
  congr 1
  funext t
  rw [List.foldlM_cons]
  exact Option.bind_fun_some _

/-- What holds in front of every `e`, as the list grows. -/
theorem forall_split_concat {P : List α → Prop} :
    (∀ pre post, l ++ [x] = pre ++ e :: post → P pre) ↔
      (∀ pre post, l = pre ++ e :: post → P pre) ∧ (x = e → P l) := by
  constructor
  · intro h
    refine ⟨fun pre post hl => h pre (post ++ [x]) (by simp [hl]), ?_⟩
    rintro rfl
    exact h l [] rfl
  · rintro ⟨hl, hx⟩ pre post h
    rcases concat_eq_append_cons.mp h with ⟨rfl, rfl, -⟩ | ⟨rest, hrest, -⟩
    · exact hx rfl
    · exact hl pre rest hrest

/-! ## Every item, given what is in front of it -/

/-- `P pre e` for every item `e` of the list, where `pre` stands in front of it. -/
def EachAt (P : List α → α → Prop) (l : List α) : Prop :=
  ∀ pre e post, l = pre ++ e :: post → P pre e

theorem eachAt_nil (P : List α → α → Prop) : EachAt P [] := by
  intro pre e post h
  simp at h

theorem eachAt_concat {P : List α → α → Prop} :
    EachAt P (l ++ [x]) ↔ EachAt P l ∧ P l x := by
  constructor
  · intro h
    refine ⟨fun pre e post hl => h pre e (post ++ [x]) ?_, h l x [] rfl⟩
    simp [hl]
  · rintro ⟨hl, hx⟩ pre e post h
    rcases concat_eq_append_cons.mp h with ⟨rfl, rfl, -⟩ | ⟨rest, hrest, -⟩
    · exact hx
    · exact hl pre e rest hrest

theorem EachAt.mono {P Q : List α → α → Prop} (h : EachAt P l)
    (hPQ : ∀ pre e, P pre e → Q pre e) : EachAt Q l :=
  fun pre e post hl => hPQ pre e (h pre e post hl)

theorem eachAt_mem {P : α → Prop} : EachAt (fun _ e => P e) l ↔ ∀ e ∈ l, P e := by
  constructor
  · intro h e he
    obtain ⟨pre, post, rfl⟩ := List.append_of_mem he
    exact h pre e post rfl
  · rintro h pre e post rfl
    exact h e (by simp)

/-! ## Behind the last item, in front of the first -/

section Since

variable {p : α → Bool}

/-- The items behind the last one with `p`; all of them if there is none. -/
def since (p : α → Bool) (l : List α) : List α := l.rtakeWhile (fun a => !p a)

/-- The items in front of the first one with `p`; all of them if there is none. -/
def upTo (p : α → Bool) (l : List α) : List α := l.takeWhile (fun a => !p a)

theorem since_concat (p : α → Bool) (l : List α) (x : α) :
    since p (l ++ [x]) = if p x then [] else since p l ++ [x] := by
  unfold since
  rw [List.rtakeWhile_concat]
  cases p x <;> simp

theorem not_of_mem_since (hx : x ∈ since p l) : p x = false := by
  simpa using List.mem_rtakeWhile_imp hx

theorem mem_of_mem_since (hx : x ∈ since p l) : x ∈ l :=
  List.rtakeWhile_suffix _ _ |>.subset hx

/-- A list with an item that has `p` ends in its part behind the last of them. -/
theorem exists_last (h : ∃ a ∈ l, p a = true) :
    ∃ pre e, l = pre ++ e :: since p l ∧ p e = true := by
  induction l using List.reverseRecOn with
  | nil => simp at h
  | append_singleton l x ih =>
    rw [since_concat]
    by_cases hx : p x = true
    · exact ⟨l, x, by rw [if_pos hx], hx⟩
    · rw [if_neg hx]
      obtain ⟨a, ha, hpa⟩ := h
      have ha' : a ∈ l := by
        rcases List.mem_append.mp ha with ha | ha
        · exact ha
        · obtain rfl : a = x := by simpa using ha
          exact absurd hpa hx
      obtain ⟨pre, e, hl, he⟩ := ih ⟨a, ha', hpa⟩
      refine ⟨pre, e, ?_, he⟩
      conv_lhs => rw [hl]
      simp

/-- The first item that has `p`. -/
theorem exists_first (h : ∃ a ∈ l, p a = true) :
    ∃ pre e post, l = pre ++ e :: post ∧ p e = true ∧ ∀ a ∈ pre, p a = false := by
  induction l with
  | nil => simp at h
  | cons b l ih =>
    cases hb : p b with
    | true => exact ⟨[], b, l, rfl, hb, by simp⟩
    | false =>
      obtain ⟨a, ha, hpa⟩ := h
      have ha' : a ∈ l := by
        rcases List.mem_cons.mp ha with rfl | ha
        · simp [hb] at hpa
        · exact ha
      obtain ⟨pre, e, post, rfl, he, hpre⟩ := ih ⟨a, ha', hpa⟩
      exact ⟨b :: pre, e, post, rfl, he, by simpa [hb] using hpre⟩

/-- The item that has `p` with `k` such items in front of it. -/
theorem exists_split_of_lt_countP {k : Nat} (h : k < l.countP p) :
    ∃ pre e post, l = pre ++ e :: post ∧ p e = true ∧ pre.countP p = k := by
  induction l generalizing k with
  | nil => simp at h
  | cons b l ih =>
    rw [List.countP_cons] at h
    cases hb : p b with
    | true =>
      cases k with
      | zero => exact ⟨[], b, l, rfl, hb, rfl⟩
      | succ k =>
        simp only [hb, if_true] at h
        obtain ⟨pre, e, post, rfl, he, hpre⟩ := ih (Nat.lt_of_succ_lt_succ h)
        exact ⟨b :: pre, e, post, rfl, he, by simp [hb, hpre]⟩
    | false =>
      simp only [hb, Bool.false_eq_true, if_false, Nat.add_zero] at h
      obtain ⟨pre, e, post, rfl, he, hpre⟩ := ih h
      exact ⟨b :: pre, e, post, rfl, he, by simp [hb, hpre]⟩

theorem upTo_eq_self (h : ∀ a ∈ l, p a = false) : upTo p l = l := by
  unfold upTo
  rw [List.takeWhile_eq_self_iff]
  simpa using h

theorem upTo_append (h : ∀ a ∈ l, p a = false) (l' : List α) :
    upTo p (l ++ l') = l ++ upTo p l' := by
  unfold upTo
  rw [List.takeWhile_append_of_pos (by simpa using h)]

/-- With an item that has `p` in the list, what comes behind the list does not count. -/
theorem upTo_append_left (h : ∃ a ∈ l, p a = true) (l' : List α) :
    upTo p (l ++ l') = upTo p l := by
  obtain ⟨a, ha, hpa⟩ := h
  induction l with
  | nil => simp at ha
  | cons b l ih =>
    unfold upTo at ih ⊢
    rw [List.cons_append, List.takeWhile_cons, List.takeWhile_cons]
    cases hb : p b with
    | true => rfl
    | false =>
      have ha' : a ∈ l := by
        rcases List.mem_cons.mp ha with rfl | ha
        · simp [hb] at hpa
        · exact ha
      simp [ih ha']

theorem upTo_concat_of_pos (l : List α) (hx : p x = true) : upTo p (l ++ [x]) = upTo p l := by
  by_cases h : ∃ a ∈ l, p a = true
  · exact upTo_append_left h [x]
  · have hl : ∀ a ∈ l, p a = false := by simpa using h
    rw [upTo_append hl, upTo_eq_self hl]
    simp [upTo, hx]

end Since

/-! ## The last value -/

/-- The value of the last item that has one. -/
def lastValue (f : α → Option β) (l : List α) : Option β := (l.filterMap f).getLast?

@[simp] theorem lastValue_nil (f : α → Option β) : lastValue f [] = none := rfl

theorem lastValue_concat (f : α → Option β) (l : List α) (x : α) :
    lastValue f (l ++ [x]) = (f x).or (lastValue f l) := by
  unfold lastValue
  rw [List.filterMap_append]
  cases hx : f x <;> simp [hx]

theorem mem_of_lastValue {f : α → Option β} {v : β} (h : lastValue f l = some v) :
    ∃ a ∈ l, f a = some v := by
  simpa using List.mem_of_getLast? h

theorem lastValue_isSome {f : α → Option β} :
    (lastValue f l).isSome = true ↔ ∃ a ∈ l, (f a).isSome = true := by
  induction l using List.reverseRecOn with
  | nil => simp
  | append_singleton l x ih =>
    rw [lastValue_concat]
    cases hx : f x with
    | none => simpa [hx] using ih
    | some v => exact ⟨fun _ => ⟨x, by simp, by simp [hx]⟩, fun _ => by simp⟩

end VpnP2p.Foundation
