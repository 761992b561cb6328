import Mathlib.Data.List.Induction

/-!
# Programs over a store that outlives them

A program that stops leaves what it had stored by then, and the next program finds it. So
a program over such a store is a run with two results, how it ended and what it left, and
a history of programs is a fold over what they leave.
-/

namespace VpnP2p.Foundation

/-- A program over a store of type `σ`; `ε` says why it stopped. -/
abbrev Lasting (σ ε α : Type) := ExceptT ε (StateM σ) α

namespace Lasting

variable {σ ε α β : Type}

/-- How the program ends, and the store that it leaves. -/
def exec (c : Lasting σ ε α) (s : σ) : Except ε α × σ := c.run.run s

/-- Code that does not touch the store. -/
def code (r : Except ε α) : Lasting σ ε α := ExceptT.mk (pure r)

section Exec

variable {c : Lasting σ ε α} {f : α → Lasting σ ε β} {s s' : σ}

theorem exec_bind_ok {a : α} (h : c.exec s = (.ok a, s')) : (c >>= f).exec s = (f a).exec s' := by
  show (ExceptT.bindCont f (c.exec s).1).run (c.exec s).2 = _
  rw [h]
  rfl

theorem exec_bind_error {e : ε} (h : c.exec s = (.error e, s')) :
    (c >>= f).exec s = (.error e, s') := by
  show (ExceptT.bindCont f (c.exec s).1).run (c.exec s).2 = _
  rw [h]
  rfl

@[simp] theorem exec_pure (a : α) : (pure a : Lasting σ ε α).exec s = (.ok a, s) := rfl

@[simp] theorem exec_throw (e : ε) : (throw e : Lasting σ ε α).exec s = (.error e, s) := rfl

@[simp] theorem exec_get_bind (g : σ → Lasting σ ε β) :
    (get >>= g : Lasting σ ε β).exec s = (g s).exec s := rfl

@[simp] theorem exec_set_bind (t : σ) (g : PUnit → Lasting σ ε β) :
    (set t >>= g : Lasting σ ε β).exec s = (g ⟨⟩).exec t := rfl

@[simp] theorem exec_set (t : σ) : (set t : Lasting σ ε PUnit).exec s = (.ok ⟨⟩, t) := rfl

@[simp] theorem exec_code_ok_bind (a : α) : (code (.ok a) >>= f).exec s = (f a).exec s := rfl

@[simp] theorem exec_code_error_bind (e : ε) :
    (code (.error e) >>= f).exec s = (.error e, s) := rfl

end Exec

/-! ## Histories -/

section History

variable {ι A : Type}

/-- What is there after the programs of `is`, one after the other. -/
def history (program : ι → Lasting σ ε α) (is : List ι) (s : σ) : σ :=
  is.foldl (fun s i => ((program i).exec s).2) s

variable {program : ι → Lasting σ ε α}

theorem history_concat (is : List ι) (i : ι) (s : σ) :
    history program (is ++ [i]) s = ((program i).exec (history program is s)).2 := by
  rw [history, List.foldl_append]
  rfl

/-- A store that shows the state of an abstract machine before a program, and its next
state behind it, shows the state of the machine behind every history of programs that are
possible where they come. -/
theorem history_shows {Shows : σ → A → Prop} {next : A → ι → A} {Possible : A → ι → Prop}
    (hstep : ∀ s a i, Possible a i → Shows s a → Shows ((program i).exec s).2 (next a i))
    {is : List ι} {s : σ} {a : A} (h : Shows s a)
    (hpossible : ∀ before i, before ++ [i] <+: is → Possible (before.foldl next a) i) :
    Shows (history program is s) (is.foldl next a) := by
  induction is using List.reverseRecOn with
  | nil => exact h
  | append_singleton is i ih =>
    rw [history_concat, List.foldl_append]
    have hbefore :=
      ih (fun before j hpre => hpossible before j (hpre.trans (List.prefix_append _ _)))
    exact hstep _ _ i (hpossible is i List.prefix_rfl) hbefore

end History

end Lasting

end VpnP2p.Foundation
