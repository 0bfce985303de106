import Mathlib.Tactic.Common

/-- A computation that logs events of type `ω` on its way to a result or to a reason to
stop. What was logged before it stopped is kept. -/
def Logged (ω ε α : Type) : Type := Except ε α × List ω

namespace Logged

variable {ω ε α β : Type}

instance instMonad : Monad (Logged ω ε) where
  pure a := (.ok a, [])
  bind x f := match x.1 with
    | .ok a => ((f a).1, x.2 ++ (f a).2)
    | .error e => (.error e, x.2)

def stop (e : ε) : Logged ω ε α := (.error e, [])

def log (w : ω) : Logged ω ε Unit := (.ok (), [w])

/-- A result that nothing is logged for. -/
def lift (x : Except ε α) : Logged ω ε α := (x, [])

/-- The result together with what was logged for it. -/
def listen (x : Logged ω ε α) : Logged ω ε (α × List ω) := (x.1.map (fun a => (a, x.2)), x.2)

@[simp] theorem fst_pure (a : α) : (pure a : Logged ω ε α).1 = .ok a := rfl

@[simp] theorem fst_log (w : ω) : (log w : Logged ω ε Unit).1 = .ok () := rfl

@[simp] theorem snd_pure (a : α) : (pure a : Logged ω ε α).2 = [] := rfl

@[simp] theorem snd_stop (e : ε) : (stop e : Logged ω ε α).2 = [] := rfl

@[simp] theorem snd_log (w : ω) : (log w : Logged ω ε Unit).2 = [w] := rfl

@[simp] theorem snd_lift (x : Except ε α) : (lift x : Logged ω ε α).2 = [] := rfl

/-- Forgetting the log is the computation without one. -/
theorem fst_bind (x : Logged ω ε α) (f : α → Logged ω ε β) :
    (x >>= f).1 = (x.1 >>= fun a => (f a).1) := by
  obtain ⟨r, l⟩ := x
  cases r with
  | ok a => rfl
  | error e => rfl

theorem bind_of_ok {x : Logged ω ε α} (f : α → Logged ω ε β) {a : α} (h : x.1 = .ok a) :
    x >>= f = ((f a).1, x.2 ++ (f a).2) := by
  obtain ⟨r, l⟩ := x
  cases h
  rfl

theorem bind_of_error {x : Logged ω ε α} (f : α → Logged ω ε β) {e : ε} (h : x.1 = .error e) :
    x >>= f = (.error e, x.2) := by
  obtain ⟨r, l⟩ := x
  cases h
  rfl

/-- What is logged by a sequence is logged by one of its parts. -/
theorem mem_bind {x : Logged ω ε α} {f : α → Logged ω ε β} {w : ω} :
    w ∈ (x >>= f).2 ↔ w ∈ x.2 ∨ ∃ a, x.1 = .ok a ∧ w ∈ (f a).2 := by
  cases h : x.1 with
  | ok a => simp [bind_of_ok f h]
  | error e => simp [bind_of_error f h]

/-- Every event that is logged satisfies `P`. -/
def All (P : ω → Prop) (x : Logged ω ε α) : Prop := ∀ w ∈ x.2, P w

section All

variable {P : ω → Prop}

theorem All.pure (a : α) : All P (pure a : Logged ω ε α) := by simp [All]

theorem All.stop (e : ε) : All P (stop e : Logged ω ε α) := by simp [All]

theorem All.lift (x : Except ε α) : All P (lift x : Logged ω ε α) := by simp [All]

theorem All.log {w : ω} (h : P w) : All P (log w : Logged ω ε Unit) := by simpa [All] using h

theorem All.listen {x : Logged ω ε α} (h : All P x) : All P (listen x) := h

theorem all_bind {x : Logged ω ε α} {f : α → Logged ω ε β} :
    All P (x >>= f) ↔ All P x ∧ ∀ a, x.1 = .ok a → All P (f a) := by
  constructor
  · intro h
    exact ⟨fun w hw => h w (mem_bind.mpr (.inl hw)),
      fun a ha w hw => h w (mem_bind.mpr (.inr ⟨a, ha, hw⟩))⟩
  · rintro ⟨hx, hf⟩ w hw
    rcases mem_bind.mp hw with hw | ⟨a, ha, hw⟩
    · exact hx w hw
    · exact hf a ha w hw

theorem All.bind {x : Logged ω ε α} {f : α → Logged ω ε β} (hx : All P x)
    (hf : ∀ a, x.1 = .ok a → All P (f a)) : All P (x >>= f) := all_bind.mpr ⟨hx, hf⟩

end All

/-- `y` is `x` with a guard that stops it with `e` at the first event outside of `P`. -/
def Guards (P : ω → Prop) (e : ε) (x y : Logged ω ε α) : Prop :=
  (y = x ∧ All P x) ∨ (y.1 = .error e ∧ ¬ All P x)

section Guards

variable {P : ω → Prop} {e : ε} {x y : Logged ω ε α}

theorem Guards.same (h : All P x) : Guards P e x x := .inl ⟨rfl, h⟩

theorem Guards.bind {f g : α → Logged ω ε β} (h : Guards P e x y)
    (hf : ∀ a, x.1 = .ok a → Guards P e (f a) (g a)) : Guards P e (x >>= f) (y >>= g) := by
  rcases h with ⟨rfl, inside⟩ | ⟨stopped, outside⟩
  · cases hy : y.1 with
    | error e' =>
      refine .inl ⟨?_, inside.bind fun a ha => ?_⟩
      · rw [bind_of_error f hy, bind_of_error g hy]
      · cases hy.symm.trans ha
    | ok a =>
      rcases hf a hy with ⟨same, rest⟩ | ⟨stopped, outside⟩
      · refine .inl ⟨?_, inside.bind fun b hb => ?_⟩
        · rw [bind_of_ok f hy, bind_of_ok g hy, same]
        · cases hy.symm.trans hb
          exact rest
      · refine .inr ⟨?_, fun h => outside ((all_bind.mp h).2 a hy)⟩
        rw [bind_of_ok g hy]
        exact stopped
  · refine .inr ⟨?_, fun h => outside (all_bind.mp h).1⟩
    rw [bind_of_error g stopped]

theorem Guards.ite {c : Prop} [Decidable c] {x' y' : Logged ω ε α} (h : c → Guards P e x y)
    (h' : ¬ c → Guards P e x' y') :
    Guards P e (if c then x else x') (if c then y else y') := by
  by_cases hc : c
  · rw [if_pos hc, if_pos hc]
    exact h hc
  · rw [if_neg hc, if_neg hc]
    exact h' hc

theorem Guards.listen (h : Guards P e x y) : Guards P e (listen x) (listen y) := by
  rcases h with ⟨rfl, inside⟩ | ⟨stopped, outside⟩
  · exact .same inside
  · refine .inr ⟨?_, outside⟩
    unfold Logged.listen
    rw [stopped]
    rfl

end Guards

end Logged
