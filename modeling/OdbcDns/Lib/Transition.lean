import OdbcDns.Lib.Threads
import Mathlib.Tactic.Common

/-! Runs of a system whose next action is chosen from outside, with a condition on
the actions. -/

variable {σ α : Type*}

/-- `Steps step C s as t`: the actions `as` lead from `s` to `t`, and each of them
meets `C` in the state in which it is taken. -/
inductive Steps (step : σ → α → Option σ) (C : σ → α → Prop) : σ → List α → σ → Prop
  | nil (s : σ) : Steps step C s [] s
  | cons {s t u : σ} {a : α} {as : List α} (meets : C s a) (first : step s a = some t)
      (rest : Steps step C t as u) : Steps step C s (a :: as) u

variable {step : σ → α → Option σ} {C : σ → α → Prop} {s t : σ} {as : List α}

/-- What every action keeps holds at the end of every run. -/
theorem Steps.invariant {I : σ → Prop}
    (keep : ∀ s a t, I s → C s a → step s a = some t → I t) (h : Steps step C s as t)
    (hs : I s) : I t := by
  induction h with
  | nil s => exact hs
  | cons meets first _ ih => exact ih (keep _ _ _ hs meets first)

/-- The same for what depends on the actions taken so far. -/
theorem Steps.history {I : List α → σ → Prop} {done : List α}
    (keep : ∀ done s a t, I done s → C s a → step s a = some t → I (done ++ [a]) t)
    (h : Steps step C s as t) (hs : I done s) : I (done ++ as) t := by
  induction h generalizing done with
  | nil s =>
    rw [List.append_nil]
    exact hs
  | @cons s t u a as meets first _ ih =>
    have next := ih (keep done s a t hs meets first)
    rwa [List.append_assoc, List.singleton_append] at next

/-- What an action brings about, and every action then keeps, holds at the end of every
run in which the action is taken. -/
theorem Steps.established {I J : σ → Prop} {a : α}
    (keep : ∀ s b t, I s → step s b = some t → I t)
    (brings : ∀ s t, I s → step s a = some t → J t)
    (stays : ∀ s b t, I s → J s → step s b = some t → J t) (h : Steps step C s as t)
    (hs : I s) (taken : J s ∨ a ∈ as) : J t := by
  induction h with
  | nil s => simpa using taken
  | @cons s t u b as _ first _ ih =>
    apply ih (keep s b t hs first)
    rcases taken with already | taken
    · exact .inl (stays s b t hs already first)
    · rcases List.mem_cons.mp taken with rfl | later
      · exact .inl (brings s t hs first)
      · exact .inr later

theorem Steps.append {u : σ} {bs : List α} (h : Steps step C s as t) (h' : Steps step C t bs u) :
    Steps step C s (as ++ bs) u := by
  induction h with
  | nil s => exact h'
  | cons meets first _ ih => exact .cons meets first (ih h')

theorem Steps.single {a : α} (meets : C s a) (h : step s a = some t) : Steps step C s [a] t :=
  .cons meets h (.nil t)

/-- A run in which each action meets a condition on actions. -/
theorem Steps.meeting {D : α → Prop} (h : Steps step C s as t) (all : ∀ a ∈ as, D a) :
    Steps step (fun _ a => D a) s as t := by
  induction h with
  | nil s => exact .nil s
  | cons _ first _ ih =>
    obtain ⟨here, later⟩ := List.forall_mem_cons.mp all
    exact .cons here first (ih later)

/-- What no step can bring about held all the time, if it holds at the end. -/
theorem Steps.backward {P : σ → Prop} (back : ∀ s a t, step s a = some t → P t → P s)
    (h : Steps step C s as t) (ht : P t) : Steps step (fun s _ => P s) s as t ∧ P s := by
  induction h with
  | nil s => exact ⟨.nil s, ht⟩
  | cons _ first _ ih =>
    obtain ⟨rest, hnext⟩ := ih ht
    have hfirst := back _ _ _ first hnext
    exact ⟨.cons hfirst first rest, hfirst⟩

/-- A system of which every step is matched by some steps of another, the states staying
related, runs as the other does. -/
theorem Steps.simulate {τ β : Type*} {step' : τ → β → Option τ} {D : τ → β → Prop}
    {R : σ → τ → Prop}
    (match_step : ∀ s a t q, R s q → C s a → step s a = some t →
      ∃ bs q', Steps step' D q bs q' ∧ R t q')
    (h : Steps step C s as t) {q : τ} (hs : R s q) :
    ∃ bs q', Steps step' D q bs q' ∧ R t q' := by
  induction h generalizing q with
  | nil s => exact ⟨[], q, .nil q, hs⟩
  | cons meets first _ ih =>
    obtain ⟨bs, q₁, hb, h₁⟩ := match_step _ _ _ _ hs meets first
    obtain ⟨cs, q₂, hc, h₂⟩ := ih h₁
    exact ⟨bs ++ cs, q₂, hb.append hc, h₂⟩

/-- Actions of a kind `k` use up a potential, which the others raise by `g`; so there are
not many of them. -/
theorem Steps.bounded {μ : σ → Nat} {g : α → Nat} {k : α → Bool}
    (pays : ∀ s a t, C s a → step s a = some t → μ t + (if k a then 1 else 0) ≤ μ s + g a)
    (h : Steps step C s as t) : μ t + as.countP k ≤ μ s + total g as := by
  induction h with
  | nil s => exact Nat.le_refl _
  | @cons s t u a as meets first _ ih =>
    have := pays _ _ _ meets first
    rw [List.countP_cons, total_cons]
    omega

/-- The run of the given actions, computed; an action that is not possible or does
not meet the condition ends it. -/
def follow (step : σ → α → Option σ) (C : σ → α → Prop) [∀ s a, Decidable (C s a)] (s : σ) :
    List α → Option σ
  | [] => some s
  | a :: as => if C s a then (step s a).bind fun t => follow step C t as else none

theorem steps_of_follow [∀ s a, Decidable (C s a)] (h : follow step C s as = some t) :
    Steps step C s as t := by
  induction as generalizing s with
  | nil =>
    cases h
    exact .nil _
  | cons a as ih =>
    unfold follow at h
    split at h
    · rename_i meets
      obtain ⟨u, hu, h⟩ := Option.bind_eq_some_iff.mp h
      exact .cons meets hu (ih h)
    · cases h
