import OdbcDns.Lib.Act

/-! A computation over a concrete state that does what one over an abstract state does. The
abstract one draws outcomes from a list where the concrete one finds out by itself. -/

namespace Act

variable {σ τ ω ε α β α' β' : Type}

theorem bind_assoc (x : Act σ ε α) (f : α → Act σ ε β) (g : β → Act σ ε α') :
    x >>= f >>= g = x >>= fun a => f a >>= g := by
  funext s
  simp only [bind_apply]
  rcases x s with ⟨r, t⟩
  cases r <;> rfl

theorem lift_ok_bind (a : α) (f : α → Act σ ε β) : lift (.ok a) >>= f = f a := rfl

theorem lift_error_bind (e : ε) (f : α → Act σ ε β) : lift (.error e) >>= f = lift (.error e) := rfl

/-- Both return, with results that `V` relates, or both stop for the same reason. -/
def SameEnd (V : α → β → Prop) : Except ε α → Except ε β → Prop
  | .ok a, .ok b => V a b
  | .error e, .error e' => e = e'
  | _, _ => False

theorem SameEnd.eq {z z' : Except ε α} (h : SameEnd Eq z z') : z = z' := by
  cases z <;> cases z' <;> simp_all [SameEnd]

/-- What `x` does from a state `s` with `I`, `y` does from `view s` with some outcomes, all of
which are possible in `s`, and uses these up. `x` keeps `I`, and nothing becomes possible on
the way. -/
def Refines (view : σ → List ω → τ) (possible : σ → ω → Prop) (I : σ → Prop) (V : α → β → Prop)
    (x : Act σ ε α) (y : Act τ ε β) : Prop :=
  ∀ s, I s → I (x s).2 ∧ (∀ o, possible (x s).2 o → possible s o) ∧
    ∃ used r, (∀ o ∈ used, possible s o) ∧ SameEnd V (x s).1 r ∧
      ∀ rest, y (view s (used ++ rest)) = (r, view (x s).2 rest)

variable {view : σ → List ω → τ} {possible : σ → ω → Prop} {I : σ → Prop} {V : α → β → Prop}
  {W : α' → β' → Prop}

/-- A part that needs no outcome. -/
theorem Refines.of_silent {x : Act σ ε α} {y : Act τ ε β}
    (keeps : ∀ s, I s → I (x s).2) (shrinks : ∀ s o, possible (x s).2 o → possible s o)
    (h : ∀ s, ∃ r, SameEnd V (x s).1 r ∧
      ∀ outcomes, y (view s outcomes) = (r, view (x s).2 outcomes)) :
    Refines view possible I V x y := by
  intro s hs
  obtain ⟨r, same, hy⟩ := h s
  exact ⟨keeps s hs, shrinks s, [], r, by simp, same, hy⟩

theorem Refines.pure {a : α} {b : β} (h : V a b) :
    Refines view possible I V (pure a : Act σ ε α) (pure b : Act τ ε β) :=
  .of_silent (fun _ h => h) (fun _ _ h => h) fun _ => ⟨.ok b, h, fun _ => rfl⟩

/-- What cannot change the state, and gives the same on both sides. -/
theorem Refines.lift {z : Except ε α} {z' : Except ε β} (h : SameEnd V z z') :
    Refines view possible I V (lift z : Act σ ε α) (lift z' : Act τ ε β) :=
  .of_silent (fun _ h => h) (fun _ _ h => h) fun _ => ⟨z', h, fun _ => rfl⟩

theorem Refines.bind {x : Act σ ε α} {y : Act τ ε β} {f : α → Act σ ε α'} {g : β → Act τ ε β'}
    (hx : Refines view possible I V x y)
    (hf : ∀ a b, V a b → Refines view possible I W (f a) (g b)) :
    Refines view possible I W (x >>= f) (y >>= g) := by
  intro s hI
  obtain ⟨keeps, shrinks, used, r', hused, same, hrun⟩ := hx s hI
  rcases hs : x s with ⟨r, t⟩
  rw [hs] at keeps shrinks same hrun
  cases r with
  | error e =>
    cases r' with
    | ok b => exact same.elim
    | error e' =>
      obtain rfl : e = e' := same
      rw [bind_of_error hs]
      exact ⟨keeps, shrinks, used, .error e, hused, rfl, fun rest => bind_of_error (hrun rest)⟩
  | ok a =>
    cases r' with
    | error e => exact same.elim
    | ok b =>
      rw [bind_of_ok hs]
      obtain ⟨keeps', shrinks', used', r'', hused', same', hrun'⟩ := hf a b same t keeps
      refine ⟨keeps', fun o ho => shrinks o (shrinks' o ho), used ++ used', r'', ?_, same',
        fun rest => ?_⟩
      · intro o ho
        rcases List.mem_append.mp ho with first | second
        · exact hused o first
        · exact shrinks o (hused' o second)
      · rw [List.append_assoc, bind_of_ok (hrun (used' ++ rest))]
        exact hrun' rest

/-- What is known of the results of `x`. -/
theorem Refines.and {P : α → Prop} {x : Act σ ε α} {y : Act τ ε β}
    (h : Refines view possible I V x y) (hx : ∀ s a t, x s = (.ok a, t) → P a) :
    Refines view possible I (fun a b => V a b ∧ P a) x y := by
  intro s hI
  obtain ⟨keeps, shrinks, used, r, hused, same, hrun⟩ := h s hI
  refine ⟨keeps, shrinks, used, r, hused, ?_, hrun⟩
  rcases hs : x s with ⟨r', t⟩
  rw [hs] at same
  cases r' with
  | error e =>
    cases r with
    | ok b => exact same.elim
    | error e' => exact same
  | ok a =>
    cases r with
    | error e => exact same.elim
    | ok b => exact ⟨same, hx s a t hs⟩

/-- Both sides look at their state; what the abstract one finds does not depend on the
outcomes. -/
theorem Refines.get_bind {f : σ → Act σ ε α} {g : τ → Act τ ε β}
    (hg : ∀ s outcomes, g (view s outcomes) = g (view s []))
    (h : ∀ s, Refines view possible I V (f s) (g (view s []))) :
    Refines view possible I V (get >>= f) (get >>= g) := by
  intro s hI
  obtain ⟨keeps, shrinks, used, r, hused, same, hrun⟩ := h s s hI
  refine ⟨keeps, shrinks, used, r, hused, same, fun rest => ?_⟩
  rw [Act.get_bind, hg]
  exact hrun rest

/-- Both sides branch on the same condition. -/
theorem Refines.ite {p q : Prop} [Decidable p] [Decidable q] {x x' : Act σ ε α} {y y' : Act τ ε β}
    (same : p ↔ q) (pos : p → Refines view possible I V x y)
    (neg : ¬ p → Refines view possible I V x' y') :
    Refines view possible I V (if p then x else x') (if q then y else y') := by
  by_cases h : p
  · rw [if_pos h, if_pos (same.mp h)]
    exact pos h
  · rw [if_neg h, if_neg (mt same.mpr h)]
    exact neg h

end Act
