import Mathlib.Tactic.Common

/-- A computation over a state `σ` that may stop with an `ε`. What it did to
the state before it stopped is kept. -/
def Act (σ ε α : Type) : Type := σ → Except ε α × σ

namespace Act

variable {σ ε α β : Type}

instance : Monad (Act σ ε) where
  pure a := fun s => (.ok a, s)
  bind x f := fun s => match x s with
    | (.ok a, t) => f a t
    | (.error e, t) => (.error e, t)

def stop (e : ε) : Act σ ε α := fun s => (.error e, s)

def get : Act σ ε σ := fun s => (.ok s, s)

def set (t : σ) : Act σ ε Unit := fun _ => (.ok (), t)

def modify (f : σ → σ) : Act σ ε Unit := fun s => (.ok (), f s)

/-- A computation that cannot change the state. -/
def lift (x : Except ε α) : Act σ ε α := fun s => (x, s)

@[simp] theorem pure_apply (a : α) (s : σ) : (pure a : Act σ ε α) s = (.ok a, s) := rfl

@[simp] theorem stop_apply (e : ε) (s : σ) : (stop e : Act σ ε α) s = (.error e, s) := rfl

@[simp] theorem get_apply (s : σ) : (get : Act σ ε σ) s = (.ok s, s) := rfl

@[simp] theorem set_apply (t s : σ) : (set t : Act σ ε Unit) s = (.ok (), t) := rfl

@[simp] theorem modify_apply (f : σ → σ) (s : σ) :
    (modify f : Act σ ε Unit) s = (.ok (), f s) := rfl

@[simp] theorem lift_apply (x : Except ε α) (s : σ) : (lift x : Act σ ε α) s = (x, s) := rfl

theorem bind_apply (x : Act σ ε α) (f : α → Act σ ε β) (s : σ) :
    (x >>= f) s = match x s with
      | (.ok a, t) => f a t
      | (.error e, t) => (.error e, t) := rfl

theorem bind_of_ok {x : Act σ ε α} {f : α → Act σ ε β} {s t : σ} {a : α}
    (h : x s = (.ok a, t)) : (x >>= f) s = f a t := by
  rw [bind_apply, h]

theorem bind_of_error {x : Act σ ε α} {f : α → Act σ ε β} {s t : σ} {e : ε}
    (h : x s = (.error e, t)) : (x >>= f) s = (.error e, t) := by
  rw [bind_apply, h]

/-- A sequence that returns has returned from both of its parts. -/
theorem bind_ok {x : Act σ ε α} {f : α → Act σ ε β} {s u : σ} {b : β} :
    (x >>= f) s = (.ok b, u) ↔ ∃ a t, x s = (.ok a, t) ∧ f a t = (.ok b, u) := by
  rw [bind_apply]
  rcases hx : x s with ⟨r, t⟩
  cases r with
  | ok a => simp
  | error e => simp

theorem get_bind (f : σ → Act σ ε α) (s : σ) : (get >>= f) s = f s s := rfl

theorem set_bind (t : σ) (f : Unit → Act σ ε α) (s : σ) : (set t >>= f) s = f () t := rfl

theorem lift_bind_ok {x : Except ε α} {f : α → Act σ ε β} {s u : σ} {b : β} :
    (lift x >>= f) s = (.ok b, u) ↔ ∃ a, x = .ok a ∧ f a s = (.ok b, u) := by
  cases x with
  | ok a => simp [bind_apply]
  | error e => simp [bind_apply]

theorem lift_bind_error {x : Except ε α} {f : α → Act σ ε β} {s u : σ} {e : ε} :
    (lift x >>= f) s = (.error e, u) ↔
      x = .error e ∧ s = u ∨ ∃ a, x = .ok a ∧ f a s = (.error e, u) := by
  cases x with
  | ok a => simp [bind_apply]
  | error e => simp [bind_apply]

/-- How a computation ends, with the state that it leaves. -/
theorem eq_of_fst {x : Except ε α × σ} {r : Except ε α} (h : x.1 = r) : x = (r, x.2) := by
  rw [← h]

/-- A relation between the state before and the state after, whichever way the
computation ends. -/
def Always (R : σ → σ → Prop) (x : Act σ ε α) : Prop := ∀ s, R s (x s).2

section Always

variable {R : σ → σ → Prop}

theorem Always.of_eq {x : Act σ ε α} (h : Always R x) {s t : σ} {r : Except ε α}
    (he : x s = (r, t)) : R s t := by
  have := h s
  rwa [he] at this

theorem Always.pure (refl : ∀ s, R s s) (a : α) : Always R (pure a : Act σ ε α) := refl

theorem Always.stop (refl : ∀ s, R s s) (e : ε) : Always R (stop e : Act σ ε α) := refl

theorem Always.get (refl : ∀ s, R s s) : Always R (get : Act σ ε σ) := refl

theorem Always.lift (refl : ∀ s, R s s) (x : Except ε α) : Always R (lift x : Act σ ε α) := refl

theorem Always.bind (trans : ∀ s t u, R s t → R t u → R s u) {x : Act σ ε α}
    {f : α → Act σ ε β} (hx : Always R x) (hf : ∀ a, Always R (f a)) : Always R (x >>= f) := by
  intro s
  have h := hx s
  rw [bind_apply]
  rcases he : x s with ⟨r, t⟩
  rw [he] at h
  cases r with
  | ok a => exact trans s t _ h (hf a t)
  | error e => exact h

/-- From what holds after the first part, whichever way it ends, to what holds after
both: it may have stopped there, or has gone on. -/
theorem after_bind_of {P Q : σ → Prop} {x : Act σ ε α} {f : α → Act σ ε β} {s : σ}
    (hx : Q (x s).2) (stopped : ∀ t, Q t → P t) (hf : ∀ a t, Q t → P (f a t).2) :
    P ((x >>= f) s).2 := by
  rw [bind_apply]
  rcases he : x s with ⟨r, t⟩
  rw [he] at hx
  cases r with
  | ok a => exact hf a t hx
  | error e => exact stopped t hx

/-- What holds after the first part, whichever way it ends, and is carried through
the second, holds after both. -/
theorem after_bind {P : σ → Prop} {x : Act σ ε α} {f : α → Act σ ε β} {s : σ} (hx : P (x s).2)
    (hf : ∀ a t, P t → P (f a t).2) : P ((x >>= f) s).2 :=
  after_bind_of hx (fun _ ht => ht) hf

/-- What follows a computation starts from where that has ended. -/
theorem Always.bind_snd (refl : ∀ s, R s s) (x : Act σ ε α) {f : α → Act σ ε β}
    (hf : ∀ a, Always R (f a)) (s : σ) : R (x s).2 ((x >>= f) s).2 := by
  rw [bind_apply]
  rcases x s with ⟨r, t⟩
  cases r with
  | ok a => exact hf a t
  | error e => exact refl t

end Always

/-- A computation has returned with `Q`, or has stopped with `E`. -/
def Ends (E : ε → Prop) (Q : α → σ → Prop) : Except ε α × σ → Prop
  | (.ok a, t) => Q a t
  | (.error e, _) => E e

section Ends

variable {E : ε → Prop} {Q : α → σ → Prop} {s t : σ}

theorem Ends.mono {r : Except ε α × σ} {R : α → σ → Prop} (h : Ends E Q r)
    (hq : ∀ a t, Q a t → R a t) : Ends E R r := by
  obtain ⟨e | a, t⟩ := r
  · exact h
  · exact hq a t h

theorem Ends.of_ok {r : Except ε α × σ} {a : α} (h : Ends E Q r) (he : r = (.ok a, t)) :
    Q a t := by
  rw [he] at h
  exact h

theorem Ends.of_error {r : Except ε α × σ} {e : ε} (h : Ends E Q r) (he : r = (.error e, t)) :
    E e := by
  rw [he] at h
  exact h

theorem Ends.self (r : Except ε α × σ) : Ends (fun _ => True) (fun a t => r = (.ok a, t)) r := by
  obtain ⟨e | a, t⟩ := r
  · exact trivial
  · exact rfl

theorem Ends.bind {x : Act σ ε α} {f : α → Act σ ε β} {R : β → σ → Prop} (hx : Ends E Q (x s))
    (hf : ∀ a t, Q a t → Ends E R (f a t)) : Ends E R ((x >>= f) s) := by
  rw [bind_apply]
  rcases he : x s with ⟨e | a, t⟩
  · exact hx.of_error he
  · exact hf a t (hx.of_ok he)

theorem ends_of_errors {r : Except ε α × σ} (h : ∀ e t, r = (.error e, t) → E e) :
    Ends E (fun _ _ => True) r := by
  obtain ⟨e | a, t⟩ := r
  · exact h e t rfl
  · exact trivial

/-- What a sequence cannot stop with, its first part cannot stop with. -/
theorem Ends.of_bind {x : Act σ ε α} {f : α → Act σ ε β} {R : β → σ → Prop}
    (h : Ends E R ((x >>= f) s)) : Ends E (fun _ _ => True) (x s) := by
  rw [bind_apply] at h
  rcases he : x s with ⟨e | a, t⟩
  · rw [he] at h
    exact h
  · exact trivial

end Ends

/-- Two results are alike: values in `Q`, or the same error. -/
def Paired (Q : α → α → Prop) : Except ε α → Except ε α → Prop
  | .ok a, .ok b => Q a b
  | .error e, .error f => e = f
  | _, _ => False

section Paired

variable {Q : α → α → Prop}

theorem Paired.refl {x : Except ε α} (h : ∀ a, x = .ok a → Q a a) : Paired Q x x := by
  cases x with
  | ok a => exact h a rfl
  | error e => exact rfl

theorem Paired.bind {x y : Except ε α} {f g : α → Except ε β} {R : β → β → Prop}
    (hx : Paired Q x y) (hf : ∀ a b, Q a b → Paired R (f a) (g b)) :
    Paired R (x >>= f) (y >>= g) := by
  cases x <;> cases y
  · exact hx
  · exact hx.elim
  · exact hx.elim
  · exact hf _ _ hx

end Paired

/-- Two computations have ended the same way: both have returned, with results and
states in `Q`, or both have stopped for the same reason, in states in `E`. -/
def Alike (E : σ → σ → Prop) (Q : α → α → σ → σ → Prop) :
    Except ε α × σ → Except ε α × σ → Prop
  | (.ok a, s), (.ok b, t) => Q a b s t
  | (.error e, s), (.error f, t) => e = f ∧ E s t
  | _, _ => False

section Alike

variable {E : σ → σ → Prop} {Q : α → α → σ → σ → Prop} {s t : σ}

theorem Alike.mono {R : α → α → σ → σ → Prop} {r q : Except ε α × σ} (h : Alike E Q r q)
    (hq : ∀ a b s t, Q a b s t → R a b s t) : Alike E R r q := by
  obtain ⟨e | a, s⟩ := r <;> obtain ⟨f | b, t⟩ := q
  · exact h
  · exact h
  · exact h
  · exact hq a b s t h

theorem Alike.lift_bind {x y : Except ε α} {f g : α → Act σ ε β} {P : α → α → Prop}
    {R : β → β → σ → σ → Prop} (h : Paired P x y) (he : E s t)
    (hf : ∀ a b, x = .ok a → y = .ok b → P a b → Alike E R (f a s) (g b t)) :
    Alike E R ((lift x >>= f) s) ((lift y >>= g) t) := by
  cases x <;> cases y
  · exact ⟨h, he⟩
  · exact h.elim
  · exact h.elim
  · exact hf _ _ rfl rfl h

/-- What follows may use how the first computation has ended in its first part. -/
theorem Alike.bind {x y : Act σ ε α} {f g : α → Act σ ε β} {R : β → β → σ → σ → Prop}
    (hx : Alike E Q (x s) (y t))
    (hf : ∀ a b s' t', x s = (.ok a, s') → Q a b s' t' → Alike E R (f a s') (g b t')) :
    Alike E R ((x >>= f) s) ((y >>= g) t) := by
  rw [bind_apply, bind_apply]
  rcases hs : x s with ⟨e | a, s'⟩ <;> rcases ht : y t with ⟨e' | b, t'⟩ <;> rw [hs, ht] at hx
  · exact hx
  · exact hx.elim
  · exact hx.elim
  · exact hf a b s' t' hs hx

end Alike

/-! Computations that note events of type `ω` next to their state. -/

section Note

variable {ω : Type}

def note (w : ω) : Act (σ × List ω) ε Unit := fun p => (.ok (), p.1, p.2 ++ [w])

/-- A computation that notes nothing. -/
def silent (x : Act σ ε α) : Act (σ × List ω) ε α := fun p => ((x p.1).1, (x p.1).2, p.2)

/-- Without what it notes, `x` is `y`. -/
def Forgets (x : Act (σ × List ω) ε α) (y : Act σ ε α) : Prop :=
  ∀ p, (x p).1 = (y p.1).1 ∧ (x p).2.1 = (y p.1).2

theorem Forgets.bind {x : Act (σ × List ω) ε α} {y : Act σ ε α}
    {f : α → Act (σ × List ω) ε β} {g : α → Act σ ε β} (hx : Forgets x y)
    (hf : ∀ a, Forgets (f a) (g a)) : Forgets (x >>= f) (y >>= g) := by
  intro p
  obtain ⟨hr, ht⟩ := hx p
  rw [bind_apply, bind_apply]
  rcases hxp : x p with ⟨r, q⟩
  rcases hyp : y p.1 with ⟨r', t⟩
  rw [hxp, hyp] at hr ht
  subst hr ht
  cases r with
  | error e => exact ⟨rfl, rfl⟩
  | ok a => exact hf a q

/-- All that the computation notes satisfies `P`. -/
def Notes (P : ω → Prop) : Act (σ × List ω) ε α → Prop :=
  Always fun p q => (∀ w ∈ p.2, P w) → ∀ w ∈ q.2, P w

/-- The computation keeps what was noted before. -/
def KeepsNotes : Act (σ × List ω) ε α → Prop := Always fun p q => p.2 <+: q.2

/-- `x` is `y` with events noted that satisfy `P`. -/
structure Mirrors (P : ω → Prop) (x : Act (σ × List ω) ε α) (y : Act σ ε α) : Prop where
  forgets : Forgets x y
  notes : Notes P x
  keeps : KeepsNotes x

namespace Mirrors

variable {P : ω → Prop}

theorem silent (x : Act σ ε α) : Mirrors P (silent x) x :=
  ⟨fun _ => ⟨rfl, rfl⟩, fun _ h => h, fun p => List.prefix_refl p.2⟩

theorem pure (a : α) : Mirrors P (pure a : Act (σ × List ω) ε α) (pure a) :=
  ⟨fun _ => ⟨rfl, rfl⟩, fun _ h => h, fun p => List.prefix_refl p.2⟩

theorem stop (e : ε) : Mirrors P (stop e : Act (σ × List ω) ε α) (stop e) :=
  ⟨fun _ => ⟨rfl, rfl⟩, fun _ h => h, fun p => List.prefix_refl p.2⟩

theorem lift (x : Except ε α) : Mirrors P (lift x : Act (σ × List ω) ε α) (lift x) :=
  ⟨fun _ => ⟨rfl, rfl⟩, fun _ h => h, fun p => List.prefix_refl p.2⟩

theorem bind {x : Act (σ × List ω) ε α} {y : Act σ ε α} {f : α → Act (σ × List ω) ε β}
    {g : α → Act σ ε β} (hx : Mirrors P x y) (hf : ∀ a, Mirrors P (f a) (g a)) :
    Mirrors P (x >>= f) (y >>= g) where
  forgets := hx.forgets.bind fun a => (hf a).forgets
  notes := Always.bind (fun _ _ _ first second h => second (first h)) hx.notes
    fun a => (hf a).notes
  keeps := Always.bind (fun _ _ _ first second => first.trans second) hx.keeps
    fun a => (hf a).keeps

/-- An event is noted, and nothing else is done. -/
theorem note {w : ω} (hw : P w) {f : Unit → Act (σ × List ω) ε α} {y : Act σ ε α}
    (h : Mirrors P (f ()) y) : Mirrors P (note w >>= f) y where
  forgets p := h.forgets (p.1, p.2 ++ [w])
  notes p before :=
    h.notes (p.1, p.2 ++ [w])
      (List.forall_mem_append.mpr ⟨before, List.forall_mem_singleton.mpr hw⟩)
  keeps p := (List.prefix_append p.2 [w]).trans (h.keeps (p.1, p.2 ++ [w]))

/-- What is noted by a sequence, from what `y` does in its first part. -/
theorem notes_bind {x : Act (σ × List ω) ε α} {y : Act σ ε α} (hx : Mirrors P x y)
    {f : α → Act (σ × List ω) ε β} {p : σ × List ω} (made : ∀ w ∈ p.2, P w)
    (hf : ∀ a q, y p.1 = (.ok a, q.1) → (∀ w ∈ q.2, P w) → ∀ w ∈ (f a q).2.2, P w) :
    ∀ w ∈ ((x >>= f) p).2.2, P w := by
  obtain ⟨ends, left⟩ := hx.forgets p
  have noted := hx.notes p made
  rw [bind_apply]
  rcases hp : x p with ⟨e | a, q⟩ <;> rw [hp] at ends left noted
  · exact noted
  · exact hf a q (Prod.ext ends.symm left.symm) noted

theorem ite {c : Prop} [Decidable c] {x x' : Act (σ × List ω) ε α} {y y' : Act σ ε α}
    (h : c → Mirrors P x y) (h' : ¬ c → Mirrors P x' y') :
    Mirrors P (if c then x else x') (if c then y else y') := by
  by_cases hc : c
  · rw [if_pos hc, if_pos hc]
    exact h hc
  · rw [if_neg hc, if_neg hc]
    exact h' hc

end Mirrors

end Note

end Act
