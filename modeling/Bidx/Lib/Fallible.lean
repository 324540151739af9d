import Mathlib.Tactic.TypeStar

/-!
# Programs that may stop

`Fallible σ ε α` is a program over a state `σ` that returns an `α` or stops with
an `ε`, and leaves a state either way: what was done before the stop stays done.
`Fallible.wp` is its weakest precondition for one postcondition on returns and
one on stops.
-/

/-- A program over `σ` that returns an `α` or stops with an `ε`. -/
def Fallible (σ ε α : Type) : Type := σ → Except ε α × σ

namespace Fallible

variable {σ ε α β : Type}

/-- Sequencing: a stop skips the rest and keeps the state. -/
def andThen (m : Fallible σ ε α) (f : α → Fallible σ ε β) : Fallible σ ε β := fun s =>
  match m s with
  | (.ok a, t) => f a t
  | (.error e, t) => (.error e, t)

instance : Monad (Fallible σ ε) where
  pure a s := (.ok a, s)
  bind := andThen

/-- Stop here. -/
def raise (e : ε) : Fallible σ ε α := fun s => (.error e, s)

/-- Read from the state. -/
def read (f : σ → α) : Fallible σ ε α := fun s => (.ok (f s), s)

/-- Change the state. -/
def modify (f : σ → σ) : Fallible σ ε Unit := fun s => (.ok (), f s)

/-- Return a value computed before, or stop with its error. -/
def ofExcept {ε' : Type} (stop : ε' → ε) : Except ε' α → Fallible σ ε α
  | .ok a => pure a
  | .error e => raise (stop e)

/-- Run from `s`, the program returns within `Q` or stops within `E`. -/
def wp (m : Fallible σ ε α) (Q : α → σ → Prop) (E : ε → σ → Prop) (s : σ) : Prop :=
  match m s with
  | (.ok a, t) => Q a t
  | (.error e, t) => E e t

section Rules

variable {Q Q' : α → σ → Prop} {R : β → σ → Prop} {E E' : ε → σ → Prop} {s t : σ}
  {m : Fallible σ ε α}

@[simp] theorem wp_pure (a : α) : wp (pure a) Q E s ↔ Q a s := Iff.rfl

@[simp] theorem wp_raise (e : ε) : wp (raise e) Q E s ↔ E e s := Iff.rfl

@[simp] theorem wp_read (f : σ → α) : wp (read f) Q E s ↔ Q (f s) s := Iff.rfl

@[simp] theorem wp_modify {Q : Unit → σ → Prop} (f : σ → σ) :
    wp (modify f) Q E s ↔ Q () (f s) := Iff.rfl

@[simp] theorem wp_ofExcept_ok {ε' : Type} (stop : ε' → ε) (a : α) :
    wp (ofExcept stop (.ok a)) Q E s ↔ Q a s := Iff.rfl

@[simp] theorem wp_ofExcept_error {ε' : Type} (stop : ε' → ε) (e : ε') :
    wp (ofExcept stop (.error e)) Q E s ↔ E (stop e) s := Iff.rfl

@[simp] theorem wp_bind (f : α → Fallible σ ε β) :
    wp (m >>= f) R E s ↔ wp m (fun a t => wp (f a) R E t) E s := by
  change wp (andThen m f) R E s ↔ _
  unfold wp andThen
  rcases m s with ⟨a | e, t⟩ <;> rfl

theorem wp_mono (h : wp m Q E s) (hQ : ∀ a t, Q a t → Q' a t) (hE : ∀ e t, E e t → E' e t) :
    wp m Q' E' s := by
  unfold wp at h ⊢
  split
  · rename_i a t heq
    rw [heq] at h
    exact hQ a t h
  · rename_i e t heq
    rw [heq] at h
    exact hE e t h

/-- Compose with a specification of the first part. -/
theorem wp_seq {f : α → Fallible σ ε β} (hm : wp m Q E s)
    (hf : ∀ a t, Q a t → wp (f a) R E t) : wp (m >>= f) R E s :=
  (wp_bind f).mpr (wp_mono hm hf fun _ _ h => h)

/-- The rest of a program whose first part returned. -/
theorem bind_of_ok {a : α} (f : α → Fallible σ ε β) (h : m s = (.ok a, t)) :
    (m >>= f) s = f a t := by
  change andThen m f s = f a t
  rw [andThen, h]

/-- A program that cannot stop returns. -/
theorem exists_ok_of_wp (h : wp m Q (fun _ _ => False) s) : ∃ a t, m s = (.ok a, t) ∧ Q a t := by
  unfold wp at h
  split at h
  · rename_i a t heq
    exact ⟨a, t, heq, h⟩
  · exact h.elim

/-- A program that cannot return stops. -/
theorem exists_error_of_wp (h : wp m (fun _ _ => False) E s) :
    ∃ e t, m s = (.error e, t) ∧ E e t := by
  unfold wp at h
  split at h
  · exact h.elim
  · rename_i e t heq
    exact ⟨e, t, heq, h⟩

theorem of_wp_ok {a : α} (h : wp m Q E s) (hm : m s = (.ok a, t)) : Q a t := by
  rw [wp, hm] at h
  exact h

theorem of_wp_error {e : ε} (h : wp m Q E s) (hm : m s = (.error e, t)) : E e t := by
  rw [wp, hm] at h
  exact h

/-- What holds however the program ends. -/
theorem after_of_wp {P : σ → Prop} (h : wp m (fun _ => P) (fun _ => P) s) : P (m s).2 := by
  unfold wp at h
  split at h
  · rename_i heq
    rwa [heq]
  · rename_i heq
    rwa [heq]

end Rules

/-! ## What a program leaves alone -/

/-- However the program ends, `f` of the state is what it was. -/
def Keeps {γ : Type} (f : σ → γ) (m : Fallible σ ε α) : Prop := ∀ s, f (m s).2 = f s

section Keeps

variable {γ : Type} {f : σ → γ} {m : Fallible σ ε α} {g : α → Fallible σ ε β}

theorem keeps_pure (a : α) : Keeps f (pure a : Fallible σ ε α) := fun _ => rfl

theorem keeps_read (r : σ → α) : Keeps f (read r : Fallible σ ε α) := fun _ => rfl

theorem keeps_modify {change : σ → σ} (h : ∀ s, f (change s) = f s) :
    Keeps f (modify change : Fallible σ ε Unit) := h

theorem keeps_ofExcept {ε' : Type} (stop : ε' → ε) (r : Except ε' α) :
    Keeps f (ofExcept stop r) := by
  intro s
  cases r <;> rfl

theorem Keeps.wp (h : Keeps f m) (s : σ) :
    wp m (fun _ t => f t = f s) (fun _ t => f t = f s) s := by
  have hs := h s
  unfold Fallible.wp
  generalize m s = r at hs ⊢
  rcases r with ⟨e | a, t⟩
  · exact hs
  · exact hs

/-- A rest that leaves `f` alone does not matter. -/
theorem bind_keeps (hg : ∀ a, Keeps f (g a)) (s : σ) : f ((m >>= g) s).2 = f (m s).2 := by
  show f (andThen m g s).2 = f (m s).2
  unfold andThen
  rcases m s with ⟨a | e, t⟩
  · rfl
  · exact hg _ t

theorem Keeps.bind (hm : Keeps f m) (hg : ∀ a, Keeps f (g a)) : Keeps f (m >>= g) := fun s =>
  (bind_keeps hg s).trans (hm s)

end Keeps

end Fallible
