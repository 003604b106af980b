import Mathlib.Logic.Basic

/-!
This module contains programs that change a state, may return early and may abort, together with the
rules to prove something about one run of such a program or about two of them.
-/

/--
The result is `none` if the program returned early.
-/
def Exit (ε σ α : Type) : Type :=
  σ → Except ε (Option α × σ)

namespace Exit

variable {ε σ α β : Type}

instance : Monad (Exit ε σ) where
  pure a := fun s => .ok (some a, s)
  bind x f := fun s =>
    match x s with
    | .error e => .error e
    | .ok (none, s) => .ok (none, s)
    | .ok (some a, s) => f a s

def exit : Exit ε σ α :=
  fun s => .ok (none, s)

def abort (e : ε) : Exit ε σ α :=
  fun _ => .error e

def read (f : σ → α) : Exit ε σ α :=
  fun s => .ok (some (f s), s)

def modify (f : σ → σ) : Exit ε σ Unit :=
  fun s => .ok (some (), f s)

def mapError {ε' : Type} (f : ε → ε') (x : Exit ε σ α) : Exit ε' σ α :=
  fun s => (x s).mapError f

theorem read_bind_apply (f : σ → α) (g : α → Exit ε σ β) (s : σ) : (read f >>= g) s = g (f s) s := rfl

theorem bind_apply_of_ok {x : Exit ε σ α} {f : α → Exit ε σ β} {s s' : σ} {a : α}
    (h : x s = .ok (some a, s'))
    : (x >>= f) s = f a s' := by
  simp only [bind, h]

theorem bind_apply_of_exit {x : Exit ε σ α} {f : α → Exit ε σ β} {s s' : σ} (h : x s = .ok (none, s'))
    : (x >>= f) s = .ok (none, s') := by
  simp only [bind, h]

/-! ### One run -/

/--
What holds after a run from state `s`, depending on how it ends.
-/
def Spec (x : Exit ε σ α) (s : σ) (value : α → σ → Prop) (exited : σ → Prop) (aborted : ε → Prop) : Prop :=
  match x s with
  | .ok (some a, s') => value a s'
  | .ok (none, s') => exited s'
  | .error e => aborted e

section

variable {x : Exit ε σ α} {f : α → Exit ε σ β} {s : σ} {value : α → σ → Prop} {valueB : β → σ → Prop}
  {exited : σ → Prop} {aborted : ε → Prop}

@[simp]
theorem spec_pure (a : α) : Spec (pure a) s value exited aborted ↔ value a s := Iff.rfl

@[simp]
theorem spec_exit : Spec (exit : Exit ε σ α) s value exited aborted ↔ exited s := Iff.rfl

@[simp]
theorem spec_abort (e : ε) : Spec (abort e : Exit ε σ α) s value exited aborted ↔ aborted e := Iff.rfl

@[simp]
theorem spec_read (g : σ → α) : Spec (read g) s value exited aborted ↔ value (g s) s := Iff.rfl

@[simp]
theorem spec_modify (g : σ → σ) {value : Unit → σ → Prop}
    : Spec (modify g) s value exited aborted ↔ value () (g s) := Iff.rfl

@[simp]
theorem spec_bind
    : Spec (x >>= f) s valueB exited aborted ↔
        Spec x s (fun a s' => Spec (f a) s' valueB exited aborted) exited aborted := by
  unfold Spec
  simp only [bind]
  cases x s with
  | error e => rfl
  | ok res =>
    obtain ⟨a, s'⟩ := res
    cases a <;> rfl

@[simp]
theorem spec_ite {c : Prop} [Decidable c] {y : Exit ε σ α}
    : Spec (if c then x else y) s value exited aborted ↔
        (c → Spec x s value exited aborted) ∧ (¬c → Spec y s value exited aborted) := by
  by_cases hc : c <;> simp [hc]

theorem Spec.mono {value' : α → σ → Prop} {exited' : σ → Prop} {aborted' : ε → Prop}
    (h : Spec x s value exited aborted) (hvalue : ∀ a s', value a s' → value' a s')
    (hexited : ∀ s', exited s' → exited' s') (haborted : ∀ e, aborted e → aborted' e)
    : Spec x s value' exited' aborted' := by
  unfold Spec at *
  split at h
  next => exact hvalue _ _ h
  next => exact hexited _ h
  next => exact haborted _ h

end

/-! ### Programs that return a value -/

def Returns (x : Exit ε σ α) (s : σ) (value : α → σ → Prop) : Prop :=
  ∃ a s', x s = .ok (some a, s') ∧ value a s'

def loop (body : Nat → α → Exit ε σ α) (a : α) : Nat → Exit ε σ α
  | 0 => pure a
  | n + 1 => loop body a n >>= body n

section

variable {x : Exit ε σ α} {f : α → Exit ε σ β} {s : σ} {value : α → σ → Prop} {valueB : β → σ → Prop}

@[simp]
theorem returns_pure (a : α) : Returns (pure a : Exit ε σ α) s value ↔ value a s := by
  constructor
  . intro ⟨a', s', h, hvalue⟩
    cases h
    exact hvalue
  . intro h
    exact ⟨a, s, rfl, h⟩

@[simp]
theorem returns_read (g : σ → α) : Returns (read g : Exit ε σ α) s value ↔ value (g s) s := by
  constructor
  . intro ⟨a', s', h, hvalue⟩
    cases h
    exact hvalue
  . intro h
    exact ⟨g s, s, rfl, h⟩

@[simp]
theorem returns_modify (g : σ → σ) {value : Unit → σ → Prop}
    : Returns (modify g : Exit ε σ Unit) s value ↔ value () (g s) := by
  constructor
  . intro ⟨a', s', h, hvalue⟩
    cases h
    exact hvalue
  . intro h
    exact ⟨(), g s, rfl, h⟩

@[simp]
theorem returns_mapError {ε' : Type} (g : ε → ε') : Returns (mapError g x) s value ↔ Returns x s value := by
  constructor
  . rintro ⟨a, s', heq, h⟩
    refine ⟨a, s', ?_, h⟩
    unfold mapError at heq
    cases hx : x s with
    | error e =>
      rw [hx] at heq
      cases heq
    | ok res =>
      rw [hx] at heq
      cases heq
      rfl
  . rintro ⟨a, s', heq, h⟩
    exact ⟨a, s', congrArg (Except.mapError g) heq, h⟩

@[simp]
theorem returns_bind
    : Returns (x >>= f) s valueB ↔ Returns x s (fun a s' => Returns (f a) s' valueB) := by
  constructor
  . intro ⟨b, s', h, hvalue⟩
    simp only [bind] at h
    split at h
    next => cases h
    next => cases h
    next a s₁ hx => exact ⟨a, s₁, hx, b, s', h, hvalue⟩
  . intro ⟨a, s₁, hx, b, s', h, hvalue⟩
    exact ⟨b, s', (bind_apply_of_ok hx).trans h, hvalue⟩

theorem Returns.mono {value' : α → σ → Prop} (h : Returns x s value)
    (hvalue : ∀ a s', value a s' → value' a s')
    : Returns x s value' := by
  obtain ⟨a, s', hx, h⟩ := h
  exact ⟨a, s', hx, hvalue a s' h⟩

theorem returns_iff_of_apply {a : α} {s' : σ} (hx : x s = .ok (some a, s')) : Returns x s value ↔ value a s' := by
  constructor
  . intro ⟨b, s'', hx', hvalue⟩
    cases hx.symm.trans hx'
    exact hvalue
  . intro hvalue
    exact ⟨a, s', hx, hvalue⟩

theorem Returns.bind (h : Returns x s value) (hrest : ∀ a s', value a s' → Returns (f a) s' valueB)
    : Returns (x >>= f) s valueB := by
  rw [returns_bind]
  exact h.mono hrest

theorem returns_loop {body : Nat → α → Exit ε σ α} {a : α} {n : Nat} (inv : Nat → α → σ → Prop)
    (hinit : inv 0 a s)
    (hstep : ∀ i a s, i < n → inv i a s → Returns (body i a) s (inv (i + 1)))
    : Returns (loop body a n) s (inv n) := by
  induction n with
  | zero => exact ⟨a, s, rfl, hinit⟩
  | succ n ih =>
    have hloop := ih (fun i a s hi => hstep i a s (by omega))
    apply hloop.bind
    intro a s' hinv
    exact hstep n a s' (by omega) hinv

theorem Returns.of_loop {body : Nat → α → Exit ε σ α} {a : α} {n i : Nat} (h : Returns (loop body a n) s value)
    (hi : i < n)
    : ∃ b s', Returns (body i b) s' (fun _ _ => True) := by
  induction n generalizing value with
  | zero => omega
  | succ n ih =>
    unfold loop at h
    rw [returns_bind] at h
    by_cases hlast : i = n
    . obtain ⟨b, s', _, hbody⟩ := h
      subst hlast
      exact ⟨b, s', hbody.mono (fun _ _ _ => trivial)⟩
    . exact ih h (by omega)

/-! ### Runs that fail -/

theorem not_returns_abort (e : ε) : ¬Returns (abort e : Exit ε σ α) s value := by
  intro ⟨a, s', h, _⟩
  cases h

theorem bind_apply_of_error {e : ε} (h : x s = .error e) : (x >>= f) s = .error e := by
  simp only [Bind.bind, h]

theorem Returns.bind_apply (h : Returns x s value) : ∃ a s', value a s' ∧ (x >>= f) s = f a s' := by
  obtain ⟨a, s', hx, hvalue⟩ := h
  exact ⟨a, s', hvalue, bind_apply_of_ok hx⟩

theorem loop_apply_of_error {body : Nat → α → Exit ε σ α} {a : α} {n k : Nat} {e : ε} (hlt : n < k)
    (h : Returns (loop body a n) s (fun a s' => body n a s' = .error e))
    : loop body a k s = .error e := by
  induction k with
  | zero => omega
  | succ k ih =>
    by_cases hk : n = k
    . subst hk
      obtain ⟨b, s', hbody, heq⟩ := h.bind_apply (f := body n)
      exact heq.trans hbody
    . exact bind_apply_of_error (ih (by omega))

end

/-! ### Two runs -/

/--
Two runs end in the same way, and what holds of both ends.
-/
def Related (x y : Exit ε σ α) (s t : σ) (value : α → α → σ → σ → Prop) (exited : σ → σ → Prop) : Prop :=
  match x s, y t with
  | .ok (some a, s'), .ok (some b, t') => value a b s' t'
  | .ok (none, s'), .ok (none, t') => exited s' t'
  | .error e, .error e' => e = e'
  | _, _ => False

section

variable {x y : Exit ε σ α} {f g : α → Exit ε σ β} {s t : σ} {value : α → α → σ → σ → Prop}
  {valueB : β → β → σ → σ → Prop} {exited : σ → σ → Prop}

@[simp]
theorem related_pure (a b : α)
    : Related (pure a : Exit ε σ α) (pure b) s t value exited ↔ value a b s t := Iff.rfl

@[simp]
theorem related_exit : Related (exit : Exit ε σ α) exit s t value exited ↔ exited s t := Iff.rfl

@[simp]
theorem related_abort (e e' : ε)
    : Related (abort e : Exit ε σ α) (abort e') s t value exited ↔ e = e' := Iff.rfl

@[simp]
theorem related_read_bind (h k : σ → α)
    : Related (read h >>= f) (read k >>= g) s t valueB exited ↔
        Related (f (h s)) (g (k t)) s t valueB exited := Iff.rfl

@[simp]
theorem related_modify_bind {f g : Unit → Exit ε σ β} (h k : σ → σ)
    : Related (modify h >>= f) (modify k >>= g) s t valueB exited ↔
        Related (f ()) (g ()) (h s) (k t) valueB exited := Iff.rfl

theorem Related.bind (h : Related x y s t value exited)
    (hrest : ∀ a b s' t', value a b s' t' → Related (f a) (g b) s' t' valueB exited)
    : Related (x >>= f) (y >>= g) s t valueB exited := by
  unfold Related at h
  split at h
  next hx hy =>
    have hrest := hrest _ _ _ _ h
    unfold Related at hrest ⊢
    simpa only [Bind.bind, hx, hy] using hrest
  next hx hy =>
    unfold Related
    simpa only [Bind.bind, hx, hy] using h
  next hx hy =>
    unfold Related
    simpa only [Bind.bind, hx, hy] using h
  next => exact h.elim

theorem Related.mono {value' : α → α → σ → σ → Prop} {exited' : σ → σ → Prop}
    (h : Related x y s t value exited) (hvalue : ∀ a b s' t', value a b s' t' → value' a b s' t')
    (hexited : ∀ s' t', exited s' t' → exited' s' t')
    : Related x y s t value' exited' := by
  unfold Related at *
  split at h
  next => exact hvalue _ _ _ _ h
  next => exact hexited _ _ h
  next => exact h
  next => exact h.elim

theorem related_self (x : Exit ε σ α) (s : σ) (hvalue : ∀ a s', value a a s' s')
    (hexited : ∀ s', exited s' s')
    : Related x x s s value exited := by
  unfold Related
  cases x s with
  | error e => rfl
  | ok res =>
    obtain ⟨a, s'⟩ := res
    cases a with
    | none => exact hexited s'
    | some a => exact hvalue a s'

theorem Related.symm (h : Related x y s t value exited)
    : Related y x t s (fun b a t' s' => value a b s' t') (fun t' s' => exited s' t') := by
  unfold Related at *
  split at h
  next hx hy => simpa only [hx, hy] using h
  next hx hy => simpa only [hx, hy] using h
  next hx hy => simpa only [hx, hy] using h.symm
  next => exact h.elim

theorem Related.trans {z : Exit ε σ α} {u : σ} {value' : α → α → σ → σ → Prop} {exited' : σ → σ → Prop}
    (h : Related x y s t value exited) (h' : Related y z t u value' exited')
    : Related x z s u (fun a c s' u' => ∃ b t', value a b s' t' ∧ value' b c t' u')
        (fun s' u' => ∃ t', exited s' t' ∧ exited' t' u') := by
  unfold Related at *
  split at h
  next b t' hx hy =>
    rw [hy] at h'
    rw [hx]
    split at h'
    next hy' hz =>
      cases hy'
      rw [hz]
      exact ⟨b, t', h, h'⟩
    next hy' _ => cases hy'
    next hy' _ => cases hy'
    next => exact h'.elim
  next t' hx hy =>
    rw [hy] at h'
    rw [hx]
    split at h'
    next hy' _ => cases hy'
    next hy' hz =>
      cases hy'
      rw [hz]
      exact ⟨t', h, h'⟩
    next hy' _ => cases hy'
    next => exact h'.elim
  next hx hy =>
    rw [hy] at h'
    rw [hx]
    split at h'
    next hy' _ => cases hy'
    next hy' _ => cases hy'
    next hy' hz =>
      cases hy'
      rw [hz]
      exact h.trans h'
    next => exact h'.elim
  next => exact h.elim

end

end Exit
