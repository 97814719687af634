/-
Computations over a state that may fail, run as transactions.
-/
import Mathlib.Order.Defs.Unbundled

/-- A computation ends with a value or an error, and leaves a state in either case. -/
def Txn (σ ε α : Type) : Type := σ → Except ε α × σ

namespace Txn

variable {σ ε α β : Type}

instance : Monad (Txn σ ε) where
  pure a := fun s => (.ok a, s)
  bind x f := fun s =>
    match x s with
    | (.ok a, t) => f a t
    | (.error e, t) => (.error e, t)

def fail (e : ε) : Txn σ ε α := fun s => (.error e, s)

def read (f : σ → α) : Txn σ ε α := fun s => (.ok (f s), s)

def write (f : σ → σ) : Txn σ ε Unit := fun s => (.ok (), f s)

def require (c : Bool) (e : ε) : Txn σ ε Unit := if c then pure () else fail e

def expect (o : Option α) (e : ε) : Txn σ ε α := o.elim (fail e) pure

def ofExcept {ε' : Type} (r : Except ε' α) (f : ε' → ε) : Txn σ ε α :=
  fun s => (r.mapError f, s)

def ignore (x : Txn σ ε α) : Txn σ ε Unit := x >>= fun _ => pure ()

/-- What fails is undone: `undo s t` takes the state `t` back to `s`. -/
def transaction (undo : σ → σ → σ) (x : Txn σ ε α) : Txn σ ε α := fun s =>
  match x s with
  | (.ok a, t) => (.ok a, t)
  | (.error e, t) => (.error e, undo s t)

variable {x : Txn σ ε α} {f : α → Txn σ ε β} {s t u : σ} {a : α} {b : β} {e : ε} {c : Bool}

/-! ### How a computation ended -/

theorem bind_apply_ok (h : x s = (.ok a, t)) : (x >>= f) s = f a t := by
  show (match x s with | (.ok a, t) => f a t | (.error e, t) => (.error e, t)) = _
  rw [h]

theorem bind_apply_error (h : x s = (.error e, t)) : (x >>= f) s = (.error e, t) := by
  show (match x s with | (.ok a, t) => f a t | (.error e, t) => (.error e, t)) = _
  rw [h]

theorem bind_ok :
    (x >>= f) s = (.ok b, u) ↔ ∃ a t, x s = (.ok a, t) ∧ f a t = (.ok b, u) := by
  constructor
  · intro h
    rcases hx : x s with ⟨_ | a, t⟩
    · rw [bind_apply_error hx] at h
      exact nomatch h
    · rw [bind_apply_ok hx] at h
      exact ⟨a, t, rfl, h⟩
  · rintro ⟨a, t, hx, hf⟩
    rw [bind_apply_ok hx, hf]

theorem pure_ok {b : α} : (pure a : Txn σ ε α) s = (.ok b, t) ↔ a = b ∧ s = t := by
  show ((.ok a, s) : Except ε α × σ) = (.ok b, t) ↔ _
  rw [Prod.mk.injEq, Except.ok.injEq]

theorem read_ok {f : σ → α} : (read f : Txn σ ε α) s = (.ok a, t) ↔ f s = a ∧ s = t := by
  show ((.ok (f s), s) : Except ε α × σ) = (.ok a, t) ↔ _
  rw [Prod.mk.injEq, Except.ok.injEq]

theorem write_ok {f : σ → σ} {a : Unit} :
    (write f : Txn σ ε Unit) s = (.ok a, t) ↔ f s = t := by
  show ((.ok (), f s) : Except ε Unit × σ) = (.ok a, t) ↔ _
  rw [Prod.mk.injEq]
  exact and_iff_right rfl

theorem require_ok {a : Unit} : (require c e : Txn σ ε Unit) s = (.ok a, t) ↔ c = true ∧ s = t := by
  cases c with
  | true => exact pure_ok.trans (and_congr_left fun _ => iff_of_true rfl rfl)
  | false => exact iff_of_false (fun h => nomatch h) (fun h => nomatch h.1)

theorem expect_ok {o : Option α} :
    (expect o e : Txn σ ε α) s = (.ok a, t) ↔ o = some a ∧ s = t := by
  cases o with
  | some b => exact pure_ok.trans (and_congr_left fun _ => (Option.some.injEq b a).symm ▸ Iff.rfl)
  | none => exact iff_of_false (fun h => nomatch h) (fun h => nomatch h.1)

theorem transaction_ok {undo : σ → σ → σ} :
    transaction undo x s = (.ok a, t) ↔ x s = (.ok a, t) := by
  rcases hx : x s with ⟨e | b, u⟩
  · rw [transaction, hx]
    exact iff_of_false (fun h => nomatch h) (fun h => nomatch h)
  · rw [transaction, hx]

/-! ### What the steps of a computation respect -/

/-- Where the computation ends with a value, the states before and after it are so related. -/
def Moves (R : σ → σ → Prop) (x : Txn σ ε α) : Prop := ∀ ⦃s a t⦄, x s = (.ok a, t) → R s t

variable {R : σ → σ → Prop}

theorem Moves.imp {S : σ → σ → Prop} (h : Moves R x) (hi : ∀ s t, R s t → S s t) : Moves S x :=
  fun _ _ _ hx => hi _ _ (h hx)

theorem Moves.ite {p : Prop} [Decidable p] {y : Txn σ ε α} (hx : Moves R x) (hy : Moves R y) :
    Moves R (if p then x else y) := by
  split
  · exact hx
  · exact hy

section
variable [IsPreorder σ R]

theorem Moves.pure : Moves R (pure a : Txn σ ε α) := by
  intro s b t h
  obtain ⟨_, rfl⟩ := pure_ok.mp h
  exact refl_of R s

theorem Moves.read {f : σ → α} : Moves R (read f : Txn σ ε α) := by
  intro s b t h
  obtain ⟨_, rfl⟩ := read_ok.mp h
  exact refl_of R s

theorem Moves.require : Moves R (require c e : Txn σ ε Unit) := by
  intro s b t h
  obtain ⟨_, rfl⟩ := require_ok.mp h
  exact refl_of R s

theorem Moves.expect {o : Option α} : Moves R (expect o e : Txn σ ε α) := by
  intro s b t h
  obtain ⟨_, rfl⟩ := expect_ok.mp h
  exact refl_of R s

theorem Moves.bind (hx : Moves R x) (hf : ∀ a, Moves R (f a)) : Moves R (x >>= f) := by
  intro s b u h
  obtain ⟨a, t, hs, ht⟩ := bind_ok.mp h
  exact trans_of R (hx hs) (hf a ht)

theorem Moves.forM {l : List β} {g : β → Txn σ ε PUnit} (hg : ∀ b ∈ l, Moves R (g b)) :
    Moves R (l.forM g) := by
  induction l with
  | nil => exact Moves.pure
  | cons b l ih =>
    show Moves R (g b >>= fun _ => l.forM g)
    exact (hg b List.mem_cons_self).bind fun _ => ih fun d hd => hg d (List.mem_cons_of_mem b hd)

end

def Holds (I : σ → Prop) (s t : σ) : Prop := I s → I t

instance (I : σ → Prop) : IsPreorder σ (Holds I) where
  refl _ := id
  trans _ _ _ h h' := h' ∘ h

/-! ### Checks, transactions, readings -/

def Quiet (x : Txn σ ε α) : Prop := ∀ s, (x s).2 = s

theorem Quiet.pure : Quiet (pure a : Txn σ ε α) := fun _ => rfl

theorem Quiet.fail : Quiet (fail e : Txn σ ε α) := fun _ => rfl

theorem Quiet.read {f : σ → α} : Quiet (Txn.read f : Txn σ ε α) := fun _ => rfl

theorem Quiet.require : Quiet (require c e : Txn σ ε Unit) := by
  intro s
  cases c <;> rfl

theorem Quiet.expect {o : Option α} : Quiet (expect o e : Txn σ ε α) := by
  intro s
  cases o <;> rfl

theorem Quiet.ofExcept {ε' : Type} {r : Except ε' α} {g : ε' → ε} :
    Quiet (ofExcept r g : Txn σ ε α) := fun _ => rfl

theorem Quiet.bind (hx : Quiet x) (hf : ∀ a, Quiet (f a)) : Quiet (x >>= f) := by
  intro s
  have hs := hx s
  rcases h : x s with ⟨e | a, t⟩
  · rw [bind_apply_error h]
    rw [h] at hs
    exact hs
  · rw [bind_apply_ok h]
    rw [h] at hs
    exact (hf a t).trans hs

theorem Quiet.elim {o : Option α} {z : Txn σ ε β} (hz : Quiet z) (hf : ∀ a, Quiet (f a)) :
    Quiet (o.elim z f) := by
  cases o with
  | none => exact hz
  | some a => exact hf a

theorem Quiet.ite {p : Prop} [Decidable p] {y : Txn σ ε α} (hx : Quiet x) (hy : Quiet y) :
    Quiet (if p then x else y) := by
  split
  · exact hx
  · exact hy

/-- From the state `s`: a computation that ends with a value leaves a state as `P` says, and one that
ends with an error leaves the data that `view` shows. -/
def Settles {δ : Type} (view : σ → δ) (s : σ) (P : σ → Prop) (x : Txn σ ε α) : Prop :=
  (∀ a t, x s = (.ok a, t) → P t) ∧ ∀ e t, x s = (.error e, t) → view t = view s

variable {δ : Type} {view : σ → δ} {P : σ → Prop} {undo : σ → σ → σ}

theorem Settles.check (hx : Quiet x) (hf : ∀ a, x s = (.ok a, s) → Settles view s P (f a)) :
    Settles view s P (x >>= f) := by
  have hs := hx s
  rcases h : x s with ⟨e | a, t⟩
  · rw [Settles, bind_apply_error h]
    rw [h] at hs
    constructor
    · intro b u hu
      exact nomatch hu
    · intro e' u hu
      obtain rfl := (Prod.mk.inj hu).2
      exact congrArg view hs
  · rw [Settles, bind_apply_ok h]
    rw [h] at hs
    obtain rfl : t = s := hs
    exact hf a h

theorem Settles.transaction (hu : ∀ s t, view (undo s t) = view s)
    (hx : ∀ a t, x s = (.ok a, t) → P t ∧ ∃ b, f a t = (.ok b, t)) :
    Settles view s P (transaction undo x >>= f) := by
  rcases h : x s with ⟨e | a, t⟩
  · have ht : Txn.transaction undo x s = (.error e, undo s t) := by
      rw [Txn.transaction, h]
    rw [Settles, bind_apply_error ht]
    constructor
    · intro b u hb
      exact nomatch hb
    · intro e' u he
      obtain rfl := (Prod.mk.inj he).2
      exact hu s t
  · have ht : Txn.transaction undo x s = (.ok a, t) := by
      rw [Txn.transaction, h]
    obtain ⟨hp, b, hb⟩ := hx a t h
    rw [Settles, bind_apply_ok ht, hb]
    constructor
    · intro b' u hu'
      obtain rfl := (Prod.mk.inj hu').2
      exact hp
    · intro e' u he
      exact nomatch he

theorem Settles.ignore (h : Settles view s P x) : Settles view s P x.ignore := by
  rcases hx : x s with ⟨e | a, t⟩
  · rw [Settles, Txn.ignore, bind_apply_error hx]
    constructor
    · intro b u hu
      exact nomatch hu
    · intro e' u hu
      obtain rfl := (Prod.mk.inj hu).2
      exact h.2 e _ hx
  · rw [Settles, Txn.ignore, bind_apply_ok hx]
    constructor
    · intro b u hu
      obtain rfl := (Prod.mk.inj hu).2
      exact h.1 a _ hx
    · intro e' u hu
      exact nomatch hu

end Txn
