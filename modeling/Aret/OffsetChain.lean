/-
Chains of records in a buffer: each record says how far behind it the next one starts,
and the last one says zero.
-/
import Aret.ByteBuf

namespace OffsetChain

open ByteBuf

/-- The size of the fixed part of a record, and where the length of its payload stands. -/
structure Format where
  fixed : ℕ
  lenPos : ℕ
  next_le : 4 ≤ lenPos
  len_le : lenPos + 4 ≤ fixed

variable (fmt : Format) (f : Buf)

structure Record (o : ℕ) (payload : Buf) : Prop where
  length : rd32 f (o + fmt.lenPos) = payload.length
  holds : Holds f (o + fmt.fixed) payload
  inside : o + fmt.fixed + payload.length ≤ f.length

/-- The records from a place on: their payloads, the place of the last one, and its end. -/
inductive Chain : ℕ → List Buf → ℕ → ℕ → Prop
  | last {o : ℕ} {p : Buf} (h : Record fmt f o p) (hend : rd32 f o = 0) :
      Chain o [p] o (o + fmt.fixed + p.length)
  | link {o o' last fin : ℕ} {p : Buf} {ps : List Buf} (h : Record fmt f o p)
      (hnext : rd32 f o = o' - o) (hle : o + fmt.fixed + p.length ≤ o')
      (hrest : Chain o' ps last fin) : Chain o (p :: ps) last fin

def walk : ℕ → ℕ → List Buf
  | 0, _ => []
  | fuel + 1, o =>
    let p := (f.drop (o + fmt.fixed)).take (rd32 f (o + fmt.lenPos))
    if rd32 f o = 0 then [p] else p :: walk fuel (o + rd32 f o)

variable {fmt f} {o last fin : ℕ} {p : Buf} {ps : List Buf}

theorem Record.read (h : Record fmt f o p) :
    (f.drop (o + fmt.fixed)).take (rd32 f (o + fmt.lenPos)) = p := by
  refine List.ext_getElem? fun i => ?_
  rw [h.length]
  by_cases hi : i < p.length
  · rw [List.getElem?_take_of_lt hi, List.getElem?_drop]
    exact h.holds i hi
  · rw [List.getElem?_eq_none (Nat.le_of_not_lt hi), List.getElem?_eq_none]
    rw [List.length_take]
    omega

theorem Chain.le (h : Chain fmt f o ps last fin) : o ≤ last ∧ last + fmt.fixed ≤ fin := by
  induction h with
  | last _ _ => exact ⟨le_rfl, Nat.le_add_right _ _⟩
  | link _ _ hle _ ih => exact ⟨by omega, ih.2⟩

theorem Chain.inside (h : Chain fmt f o ps last fin) : fin ≤ f.length := by
  induction h with
  | last h _ => exact h.inside
  | link _ _ _ _ ih => exact ih

theorem Chain.length_le (h : Chain fmt f o ps last fin) : o + ps.length * fmt.fixed ≤ fin := by
  induction h with
  | last _ _ =>
    rw [List.length_singleton]
    omega
  | link _ _ hle _ ih =>
    rw [List.length_cons, Nat.succ_mul]
    omega

theorem Chain.fin_eq (h : Chain fmt f o ps last fin) :
    ∃ p ∈ ps.getLast?, fin = last + fmt.fixed + p.length := by
  induction h with
  | last _ _ => exact ⟨_, rfl, rfl⟩
  | link _ _ _ hrest ih =>
    obtain ⟨p, hp, heq⟩ := ih
    refine ⟨p, ?_, heq⟩
    rw [List.getLast?_cons, hp]
    rfl

theorem Chain.walk_eq (h : Chain fmt f o ps last fin) :
    ∀ {fuel : ℕ}, ps.length ≤ fuel → walk fmt f fuel o = ps := by
  have hfixed := fmt.len_le
  induction h with
  | last h hend =>
    intro fuel hfuel
    rw [List.length_singleton] at hfuel
    obtain ⟨fuel, rfl⟩ : ∃ k, fuel = k + 1 := ⟨fuel - 1, by omega⟩
    rw [walk, if_pos hend, h.read]
  | @link o o' _ _ _ _ h hnext hle _ ih =>
    intro fuel hfuel
    rw [List.length_cons] at hfuel
    obtain ⟨fuel, rfl⟩ : ∃ k, fuel = k + 1 := ⟨fuel - 1, by omega⟩
    rw [walk, if_neg (by omega), h.read, hnext, show o + (o' - o) = o' by omega,
      ih (by omega)]

theorem Record.keep {f' : Buf} (h : Record fmt f o p) (hlen : f'.length = f.length)
    (hsame : ∀ i, o + 4 ≤ i → i < o + fmt.fixed + p.length → f'[i]? = f[i]?) :
    Record fmt f' o p := by
  have hnext := fmt.next_le
  have hfixed := fmt.len_le
  have hread : rd32 f' (o + fmt.lenPos) = rd32 f (o + fmt.lenPos) :=
    Agree.rd32 fun i hlo hhi => hsame i (by omega) (by omega)
  have hhold : Holds f' (o + fmt.fixed) p :=
    Agree.holds (fun i hlo hhi => hsame i (by omega) (by omega)) h.holds
  exact ⟨hread.trans h.length, hhold, hlen.symm ▸ h.inside⟩

theorem Chain.snoc {f' : Buf} {o' : ℕ} {p' : Buf} (h : Chain fmt f o ps last fin)
    (hlen : f'.length = f.length)
    (hsame : ∀ i, i < fin → i < last ∨ last + 4 ≤ i → f'[i]? = f[i]?) (hfin : fin ≤ o')
    (hlink : rd32 f' last = o' - last) (hrec : Record fmt f' o' p') (hend : rd32 f' o' = 0) :
    Chain fmt f' o (ps ++ [p']) o' (o' + fmt.fixed + p'.length) := by
  have hnext := fmt.next_le
  have hfixed := fmt.len_le
  induction h with
  | last h _ =>
    refine .link (h.keep hlen fun i hlo hhi => hsame i hhi (Or.inr hlo)) hlink hfin ?_
    exact .last hrec hend
  | @link o o₁ last fin p ps h hnx hle hrest ih =>
    obtain ⟨ho₁, hlast⟩ := hrest.le
    have hkeep : ∀ i, i < o + fmt.fixed + p.length → f'[i]? = f[i]? :=
      fun i hi => hsame i (by omega) (Or.inl (by omega))
    refine .link (h.keep hlen fun i _ hhi => hkeep i hhi) ?_ hle (ih hsame hfin hlink)
    rw [← hnx]
    exact Agree.rd32 fun i hlo hhi => hkeep i (by omega)

end OffsetChain
